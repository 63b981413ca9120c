import Slurm.Lib.Decimal

/-!
# Lists of numbers and ranges

A text such as `0-5,42` is a list of ranges with a comma between each two.  A range is written
as its two ends, or as one number.

* `read_text`: the text of a list of ranges is read as that list.
* `read_eq_some`: what is read is a list of pieces that are numbers or pairs of numbers.
-/

namespace Lib.RangeList

open Lib.Decimal List Option

variable {r : Nat × Nat} {rs : List (Nat × Nat)} {s : List Char}

/-- The text of a range. -/
def piece (r : Nat × Nat) : List Char :=
  if r.1 = r.2 then Nat.toDigits 10 r.1 else Nat.toDigits 10 r.1 ++ '-' :: Nat.toDigits 10 r.2

/-- The text of a list of ranges. -/
def text (rs : List (Nat × Nat)) : List Char := [','].intercalate (rs.map piece)

/-- What one piece is read as. -/
def readPiece (s : List Char) : Option (Nat × Nat) :=
  match s.splitOn '-' with
  | [n] => if IsNumber n then some (value n, value n) else none
  | [lo, hi] => if IsNumber lo ∧ IsNumber hi then some (value lo, value hi) else none
  | _ => none

/-- What a text is read as.  The empty text has no range. -/
def read (s : List Char) : Option (List (Nat × Nat)) :=
  if s = [] then some [] else (s.splitOn ',').mapM readPiece

/-- A number is in one of the ranges. -/
def Denotes (rs : List (Nat × Nat)) (i : Nat) : Prop := ∃ r ∈ rs, r.1 ≤ i ∧ i ≤ r.2

theorem denotes_nil (i : Nat) : ¬ Denotes [] i := by
  rintro ⟨r, hr, -⟩
  exact not_mem_nil hr

theorem denotes_cons {i : Nat} : Denotes (r :: rs) i ↔ (r.1 ≤ i ∧ i ≤ r.2) ∨ Denotes rs i := by
  rw [Denotes, Denotes, exists_mem_cons_iff]

/-! ## Pieces -/

theorem not_mem_of_isNumber (h : IsNumber s) {c : Char} (hc : c.isDigit = false) : c ∉ s := by
  intro hmem
  have hdigit := h.2 c hmem
  rw [hc] at hdigit
  cases hdigit

theorem padded_zero (n : Nat) : padded 0 n = Nat.toDigits 10 n := by
  rw [padded, Nat.zero_sub, replicate_zero, nil_append]

theorem isNumber_toDigits (n : Nat) : IsNumber (Nat.toDigits 10 n) :=
  padded_zero n ▸ isNumber_padded 0 n

theorem value_toDigits (n : Nat) : value (Nat.toDigits 10 n) = n :=
  Nat.ofDigitChars_ten_toDigits

/-- A piece that is a number. -/
theorem readPiece_number {n : List Char} (h : IsNumber n) : readPiece n = some (value n, value n) := by
  rw [readPiece, splitOn_eq_singleton (not_mem_of_isNumber h rfl)]
  exact if_pos h

/-- A piece that is two numbers. -/
theorem readPiece_pair {lo hi : List Char} (hlo : IsNumber lo) (hhi : IsNumber hi) :
    readPiece (lo ++ '-' :: hi) = some (value lo, value hi) := by
  rw [readPiece, splitOn_append_cons_self_of_not_mem (not_mem_of_isNumber hlo rfl),
    splitOn_eq_singleton (not_mem_of_isNumber hhi rfl)]
  exact if_pos ⟨hlo, hhi⟩

/-- A piece is one of the two. -/
theorem readPiece_eq_some (h : readPiece s = some r) :
    (IsNumber s ∧ r = (value s, value s)) ∨
      ∃ lo hi, IsNumber lo ∧ IsNumber hi ∧ s = lo ++ '-' :: hi ∧ r = (value lo, value hi) := by
  have hs : ['-'].intercalate (s.splitOn '-') = s := intercalate_splitOn '-'
  rw [readPiece] at h
  split at h
  · rename_i n hsplit
    rw [hsplit, intercalate_singleton] at hs
    split at h
    · rename_i hn
      rw [hs] at h hn
      exact .inl ⟨hn, (Option.some.inj h).symm⟩
    · cases h
  · rename_i lo hi hsplit
    rw [hsplit, intercalate_cons_cons, intercalate_singleton, append_assoc] at hs
    split at h
    · rename_i hn
      exact .inr ⟨lo, hi, hn.1, hn.2, hs.symm, (Option.some.inj h).symm⟩
    · cases h
  · cases h

theorem readPiece_piece (r : Nat × Nat) : readPiece (piece r) = some r := by
  rw [piece]
  split
  · rename_i heq
    rw [readPiece_number (isNumber_toDigits _), value_toDigits]
    exact congrArg some (Prod.ext rfl heq)
  · rw [readPiece_pair (isNumber_toDigits _) (isNumber_toDigits _), value_toDigits, value_toDigits]

theorem piece_ne_nil (r : Nat × Nat) : piece r ≠ [] := by
  rw [piece]
  split
  · exact (isNumber_toDigits _).1
  · exact append_ne_nil_of_right_ne_nil _ (cons_ne_nil _ _)

theorem mem_piece {c : Char} (h : c ∈ piece r) : c = '-' ∨ c.isDigit = true := by
  have hdigit (n : Nat) (hc : c ∈ Nat.toDigits 10 n) : c.isDigit = true :=
    (isNumber_toDigits n).2 c hc
  rw [piece] at h
  split at h
  · exact .inr (hdigit _ h)
  · rw [mem_append, mem_cons] at h
    rcases h with h | h | h
    · exact .inr (hdigit _ h)
    · exact .inl h
    · exact .inr (hdigit _ h)

theorem comma_not_mem_piece (r : Nat × Nat) : ',' ∉ piece r := by
  intro h
  rcases mem_piece h with h | h
  · exact absurd h (by decide)
  · cases h

/-! ## Lists -/

theorem mapM_eq_some {α β : Type} {f : α → Option β} {as : List α} {bs : List β} :
    as.mapM f = some bs ↔ List.Forall₂ (fun a b => f a = some b) as bs := by
  induction as generalizing bs with
  | nil =>
    rw [mapM_nil, List.forall₂_nil_left_iff]
    exact ⟨fun h => (Option.some.inj h).symm, fun h => congrArg some h.symm⟩
  | cons a as ih =>
    rw [mapM_cons, List.forall₂_cons_left_iff, bind_eq_bind, bind_eq_some_iff]
    constructor
    · rintro ⟨b, hb, h⟩
      rw [bind_eq_bind, bind_eq_some_iff] at h
      obtain ⟨bs', hbs, h⟩ := h
      exact ⟨b, bs', hb, ih.mp hbs, (Option.some.inj h).symm⟩
    · rintro ⟨b, bs', hb, hbs, rfl⟩
      refine ⟨b, hb, ?_⟩
      rw [ih.mpr hbs]
      rfl

/-- What is read is a list of pieces. -/
theorem read_eq_some (h : read s = some rs) (hne : s ≠ []) :
    ∃ pieces, pieces ≠ [] ∧ s = [','].intercalate pieces ∧
      List.Forall₂ (fun p r => readPiece p = some r) pieces rs := by
  rw [read, if_neg hne, mapM_eq_some] at h
  exact ⟨s.splitOn ',', splitOn_ne_nil _ _, (intercalate_splitOn ',').symm, h⟩

theorem read_nil (h : read [] = some rs) : rs = [] := by
  rw [read, if_pos rfl] at h
  exact (Option.some.inj h).symm

theorem text_ne_nil (h : rs ≠ []) : text rs ≠ [] := by
  intro htext
  cases rs with
  | nil => exact h rfl
  | cons r rs =>
    have hmem : ∀ c ∈ piece r, c ∈ text (r :: rs) := by
      intro c hc
      rw [text, map_cons]
      cases hmap : rs.map piece with
      | nil => rwa [intercalate_singleton]
      | cons p ps =>
        rw [intercalate_cons_cons, append_assoc]
        exact mem_append_left _ hc
    rw [htext] at hmem
    exact piece_ne_nil r (List.eq_nil_iff_forall_not_mem.mpr fun c hc => not_mem_nil (hmem c hc))

/-- The text of a list of ranges is read as that list. -/
theorem read_text (rs : List (Nat × Nat)) : read (text rs) = some rs := by
  by_cases hnil : rs = []
  · subst hnil
    exact if_pos rfl
  · have hcomma : ∀ p ∈ rs.map piece, ',' ∉ p := by
      intro p hp
      obtain ⟨r, -, rfl⟩ := List.mem_map.mp hp
      exact comma_not_mem_piece r
    rw [read, if_neg (text_ne_nil hnil), text,
      splitOn_intercalate ',' hcomma (List.map_eq_nil_iff.not.mpr hnil), mapM_eq_some,
      List.forall₂_map_left_iff]
    exact List.forall₂_same.mpr fun r _ => readPiece_piece r

/-- The text of a longer list. -/
theorem text_concat (rs : List (Nat × Nat)) (r : Nat × Nat) :
    text (rs ++ [r]) = if rs = [] then piece r else text rs ++ ',' :: piece r := by
  induction rs with
  | nil =>
    rw [nil_append, if_pos rfl, text, map_singleton, intercalate_singleton]
  | cons q rs ih =>
    rw [if_neg (cons_ne_nil q rs), cons_append, text, map_cons,
      intercalate_cons_of_ne_nil (by simp), ← text, ih]
    split
    · rename_i hnil
      rw [hnil, text, map_singleton, intercalate_singleton, append_assoc]
      rfl
    · rename_i hne
      rw [text, text, map_cons, intercalate_cons_of_ne_nil (List.map_eq_nil_iff.not.mpr hne)]
      simp only [append_assoc]

end Lib.RangeList
