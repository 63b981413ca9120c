import Mathlib

/-!
# Run-length records and cursors

A list `reps` of counts gives a sequence of record numbers: record 0 as often as the
first count says, then record 1, and so on (`expand`).

A reader that walks the records keeps a cursor, the number of the record and how
often it was read.  `advance` moves such a cursor before each read, and starts a
record over at the count `start`.  `advance_expand` is what the cursor that starts
over at zero reads: every record after the first once more than its count says
(`stretch`).

`seek` is the walk that looks for one element and adds up a weight of the records on its
way.  `seek_of_lt` and `seek_of_le` say what it comes to.
-/

namespace Lib.RunLength

open List

variable {n h : Nat} {reps : List Nat}

/-- The record numbers in order, from number `k` on. -/
def expandFrom (k : Nat) : List Nat → List Nat
  | [] => []
  | rep :: reps => List.replicate rep k ++ expandFrom (k + 1) reps

/-- The record numbers in order. -/
def expand (reps : List Nat) : List Nat := expandFrom 0 reps

theorem expandFrom_length (k : Nat) (reps : List Nat) : (expandFrom k reps).length = reps.sum := by
  induction reps generalizing k with
  | nil => rfl
  | cons rep reps ih =>
    rw [expandFrom, length_append, length_replicate, ih, sum_cons]

@[simp]
theorem expand_length (reps : List Nat) : (expand reps).length = reps.sum := expandFrom_length 0 reps

/-- Records that stand for one element each, and empty ones after them. -/
theorem expandFrom_ones (k n m : Nat) :
    expandFrom k (List.replicate n 1 ++ List.replicate m 0) = List.range' k n := by
  induction n generalizing k with
  | zero =>
    rw [replicate_zero, nil_append, range'_zero]
    induction m generalizing k with
    | zero => rfl
    | succ m ih => exact ih (k + 1)
  | succ n ih =>
    rw [replicate_succ, cons_append, expandFrom, ih, range'_succ]
    rfl

theorem expand_ones (m : Nat) (hlt : h < n) :
    (expand (List.replicate n 1 ++ List.replicate m 0)).getD h 0 = h := by
  rw [expand, expandFrom_ones, getD_eq_getElem _ _ (by rw [length_range']; exact hlt),
    getElem_range', Nat.zero_add, Nat.one_mul]

/-! ## Looking for an element -/

/-- From record `k` on: the weight `w` of the records passed, and the record of element `h`
with the place of the element in it. -/
def seek (f : Nat → Nat) : List Nat → Nat → Nat → Nat → Nat × Option (Nat × Nat)
  | [], _, _, w => (w, none)
  | rep :: reps, k, h, w =>
    if rep ≤ h then seek f reps (k + 1) (h - rep) (w + f k * rep) else (w, some (k, h))

/-- The walk comes to the record of an element that is there. -/
theorem seek_of_lt (f : Nat → Nat) (hlt : h < reps.sum) (k w : Nat) :
    ∃ w' j place, seek f reps k h w = (w', some (j, place)) ∧
      (expandFrom k reps)[h]? = some j ∧
      w' + f j * place = w + (((expandFrom k reps).take h).map f).sum := by
  induction reps generalizing k h w with
  | nil => exact absurd hlt (Nat.not_lt_zero h)
  | cons rep reps ih =>
    rw [sum_cons] at hlt
    rw [seek, expandFrom]
    by_cases hrep : rep ≤ h
    · obtain ⟨w', j, place, hseek, hget, hweight⟩ :=
        ih (show h - rep < reps.sum by omega) (k + 1) (w + f k * rep)
      rw [if_pos hrep]
      refine ⟨w', j, place, hseek, ?_, ?_⟩
      · rw [getElem?_append_right (by rw [length_replicate]; exact hrep),
          length_replicate]
        exact hget
      · have htake : (List.replicate rep k).take h = List.replicate rep k :=
          take_of_length_le (by rw [length_replicate]; exact hrep)
        rw [hweight, take_append, length_replicate, htake, map_append,
          sum_append, map_replicate, sum_replicate, smul_eq_mul, Nat.mul_comm rep,
          Nat.add_assoc]
    · rw [if_neg hrep]
      refine ⟨w, k, h, rfl, ?_, ?_⟩
      · rw [getElem?_append_left (by rw [length_replicate]; omega),
          getElem?_replicate, if_pos (by omega)]
      · rw [take_append_of_le_length (by rw [length_replicate]; omega),
          take_replicate, Nat.min_eq_left (by omega), map_replicate, sum_replicate,
          smul_eq_mul, Nat.mul_comm h]

/-- The place of the element in the record that the walk comes to. -/
theorem seek_place {f : Nat → Nat} {k w w' j place : Nat}
    (hseek : seek f reps k h w = (w', some (j, place))) :
    ∃ i, j = k + i ∧ (reps.take i).sum + place = h ∧ place < reps.getD i 0 := by
  induction reps generalizing k h w with
  | nil => cases hseek
  | cons rep reps ih =>
    rw [seek] at hseek
    split at hseek
    · rename_i hrep
      obtain ⟨i, hj, hsum, hplace⟩ := ih hseek
      refine ⟨i + 1, by omega, ?_, hplace⟩
      rw [take_succ_cons, sum_cons]
      omega
    · rename_i hrep
      rw [Prod.mk.injEq, Option.some.injEq, Prod.mk.injEq] at hseek
      obtain ⟨-, rfl, rfl⟩ := hseek
      exact ⟨0, rfl, Nat.zero_add h, Nat.lt_of_not_le hrep⟩

/-- The walk passes all records when the element is not there. -/
theorem seek_of_le (f : Nat → Nat) (hle : reps.sum ≤ h) (k w : Nat) :
    seek f reps k h w = (w + ((expandFrom k reps).map f).sum, none) := by
  induction reps generalizing k h w with
  | nil => rfl
  | cons rep reps ih =>
    rw [sum_cons] at hle
    rw [seek, if_pos (by omega), ih (by omega), expandFrom, map_append, sum_append,
      map_replicate, sum_replicate, smul_eq_mul, Nat.mul_comm rep, Nat.add_assoc]

/-! ## Cursors -/

/-- How often the current record was read, and its number. -/
structure Cursor where
  cnt : Nat
  off : Nat
  deriving DecidableEq

/-- The cursor for the next read. -/
def advance (start : Nat) (reps : List Nat) (c : Cursor) : Cursor :=
  if c.cnt + 1 > reps.getD c.off 0 then ⟨start, c.off + 1⟩ else ⟨c.cnt + 1, c.off⟩

/-- The record numbers that the next `n` reads see. -/
def reads (start : Nat) (reps : List Nat) : Nat → Cursor → List Nat
  | 0, _ => []
  | n + 1, c => (advance start reps c).off :: reads start reps n (advance start reps c)

/-- Every record after the first stands for one element more. -/
def stretch : List Nat → List Nat
  | [] => []
  | rep :: reps => rep :: reps.map (· + 1)

theorem sum_le_stretch (reps : List Nat) : reps.sum ≤ (stretch reps).sum := by
  cases reps with
  | nil => exact Nat.le_refl 0
  | cons rep reps =>
    rw [stretch, sum_cons, sum_cons]
    have hle : reps.sum ≤ (reps.map (· + 1)).sum := by
      induction reps with
      | nil => exact Nat.le_refl 0
      | cons r rs ih =>
        rw [map_cons, sum_cons, sum_cons]
        omega
    omega

/-- The reads from the middle of record `done.length`. -/
theorem reads_from (n : Nat) (done : List Nat) (rep : Nat) (reps : List Nat) (cnt : Nat)
    (hcnt : cnt ≤ rep)
    (hn : n ≤ rep - cnt + (reps.map (· + 1)).sum) :
    reads 0 (done ++ rep :: reps) n ⟨cnt, done.length⟩
      = (List.replicate (rep - cnt) done.length
          ++ expandFrom (done.length + 1) (reps.map (· + 1))).take n := by
  induction n generalizing done rep reps cnt with
  | zero => rw [take_zero]; rfl
  | succ n ih =>
    have hget : (done ++ rep :: reps).getD done.length 0 = rep := by
      rw [getD_append_right _ _ _ _ (Nat.le_refl _), Nat.sub_self]
      rfl
    rw [reads, advance]
    simp only [hget]
    by_cases hmore : cnt + 1 > rep
    · -- The record is used up, and the next one starts at zero.
      rw [if_pos hmore, Nat.sub_eq_zero_of_le (show rep ≤ cnt by omega), replicate_zero,
        nil_append]
      cases reps with
      | nil => rw [map_nil, sum_nil] at hn; omega
      | cons next reps =>
        have hrest := ih (done ++ [rep]) next reps 0 (Nat.zero_le _) (by
          rw [map_cons, sum_cons] at hn
          omega)
        rw [append_assoc, singleton_append, length_append, length_singleton,
          Nat.sub_zero] at hrest
        rw [map_cons, expandFrom, replicate_succ, cons_append, take_succ_cons,
          hrest]
    · rw [if_neg hmore, ih done rep reps (cnt + 1) (by omega) (by omega),
        show rep - cnt = (rep - (cnt + 1)) + 1 by omega, replicate_succ, cons_append,
        take_succ_cons]

/-- The cursor that starts over at zero reads every record after the first once too
often. -/
theorem reads_eq (reps : List Nat) (hn : n ≤ reps.sum) :
    reads 0 reps n ⟨0, 0⟩ = (expand (stretch reps)).take n := by
  cases reps with
  | nil =>
    rw [sum_nil, Nat.le_zero] at hn
    subst hn
    rfl
  | cons rep reps =>
    have hle := sum_le_stretch (rep :: reps)
    simp only [stretch, sum_cons] at hle hn
    exact reads_from n [] rep reps 0 (Nat.zero_le _) (by omega)

/-- The cursor after `n` reads. -/
def cursorAt (start : Nat) (reps : List Nat) (n : Nat) : Cursor :=
  (advance start reps)^[n] ⟨0, 0⟩

theorem cursorAt_succ (start : Nat) (reps : List Nat) (n : Nat) :
    cursorAt start reps (n + 1) = advance start reps (cursorAt start reps n) :=
  Function.iterate_succ_apply' _ _ _

theorem reads_getD (start : Nat) (reps : List Nat) (hlt : h < n) (c : Cursor) :
    (reads start reps n c).getD h 0 = ((advance start reps)^[h + 1] c).off := by
  induction n generalizing h c with
  | zero => omega
  | succ n ih =>
    cases h with
    | zero => rfl
    | succ h =>
      rw [reads, getD_cons_succ, ih (by omega), ← Function.iterate_succ_apply]

/-- What read number `h` sees. -/
theorem cursorAt_off (reps : List Nat) (hlt : h < reps.sum) :
    (cursorAt 0 reps (h + 1)).off = (expand (stretch reps)).getD h 0 := by
  rw [cursorAt, ← reads_getD 0 reps (Nat.lt_succ_self h), reads_eq reps hlt]
  simp only [getD_eq_getElem?_getD, getElem?_take, Nat.lt_succ_self, if_true]

end Lib.RunLength

/-!
## Taking an element out of run-length records

`runs rep val n` is the list that the first `n` records stand for: record `k` is `rep k`
times the value `val k`.

* `runs_decrement`: counting a record down takes an element of it out.
* `runs_skip`: a record that counts nothing can be left out.
* `take_runs`: as many elements as a part of the records stand for are those of this part.
* `Taken.kept`, `Taken.closed`: the records go on to stand for the rest of the list when an
  empty record is left out.
-/

namespace Lib.Runs

open List Finset Function Nat

open Lib.RunLength (expandFrom expand)

variable {α : Type}

/-- The list that the first `n` records stand for. -/
def runs (rep : Nat → Nat) (val : Nat → α) (n : Nat) : List α :=
  (List.range n).flatMap fun k => List.replicate (rep k) (val k)

/-- How many elements the first `n` records stand for. -/
def before (rep : Nat → Nat) (n : Nat) : Nat := ∑ k ∈ Finset.range n, rep k

/-- The numbers without `i`, in order. -/
def skip (i k : Nat) : Nat := if k < i then k else k + 1

variable {rep rep' : Nat → Nat} {val val' : Nat → α} {i m n : Nat}

theorem runs_succ (rep : Nat → Nat) (val : Nat → α) (n : Nat) :
    runs rep val (n + 1) = runs rep val n ++ List.replicate (rep n) (val n) := by
  rw [runs, range_succ, flatMap_append, flatMap_singleton]
  rfl

theorem before_succ (rep : Nat → Nat) (n : Nat) : before rep (n + 1) = before rep n + rep n :=
  Finset.sum_range_succ rep n

theorem before_mono (rep : Nat → Nat) (h : m ≤ n) : before rep m ≤ before rep n :=
  sum_le_sum_of_subset (range_mono h)

theorem length_runs (rep : Nat → Nat) (val : Nat → α) (n : Nat) :
    (runs rep val n).length = before rep n := by
  induction n with
  | zero => rfl
  | succ n ih => rw [runs_succ, length_append, ih, length_replicate, before_succ]

theorem runs_congr (h : ∀ k, k < n → rep k = rep' k ∧ val k = val' k) :
    runs rep val n = runs rep' val' n := by
  induction n with
  | zero => rfl
  | succ n ih =>
    obtain ⟨hrep, hval⟩ := h n (lt_succ_self n)
    rw [runs_succ, runs_succ, ih fun k hk => h k (lt_succ_of_lt hk), hrep, hval]

theorem runs_prefix (rep : Nat → Nat) (val : Nat → α) (h : m ≤ n) :
    runs rep val m <+: runs rep val n := by
  induction n, h using le_induction with
  | base => exact prefix_refl _
  | succ n _ ih =>
    rw [runs_succ]
    exact ih.trans (prefix_append _ _)

/-- The records of a list. -/
theorem expandFrom_eq (k : Nat) (reps : List Nat) :
    expandFrom k reps = runs (fun j => reps.getD j 0) (fun j => k + j) reps.length := by
  induction reps generalizing k with
  | nil => rfl
  | cons rep reps ih =>
    rw [expandFrom, ih, runs, runs, length_cons, range_succ_eq_map, flatMap_cons,
      flatMap_map]
    simp only [getD_cons_zero, getD_cons_succ, Nat.add_zero, succ_eq_add_one]
    congr 1
    refine flatMap_congr fun j _ => ?_
    rw [Nat.add_right_comm, Nat.add_assoc]

/-- Records that count nothing stand for nothing. -/
theorem runs_of_zero (hle : m ≤ n) (h : ∀ k, m ≤ k → rep k = 0) :
    runs rep val n = runs rep val m := by
  induction n, hle using le_induction with
  | base => rfl
  | succ n hle ih => rw [runs_succ, ih, h n hle, replicate_zero, append_nil]

theorem expand_take (reps : List Nat) (n : Nat) (val : Nat → α) :
    (expand (reps.take n)).map val = runs (fun j => reps.getD j 0) val n := by
  have hget : ∀ k, k < (reps.take n).length → (reps.take n).getD k 0 = reps.getD k 0 := by
    intro k hk
    rw [length_take, Nat.lt_min] at hk
    rw [getD_eq_getElem?_getD, getElem?_take_of_lt hk.1, getD_eq_getElem?_getD]
  have hmap : ∀ l : List Nat, (expand l).map val = runs (fun j => l.getD j 0) val l.length := by
    intro l
    rw [expand, expandFrom_eq, runs, runs, map_flatMap]
    simp only [map_replicate, Nat.zero_add]
  rw [hmap, runs_congr fun k hk => ⟨hget k hk, rfl⟩, length_take]
  rcases Nat.le_total n reps.length with hle | hle
  · rw [Nat.min_eq_left hle]
  · rw [Nat.min_eq_right hle]
    exact (runs_of_zero hle fun k hk => getD_eq_default _ _ hk).symm

/-- Counting a record down takes an element of it out. -/
theorem runs_decrement {place : Nat} (hi : i < n) (hplace : place < rep i) :
    runs (Function.update rep i (rep i - 1)) val n
      = (runs rep val n).eraseIdx (before rep i + place) := by
  induction n with
  | zero => exact absurd hi (Nat.not_lt_zero i)
  | succ n ih =>
    rw [runs_succ, runs_succ]
    rcases Nat.lt_succ_iff_lt_or_eq.mp hi with hlt | rfl
    · have hle := before_mono rep (succ_le_of_lt hlt)
      rw [before_succ] at hle
      rw [ih hlt, eraseIdx_append_of_lt_length (by rw [length_runs]; omega),
        update_of_ne (Nat.ne_of_gt hlt)]
    · rw [eraseIdx_append_of_length_le (by rw [length_runs]; omega), length_runs,
        Nat.add_sub_cancel_left, update_self]
      have hsame : runs (Function.update rep i (rep i - 1)) val i = runs rep val i :=
        runs_congr fun k hk => ⟨update_of_ne (Nat.ne_of_lt hk) _ _, rfl⟩
      rw [hsame, eraseIdx_replicate, if_pos hplace]

/-- A record that counts nothing can be left out. -/
theorem runs_skip (hzero : rep i = 0) (hi : i ≤ n) :
    runs (fun k => rep (skip i k)) (fun k => val (skip i k)) n = runs rep val (n + 1) := by
  induction n, hi using le_induction with
  | base =>
    rw [runs_succ, hzero, replicate_zero, append_nil]
    refine runs_congr fun k hk => ?_
    rw [skip, if_pos hk]
    exact ⟨rfl, rfl⟩
  | succ n hle ih =>
    rw [runs_succ, ih, runs_succ _ _ (n + 1), skip, if_neg (Nat.not_lt_of_le hle)]

/-- The first elements are those of the first records. -/
theorem take_runs {j : Nat} (h : m ≤ n) (hj : j ≤ before rep m) :
    (runs rep val n).take j = (runs rep val m).take j := by
  obtain ⟨rest, hrest⟩ := runs_prefix rep val h
  rw [← hrest, take_append_of_le_length (by rw [length_runs]; exact hj)]

/-! ## Closing up after an element is taken out -/

/-- Where an element is taken out of a record. -/
structure Taken (rep : Nat → Nat) (i place n : Nat) : Prop where
  positive : ∀ k, before rep k < n → 0 < rep k
  place_lt : place < rep i
  elem_lt : before rep i + place < n

/-- The records without the element. -/
def decremented (rep : Nat → Nat) (i : Nat) : Nat → Nat := Function.update rep i (rep i - 1)

theorem before_decremented (hi : 0 < rep i) (n : Nat) :
    before (decremented rep i) n + (if i < n then 1 else 0) = before rep n := by
  induction n with
  | zero => rfl
  | succ n ih =>
    rw [before_succ, before_succ, ← ih, decremented]
    rcases Nat.lt_trichotomy i n with hlt | rfl | hlt
    · rw [update_of_ne (Nat.ne_of_gt hlt), if_pos hlt, if_pos (lt_succ_of_lt hlt)]
      omega
    · rw [update_self, if_neg (Nat.lt_irrefl i), if_pos (lt_succ_self i)]
      omega
    · rw [update_of_ne (Nat.ne_of_lt hlt), if_neg (Nat.not_lt_of_lt hlt),
        if_neg (by omega)]
      omega

namespace Taken

variable {place : Nat}

/-- Each of the first records stands for an element. -/
theorem min_le_before (h : Taken rep i place n) (k : Nat) : min k n ≤ before rep k := by
  induction k with
  | zero => exact Nat.min_le_left 0 n
  | succ k ih =>
    have hsucc := before_succ rep k
    by_cases hk : before rep k < n
    · have hpos := h.positive k hk
      omega
    · omega

theorem record_lt (h : Taken rep i place n) : i < n := by
  have hmin := h.min_le_before i
  have helem := h.elem_lt
  omega

theorem pos (h : Taken rep i place n) : 0 < rep i := zero_lt_of_lt h.place_lt

/-- What is left of the list. -/
theorem take_eraseIdx (h : Taken rep i place n) :
    ((runs rep val n).take n).eraseIdx (before rep i + place)
      = (runs (decremented rep i) val n).take (n - 1) := by
  have htake : ∀ l : List α, (l.take n).eraseIdx (before rep i + place)
      = (l.eraseIdx (before rep i + place)).take (n - 1) := by
    intro l
    apply ext_getElem?
    intro k
    have helem := h.elem_lt
    simp only [getElem?_eraseIdx, getElem?_take]
    by_cases hk : k < before rep i + place
    · rw [if_pos hk, if_pos (by omega), if_pos (by omega), if_pos hk]
    · rw [if_neg hk]
      by_cases hkn : k < n - 1
      · rw [if_pos (by omega), if_pos hkn, if_neg hk]
      · rw [if_neg (by omega), if_neg hkn]
  rw [htake, decremented, runs_decrement h.record_lt h.place_lt]

/-- A record that still counts something, or has none to count behind it, may stay. -/
theorem kept (h : Taken rep i place n) (hkeep : 1 < rep i ∨ n ≤ before rep (i + 1)) :
    (runs (decremented rep i) val (n - 1)).take (n - 1)
      = ((runs rep val n).take n).eraseIdx (before rep i + place) := by
  rw [h.take_eraseIdx]
  refine (take_runs (sub_le n 1) ?_).symm
  have hcount := before_decremented h.pos (n - 1)
  have hlt := h.record_lt
  by_cases hi : i < n - 1
  · rw [if_pos hi] at hcount
    -- One more than the records count, from record `i` on.
    have hmore : ∀ k, i + 1 ≤ k → min (k + 1) n ≤ before rep k := by
      intro k hk
      induction k, hk using le_induction with
      | base =>
        have hmin := h.min_le_before i
        rcases hkeep with hrep | hcover
        · have hsucc := before_succ rep i
          omega
        · omega
      | succ k _ ih =>
        have hsucc := before_succ rep k
        by_cases hk : before rep k < n
        · have hpos := h.positive k hk
          omega
        · omega
    have hmin := hmore (n - 1) hi
    omega
  · rw [if_neg hi] at hcount
    have hmin := h.min_le_before (n - 1)
    omega

/-- An empty record is left out, up to record `m` with the last element. -/
theorem closed {m : Nat} {rep' : Nat → Nat} {val' : Nat → α} (h : Taken rep i place n)
    (hone : rep i = 1) (him : i < m) (hbefore : before rep m < n) (hcover : n ≤ before rep (m + 1))
    (hshift : ∀ k, k < m → rep' k = decremented rep i (skip i k) ∧ val' k = val (skip i k)) :
    (runs rep' val' (n - 1)).take (n - 1)
      = ((runs rep val n).take n).eraseIdx (before rep i + place) := by
  have hmin := h.min_le_before m
  have hsame : runs rep' val' m = runs (decremented rep i) val (m + 1) := by
    rw [runs_congr hshift]
    have hzero : decremented rep i i = 0 := by
      rw [decremented, update_self, hone]
    exact runs_skip hzero (Nat.le_of_lt him)
  have hcount := before_decremented h.pos (m + 1)
  rw [if_pos (lt_succ_of_lt him)] at hcount
  have hlen : before rep' m = before (decremented rep i) (m + 1) := by
    rw [← length_runs rep' val', hsame, length_runs]
  rw [h.take_eraseIdx, take_runs (show m ≤ n - 1 by omega) (show n - 1 ≤ before rep' m by omega),
    hsame, take_runs (show m + 1 ≤ n by omega) (by omega)]

end Taken

end Lib.Runs
