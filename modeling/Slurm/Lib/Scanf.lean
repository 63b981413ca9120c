import Slurm.Lib.Decimal

/-!
# Numbers with separators

`fields seps s` are the numbers that a scan with the format `%d<sep>%d<sep>...%d` reads.
`runs s` splits a string at every character that is not a digit.

* `decimal_number`, `fields_next`: what is read of a number and what comes after it.
* `decimal_suffix`: what is left is the end of the string.
* `join_runs`: the runs are all of the string.
-/

namespace Lib.Scanf

open Lib.Decimal List

variable {rest r : List Char}

/-- `isspace` -/
def isSpace (c : Char) : Bool := c == ' ' || (9 ≤ c.toNat && c.toNat ≤ 13)

/-- A number as `%d` reads it, and the rest: blanks are skipped, and there may be a sign. -/
def decimal (s : List Char) : Option (Int × List Char) :=
  let s := s.dropWhile isSpace
  let negative := s.head? = some '-'
  let s := if negative ∨ s.head? = some '+' then s.tail else s
  let digits := s.takeWhile Char.isDigit
  if digits = [] then none
  else
    let n : Int := value digits
    some (if negative then -n else n, s.dropWhile Char.isDigit)

/-- What is left is the end of the string. -/
theorem decimal_suffix {s : List Char} {n : Int} (h : decimal s = some (n, rest)) : rest <:+ s := by
  have hskip := dropWhile_suffix isSpace (l := s)
  generalize hs : s.dropWhile isSpace = u at hskip
  have hsign : (if u.head? = some '-' ∨ u.head? = some '+' then u.tail else u) <:+ s := by
    split
    · exact (tail_suffix _).trans hskip
    · exact hskip
  unfold decimal at h
  dsimp only at h
  rw [hs] at h
  generalize (if u.head? = some '-' ∨ u.head? = some '+' then u.tail else u) = v at h hsign
  split at h
  · cases h
  · cases h
    exact (dropWhile_suffix _).trans hsign

/-- The numbers that are read, with the separators that the format has between them. -/
def fields : List Char → List Char → List Int
  | [], s =>
    match decimal s with
    | none => []
    | some (n, _) => [n]
  | sep :: seps, s =>
    match decimal s with
    | none => []
    | some (n, rest) => n :: if rest.head? = some sep then fields seps rest.tail else []

/-! ## One number -/

/-- What does not go on with a digit. -/
def NoDigitHead (s : List Char) : Prop := ∀ c, s.head? = some c → c.isDigit = false

theorem noDigitHead_nil : NoDigitHead [] := by
  intro c h
  cases h

theorem noDigitHead_cons {c : Char} (s : List Char) (h : c.isDigit = false) :
    NoDigitHead (c :: s) := by
  intro c' h'
  rw [← Option.some.inj h']
  exact h

/-- A digit is neither a blank nor a sign. -/
theorem digit_plain {c : Char} (h : c.isDigit = true) : isSpace c = false ∧ c ≠ '-' ∧ c ≠ '+' := by
  have hrange := isDigit_iff.mp h
  refine ⟨?_, ?_, ?_⟩
  · have hblank : c ≠ ' ' := by
      intro heq
      rw [heq] at hrange
      exact absurd hrange.1 (by decide)
    simp [isSpace, hblank]
    omega
  · intro heq
    rw [heq] at h
    exact absurd h (by decide)
  · intro heq
    rw [heq] at h
    exact absurd h (by decide)

theorem takeWhile_digits {r rest : List Char} (hr : ∀ c ∈ r, c.isDigit = true)
    (hrest : NoDigitHead rest) : (r ++ rest).takeWhile Char.isDigit = r := by
  rw [takeWhile_append_of_pos hr]
  cases rest with
  | nil => simp
  | cons c rest => simp [hrest c rfl]

theorem dropWhile_digits (hr : ∀ c ∈ r, c.isDigit = true) (hrest : NoDigitHead rest) :
    (r ++ rest).dropWhile Char.isDigit = rest := by
  rw [dropWhile_append_of_pos hr]
  cases rest with
  | nil => simp
  | cons c rest => simp [hrest c rfl]

/-- A number without a sign. -/
theorem decimal_number (hr : IsNumber r) (hrest : NoDigitHead rest) :
    decimal (r ++ rest) = some ((value r : Int), rest) := by
  obtain ⟨c, r', rfl⟩ := exists_cons_of_ne_nil hr.1
  obtain ⟨hblank, hminus, hplus⟩ := digit_plain (hr.2 c mem_cons_self)
  have hskip : (c :: r' ++ rest).dropWhile isSpace = c :: r' ++ rest := by simp [hblank]
  have htake := takeWhile_digits hr.2 hrest
  have hdrop := dropWhile_digits hr.2 hrest
  unfold decimal
  rw [hskip]
  simp only [cons_append, head?_cons, Option.some.injEq, hminus, hplus, or_self,
    if_false] at htake hdrop ⊢
  rw [htake, hdrop, if_neg (cons_ne_nil c r')]

/-- A number after a `-`. -/
theorem decimal_negative (hr : IsNumber r) (hrest : NoDigitHead rest) :
    decimal ('-' :: (r ++ rest)) = some (-(value r : Int), rest) := by
  have hskip : ('-' :: (r ++ rest)).dropWhile isSpace = '-' :: (r ++ rest) := by
    simp [isSpace]
  unfold decimal
  rw [hskip]
  simp only [head?_cons, true_or, if_true, tail_cons]
  rw [takeWhile_digits hr.2 hrest, dropWhile_digits hr.2 hrest, if_neg hr.1]

theorem decimal_nil : decimal [] = none := rfl

/-! ## Several numbers -/

/-- A number with its separator. -/
theorem fields_next (sep : Char) (seps rest : List Char) (hr : IsNumber r)
    (hsep : sep.isDigit = false) :
    fields (sep :: seps) (r ++ sep :: rest) = (value r : Int) :: fields seps rest := by
  rw [fields, decimal_number hr (noDigitHead_cons rest hsep)]
  exact congrArg _ (if_pos rfl)

/-- A number at the end. -/
theorem fields_last (seps : List Char) (hr : IsNumber r) : fields seps r = [(value r : Int)] := by
  have hread := decimal_number hr noDigitHead_nil
  rw [append_nil] at hread
  cases seps with
  | nil => simp [fields, hread]
  | cons sep seps => simp [fields, hread]

theorem fields_nil (seps : List Char) : fields seps [] = [] := by
  cases seps <;> simp [fields, decimal_nil]

/-! ## Runs of digits -/

/-- The first run of digits, and each separator with the run after it.  A run may be empty. -/
def runs : List Char → List Char × List (Char × List Char)
  | [] => ([], [])
  | c :: s =>
    if c.isDigit then (c :: (runs s).1, (runs s).2) else ([], (c, (runs s).1) :: (runs s).2)

/-- The string of the runs. -/
def join (r : List Char × List (Char × List Char)) : List Char :=
  r.1 ++ r.2.flatMap fun t => t.1 :: t.2

theorem join_runs (s : List Char) : join (runs s) = s := by
  induction s with
  | nil => rfl
  | cons c s ih =>
    unfold runs
    split
    · rw [join, cons_append]
      exact congrArg (c :: ·) ih
    · rw [join, flatMap_cons, nil_append]
      exact congrArg (c :: ·) ih

/-- The runs are digits. -/
theorem isDigit_runs (s : List Char) :
    (∀ c ∈ (runs s).1, c.isDigit = true) ∧ ∀ t ∈ (runs s).2, ∀ c ∈ t.2, c.isDigit = true := by
  induction s with
  | nil => simp [runs]
  | cons c s ih =>
    unfold runs
    split
    · rename_i hc
      refine ⟨?_, ih.2⟩
      intro d hd
      rcases List.mem_cons.mp hd with rfl | hd
      · exact hc
      · exact ih.1 d hd
    · refine ⟨by simp, ?_⟩
      intro t ht
      rcases List.mem_cons.mp ht with rfl | ht
      · exact ih.1
      · exact ih.2 t ht

end Lib.Scanf
