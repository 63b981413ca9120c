import Slurm.Hostlist.Model

/-!
# Natural order of host name prefixes

`strnatcmp` of `src/common/strnatcmp.c` compares numbers in strings by their value.  A string
without white space is a list of tokens, which are runs of digits and other characters.

* `natKey`: the tokens, in a linear order.
* `strnatcmp_eq`: the comparison is that of the tokens.
* `natKey_injective`: only the string itself compares the same.
-/

namespace Slurm.Hostlist

open Lib.Decimal List

/-! ## The comparison -/

/-- `compare_right`: the longer run wins, and then the first difference, which is `bias`. -/
def compareRight : List Char → List Char → Int → Int
  | [], [], bias => bias
  | [], d :: _, bias => if d.isDigit then -1 else bias
  | c :: _, [], bias => if c.isDigit then 1 else bias
  | c :: a, d :: b, bias =>
    if ¬ c.isDigit ∧ ¬ d.isDigit then bias
    else if ¬ c.isDigit then -1
    else if ¬ d.isDigit then 1
    else if c < d then compareRight a b (if bias = 0 then -1 else bias)
    else if d < c then compareRight a b (if bias = 0 then 1 else bias)
    else compareRight a b bias

/-- `compare_left`: the first difference wins. -/
def compareLeft : List Char → List Char → Int
  | [], [] => 0
  | [], d :: _ => if d.isDigit then -1 else 0
  | c :: _, [] => if c.isDigit then 1 else 0
  | c :: a, d :: b =>
    if ¬ c.isDigit ∧ ¬ d.isDigit then 0
    else if ¬ c.isDigit then -1
    else if ¬ d.isDigit then 1
    else if c < d then -1
    else if d < c then 1
    else compareLeft a b

/-- The comparison of two runs of digits. -/
def compareRuns : List Char → List Char → Int
  | c :: a, d :: b =>
    if c.isDigit ∧ d.isDigit then
      if c = '0' ∨ d = '0' then compareLeft (c :: a) (d :: b) else compareRight (c :: a) (d :: b) 0
    else
      0
  | _, _ => 0

/-- The loop of `strnatcmp0`, which takes a character off each string. -/
def strnatcmpLoop : Nat → List Char → List Char → Int
  | 0, _, _ => 0
  | fuel + 1, a, b =>
    let a := a.dropWhile isSpace
    let b := b.dropWhile isSpace
    if compareRuns a b ≠ 0 then
      compareRuns a b
    else
      match a, b with
      | [], [] => 0
      | [], _ :: _ => -1
      | _ :: _, [] => 1
      | ca :: a, cb :: b => if ca < cb then -1 else if cb < ca then 1 else strnatcmpLoop fuel a b

/-- `strnatcmp`. -/
def strnatcmp (a b : List Char) : Int := strnatcmpLoop (a.length + 1) a b

/-! ## Signs of comparisons -/

section CmpSign

variable {α β : Type} [LinearOrder α] [LinearOrder β]

/-- The sign of a comparison. -/
def cmpSign (x y : α) : Int := if x < y then -1 else if y < x then 1 else 0

theorem cmpSign_self (x : α) : cmpSign x x = 0 := by simp [cmpSign]

theorem cmpSign_eq_zero {x y : α} : cmpSign x y = 0 ↔ x = y := by
  rcases lt_trichotomy x y with h | h | h
  · simp [cmpSign, h, h.ne]
  · simp [cmpSign, h]
  · simp [cmpSign, h, h.not_gt, h.ne']

theorem cmpSign_congr {x y : α} {u v : β} (hlt : x < y ↔ u < v) (hgt : y < x ↔ v < u) :
    cmpSign x y = cmpSign u v := by
  rw [cmpSign, cmpSign]
  exact if_congr hlt rfl (if_congr hgt rfl rfl)

theorem cmpSign_toLex (x y : α) (u v : β) :
    cmpSign (toLex (x, u)) (toLex (y, v)) = if x = y then cmpSign u v else cmpSign x y := by
  by_cases h : x = y
  · rw [if_pos h]
    subst h
    apply cmpSign_congr <;> simp [Prod.Lex.toLex_lt_toLex]
  · rw [if_neg h]
    apply cmpSign_congr <;> simp [Prod.Lex.toLex_lt_toLex, h, Ne.symm h]

theorem cmpSign_cons (x y : α) (xs ys : List α) :
    cmpSign (x :: xs) (y :: ys) = if x = y then cmpSign xs ys else cmpSign x y := by
  by_cases h : x = y
  · rw [if_pos h]
    subst h
    apply cmpSign_congr <;> simp
  · rw [if_neg h]
    apply cmpSign_congr <;> simp [cons_lt_cons_iff, h, Ne.symm h]

theorem cmpSign_of_ne {x y : α} (h : x ≠ y) : cmpSign x y = if x < y then -1 else 1 := by
  rcases lt_or_gt_of_ne h with hlt | hgt
  · simp [cmpSign, hlt]
  · simp [cmpSign, hgt, hgt.not_gt]

end CmpSign

/-! ## Tokens -/

/-- What tokens are compared by: the first character, and for runs of digits that do not start with
a zero first the length. -/
abbrev TokenKey := ℕ ×ₗ ℕ ×ₗ List Char

def runKey (r : List Char) : TokenKey :=
  if r.head? = some '0' then toLex (48, toLex (0, r)) else toLex (49, toLex (r.length, r))

def charKey (c : Char) : TokenKey := toLex (c.toNat, toLex (0, [c]))

/-- The run of digits at the start. -/
def digitRun (s : List Char) : List Char := s.takeWhile Char.isDigit

/-- The tokens of a string. -/
def natKey : List Char → List TokenKey
  | [] => []
  | c :: s =>
    if c.isDigit then runKey (digitRun (c :: s)) :: natKey (s.dropWhile Char.isDigit)
    else charKey c :: natKey s
termination_by s => s.length
decreasing_by
  · exact Nat.lt_succ_of_le (length_dropWhile_le _ _)
  · exact Nat.lt_succ_self _

theorem digitRun_cons {c : Char} (hc : c.isDigit = true) (s : List Char) :
    digitRun (c :: s) = c :: digitRun s := takeWhile_cons_of_pos hc

theorem digitRun_not {c : Char} (hc : c.isDigit = false) (s : List Char) :
    digitRun (c :: s) = [] := takeWhile_cons_of_neg (by rw [hc]; exact Bool.false_ne_true)

theorem compareLeft_eq (a b : List Char) :
    compareLeft a b = cmpSign (digitRun a) (digitRun b) := by
  induction a generalizing b with
  | nil =>
    cases b with
    | nil => rfl
    | cons d b => cases hd : d.isDigit <;> simp [compareLeft, digitRun, cmpSign, hd]
  | cons c a ih =>
    cases b with
    | nil => cases hc : c.isDigit <;> simp [compareLeft, digitRun, cmpSign, hc]
    | cons d b =>
      rw [compareLeft, ih]
      cases hc : c.isDigit <;> cases hd : d.isDigit
      · simp [digitRun_not hc, digitRun_not hd, cmpSign]
      · simp [digitRun_not hc, digitRun_cons hd, cmpSign]
      · simp [digitRun_cons hc, digitRun_not hd, cmpSign]
      · rw [digitRun_cons hc, digitRun_cons hd, cmpSign_cons]
        by_cases h : c = d
        · simp [h]
        · rw [if_neg h, cmpSign_of_ne h]
          rcases lt_or_gt_of_ne h with hlt | hgt
          · simp [hlt]
          · simp [hgt, hgt.not_gt]

theorem compareRight_eq (a b : List Char) (bias : Int) :
    compareRight a b bias =
      if (digitRun a).length = (digitRun b).length then
        if bias = 0 then cmpSign (digitRun a) (digitRun b) else bias
      else cmpSign (digitRun a).length (digitRun b).length := by
  induction a generalizing b bias with
  | nil =>
    cases b with
    | nil => simp [compareRight, digitRun, cmpSign]
    | cons d b => cases hd : d.isDigit <;> simp [compareRight, digitRun, cmpSign, hd]
  | cons c a ih =>
    cases b with
    | nil => cases hc : c.isDigit <;> simp [compareRight, digitRun, cmpSign, hc]
    | cons d b =>
      rw [compareRight]
      simp only [ih]
      cases hc : c.isDigit <;> cases hd : d.isDigit
      · simp [digitRun_not hc, digitRun_not hd, cmpSign]
      · simp [digitRun_not hc, digitRun_cons hd, cmpSign]
      · simp [digitRun_cons hc, digitRun_not hd, cmpSign]
      · have hlen : cmpSign (digitRun (c :: a)).length (digitRun (d :: b)).length =
            cmpSign (digitRun a).length (digitRun b).length := by
          rw [digitRun_cons hc, digitRun_cons hd]
          apply cmpSign_congr <;> simp
        rw [hlen, digitRun_cons hc, digitRun_cons hd, cmpSign_cons]
        by_cases h : c = d
        · simp [h]
        · rw [if_neg h, cmpSign_of_ne h]
          rcases lt_or_gt_of_ne h with hlt | hgt
          · by_cases hbias : bias = 0 <;> simp [hlt, hbias]
          · by_cases hbias : bias = 0 <;> simp [hgt, hgt.not_gt, hbias]

theorem zero_lt_digit {c : Char} (hc : c.isDigit = true) (hzero : c ≠ '0') : '0' < c := by
  have hle := (isDigit_iff.mp hc).1
  have hne : c.toNat ≠ 48 := fun h => hzero (Char.toNat_inj.mp h)
  exact Char.lt_def.mpr (show 48 < c.toNat by omega)

theorem compareRuns_eq {c d : Char} (hc : c.isDigit = true) (hd : d.isDigit = true)
    (a b : List Char) : compareRuns (c :: a) (d :: b) =
      cmpSign (runKey (digitRun (c :: a))) (runKey (digitRun (d :: b))) := by
  rw [compareRuns, if_pos ⟨hc, hd⟩, compareLeft_eq, compareRight_eq, runKey, runKey]
  have hheadc : (digitRun (c :: a)).head? = some '0' ↔ c = '0' := by
    rw [digitRun_cons hc, head?_cons, Option.some.injEq]
  have hheadd : (digitRun (d :: b)).head? = some '0' ↔ d = '0' := by
    rw [digitRun_cons hd, head?_cons, Option.some.injEq]
  simp only [hheadc, hheadd]
  by_cases hzero : c = '0' <;> by_cases hzero' : d = '0'
  · simp [hzero, hzero', cmpSign_toLex]
  · have hlt := zero_lt_digit hd hzero'
    rw [← hzero] at hlt
    rw [if_pos (Or.inl hzero), if_pos hzero, if_neg hzero', cmpSign_toLex, if_neg (by decide),
      digitRun_cons hc, digitRun_cons hd, cmpSign_cons, if_neg hlt.ne, cmpSign_of_ne hlt.ne,
      if_pos hlt]
    rfl
  · have hlt := zero_lt_digit hc hzero
    rw [← hzero'] at hlt
    rw [if_pos (Or.inr hzero'), if_neg hzero, if_pos hzero', cmpSign_toLex, if_neg (by decide),
      digitRun_cons hc, digitRun_cons hd, cmpSign_cons, if_neg hlt.ne', cmpSign_of_ne hlt.ne',
      if_neg hlt.not_gt]
    rfl
  · simp [hzero, hzero', cmpSign_toLex]

/-- The text of a token. -/
def tokenText (t : TokenKey) : List Char := (ofLex (ofLex t).2).2

theorem tokenText_runKey (r : List Char) : tokenText (runKey r) = r := by
  rw [runKey]
  split <;> rfl

theorem runKey_inj {r t : List Char} (h : runKey r = runKey t) : r = t := by
  rw [← tokenText_runKey r, h, tokenText_runKey]

theorem cmpSign_toNat (c d : Char) : cmpSign c.toNat d.toNat = cmpSign c d :=
  cmpSign_congr Char.lt_def.symm Char.lt_def.symm

/-- A run of digits compares with another character as its digits do. -/
theorem cmpSign_runKey_charKey {c d : Char} (hc : c.isDigit = true) (hd : d.isDigit = false)
    (r : List Char) : cmpSign (runKey r) (charKey d) = cmpSign c d ∧
      cmpSign (charKey d) (runKey r) = cmpSign d c := by
  have hrange := isDigit_iff.mp hc
  have hout : ¬ (48 ≤ d.toNat ∧ d.toNat ≤ 57) := fun h => by
    rw [isDigit_iff.mpr h] at hd
    cases hd
  have hne : 48 ≠ d.toNat := by omega
  have hne' : 49 ≠ d.toNat := by omega
  rw [← cmpSign_toNat, ← cmpSign_toNat, runKey, charKey]
  split
  · simp only [cmpSign_toLex, if_neg hne, if_neg hne.symm]
    constructor <;> apply cmpSign_congr <;> omega
  · simp only [cmpSign_toLex, if_neg hne', if_neg hne'.symm]
    constructor <;> apply cmpSign_congr <;> omega

/-! ## Strings without white space -/

/-- A string without white space. -/
def NoSpace (s : List Char) : Prop := ∀ c ∈ s, isSpace c = false

theorem NoSpace.dropWhile {s : List Char} (h : NoSpace s) : s.dropWhile isSpace = s := by
  cases s with
  | nil => rfl
  | cons c s =>
    exact dropWhile_cons_of_neg (by rw [h c mem_cons_self]; exact Bool.false_ne_true)

theorem NoSpace.tail {c : Char} {s : List Char} (h : NoSpace (c :: s)) : NoSpace s :=
  fun d hd => h d (mem_cons_of_mem c hd)

theorem strnatcmpLoop_cons {c d : Char} {a b : List Char} (ha : NoSpace (c :: a))
    (hb : NoSpace (d :: b)) (fuel : Nat) :
    strnatcmpLoop (fuel + 1) (c :: a) (d :: b) =
      if compareRuns (c :: a) (d :: b) ≠ 0 then compareRuns (c :: a) (d :: b)
      else if c < d then -1 else if d < c then 1 else strnatcmpLoop fuel a b := by
  rw [strnatcmpLoop, ha.dropWhile, hb.dropWhile]

/-- Equal runs of digits are passed. -/
theorem strnatcmpLoop_run {r : List Char} (hr : ∀ c ∈ r, c.isDigit = true) {a b : List Char}
    (ha : NoSpace (r ++ a)) (hb : NoSpace (r ++ b)) (hda : digitRun a = []) (hdb : digitRun b = [])
    (fuel : Nat) :
    strnatcmpLoop (fuel + r.length) (r ++ a) (r ++ b) = strnatcmpLoop fuel a b := by
  induction r with
  | nil => rfl
  | cons c r ih =>
    have hc := hr c mem_cons_self
    have hrun : ∀ s : List Char, digitRun s = [] → digitRun (c :: (r ++ s)) = c :: r := by
      intro s hs
      rw [digitRun, ← cons_append, takeWhile_append_of_pos hr]
      rw [digitRun] at hs
      rw [hs, append_nil]
    have hzero : compareRuns (c :: (r ++ a)) (c :: (r ++ b)) = 0 := by
      rw [compareRuns_eq hc hc, hrun a hda, hrun b hdb, cmpSign_self]
    rw [cons_append] at ha hb
    rw [cons_append, cons_append, length_cons, ← Nat.add_assoc,
      strnatcmpLoop_cons ha hb, if_neg (not_not.mpr hzero), if_neg (lt_irrefl c),
      if_neg (lt_irrefl c)]
    exact ih (fun d hd => hr d (mem_cons_of_mem c hd)) ha.tail hb.tail

theorem digitRun_dropWhile (s : List Char) : digitRun (s.dropWhile Char.isDigit) = [] := by
  rw [digitRun, takeWhile_eq_nil_iff]
  intro h
  exact dropWhile_get_zero_not Char.isDigit s h

theorem natKey_digit {c : Char} (hc : c.isDigit = true) (s : List Char) :
    natKey (c :: s) = runKey (digitRun (c :: s)) :: natKey (s.dropWhile Char.isDigit) := by
  rw [natKey, if_pos hc]

theorem natKey_other {c : Char} (hc : c.isDigit = false) (s : List Char) :
    natKey (c :: s) = charKey c :: natKey s := by
  rw [natKey, if_neg (by rw [hc]; exact Bool.false_ne_true)]

theorem cons_eq_run {c : Char} (hc : c.isDigit = true) (s : List Char) :
    c :: s = digitRun (c :: s) ++ s.dropWhile Char.isDigit := by
  have hsplit := takeWhile_append_dropWhile (p := Char.isDigit) (l := c :: s)
  rw [dropWhile_cons_of_pos hc] at hsplit
  exact hsplit.symm

/-- Strings that do not both start with digits are compared by their first characters. -/
theorem strnatcmpLoop_chars {c d : Char} {a b : List Char} (ha : NoSpace (c :: a))
    (hb : NoSpace (d :: b)) (hdigits : ¬ (c.isDigit = true ∧ d.isDigit = true)) (fuel : Nat) :
    strnatcmpLoop (fuel + 1) (c :: a) (d :: b) =
      if c = d then strnatcmpLoop fuel a b else cmpSign c d := by
  have hzero : compareRuns (c :: a) (d :: b) = 0 := if_neg hdigits
  rw [strnatcmpLoop_cons ha hb, if_neg (not_not.mpr hzero)]
  by_cases h : c = d
  · rw [if_pos h, if_neg h.not_lt, if_neg h.not_gt]
  · rw [if_neg h, cmpSign_of_ne h]
    rcases lt_or_gt_of_ne h with hlt | hgt
    · rw [if_pos hlt, if_pos hlt]
    · rw [if_neg hgt.not_gt, if_pos hgt, if_neg hgt.not_gt]

/-- The keys of different kinds of tokens differ, as the characters do. -/
theorem cmpSign_cons_of_char {x y : TokenKey} {c d : Char} (hne : c ≠ d)
    (h : cmpSign x y = cmpSign c d) (xs ys : List TokenKey) :
    cmpSign (x :: xs) (y :: ys) = cmpSign c d := by
  have hkey : x ≠ y := fun heq => by
    rw [cmpSign_eq_zero.mpr heq] at h
    exact hne (cmpSign_eq_zero.mp h.symm)
  rw [cmpSign_cons, if_neg hkey, h]

theorem cmpSign_charKey {c d : Char} (hne : c ≠ d) : cmpSign (charKey c) (charKey d) = cmpSign c d := by
  have hcode : c.toNat ≠ d.toNat := fun h => hne (Char.toNat_inj.mp h)
  rw [charKey, charKey, cmpSign_toLex, if_neg hcode, cmpSign_toNat]

/-- The comparison of strings without white space is that of their tokens. -/
theorem strnatcmpLoop_eq {a b : List Char} (ha : NoSpace a) (hb : NoSpace b) {fuel : Nat}
    (hfuel : a.length < fuel) : strnatcmpLoop fuel a b = cmpSign (natKey a) (natKey b) := by
  induction hn : a.length using Nat.strongRecOn generalizing a b fuel with
  | ind n ih =>
    subst hn
    obtain ⟨fuel, rfl⟩ : ∃ k, fuel = k + 1 := ⟨fuel - 1, by omega⟩
    cases a with
    | nil =>
      rw [strnatcmpLoop, ha.dropWhile, hb.dropWhile]
      cases b with
      | nil => exact (cmpSign_self _).symm
      | cons d b =>
        have hkey : natKey [] < natKey (d :: b) := by
          cases hd : d.isDigit
          · rw [natKey_other hd, natKey]
            exact nil_lt_cons _ _
          · rw [natKey_digit hd, natKey]
            exact nil_lt_cons _ _
        rw [cmpSign, if_pos hkey]
        rfl
    | cons c a =>
      cases b with
      | nil =>
        have hkey : natKey [] < natKey (c :: a) := by
          cases hc : c.isDigit
          · rw [natKey_other hc, natKey]
            exact nil_lt_cons _ _
          · rw [natKey_digit hc, natKey]
            exact nil_lt_cons _ _
        rw [strnatcmpLoop, ha.dropWhile, hb.dropWhile, cmpSign, if_neg hkey.not_gt, if_pos hkey]
        rfl
      | cons d b =>
        by_cases hdigits : c.isDigit = true ∧ d.isDigit = true
        · obtain ⟨hc, hd⟩ := hdigits
          rw [natKey_digit hc, natKey_digit hd, cmpSign_cons]
          by_cases hrun : digitRun (c :: a) = digitRun (d :: b)
          · have hsplit := cons_eq_run hc a
            have hsplit' := cons_eq_run hd b
            rw [← hrun] at hsplit'
            have hlen := congrArg List.length hsplit
            have hpos : 0 < (digitRun (c :: a)).length := by
              rw [digitRun_cons hc]
              exact Nat.succ_pos _
            have hdigits : ∀ x ∈ digitRun (c :: a), x.isDigit = true :=
              fun x hx => mem_takeWhile_imp hx
            rw [length_append] at hlen
            rw [hsplit] at ha
            rw [hsplit'] at hb
            have hpass := strnatcmpLoop_run hdigits ha hb (digitRun_dropWhile a)
              (digitRun_dropWhile b) (fuel + 1 - (digitRun (c :: a)).length)
            rw [Nat.sub_add_cancel (by omega), ← hsplit, ← hsplit'] at hpass
            rw [if_pos (congrArg runKey hrun), hpass]
            exact ih _ (by omega) (fun x hx => ha x (mem_append_right _ hx))
              (fun x hx => hb x (mem_append_right _ hx)) (by omega) rfl
          · have hkey : runKey (digitRun (c :: a)) ≠ runKey (digitRun (d :: b)) :=
              fun h => hrun (runKey_inj h)
            rw [strnatcmpLoop_cons ha hb, compareRuns_eq hc hd,
              if_pos fun h => hkey (cmpSign_eq_zero.mp h), if_neg hkey]
        · rw [strnatcmpLoop_chars ha hb hdigits]
          have hlen : a.length < (c :: a).length := Nat.lt_succ_self _
          by_cases h : c = d
          · subst h
            have hc : c.isDigit = false := by simpa using hdigits
            rw [if_pos rfl, natKey_other hc, natKey_other hc, cmpSign_cons, if_pos rfl]
            exact ih _ hlen ha.tail hb.tail (by omega) rfl
          · rw [if_neg h]
            cases hc : c.isDigit <;> cases hd : d.isDigit
            · rw [natKey_other hc, natKey_other hd, cmpSign_cons_of_char h (cmpSign_charKey h)]
            · rw [natKey_other hc, natKey_digit hd,
                cmpSign_cons_of_char h (cmpSign_runKey_charKey hd hc _).2]
            · rw [natKey_digit hc, natKey_other hd,
                cmpSign_cons_of_char h (cmpSign_runKey_charKey hc hd _).1]
            · exact absurd ⟨hc, hd⟩ hdigits

/-- `strnatcmp` compares the tokens. -/
theorem strnatcmp_eq {a b : List Char} (ha : NoSpace a) (hb : NoSpace b) :
    strnatcmp a b = cmpSign (natKey a) (natKey b) :=
  strnatcmpLoop_eq ha hb (Nat.lt_succ_self _)

theorem flatMap_tokenText (s : List Char) : (natKey s).flatMap tokenText = s := by
  induction s using natKey.induct with
  | case1 =>
    rw [natKey]
    rfl
  | case2 c s hc ih =>
    rw [natKey_digit hc, flatMap_cons, ih, tokenText_runKey, ← cons_eq_run hc]
  | case3 c s hc ih =>
    rw [natKey_other (Bool.not_eq_true _ ▸ hc), flatMap_cons, ih]
    rfl

/-- A string is given by its tokens. -/
theorem natKey_injective {a b : List Char} (h : natKey a = natKey b) : a = b := by
  rw [← flatMap_tokenText a, h, flatMap_tokenText]

end Slurm.Hostlist
