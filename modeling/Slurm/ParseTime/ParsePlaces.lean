import Slurm.ParseTime.Parse

/-!
# The places that `parse_time` reads

Each function that reads a part of the string stays inside when it starts at a place up to the
`'\0'`, and the place after what it has read is again up to there (`inside_getTime`,
`inside_getDate`, `inside_getDelta`).

Two things in the loop do not: the character two places after a digit is read where the one after
it is not a `':'`, and after `now` an index is added to a place.  `StepFits` says when neither
leaves the string.

* `fits_parseBody_iff`: the body of the loop stays inside exactly then.
* `inside_parseTime_iff`: `parse_time` does, if this holds at every place that the loop comes to.
-/

namespace Slurm.ParseTime

open Lib.Scanf (isSpace)
open Lib.Scanning List

variable {s : List Char} {pos offset : Nat} {st : St}
variable {c : Char} {word : List Char}

/-! ## Characters -/

theorem charAt_of_lt (h : s[pos]? = some c) : charAt s pos = .ok c := look_of_lt nul h

theorem charAt_length (s : List Char) : charAt s s.length = .ok nul := look_length nul s

theorem charAt_of_length_lt (h : s.length < pos) : charAt s pos = .error .outside :=
  look_of_length_lt nul h

/-- A place up to the `'\0'` can be read, and it is before it unless the character is `'\0'`. -/
theorem inside_charAt (h : pos ≤ s.length) :
    Inside (charAt s pos) fun c => c ≠ nul → pos < s.length := by
  refine (inside_look nul h).imp fun c hc hne => ?_
  rcases hc with hc | ⟨-, hc⟩
  · exact (List.getElem?_eq_some_iff.mp hc).1
  · exact absurd hc.symm hne

theorem isDigit_ne_nul (h : c.isDigit = true) : c ≠ nul := by
  intro heq
  rw [heq] at h
  exact absurd h (by decide)

/-- A character that is found is one of the string, or `'\0'` at its end. -/
theorem charAt_eq_ok :
    charAt s pos = .ok c ↔ s[pos]? = some c ∨ pos = s.length ∧ nul = c := look_eq_ok

theorem of_inside {α : Type} {m : Parse α} {Q : α → Prop} {a : α} (h : Inside m Q) (ha : m = .ok a) :
    Q a := by
  rw [ha] at h
  exact h

theorem le_of_startsWith (h : startsWith s pos word = true) (hne : word ≠ []) :
    pos + word.length ≤ s.length := by
  unfold startsWith at h
  have hlen := congrArg List.length (eq_of_beq h)
  rw [length_map, length_take, length_drop] at hlen
  have hpos := length_pos_of_ne_nil hne
  omega

theorem placeAfter_le (test : Char → Bool) (h : pos ≤ s.length) :
    pos ≤ placeAfter test s pos ∧ placeAfter test s pos ≤ s.length := by
  have hle := ( takeWhile_prefix test (l := s.drop pos)).length_le
  rw [length_drop] at hle
  unfold placeAfter
  omega

/-! ## Parts of the string -/

/-- The places that a function may come to. -/
def After (s : List Char) (pos offset : Nat) : Prop := pos ≤ offset ∧ offset ≤ s.length

theorem inside_digitAt (h : offset ≤ s.length) :
    Inside (digitAt s offset) fun r => r.2 = offset + 1 ∧ offset < s.length := by
  refine inside_bind (inside_charAt h) fun c hc => ?_
  refine inside_ite (fun hdigit => ?_) fun _ => trivial
  exact ⟨rfl, hc (isDigit_ne_nul hdigit)⟩

theorem inside_moreDigit (n : Int) (h : offset ≤ s.length) :
    Inside (moreDigit s n offset) fun r =>
      r.2 = offset ∨ r.2 = offset + 1 ∧ offset < s.length := by
  refine inside_bind (inside_charAt h) fun c hc => ?_
  refine inside_ite (fun hdigit => ?_) fun _ => Or.inl rfl
  exact Or.inr ⟨rfl, hc (isDigit_ne_nul hdigit)⟩

theorem inside_hourDigit (hr : Int) (h : offset ≤ s.length) :
    Inside (hourDigit s hr offset) fun r => After s offset r.2 := by
  refine inside_bind (inside_charAt h) fun c _ => ?_
  refine inside_ite (fun _ => ?_) fun _ => ⟨Nat.le_refl _, h⟩
  refine inside_bind (inside_digitAt h) fun ⟨d, offset'⟩ ⟨hoffset', hlt'⟩ => ?_
  dsimp only at hoffset'
  show After s offset offset'
  unfold After
  omega

theorem inside_getHour (h : pos ≤ s.length) :
    Inside (getHour s pos) fun r => pos < r.2 ∧ r.2 ≤ s.length := by
  refine inside_bind (inside_digitAt h) fun ⟨hr, offset⟩ ⟨hoffset, hlt⟩ => ?_
  dsimp only at hoffset
  refine inside_bind (inside_hourDigit hr (by omega)) fun ⟨hr', offset'⟩ hafter => ?_
  dsimp only [After] at hafter
  refine inside_ite (fun _ => trivial) fun _ => ?_
  refine inside_bind (inside_charAt hafter.2) fun c hc => ?_
  refine inside_ite (fun _ => trivial) fun hcolon => ?_
  have hlt' := hc (by rw [not_not.mp hcolon]; decide)
  show pos < offset' + 1 ∧ offset' + 1 ≤ s.length
  omega

theorem inside_getSixty (h : offset ≤ s.length) :
    Inside (getSixty s offset) fun r => After s offset r.2 := by
  refine inside_bind (inside_digitAt h) fun ⟨a, offset₁⟩ ⟨hoffset₁, hlt₁⟩ => ?_
  dsimp only at hoffset₁
  refine inside_bind (inside_digitAt (by omega)) fun ⟨b, offset₂⟩ ⟨hoffset₂, hlt₂⟩ => ?_
  dsimp only at hoffset₂
  refine inside_ite (fun _ => trivial) fun _ => ?_
  show After s offset offset₂
  unfold After
  omega

theorem inside_getSecond (h : offset ≤ s.length) :
    Inside (getSecond s offset) fun r => After s offset r.2 := by
  refine inside_bind (inside_charAt h) fun c hc => ?_
  refine inside_ite (fun hcolon => ?_) fun _ => ⟨Nat.le_refl _, h⟩
  have hlt := hc (by rw [hcolon]; decide)
  refine (inside_getSixty hlt).imp fun r hafter => ?_
  unfold After at hafter ⊢
  omega

theorem inside_skipWhile (test : Char → Bool) (h : offset ≤ s.length) :
    Inside (skipWhile test s offset) fun i => i = placeAfter test s offset ∧ After s offset i := by
  refine inside_bind (inside_charAt h) fun c _ => ?_
  exact ⟨rfl, placeAfter_le test h⟩

theorem inside_getHalf (hr : Int) (h : offset ≤ s.length) :
    Inside (getHalf s hr offset) fun r => After s offset r.2 := by
  have htwo : ∀ word : List Char, word.length = 2 → startsWith s offset word = true →
      After s offset (offset + 2) := by
    intro word hlen hword
    have hle := le_of_startsWith hword (ne_nil_of_length_pos (by omega))
    unfold After
    omega
  unfold getHalf
  refine inside_ite (fun hpm => ?_) fun _ => inside_ite (fun ham => ?_) fun _ => ?_
  · have hafter := htwo _ rfl hpm
    exact inside_ite (fun _ => inside_ite (fun _ => hafter) fun _ => trivial) fun _ => hafter
  · have hafter := htwo _ rfl ham
    exact inside_ite (fun _ => inside_ite (fun _ => hafter) fun _ => trivial) fun _ => hafter
  · exact ⟨Nat.le_refl _, h⟩

/-- A time is read inside of the string. -/
theorem inside_getTime (h : pos ≤ s.length) (st : St) :
    Inside (getTime s pos st) fun r => pos < r.1 ∧ r.1 ≤ s.length := by
  refine inside_bind (inside_getHour h) fun ⟨hr, offset₁⟩ ⟨hlt, hle₁⟩ => ?_
  dsimp only at hlt hle₁
  refine inside_bind (inside_getSixty hle₁) fun ⟨min, offset₂⟩ hafter₂ => ?_
  refine inside_bind (inside_getSecond hafter₂.2) fun ⟨sec, offset₃⟩ hafter₃ => ?_
  refine inside_bind (inside_skipWhile isSpace hafter₃.2) fun offset₄ ⟨_, hafter₄⟩ => ?_
  refine inside_bind (inside_getHalf hr hafter₄.2) fun ⟨hr', offset₅⟩ hafter₅ => ?_
  show pos < offset₅ ∧ offset₅ ≤ s.length
  dsimp only [After] at hafter₂ hafter₃ hafter₄ hafter₅
  omega

/-! ## Dates -/

theorem inside_getIsoDate (h : pos + 7 < s.length) (st : St) :
    Inside (getIsoDate s pos st) fun r => pos < r.1 ∧ r.1 ≤ s.length := by
  refine inside_bind (inside_digitAt (by omega)) fun ⟨a, offset₁⟩ ⟨hoffset₁, _⟩ => ?_
  dsimp only at hoffset₁
  refine inside_bind (inside_digitAt (by omega)) fun ⟨b, offset₂⟩ ⟨hoffset₂, _⟩ => ?_
  dsimp only at hoffset₂
  refine inside_bind (inside_digitAt (by omega)) fun ⟨c, offset₃⟩ ⟨hoffset₃, _⟩ => ?_
  dsimp only at hoffset₃
  refine inside_bind (inside_digitAt (by omega)) fun ⟨d, offset₄⟩ ⟨hoffset₄, _⟩ => ?_
  dsimp only at hoffset₄
  refine inside_bind (inside_charAt (by omega)) fun m _ => ?_
  refine inside_bind (inside_moreDigit _ (by omega)) fun ⟨mon, offset₅⟩ hoffset₅ => ?_
  dsimp only at hoffset₅
  refine inside_ite (fun _ => trivial) fun _ => ?_
  refine inside_bind (inside_digitAt (by omega)) fun ⟨day, offset₆⟩ ⟨hoffset₆, hlt₆⟩ => ?_
  dsimp only at hoffset₆
  refine inside_bind (inside_moreDigit _ (by omega)) fun ⟨day', offset₇⟩ hoffset₇ => ?_
  dsimp only at hoffset₇
  refine inside_ite (fun _ => trivial) fun _ => ?_
  show pos < offset₇ ∧ offset₇ ≤ s.length
  omega

theorem inside_passSeparator (h : offset ≤ s.length) :
    Inside (passSeparator s offset) fun offset' => After s offset offset' := by
  refine inside_bind (inside_charAt h) fun c hc => ?_
  show After s offset (if c = '.' ∨ c = '/' then offset + 1 else offset)
  unfold After
  split
  · rename_i hsep
    have hlt := hc (by rcases hsep with rfl | rfl <;> decide)
    omega
  · omega

theorem inside_getYear (h : offset ≤ s.length) :
    Inside (getYear s offset) fun r => After s offset r.2 := by
  refine inside_bind (inside_charAt h) fun c hc => ?_
  refine inside_ite (fun hdigit => ?_) fun _ => ⟨Nat.le_refl _, h⟩
  have hlt := hc (isDigit_ne_nul hdigit)
  refine inside_bind (inside_digitAt hlt) fun ⟨d, offset'⟩ ⟨hoffset', hlt'⟩ => ?_
  dsimp only at hoffset'
  show After s offset offset'
  unfold After
  omega

theorem inside_getMonthDate (h : pos < s.length) (st : St) :
    Inside (getMonthDate s pos st) fun r => pos < r.1 ∧ r.1 ≤ s.length := by
  refine inside_bind (inside_charAt h.le) fun m _ => ?_
  refine inside_bind (inside_moreDigit _ h) fun ⟨mon, offset₁⟩ hoffset₁ => ?_
  dsimp only at hoffset₁
  refine inside_ite (fun _ => trivial) fun _ => ?_
  refine inside_bind (inside_passSeparator (by omega)) fun offset₂ hafter₂ => ?_
  refine inside_bind (inside_digitAt hafter₂.2) fun ⟨day, offset₃⟩ ⟨hoffset₃, hlt₃⟩ => ?_
  dsimp only at hoffset₃
  refine inside_bind (inside_moreDigit _ (by omega)) fun ⟨day', offset₄⟩ hoffset₄ => ?_
  dsimp only at hoffset₄
  refine inside_ite (fun _ => trivial) fun _ => ?_
  refine inside_bind (inside_passSeparator (by omega)) fun offset₅ hafter₅ => ?_
  refine inside_bind (inside_getYear hafter₅.2) fun ⟨yr, offset₆⟩ hafter₆ => ?_
  show pos < offset₆ ∧ offset₆ ≤ s.length
  dsimp only [After] at hafter₂ hafter₅ hafter₆
  omega

/-- A date is read inside of the string. -/
theorem inside_getDate (h : pos < s.length) (st : St) :
    Inside (getDate s pos st) fun r => pos < r.1 ∧ r.1 ≤ s.length := by
  refine inside_ite (fun hlen => ?_) fun _ => inside_getMonthDate h st
  refine inside_bind (inside_charAt (by omega)) fun c _ => ?_
  refine inside_ite (fun _ => ?_) fun _ => inside_getMonthDate h st
  refine inside_bind (inside_charAt hlen) fun c' hc' => ?_
  refine inside_ite (fun hdash => ?_) fun _ => inside_getMonthDate h st
  exact inside_getIsoDate (hc' (by rw [hdash]; decide)) st

/-! ## Words -/

/-- A word at a place begins with the character there. -/
theorem head_of_startsWith {d : Char} (hc : s[pos]? = some c)
    (h : startsWith s pos (d :: word) = true) : c.toLower = d := by
  unfold startsWith at h
  have hdrop : s.drop pos = c :: s.drop (pos + 1) := by
    rw [drop_eq_getElem_cons (List.getElem?_eq_some_iff.mp hc).1]
    rw [(List.getElem?_eq_some_iff.mp hc).2]
  rw [hdrop, length_cons, take_succ_cons, map_cons] at h
  exact (List.cons.inj (eq_of_beq h)).1

/-- Two words at a place agree, as far as both go. -/
theorem take_of_startsWith {word' : List Char} (h : startsWith s pos word = true)
    (h' : startsWith s pos word' = true) : word.take word'.length = word'.take word.length := by
  unfold startsWith at h h'
  have hword := eq_of_beq h
  have hword' := eq_of_beq h'
  calc word.take word'.length
      = (((s.drop pos).take word.length).map Char.toLower).take word'.length := by rw [hword]
    _ = (((s.drop pos).take word'.length).map Char.toLower).take word.length := by
      rw [← map_take, ← map_take, take_take, take_take, Nat.min_comm]
    _ = word'.take word.length := by rw [hword']

theorem toLower_digit (h : c.isDigit = true) : c.toLower = c := by
  have hrange := Lib.Decimal.isDigit_iff.mp h
  apply Char.toLower_eq_of_not_isUpper
  intro hupper
  rw [Char.isUpper, decide_eq_true_iff] at hupper
  have hge : 65 ≤ c.toNat := hupper.1
  omega

/-- A word does not begin with a digit. -/
def WordHead (word : List Char) : Bool := word.head?.any fun d => !d.isDigit

/-- Where there is a digit there is no word. -/
theorem not_startsWith_of_digit (hc : s[pos]? = some c) (hdigit : c.isDigit = true)
    (hword : WordHead word = true) : startsWith s pos word = false := by
  apply Bool.eq_false_of_not_eq_true
  intro h
  cases word with
  | nil => exact Bool.noConfusion hword
  | cons d rest =>
    have hhead := head_of_startsWith hc h
    have hd : d.isDigit = false := by simpa [WordHead] using hword
    rw [toLower_digit hdigit] at hhead
    rw [hhead, hd] at hdigit
    exact Bool.noConfusion hdigit

/-! ## A number of seconds -/

theorem inside_deltaLoop (l : List Char) (offset : Nat) (cnt : Int) (digit : Nat) :
    Inside (deltaLoop l offset cnt digit) fun r => offset ≤ r.1 ∧ r.1 ≤ offset + l.length := by
  induction l generalizing offset cnt digit with
  | nil => exact ⟨Nat.le_refl _, Nat.le_refl _⟩
  | cons c rest ih =>
    have hnext : ∀ cnt digit, Inside (deltaLoop rest (offset + 1) cnt digit) fun r =>
        offset ≤ r.1 ∧ r.1 ≤ offset + (c :: rest).length := fun cnt digit =>
      (ih (offset + 1) cnt digit).imp fun r hr => by
        rw [length_cons]
        omega
    unfold deltaLoop
    refine inside_ite (fun _ => ⟨Nat.le_refl _, Nat.le_add_right _ _⟩) fun _ => ?_
    refine inside_ite (fun _ => hnext cnt digit) fun _ => ?_
    split
    · rename_i u hfind
      have hword := find?_some hfind
      unfold startsWith at hword
      have hlen := congrArg List.length (eq_of_beq hword)
      rw [length_map, length_take, drop_zero] at hlen
      show offset ≤ offset + u.name.length ∧ offset + u.name.length ≤ offset + (c :: rest).length
      omega
    · exact inside_ite (fun _ => hnext _ _) fun _ => trivial

theorem inside_getDelta (h : pos < s.length) :
    Inside (getDelta s pos) fun r => pos < r.1 ∧ r.1 ≤ s.length := by
  refine inside_bind (inside_charAt h) fun c _ => ?_
  refine inside_bind (inside_deltaLoop _ _ _ _) fun ⟨offset, cnt, digit⟩ hoffset => ?_
  rw [length_drop] at hoffset
  refine inside_ite (fun _ => trivial) fun _ => ?_
  show pos < offset ∧ offset ≤ s.length
  omega

theorem getDelta_of_length_le (h : s.length ≤ pos) : getDelta s pos = .error .outside := by
  unfold getDelta
  rw [charAt_of_length_lt (by omega)]
  rfl

/-! ## What comes after `now` -/

/-- The place after `now` and blanks. -/
def afterNow (s : List Char) (pos : Nat) : Nat := placeAfter isBlank s (pos + 3)

/-- When reading from `pos` on stays inside: a digit is not the last character; and after `now` the
place of the sign, or of the end, is still in the string when `pos` is added to it. -/
structure StepFits (s : List Char) (pos : Nat) : Prop where
  digit : ∀ c, s[pos]? = some c → c.isDigit = true → pos + 1 < s.length
  now : startsWith s pos "now".toList = true → ∀ c, charAt s (afterNow s pos) = .ok c →
    (c = '+' ∨ c = '-' → pos + afterNow s pos < s.length) ∧
      (c = nul ∨ c = '\n' → pos + afterNow s pos ≤ s.length)

/-- `now` is read up to the character after the blanks. -/
theorem getNow_eq (hnow : startsWith s pos "now".toList = true) :
    pos + 3 ≤ afterNow s pos ∧ afterNow s pos ≤ s.length ∧
      ∃ c, charAt s (afterNow s pos) = .ok c ∧ getNow s pos =
        if c = '+' then getDelta s (pos + afterNow s pos)
        else if c = '-' then
          getDelta s (pos + afterNow s pos) >>= fun r => pure (r.1, wrapLong (-r.2))
        else if c = nul ∨ c = '\n' then pure (pos + afterNow s pos, 0)
        else prob := by
  have hthree : pos + 3 ≤ s.length := le_of_startsWith hnow (cons_ne_nil _ _)
  have hafter : pos + 3 ≤ afterNow s pos ∧ afterNow s pos ≤ s.length :=
    placeAfter_le isBlank hthree
  obtain ⟨c₀, hc₀⟩ : ∃ c, charAt s (pos + 3) = .ok c := exists_look nul hthree
  obtain ⟨c, hc⟩ : ∃ c, charAt s (afterNow s pos) = .ok c := exists_look nul hafter.2
  have hskip : skipWhile isBlank s (pos + 3) = .ok (afterNow s pos) := by
    unfold skipWhile
    rw [hc₀]
    rfl
  refine ⟨hafter.1, hafter.2, c, hc, ?_⟩
  unfold getNow
  rw [hskip]
  show (charAt s (afterNow s pos) >>= fun c => _) = _
  rw [hc]
  rfl

theorem inside_getNow_iff (hnow : startsWith s pos "now".toList = true) :
    Inside (getNow s pos) (fun r => pos < r.1 ∧ r.1 ≤ s.length) ↔
      ∀ c, charAt s (afterNow s pos) = .ok c →
        (c = '+' ∨ c = '-' → pos + afterNow s pos < s.length) ∧
          (c = nul ∨ c = '\n' → pos + afterNow s pos ≤ s.length) := by
  obtain ⟨hge, -, c, hc, hread⟩ := getNow_eq hnow
  have hdelta : Inside (getDelta s (pos + afterNow s pos)) (fun r => pos < r.1 ∧ r.1 ≤ s.length) ↔
      pos + afterNow s pos < s.length := by
    constructor
    · intro hinside
      by_contra hlt
      rw [getDelta_of_length_le (not_lt.mp hlt)] at hinside
      exact hinside
    · intro hlt
      exact (inside_getDelta hlt).imp fun r hr => by omega
  have hone : ∀ P : Char → Prop, (∀ c', charAt s (afterNow s pos) = .ok c' → P c') ↔ P c := by
    intro P
    constructor
    · intro h
      exact h c hc
    · intro h c' hc'
      rw [hc] at hc'
      exact Except.ok.inj hc' ▸ h
  rw [hone, hread]
  by_cases hplus : c = '+'
  · rw [if_pos hplus, hdelta, hplus]
    simp [show ¬ '+' = nul by decide]
  · rw [if_neg hplus]
    by_cases hminus : c = '-'
    · rw [if_pos hminus, hminus]
      simp only [or_true, forall_const, show ¬ '-' = nul by decide, show ¬ '-' = '\n' by decide,
        or_self, false_implies, and_true]
      rw [inside_map_iff]
      exact hdelta
    · rw [if_neg hminus]
      by_cases hend : c = nul ∨ c = '\n'
      · rw [if_pos hend]
        simp only [hplus, hminus, or_self, false_implies, true_and, hend, forall_const]
        show pos < pos + afterNow s pos ∧ _ ↔ _
        omega
      · rw [if_neg hend]
        simp [hplus, hminus, hend, prob]

/-- A number after `now` is read from behind `pos`. -/
theorem lt_of_getNow (hnow : startsWith s pos "now".toList = true) {r : Nat × Int}
    (h : getNow s pos = .ok r) : pos < r.1 := by
  obtain ⟨hge, -, c, -, hread⟩ := getNow_eq hnow
  have hdelta : ∀ r, getDelta s (pos + afterNow s pos) = .ok r → pos < r.1 := by
    intro r hr
    have hlt : pos + afterNow s pos < s.length := by
      by_contra hlt
      rw [getDelta_of_length_le (not_lt.mp hlt)] at hr
      cases hr
    have hplace := of_inside (inside_getDelta hlt) hr
    omega
  rw [hread] at h
  split at h
  · exact hdelta r h
  · split at h
    · rcases hr : getDelta s (pos + afterNow s pos) with e | r'
      · rw [hr] at h
        cases h
      · rw [hr] at h
        cases h
        exact hdelta r' hr
    · split at h
      · cases h
        show pos < pos + afterNow s pos
        omega
      · cases h

/-! ## Numbers -/

/-- The two characters after a digit can be read if it is not the last character. -/
theorem inside_getNumeric_iff (h : pos < s.length) (st : St) :
    Inside (getNumeric s pos st) (fun r => pos < r.1 ∧ r.1 ≤ s.length) ↔ pos + 1 < s.length := by
  constructor
  · intro hinside
    by_contra hlt
    have hend : pos + 1 = s.length := by omega
    unfold getNumeric at hinside
    rw [hend, charAt_length, charAt_of_length_lt (by omega)] at hinside
    exact hinside
  · intro hlt
    refine inside_bind (inside_charAt hlt.le) fun c₁ _ => ?_
    refine inside_ite (fun _ => inside_getTime h.le st) fun _ => ?_
    refine inside_bind (inside_charAt hlt) fun c₂ _ => ?_
    exact inside_ite (fun _ => inside_getTime h.le st) fun _ => inside_getDate h st

theorem getNumeric_of_last (h : pos + 1 = s.length) (st : St) :
    getNumeric s pos st = .error .outside := by
  unfold getNumeric
  rw [h, charAt_length, charAt_of_length_lt (by omega)]
  rfl

/-! ## The body of the loop -/

/-- The words of the loop before `now`. -/
def earlierWords : List (List Char) :=
  ["today".toList, "tomorrow".toList] ++ hourWords.map Prod.fst

/-- `now` is none of the words before it. -/
theorem not_earlier_of_now (hnow : startsWith s pos "now".toList = true) :
    ∀ word ∈ earlierWords, startsWith s pos word = false := by
  have hagree : ∀ word ∈ earlierWords, "now".toList.take word.length ≠ word.take "now".toList.length := by
    decide
  intro word hmem
  apply Bool.eq_false_of_not_eq_true
  intro hword
  exact hagree word hmem (take_of_startsWith hnow hword)

/-- A digit begins no word. -/
theorem not_word_of_digit (hc : s[pos]? = some c) (hdigit : c.isDigit = true) :
    ∀ word ∈ "now".toList :: earlierWords, startsWith s pos word = false := by
  have hhead : ∀ word ∈ "now".toList :: earlierWords, WordHead word = true := by decide
  intro word hmem
  exact not_startsWith_of_digit hc hdigit (hhead word hmem)

theorem find_hourWords_eq_none (h : ∀ word ∈ earlierWords, startsWith s pos word = false) :
    (hourWords.find? fun w => startsWith s pos w.1) = none := by
  rw [List.find?_eq_none]
  intro w hw
  rw [h w.1 (mem_append_right _ (mem_map_of_mem hw))]
  exact Bool.noConfusion

/-- The characters that are passed. -/
def passed (c : Char) : Bool := isBlank c || c == '-' || c == 'T'

/-- The body where nothing but `now` or a number can be. -/
theorem parseBody_of_not_earlier (clock : Clock) (hc : s[pos]? = some c)
    (hpassed : passed c = false) (h : ∀ word ∈ earlierWords, startsWith s pos word = false)
    (st : St) :
    parseBody clock s pos st =
      if startsWith s pos "now".toList then
        getNow s pos >>= fun r =>
          pure (r.1 - 1, st.setAll (clock.localtime (wrapLong (clock.timeNow + r.2))))
      else if c.isDigit then getNumeric s pos st >>= fun r => pure (r.1 - 1, r.2)
      else prob := by
  have htoday := h "today".toList (by decide)
  have htomorrow := h "tomorrow".toList (by decide)
  unfold passed at hpassed
  unfold parseBody
  rw [charAt_of_lt hc]
  show (if isBlank c || c == '-' || c == 'T' then _ else _) = _
  rw [hpassed, htoday, htomorrow, find_hourWords_eq_none h]
  rfl

theorem parseBody_passed (clock : Clock) (hc : s[pos]? = some c) (hpassed : passed c = true)
    (st : St) : parseBody clock s pos st = .ok (pos, st) := by
  unfold passed at hpassed
  unfold parseBody
  rw [charAt_of_lt hc]
  show (if isBlank c || c == '-' || c == 'T' then _ else _) = _
  rw [hpassed]
  rfl

theorem passed_not_digit (h : passed c = true) : c.isDigit = false := by
  unfold passed isBlank at h
  simp only [Bool.or_eq_true, beq_iff_eq] at h
  rcases h with ((rfl | rfl) | rfl) | rfl <;> decide

theorem passed_not_now (hc : s[pos]? = some c) (h : passed c = true) :
    startsWith s pos "now".toList = false := by
  apply Bool.eq_false_of_not_eq_true
  intro hnow
  have hhead : c.toLower = 'n' := head_of_startsWith hc hnow
  unfold passed isBlank at h
  simp only [Bool.or_eq_true, beq_iff_eq] at h
  rcases h with ((rfl | rfl) | rfl) | rfl <;> exact absurd hhead (by decide)

/-- The body passes a word, which is all in the string. -/
theorem parseBody_earlier (clock : Clock) (hc : s[pos]? = some c) (hpassed : passed c = false)
    (hmem : word ∈ earlierWords) (hword : startsWith s pos word = true) (st : St) :
    ∃ pos' st', parseBody clock s pos st = .ok (pos', st') ∧ pos ≤ pos' ∧ pos' < s.length := by
  unfold passed at hpassed
  unfold parseBody
  rw [charAt_of_lt hc]
  show ∃ pos' st', (if isBlank c || c == '-' || c == 'T' then _ else _) = _ ∧ _
  rw [hpassed, if_neg Bool.noConfusion]
  by_cases htoday : startsWith s pos "today".toList = true
  · have hle : pos + 5 ≤ s.length := le_of_startsWith htoday (cons_ne_nil _ _)
    rw [if_pos htoday]
    exact ⟨pos + 4, _, rfl, by omega, by omega⟩
  · rw [if_neg htoday]
    by_cases htomorrow : startsWith s pos "tomorrow".toList = true
    · have hle : pos + 8 ≤ s.length := le_of_startsWith htomorrow (cons_ne_nil _ _)
      rw [if_pos htomorrow]
      exact ⟨pos + 7, _, rfl, by omega, by omega⟩
    · rw [if_neg htomorrow]
      have hwords : ∀ w ∈ hourWords, w.1 ≠ [] := by decide
      cases hfind : hourWords.find? fun w => startsWith s pos w.1 with
      | none =>
        rw [List.find?_eq_none] at hfind
        rcases List.mem_append.mp hmem with hmem | hmem
        · simp only [mem_cons, not_mem_nil, or_false] at hmem
          rcases hmem with rfl | rfl
          · exact absurd hword htoday
          · exact absurd hword htomorrow
        · obtain ⟨w, hw, rfl⟩ := List.mem_map.mp hmem
          exact absurd hword (hfind w hw)
      | some w =>
        have hne := hwords w (mem_of_find?_eq_some hfind)
        have hstarts : startsWith s pos w.1 = true := by
          simpa using find?_some hfind
        have hle := le_of_startsWith hstarts hne
        have hlen := length_pos_of_ne_nil hne
        exact ⟨pos + w.1.length - 1, _, rfl, by omega, by omega⟩

/-- The body stays inside, and comes to a place in the string, exactly when the step fits. -/
theorem inside_parseBody_iff (clock : Clock) (hc : s[pos]? = some c) (st : St) :
    Inside (parseBody clock s pos st) (fun next => next.1 < s.length) ↔ StepFits s pos := by
  have hlt : pos < s.length := (List.getElem?_eq_some_iff.mp hc).1
  have hsame : ∀ c', s[pos]? = some c' → c' = c := fun c' hc' => Option.some.inj (hc'.symm.trans hc)
  by_cases hpassed : passed c = true
  · rw [parseBody_passed clock hc hpassed]
    refine iff_of_true hlt ⟨fun c' hc' hdigit => ?_, fun hnow => ?_⟩
    · rw [hsame c' hc', passed_not_digit hpassed] at hdigit
      exact Bool.noConfusion hdigit
    · rw [passed_not_now hc hpassed] at hnow
      exact Bool.noConfusion hnow
  · rw [Bool.not_eq_true] at hpassed
    by_cases hearlier : ∃ word ∈ earlierWords, startsWith s pos word = true
    · obtain ⟨word, hmem, hword⟩ := hearlier
      obtain ⟨pos', st', hbody, -, hpos'⟩ := parseBody_earlier clock hc hpassed hmem hword st
      rw [hbody]
      refine iff_of_true hpos' ⟨fun c' hc' hdigit => ?_, fun hnow => ?_⟩
      · rw [not_word_of_digit hc' hdigit word (mem_cons_of_mem _ hmem)] at hword
        exact Bool.noConfusion hword
      · rw [not_earlier_of_now hnow word hmem] at hword
        exact Bool.noConfusion hword
    · have hnone : ∀ word ∈ earlierWords, startsWith s pos word = false := fun word hmem =>
        Bool.eq_false_of_not_eq_true fun hword => hearlier ⟨word, hmem, hword⟩
      rw [parseBody_of_not_earlier clock hc hpassed hnone]
      by_cases hnow : startsWith s pos "now".toList = true
      · rw [if_pos hnow, inside_map_iff]
        have hfits := inside_getNow_iff hnow
        have hnot : ∀ c', s[pos]? = some c' → c'.isDigit = false := fun c' hc' =>
          Bool.eq_false_of_not_eq_true fun hdigit => by
            rw [not_word_of_digit hc' hdigit _ mem_cons_self] at hnow
            exact Bool.noConfusion hnow
        constructor
        · intro hinside
          refine ⟨fun c' hc' hdigit => ?_, fun _ => hfits.mp ?_⟩
          · rw [hnot c' hc'] at hdigit
            exact Bool.noConfusion hdigit
          · rcases hr : getNow s pos with (e | _ | _) | r
            · trivial
            · rw [hr] at hinside
              exact hinside
            · rw [hr] at hinside
              exact hinside
            · have hgt := lt_of_getNow hnow hr
              rw [hr] at hinside
              have hplace : r.1 - 1 < s.length := hinside
              show pos < r.1 ∧ r.1 ≤ s.length
              omega
        · intro hstep
          exact (hfits.mpr (hstep.now hnow)).imp fun r hr => by omega
      · rw [if_neg hnow]
        by_cases hdigit : c.isDigit = true
        · rw [if_pos hdigit, inside_map_iff]
          have hfits := inside_getNumeric_iff hlt st
          constructor
          · intro hinside
            refine ⟨fun c' _ _ => ?_, fun h => absurd h hnow⟩
            by_contra hlast
            rw [getNumeric_of_last (by omega)] at hinside
            exact hinside
          · intro hstep
            exact (hfits.mpr (hstep.digit c hc hdigit)).imp fun r hr => by omega
        · rw [if_neg hdigit]
          refine iff_of_true trivial ⟨fun c' hc' h => ?_, fun h => absurd h hnow⟩
          rw [hsame c' hc'] at h
          exact absurd h hdigit

/-- Nothing can be read at the `'\0'`. -/
theorem parseBody_length (clock : Clock) (s : List Char) (st : St) :
    parseBody clock s s.length st = prob := by
  have hword : ∀ c word, startsWith s s.length (c :: word) = false := fun c word => by
    unfold startsWith
    rw [drop_length]
    rfl
  have htoday : startsWith s s.length "today".toList = false := hword _ _
  have htomorrow : startsWith s s.length "tomorrow".toList = false := hword _ _
  have hnow : startsWith s s.length "now".toList = false := hword _ _
  have hhour : (hourWords.find? fun w => startsWith s s.length w.1) = none := by
    simp [hourWords, hword]
  unfold parseBody
  rw [charAt_length, htoday, htomorrow, hhour, hnow]
  rfl

/-- The body never goes back. -/
theorem forward_parseBody (clock : Clock) (s : List Char) : Forward (parseBody clock s) := by
  intro pos st pos' st' hbody
  have hat : ∃ c, charAt s pos = .ok c := by
    rcases hc : charAt s pos with e | c
    · unfold parseBody at hbody
      rw [hc] at hbody
      cases hbody
    · exact ⟨c, rfl⟩
  obtain ⟨c, hat⟩ := hat
  rcases charAt_eq_ok.mp hat with hc | ⟨hend, hnul⟩
  · by_cases hpassed : passed c = true
    · rw [parseBody_passed clock hc hpassed] at hbody
      cases hbody
      exact Nat.le_refl _
    · rw [Bool.not_eq_true] at hpassed
      by_cases hearlier : ∃ word ∈ earlierWords, startsWith s pos word = true
      · obtain ⟨word, hmem, hword⟩ := hearlier
        obtain ⟨pos₁, st₁, hbody₁, hle, -⟩ := parseBody_earlier clock hc hpassed hmem hword st
        rw [hbody] at hbody₁
        cases hbody₁
        exact hle
      · have hnone : ∀ word ∈ earlierWords, startsWith s pos word = false := fun word hmem =>
          Bool.eq_false_of_not_eq_true fun hword => hearlier ⟨word, hmem, hword⟩
        rw [parseBody_of_not_earlier clock hc hpassed hnone] at hbody
        split at hbody
        · rename_i hnow
          rcases hr : getNow s pos with e | r
          · rw [hr] at hbody
            cases hbody
          · have hgt := lt_of_getNow hnow hr
            rw [hr] at hbody
            cases hbody
            omega
        · split at hbody
          · have hlt : pos < s.length := (List.getElem?_eq_some_iff.mp hc).1
            rcases hr : getNumeric s pos st with e | r
            · rw [hr] at hbody
              cases hbody
            · have hnext : pos + 1 < s.length := by
                by_contra hlast
                rw [getNumeric_of_last (by omega)] at hr
                cases hr
              have hplace := of_inside ((inside_getNumeric_iff hlt st).mpr hnext) hr
              rw [hr] at hbody
              cases hbody
              omega
          · cases hbody
  · rw [hend, parseBody_length] at hbody
    cases hbody

/-! ## `parse_time` -/

/-- `finish` only computes. -/
theorem inside_finish (clock : Clock) (past : Bool) (st : St) :
    Inside (finish clock past st) fun _ => True := by
  unfold finish
  exact inside_ite (fun _ => trivial) fun _ => inside_ite (fun _ => trivial) fun _ => trivial

/-- The places and variables that the loop comes to. -/
def Comes (clock : Clock) (s : List Char) : Nat → St → Prop :=
  Reaches nul isEnd (parseBody clock s) s .init

/-- The loop stays inside exactly when every step that it makes fits. -/
theorem inside_loop_iff (clock : Clock) (s : List Char) :
    Inside (scan nul isEnd (parseBody clock s) s (s.length + 1) 0 .init) (fun _ => True) ↔
      ∀ pos st c, Comes clock s pos st → s[pos]? = some c → isEnd c = false → StepFits s pos := by
  rw [inside_scan_iff (forward_parseBody clock s) (by decide)]
  constructor
  · intro h pos st c hcomes hc hend
    exact (inside_parseBody_iff clock hc st).mp (h pos st hcomes c (look_of_lt nul hc) hend)
  · intro h pos st hcomes c hlook hend
    rcases look_eq_ok.mp hlook with hc | ⟨-, hnul⟩
    · exact (inside_parseBody_iff clock hc st).mpr (h pos st c hcomes hc hend)
    · rw [← hnul] at hend
      exact absurd hend (by decide)

/-- `parse_time` reads no character after the `'\0'` exactly when the string is a number of seconds
or every step of the loop fits. -/
theorem inside_parseTime_iff (clock : Clock) (s : List Char) (past : Bool) :
    Inside (parseTime clock s past) (fun _ => True) ↔
      startsWith s 0 "uts".toList = true ∨
        ∀ pos st c, Comes clock s pos st → s[pos]? = some c → isEnd c = false →
          StepFits s pos := by
  unfold parseTime
  by_cases huts : startsWith s 0 "uts".toList = true
  · rw [if_pos huts]
    exact iff_of_true (inside_ite (fun _ => trivial) fun _ => trivial) (Or.inl huts)
  · rw [if_neg huts, or_iff_right huts, ← inside_loop_iff clock s]
    rcases scan nul isEnd (parseBody clock s) s (s.length + 1) 0 .init with (e | _ | _) | st
    · exact Iff.rfl
    · exact Iff.rfl
    · exact Iff.rfl
    · exact iff_of_true (inside_finish clock past st) trivial

end Slurm.ParseTime
