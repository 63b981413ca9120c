import Slurm.ParseTime.ParsePlaces

/-!
# The contract of `parse_time`

`parseContract_iff` says exactly for which string `parse_time` stays inside it and returns the time
that a phrase such as `now+5days` denotes.

After `now` the place `pos` should become the place `i` of the sign.  It becomes `pos + i`, so with
blanks before `now` as many characters after the sign are left out, which are digits of the number,
or the place is behind the end.  And a digit at the end of the string is taken for the start of a
time or date, for which the character two places after it is read.

* `getDelta_text`: the number that is read after `now`.
* `parseTime_text_iff`: the phrases whose time is returned.
-/

namespace Slurm.ParseTime

open Lib.Decimal (IsNumber value)
open Lib.Scanf (isSpace)
open Lib.Scanning List

/-! ## Phrases -/

/-- What may come after `now`: a sign, a number and a unit of the table. -/
structure Offset where
  minus : Bool
  digits : List Char
  isNumber : IsNumber digits
  unit : UnitName
  unit_mem : unit ∈ un

/-- The seconds that the digits say, in the unit and with the sign. -/
def Offset.seconds (o : Offset) (digits : List Char) : Int :=
  if o.minus then -((value digits : Int) * o.unit.multiplier)
  else (value digits : Int) * o.unit.multiplier

def Offset.sign (o : Offset) : Char := if o.minus then '-' else '+'

def Offset.text (o : Offset) : List Char := o.sign :: (o.digits ++ o.unit.name)

/-- Blanks, `now`, and what may come after it. -/
structure NowPhrase where
  blanks : List Char
  isBlank_of_mem : ∀ c ∈ blanks, isBlank c = true
  offset : Option Offset

/-- What comes after `now`. -/
def NowPhrase.tail (phrase : NowPhrase) : List Char :=
  match phrase.offset with
  | none => []
  | some o => o.text

/-- The string of a phrase. -/
def NowPhrase.text (phrase : NowPhrase) : List Char :=
  phrase.blanks ++ ("now".toList ++ phrase.tail)

/-- The time that a phrase denotes. -/
def NowPhrase.time (clock : Clock) (phrase : NowPhrase) : Int :=
  match phrase.offset with
  | none => clock.timeNow
  | some o => clock.timeNow + o.seconds o.digits

/-- The local time, in the year that is taken for it: a `tm_year` of -1 says that there is none. -/
def Clock.inYear (clock : Clock) (past : Bool) (tm : Tm) : Tm :=
  if tm.year = -1 then { tm with year := impliedYear clock past (St.init.setAll tm) } else tm

/-- The time zone takes the local time of `t'` for the time `t`. -/
def Clock.Gives (clock : Clock) (past : Bool) (t' t : Int) : Prop :=
  clock.mktime (clock.inYear past (clock.localtime (wrapLong t'))) = t ∧ t ≠ -1

/-- The contract: no character behind the `'\0'` is read, the loop ends, and for a phrase with
`now` its time is returned. -/
structure ParseContract (clock : Clock) (s : List Char) (past : Bool) : Prop where
  inside : parseTime clock s past ≠ .error .outside
  ends : parseTime clock s past ≠ .error .fuel
  now : ∀ phrase : NowPhrase, phrase.text = s → parseTime clock s past = .ok (phrase.time clock)

/-- There are no blanks before `now`, or fewer than digits after it and what is left of these says
the same time. -/
def NowPhrase.Exact (clock : Clock) (past : Bool) (phrase : NowPhrase) : Prop :=
  match phrase.offset with
  | none => phrase.blanks = [] ∧ clock.Gives past clock.timeNow clock.timeNow
  | some o =>
    phrase.blanks.length < o.digits.length ∧
      clock.Gives past (clock.timeNow + o.seconds (o.digits.drop phrase.blanks.length))
        (clock.timeNow + o.seconds o.digits)

/-! ## What a `long` holds -/

theorem wrapLong_mul (x y : Int) : wrapLong (wrapLong x * y) = wrapLong (x * y) :=
  Int.bmod_mul_bmod

theorem wrapLong_add (x y : Int) : wrapLong (wrapLong x + y) = wrapLong (x + y) :=
  Int.bmod_add_bmod

theorem wrapLong_add_right (x y : Int) : wrapLong (x + wrapLong y) = wrapLong (x + y) :=
  Int.add_bmod_bmod

theorem wrapLong_neg (x : Int) : wrapLong (-wrapLong x) = wrapLong (-x) := by
  have h := wrapLong_mul x (-1)
  rw [mul_neg_one, mul_neg_one] at h
  exact h

/-! ## The number -/

/-- A digit begins no unit. -/
theorem find_un_of_digit {c : Char} (rest : List Char) (hdigit : c.isDigit = true) :
    (un.find? fun u => startsWith (c :: rest) 0 u.name) = none := by
  have hhead : ∀ u ∈ un, WordHead u.name = true := by decide
  rw [List.find?_eq_none]
  intro u hu
  rw [not_startsWith_of_digit rfl hdigit (hhead u hu)]
  exact Bool.noConfusion

/-- A digit is added to the number. -/
theorem deltaLoop_digit {c : Char} (hdigit : c.isDigit = true) (rest : List Char) (offset : Nat)
    (n : Nat) (digit : Nat) :
    deltaLoop (c :: rest) offset (wrapLong n) digit =
      deltaLoop rest (offset + 1) (wrapLong (10 * n + (c.toNat - '0'.toNat) : Nat)) (digit + 1) := by
  have hline : c ≠ '\n' := by
    rintro rfl
    exact absurd hdigit (by decide)
  have hspace := (Lib.Scanf.digit_plain hdigit).1
  have hrange := Lib.Decimal.isDigit_iff.mp hdigit
  have hvalue : (n : Int) * 10 + digitOf c = (10 * n + (c.toNat - '0'.toNat) : Nat) := by
    unfold digitOf
    have hzero : '0'.toNat = 48 := rfl
    omega
  rw [deltaLoop, if_neg hline, hspace, if_neg Bool.noConfusion, find_un_of_digit rest hdigit]
  show (if c.isDigit then _ else _) = _
  rw [if_pos hdigit, wrapLong_mul, wrapLong_add, hvalue]

/-- A unit ends the number. -/
theorem deltaLoop_unit {u : UnitName} (hu : u ∈ un) (offset : Nat) (cnt : Int) (digit : Nat) :
    deltaLoop u.name offset cnt digit =
      .ok (offset + u.name.length, wrapLong (cnt * u.multiplier), digit) := by
  simp only [un, mem_cons, not_mem_nil, or_false] at hu
  rcases hu with rfl | rfl | rfl | rfl | rfl | rfl | rfl | rfl | rfl | rfl <;> rfl

theorem deltaLoop_digits {u : UnitName} (hu : u ∈ un) {digits : List Char}
    (hdigits : ∀ c ∈ digits, c.isDigit = true) (offset n digit : Nat) :
    deltaLoop (digits ++ u.name) offset (wrapLong n) digit =
      .ok (offset + digits.length + u.name.length,
        wrapLong ((Nat.ofDigitChars 10 digits n : Nat) * u.multiplier), digit + digits.length) := by
  induction digits generalizing offset n digit with
  | nil =>
    rw [nil_append, deltaLoop_unit hu, wrapLong_mul]
    rfl
  | cons c digits ih =>
    have hc := hdigits c mem_cons_self
    rw [cons_append, deltaLoop_digit hc, ih fun c hc => hdigits c (mem_cons_of_mem _ hc),
      Nat.ofDigitChars_cons, length_cons]
    congr 2
    · omega
    · congr 1
      omega

/-- Without a digit none is counted. -/
theorem deltaLoop_no_digit {l : List Char} (hl : ∀ c ∈ l, c.isDigit = false) {offset digit : Nat}
    {cnt : Int} {r : Nat × Int × Nat} (h : deltaLoop l offset cnt digit = .ok r) : r.2.2 = digit := by
  induction l generalizing offset cnt with
  | nil =>
    cases h
    rfl
  | cons c rest ih =>
    have hrest : ∀ c ∈ rest, c.isDigit = false := fun c hc => hl c (mem_cons_of_mem _ hc)
    rw [deltaLoop] at h
    split at h
    · cases h
      rfl
    · split at h
      · exact ih hrest h
      · split at h
        · cases h
          rfl
        · rw [hl c mem_cons_self] at h
          cases h

/-! ## What is read after `now` -/

variable (phrase : NowPhrase) {o : Offset}

/-- The place of `now`. -/
def NowPhrase.place : Nat := phrase.blanks.length

theorem drop_text (k : Nat) :
    phrase.text.drop (phrase.place + k) = ("now".toList ++ phrase.tail).drop k := by
  unfold NowPhrase.text NowPhrase.place
  exact drop_length_add_append k

theorem length_text : phrase.text.length = phrase.place + 3 + phrase.tail.length := by
  unfold NowPhrase.text NowPhrase.place
  rw [length_append, length_append, ← Nat.add_assoc]
  rfl

theorem startsWith_text : startsWith phrase.text phrase.place "now".toList = true := by
  have hdrop := drop_text phrase 0
  rw [Nat.add_zero, drop_zero] at hdrop
  unfold startsWith
  rw [hdrop, take_left]
  decide

/-- There are no more blanks after `now`. -/
theorem afterNow_text : afterNow phrase.text phrase.place = phrase.place + 3 := by
  have htail : phrase.tail.takeWhile isBlank = [] := by
    unfold NowPhrase.tail
    split
    · rfl
    · rename_i o _
      unfold Offset.text Offset.sign
      cases o.minus <;> rfl
  have hdrop : ("now".toList ++ phrase.tail).drop 3 = phrase.tail := rfl
  unfold afterNow placeAfter
  rw [drop_text, hdrop, htail]
  rfl

theorem charAt_end (h : phrase.offset = none) :
    charAt phrase.text (phrase.place + 3) = .ok nul := by
  have hlen := length_text phrase
  unfold NowPhrase.tail at hlen
  rw [h] at hlen
  exact hlen ▸ charAt_length phrase.text

theorem charAt_sign (h : phrase.offset = some o) :
    charAt phrase.text (phrase.place + 3) = .ok o.sign := by
  have hdrop := drop_text phrase 3
  unfold NowPhrase.tail at hdrop
  rw [h] at hdrop
  apply charAt_of_lt
  rw [← head?_drop, hdrop]
  rfl

/-- As many characters after the sign are left out as there are blanks. -/
theorem drop_sign (h : phrase.offset = some o) :
    phrase.text.drop (phrase.place + (phrase.place + 3) + 1) =
      (o.digits ++ o.unit.name).drop phrase.place := by
  have hplace : phrase.place + (phrase.place + 3) + 1 = phrase.place + (phrase.place + 4) := by omega
  rw [hplace, drop_text]
  unfold NowPhrase.tail
  rw [h]
  rfl

theorem length_text_some (h : phrase.offset = some o) :
    phrase.text.length = phrase.place + 4 + o.digits.length + o.unit.name.length := by
  have hlen := length_text phrase
  unfold NowPhrase.tail at hlen
  rw [h] at hlen
  simp only [Offset.text, length_cons, length_append] at hlen
  omega

/-- The digits behind those that are left out are read. -/
theorem getDelta_text (h : phrase.offset = some o) (hlt : phrase.place < o.digits.length) :
    getDelta phrase.text (phrase.place + (phrase.place + 3)) =
      .ok (phrase.text.length,
        wrapLong (value (o.digits.drop phrase.place) * o.unit.multiplier)) := by
  have hlen := length_text_some phrase h
  have hdigits : ∀ c ∈ o.digits.drop phrase.place, c.isDigit = true := fun c hc =>
    o.isNumber.2 c (mem_of_mem_drop hc)
  have hloop := deltaLoop_digits o.unit_mem hdigits (phrase.place + (phrase.place + 3) + 1) 0 0
  obtain ⟨c, hc⟩ : ∃ c, charAt phrase.text (phrase.place + (phrase.place + 3) + 1) = .ok c :=
    exists_look nul (by omega)
  unfold getDelta
  rw [hc, drop_sign phrase h, drop_append_of_le_length hlt.le]
  show deltaLoop _ _ (wrapLong (0 : Nat)) 0 >>= _ = _
  rw [hloop]
  show (if 0 + (o.digits.drop phrase.place).length = 0 then prob else _) = _
  rw [length_drop, if_neg (by omega)]
  have hplace : phrase.place + (phrase.place + 3) + 1 + (o.digits.length - phrase.place) +
      o.unit.name.length = phrase.text.length := by omega
  rw [hplace]
  rfl

/-- Where all digits are left out there is no number. -/
theorem getDelta_text_failed (h : phrase.offset = some o) (hle : o.digits.length ≤ phrase.place)
    (r : Nat × Int) : getDelta phrase.text (phrase.place + (phrase.place + 3)) ≠ .ok r := by
  intro hr
  have hname : ∀ u ∈ un, u.name.all (fun c => !c.isDigit) = true := by decide
  have hrest : ∀ c ∈ (o.digits ++ o.unit.name).drop phrase.place, c.isDigit = false := by
    intro c hc
    rw [drop_append, drop_eq_nil_of_le hle, nil_append] at hc
    have hall := List.all_eq_true.mp (hname o.unit o.unit_mem) c (mem_of_mem_drop hc)
    rwa [Bool.not_eq_true'] at hall
  unfold getDelta at hr
  rw [drop_sign phrase h] at hr
  rcases hc : charAt phrase.text (phrase.place + (phrase.place + 3) + 1) with e | c
  · rw [hc] at hr
    cases hr
  · rw [hc] at hr
    rcases hloop : deltaLoop ((o.digits ++ o.unit.name).drop phrase.place)
        (phrase.place + (phrase.place + 3) + 1) 0 0 with e | ⟨offset, cnt, digit⟩
    · rw [show (Except.ok c >>= fun _ => _ : Parse (Nat × Int)) = _ from rfl, hloop] at hr
      cases hr
    · have hzero : digit = 0 := deltaLoop_no_digit hrest hloop
      rw [hloop] at hr
      change (if digit = 0 then prob else _) = _ at hr
      rw [if_pos hzero] at hr
      cases hr

theorem getNow_text_none (h : phrase.offset = none) :
    getNow phrase.text phrase.place = .ok (phrase.place + (phrase.place + 3), 0) := by
  obtain ⟨-, -, c, hc, hread⟩ := getNow_eq (startsWith_text phrase)
  rw [afterNow_text] at hc hread
  rw [charAt_end phrase h] at hc
  cases hc
  rw [hread, if_neg (by decide), if_neg (by decide), if_pos (Or.inl rfl)]
  rfl

/-- The sign is that of the phrase. -/
theorem getNow_text_sign (h : phrase.offset = some o) :
    getNow phrase.text phrase.place =
      getDelta phrase.text (phrase.place + (phrase.place + 3)) >>= fun r =>
        pure (r.1, if o.minus then wrapLong (-r.2) else r.2) := by
  obtain ⟨-, -, c, hc, hread⟩ := getNow_eq (startsWith_text phrase)
  rw [afterNow_text] at hc hread
  rw [charAt_sign phrase h] at hc
  cases hc
  rw [hread]
  unfold Offset.sign
  cases o.minus with
  | true => rfl
  | false =>
    show getDelta phrase.text (phrase.place + (phrase.place + 3)) = _
    rcases getDelta phrase.text (phrase.place + (phrase.place + 3)) with e | r <;> rfl

/-- The number that is read, which may have wrapped around. -/
theorem getNow_text_some (h : phrase.offset = some o) (hlt : phrase.place < o.digits.length) :
    ∃ delta, getNow phrase.text phrase.place = .ok (phrase.text.length, delta) ∧
      ∀ t, wrapLong (t + delta) = wrapLong (t + o.seconds (o.digits.drop phrase.place)) := by
  rw [getNow_text_sign phrase h, getDelta_text phrase h hlt]
  refine ⟨_, rfl, fun t => ?_⟩
  unfold Offset.seconds
  cases o.minus with
  | true =>
    show wrapLong (t + wrapLong (-wrapLong _)) = _
    rw [wrapLong_neg, wrapLong_add_right]
    rfl
  | false => exact wrapLong_add_right _ _

theorem getNow_text_failed (h : phrase.offset = some o) (hle : o.digits.length ≤ phrase.place)
    (r : Nat × Int) : getNow phrase.text phrase.place ≠ .ok r := by
  rw [getNow_text_sign phrase h]
  rcases hr : getDelta phrase.text (phrase.place + (phrase.place + 3)) with e | r'
  · exact fun heq => by cases heq
  · exact absurd hr (getDelta_text_failed phrase h hle r')

/-! ## The loop over a phrase -/

variable (clock : Clock) (past : Bool)

/-- The blanks are passed. -/
theorem comes_blanks {k : Nat} (hk : k ≤ phrase.place) : Comes clock phrase.text k .init := by
  induction k with
  | zero => exact .start
  | succ k ih =>
    have hlt : k < phrase.blanks.length := hk
    have hc : phrase.text[k]? = some phrase.blanks[k] := by
      unfold NowPhrase.text
      rw [getElem?_append_left hlt, getElem?_eq_getElem hlt]
    have hblank := phrase.isBlank_of_mem _ (getElem_mem hlt)
    have hpassed : passed phrase.blanks[k] = true := by
      unfold passed
      rw [hblank]
      rfl
    have hstop : isEnd phrase.blanks[k] = false := by
      unfold isBlank at hblank
      simp only [Bool.or_eq_true, beq_iff_eq] at hblank
      rcases hblank with h | h <;> rw [h] <;> decide
    exact (ih (by omega)).next (look_of_lt nul hc) hstop (parseBody_passed clock hc hpassed .init)

theorem getElem?_place : phrase.text[phrase.place]? = some 'n' := by
  have hdrop := drop_text phrase 0
  rw [← head?_drop, ← Nat.add_zero phrase.place, hdrop]
  rfl

/-- A phrase is no number of seconds. -/
theorem not_uts : startsWith phrase.text 0 "uts".toList = false := by
  apply Bool.eq_false_of_not_eq_true
  intro huts
  rcases hblanks : phrase.blanks with _ | ⟨c, rest⟩
  · have hn := getElem?_place phrase
    unfold NowPhrase.place at hn
    rw [hblanks] at hn
    exact absurd (head_of_startsWith hn huts) (by decide)
  · have hc : phrase.text[0]? = some c := by
      unfold NowPhrase.text
      rw [hblanks]
      rfl
    have hblank := phrase.isBlank_of_mem c (hblanks ▸ mem_cons_self)
    have hhead := head_of_startsWith hc huts
    unfold isBlank at hblank
    simp only [Bool.or_eq_true, beq_iff_eq] at hblank
    rcases hblank with rfl | rfl <;> exact absurd hhead (by decide)

/-- The local time that is taken for what was read. -/
def readTime (delta : Int) : St :=
  St.init.setAll (clock.localtime (wrapLong (clock.timeNow + delta)))

/-- After the blanks it is `now` that is read, and then the rest. -/
theorem parseTime_text : ∃ fuel, parseTime clock phrase.text past =
    getNow phrase.text phrase.place >>= fun r =>
      scan nul isEnd (parseBody clock phrase.text) phrase.text (fuel + 1) (r.1 - 1 + 1)
        (readTime clock r.2) >>= finish clock past := by
  obtain ⟨fuel, hfuel, hscan⟩ :=
    scan_of_reaches (forward_parseBody clock phrase.text) (comes_blanks phrase clock (Nat.le_refl _))
  have hlen := length_text phrase
  obtain ⟨fuel, rfl⟩ : ∃ n, fuel = n + 2 := ⟨fuel - 2, by omega⟩
  have hn := getElem?_place phrase
  have hnow := startsWith_text phrase
  have hbody := parseBody_of_not_earlier clock hn (by decide) (not_earlier_of_now hnow) .init
  rw [if_pos hnow] at hbody
  refine ⟨fuel, ?_⟩
  unfold parseTime
  rw [not_uts, if_neg Bool.noConfusion, hscan, scan_succ _ _ _ (look_of_lt nul hn), hbody]
  rcases getNow phrase.text phrase.place with e | r <;> rfl

/-- A number up to the end of the string. -/
theorem parseTime_of_end {delta : Int}
    (h : getNow phrase.text phrase.place = .ok (phrase.text.length, delta)) :
    parseTime clock phrase.text past = finish clock past (readTime clock delta) := by
  obtain ⟨fuel, heq⟩ := parseTime_text phrase clock past
  have hlen := length_text phrase
  have hplace : phrase.text.length - 1 + 1 = phrase.text.length := by omega
  rw [heq, h]
  show scan _ _ _ _ _ (phrase.text.length - 1 + 1) _ >>= _ = _
  rw [hplace, scan_succ _ _ _ (look_length nul _)]
  rfl

/-- A place behind the end of the string. -/
theorem parseTime_of_outside {r : Nat × Int} (h : getNow phrase.text phrase.place = .ok r)
    (hlt : phrase.text.length < r.1) : parseTime clock phrase.text past = .error .outside := by
  obtain ⟨fuel, heq⟩ := parseTime_text phrase clock past
  have hplace : r.1 - 1 + 1 = r.1 := by omega
  rw [heq, h]
  show scan _ _ _ _ _ (r.1 - 1 + 1) _ >>= _ = _
  rw [hplace, scan, look_of_length_lt nul hlt]
  rfl

theorem parseTime_of_failed {e : Stop Unit} (h : getNow phrase.text phrase.place = .error e) :
    parseTime clock phrase.text past = .error e := by
  obtain ⟨fuel, heq⟩ := parseTime_text phrase clock past
  rw [heq, h]
  rfl

/-! ## The time -/

theorem finish_setAll (t : Int) :
    finish clock past (St.init.setAll (clock.localtime t)) =
      if clock.mktime (clock.inYear past (clock.localtime t)) ≠ -1 then
        .ok (clock.mktime (clock.inYear past (clock.localtime t)))
      else prob := by
  have hhour : (clock.localtime t).hour ≠ -1 := by
    have := clock.hour_nonneg t
    omega
  have hmon : (clock.localtime t).mon ≠ -1 := by
    have := clock.mon_nonneg t
    omega
  unfold finish
  rw [if_neg (fun h => hhour h.1)]
  unfold St.complete
  rw [if_neg (show ¬ (St.init.setAll (clock.localtime t)).hour = -1 from hhour),
    if_neg (show ¬ (St.init.setAll (clock.localtime t)).month = -1 from hmon)]
  unfold Clock.inYear
  by_cases hyear : (clock.localtime t).year = -1
  · rw [if_pos hyear, if_pos (show (St.init.setAll (clock.localtime t)).year = -1 from hyear)]
    rfl
  · rw [if_neg hyear, if_neg (show ¬ (St.init.setAll (clock.localtime t)).year = -1 from hyear)]
    rfl

/-- The time that is returned is the one that the time zone gives. -/
theorem finish_readTime {delta t' t : Int}
    (h : wrapLong (clock.timeNow + delta) = wrapLong t') :
    finish clock past (readTime clock delta) = .ok t ↔ clock.Gives past t' t := by
  unfold readTime Clock.Gives
  rw [finish_setAll, h]
  split
  · rename_i hne
    rw [Except.ok.injEq]
    constructor
    · intro heq
      exact ⟨heq, heq ▸ hne⟩
    · intro hgives
      exact hgives.1
  · rename_i heq
    rw [not_not] at heq
    rw [heq]
    constructor
    · intro hok
      cases hok
    · intro hgives
      exact absurd hgives.1.symm hgives.2

/-- The time of a phrase is returned exactly when no blanks come before `now`, or digits after it
are left that say the same time. -/
theorem parseTime_text_iff :
    parseTime clock phrase.text past = .ok (phrase.time clock) ↔ phrase.Exact clock past := by
  unfold NowPhrase.time NowPhrase.Exact
  rcases hoffset : phrase.offset with _ | o
  · have hnow := getNow_text_none phrase hoffset
    have hlen := length_text phrase
    unfold NowPhrase.tail at hlen
    rw [hoffset] at hlen
    change phrase.text.length = phrase.place + 3 at hlen
    by_cases hblanks : phrase.blanks = []
    · have hplace : phrase.place = 0 := by
        unfold NowPhrase.place
        rw [hblanks]
        rfl
      have hend : phrase.place + (phrase.place + 3) = phrase.text.length := by omega
      rw [hend] at hnow
      rw [parseTime_of_end phrase clock past hnow, and_iff_right hblanks]
      exact finish_readTime clock past (by rw [add_zero])
    · have hpos : 0 < phrase.place := length_pos_of_ne_nil hblanks
      have hout : phrase.text.length < phrase.place + (phrase.place + 3) := by omega
      rw [parseTime_of_outside phrase clock past hnow hout]
      exact iff_of_false (fun h => by cases h) (fun h => hblanks h.1)
  · by_cases hlt : phrase.place < o.digits.length
    · obtain ⟨delta, hnow, hdelta⟩ := getNow_text_some phrase hoffset hlt
      rw [parseTime_of_end phrase clock past hnow]
      show _ ↔ phrase.place < o.digits.length ∧ _
      rw [and_iff_right hlt]
      exact finish_readTime clock past (hdelta _)
    · refine iff_of_false (fun h => ?_) (fun h => hlt h.1)
      rcases hnow : getNow phrase.text phrase.place with e | r
      · rw [parseTime_of_failed phrase clock past hnow] at h
        cases h
      · exact getNow_text_failed phrase hoffset (not_lt.mp hlt) r hnow

/-! ## The contract -/

/-- The contract holds exactly when every step of the loop fits, unless the string is a number of
seconds; and, for a phrase with `now`, no digit is left out that counts. -/
theorem parseContract_iff (s : List Char) :
    ParseContract clock s past ↔
      (startsWith s 0 "uts".toList = true ∨
        ∀ pos st c, Comes clock s pos st → s[pos]? = some c → isEnd c = false → StepFits s pos) ∧
      ∀ phrase : NowPhrase, phrase.text = s → phrase.Exact clock past := by
  have hinside : Inside (parseTime clock s past) (fun _ => True) ↔
      parseTime clock s past ≠ .error .outside ∧ parseTime clock s past ≠ .error .fuel := by
    rcases parseTime clock s past with (e | _ | _) | t <;> simp
  have hnow : (∀ phrase : NowPhrase, phrase.text = s →
      parseTime clock s past = .ok (phrase.time clock)) ↔
        ∀ phrase : NowPhrase, phrase.text = s → phrase.Exact clock past := by
    refine forall_congr' fun phrase => forall_congr' fun htext => ?_
    rw [← htext]
    exact parseTime_text_iff phrase clock past
  rw [← inside_parseTime_iff clock s past, hinside, ← hnow]
  constructor
  · intro h
    exact ⟨⟨h.inside, h.ends⟩, h.now⟩
  · intro h
    exact ⟨h.1.1, h.1.2, h.2⟩

/-- The first day of 1970 in UTC, at noon. -/
def newYear : Clock where
  timeNow := 43200
  localtime t := ⟨t % 60, t / 60 % 60, t / 3600 % 24, 1, 0, 70⟩
  mktime tm := tm.sec + 60 * (tm.min + 60 * tm.hour)
  hour_nonneg t := Int.emod_nonneg _ (by decide)
  mon_nonneg _ := Int.le_refl 0

/-- With a blank before `now` the loop goes on behind the end of the string. -/
theorem not_parseContract_blank : ¬ ParseContract newYear " now".toList false := by
  intro h
  exact h.inside rfl

/-- The first digit of the number is left out. -/
example : parseTime newYear " now+15minutes".toList false = .ok (43200 + 5 * 60) := rfl

end Slurm.ParseTime
