import Slurm.Lib.Scanf
import Slurm.Lib.Scanning

/-!
# Points in time (`common/parse_time.c`)

`parse_time` reads an expression such as `tomorrow 10:30`, `2025-01-31T08:00` or `now+5days`.  One
place, `pos`, is moved on by a loop over the string and by the functions that read a number of
seconds, a time and a date.

A string is the list of its characters; `charAt` finds the `'\0'` behind the last one, and nothing
behind that.  Places are natural numbers.  A `long` that does not fit wraps around.  A failure at
`prob` leaves out the place that its message names; the caller gets 0 then.

The time zone is a parameter: `Clock` has `localtime_r` and `slurm_mktime`, and the current time.
-/

namespace Slurm.ParseTime

open Lib.Scanf (isSpace decimal)
open Lib.Scanning

/-- The result of a function that reads. -/
abbrev Parse (α : Type) := Except (Stop Unit) α

/-- `goto prob` -/
def prob {α : Type} : Parse α := .error (.failed ())

/-- `'\0'` -/
def nul : Char := Char.ofNat 0

/-- `time_str[i]` -/
def charAt (s : List Char) (i : Nat) : Parse Char := look nul s i

/-- `isblank` -/
def isBlank (c : Char) : Bool := c == ' ' || c == '\t'

/-- `!xstrncasecmp(time_str + pos, word, strlen(word))`, for a word in small letters. -/
def startsWith (s : List Char) (pos : Nat) (word : List Char) : Bool :=
  ((s.drop pos).take word.length).map Char.toLower == word

/-- The first place from `i` on where the test fails. -/
def placeAfter (test : Char → Bool) (s : List Char) (i : Nat) : Nat :=
  i + ((s.drop i).takeWhile test).length

/-- The loop that goes on while the test holds of the character at `i`. -/
def skipWhile (test : Char → Bool) (s : List Char) (i : Nat) : Parse Nat := do
  let _ ← charAt s i
  pure (placeAfter test s i)

/-- What a `long` holds. -/
def wrapLong (x : Int) : Int := x.bmod (2 ^ 64)

/-- `LONG_MAX` -/
def longMax : Int := 2 ^ 63 - 1

/-- `strtol` in base 10: the number and the rest of the string. -/
def strtol (s : List Char) : Int × List Char :=
  match decimal s with
  | none => (0, s)
  | some (n, rest) => (max (-2 ^ 63) (min longMax n), rest)

/-! ## Times -/

/-- `struct tm` -/
structure Tm where
  sec : Int
  min : Int
  hour : Int
  mday : Int
  mon : Int
  year : Int

/-- The current time and the time zone. -/
structure Clock where
  timeNow : Int
  localtime : Int → Tm
  mktime : Tm → Int
  hour_nonneg : ∀ t, 0 ≤ (localtime t).hour
  mon_nonneg : ∀ t, 0 ≤ (localtime t).mon

/-- The local variables that are read into. -/
structure St where
  hour : Int
  minute : Int
  second : Int
  month : Int
  mday : Int
  year : Int

/-- Nothing is read yet. -/
def St.init : St := ⟨-1, -1, 0, -1, -1, -1⟩

/-- The day is set. -/
def St.setDay (st : St) (tm : Tm) : St := { st with month := tm.mon, mday := tm.mday, year := tm.year }

/-- The time of the day is set. -/
def St.setTime (st : St) (hour minute second : Int) : St :=
  { st with hour := hour, minute := minute, second := second }

/-! ## `_get_delta` -/

/-- `unit_names_t` -/
structure UnitName where
  name : List Char
  multiplier : Int

/-- `un` -/
def un : List UnitName :=
  [⟨"seconds".toList, 1⟩, ⟨"second".toList, 1⟩, ⟨"minutes".toList, 60⟩, ⟨"minute".toList, 60⟩,
    ⟨"hours".toList, 60 * 60⟩, ⟨"hour".toList, 60 * 60⟩, ⟨"days".toList, 24 * 60 * 60⟩,
    ⟨"day".toList, 24 * 60 * 60⟩, ⟨"weeks".toList, 7 * 24 * 60 * 60⟩,
    ⟨"week".toList, 7 * 24 * 60 * 60⟩]

/-- `'0'` is taken off. -/
def digitOf (c : Char) : Int := (c.toNat : Int) - 48

/-- The loop, with the string from `offset` on: the place where it ends, and `cnt` and `digit`. -/
def deltaLoop : List Char → Nat → Int → Nat → Parse (Nat × Int × Nat)
  | [], offset, cnt, digit => .ok (offset, cnt, digit)
  | c :: rest, offset, cnt, digit =>
    if c = '\n' then .ok (offset, cnt, digit)
    else if isSpace c then deltaLoop rest (offset + 1) cnt digit
    else
      match un.find? fun u => startsWith (c :: rest) 0 u.name with
      | some u => .ok (offset + u.name.length, wrapLong (cnt * u.multiplier), digit)
      | none =>
        if c.isDigit then
          deltaLoop rest (offset + 1) (wrapLong (wrapLong (cnt * 10) + digitOf c)) (digit + 1)
        else prob

/-- `_get_delta`: the place after what was read, and the seconds. -/
def getDelta (s : List Char) (pos : Nat) : Parse (Nat × Int) := do
  let _ ← charAt s (pos + 1)
  let (offset, cnt, digit) ← deltaLoop (s.drop (pos + 1)) (pos + 1) 0 0
  if digit = 0 then prob else pure (offset, cnt)

/-! ## `_get_time` -/

/-- A digit, and the place after it. -/
def digitAt (s : List Char) (offset : Nat) : Parse (Int × Nat) := do
  let c ← charAt s offset
  if c.isDigit then pure (digitOf c, offset + 1) else prob

/-- One digit, and another one where there is one. -/
def moreDigit (s : List Char) (n : Int) (offset : Nat) : Parse (Int × Nat) := do
  let c ← charAt s offset
  if c.isDigit then pure (n * 10 + digitOf c, offset + 1) else pure (n, offset)

/-- The second digit of the hour, where there is no `':'` yet. -/
def hourDigit (s : List Char) (hr : Int) (offset : Nat) : Parse (Int × Nat) := do
  let c ← charAt s offset
  if c ≠ ':' then do
    let (d, offset) ← digitAt s offset
    pure (hr * 10 + d, offset)
  else pure (hr, offset)

/-- The hour, which has one digit or two before the `':'`. -/
def getHour (s : List Char) (pos : Nat) : Parse (Int × Nat) := do
  let (hr, offset) ← digitAt s pos
  let (hr, offset) ← hourDigit s hr offset
  if 23 < hr then prob
  else do
    let c ← charAt s offset
    if c ≠ ':' then prob else pure (hr, offset + 1)

/-- Two digits of a number below 60. -/
def getSixty (s : List Char) (offset : Nat) : Parse (Int × Nat) := do
  let (a, offset) ← digitAt s offset
  let (b, offset) ← digitAt s offset
  if 59 < a * 10 + b then prob else pure (a * 10 + b, offset)

/-- The optional second. -/
def getSecond (s : List Char) (offset : Nat) : Parse (Int × Nat) := do
  let c ← charAt s offset
  if c = ':' then getSixty s (offset + 1) else pure (0, offset)

/-- `PM` or `AM`, after blanks. -/
def getHalf (s : List Char) (hr : Int) (offset : Nat) : Parse (Int × Nat) :=
  if startsWith s offset "pm".toList then
    if 23 < hr + 12 then
      if hr + 12 = 24 then pure (12, offset + 2) else prob
    else pure (hr + 12, offset + 2)
  else if startsWith s offset "am".toList then
    if 11 < hr then
      if hr = 12 then pure (0, offset + 2) else prob
    else pure (hr, offset + 2)
  else pure (hr, offset)

/-- `_get_time`: the place after what was read, and the time. -/
def getTime (s : List Char) (pos : Nat) (st : St) : Parse (Nat × St) := do
  let (hr, offset) ← getHour s pos
  let (min, offset) ← getSixty s offset
  let (sec, offset) ← getSecond s offset
  let offset ← skipWhile isSpace s offset
  let (hr, offset) ← getHalf s hr offset
  pure (offset, st.setTime hr min sec)

/-! ## `_get_date` -/

/-- The form with the year first, which is taken where the two `'-'` are in place. -/
def getIsoDate (s : List Char) (offset : Nat) (st : St) : Parse (Nat × St) := do
  let (a, offset) ← digitAt s offset
  let (b, offset) ← digitAt s offset
  let (c, offset) ← digitAt s offset
  let (d, offset) ← digitAt s offset
  let offset := offset + 1
  let m ← charAt s offset
  let (mon, offset) ← moreDigit s (digitOf m) (offset + 1)
  if mon < 1 ∨ 12 < mon then prob
  else do
    let offset := offset + 1
    let (day, offset) ← digitAt s offset
    let (day, offset) ← moreDigit s day offset
    if day < 1 ∨ 31 < day then prob
    else
      pure (offset, { st with
        month := mon - 1
        mday := day
        year := ((a * 10 + b) * 10 + c) * 10 + d - 1900 })

/-- A `'.'` or `'/'` is passed. -/
def passSeparator (s : List Char) (offset : Nat) : Parse Nat := do
  let c ← charAt s offset
  pure (if c = '.' ∨ c = '/' then offset + 1 else offset)

/-- The optional year, or 0. -/
def getYear (s : List Char) (offset : Nat) : Parse (Int × Nat) := do
  let c ← charAt s offset
  if c.isDigit then do
    let (d, offset) ← digitAt s (offset + 1)
    pure (digitOf c * 10 + d, offset)
  else pure (0, offset)

/-- The form with the month first. -/
def getMonthDate (s : List Char) (offset : Nat) (st : St) : Parse (Nat × St) := do
  let m ← charAt s offset
  let (mon, offset) ← moreDigit s (digitOf m) (offset + 1)
  if mon < 1 ∨ 12 < mon then prob
  else do
    let offset ← passSeparator s offset
    let (day, offset) ← digitAt s offset
    let (day, offset) ← moreDigit s day offset
    if day < 1 ∨ 31 < day then prob
    else do
      let offset ← passSeparator s offset
      let (yr, offset) ← getYear s offset
      let st := { st with month := mon - 1, mday := day }
      pure (offset, if yr ≠ 0 then { st with year := yr + 100 } else st)

/-- `_get_date`: the place after what was read, and the date. -/
def getDate (s : List Char) (pos : Nat) (st : St) : Parse (Nat × St) := do
  if pos + 7 ≤ s.length then
    let c ← charAt s (pos + 4)
    if c = '-' then
      let c ← charAt s (pos + 7)
      if c = '-' then getIsoDate s pos st else getMonthDate s pos st
    else getMonthDate s pos st
  else getMonthDate s pos st

/-! ## `parse_time` -/

/-- The words for a time of the day, and the hour. -/
def hourWords : List (List Char × Int) :=
  [("midnight".toList, 0), ("noon".toList, 12), ("elevenses".toList, 11), ("fika".toList, 15),
    ("teatime".toList, 16)]

/-- What comes after `now`, which is at `pos`: the place that `pos` is set to, and the seconds.
The index of the character after the blanks is added to `pos`. -/
def getNow (s : List Char) (pos : Nat) : Parse (Nat × Int) := do
  let i ← skipWhile isBlank s (pos + 3)
  let c ← charAt s i
  if c = '+' then getDelta s (pos + i)
  else if c = '-' then do
    let (offset, delta) ← getDelta s (pos + i)
    pure (offset, wrapLong (-delta))
  else if c = nul ∨ c = '\n' then pure (pos + i, 0)
  else prob

/-- The time and the day are set. -/
def St.setAll (st : St) (tm : Tm) : St := (st.setDay tm).setTime tm.hour tm.min tm.sec

/-- A time or a date, which starts with a digit. -/
def getNumeric (s : List Char) (pos : Nat) (st : St) : Parse (Nat × St) := do
  let c₁ ← charAt s (pos + 1)
  if c₁ = ':' then getTime s pos st
  else do
    let c₂ ← charAt s (pos + 2)
    if c₂ = ':' then getTime s pos st else getDate s pos st

/-- The body of the loop, up to the last place of what it has read. -/
def parseBody (clock : Clock) (s : List Char) (pos : Nat) (st : St) : Parse (Nat × St) := do
  let c ← charAt s pos
  if isBlank c || c == '-' || c == 'T' then pure (pos, st)
  else if startsWith s pos "today".toList then
    pure (pos + 4, st.setDay (clock.localtime clock.timeNow))
  else if startsWith s pos "tomorrow".toList then
    pure (pos + 7, st.setDay (clock.localtime (wrapLong (clock.timeNow + 24 * 60 * 60))))
  else
    match hourWords.find? fun w => startsWith s pos w.1 with
    | some (word, hour) => pure (pos + word.length - 1, st.setTime hour 0 0)
    | none =>
      if startsWith s pos "now".toList then do
        let (offset, delta) ← getNow s pos
        pure (offset - 1, st.setAll (clock.localtime (wrapLong (clock.timeNow + delta))))
      else if c.isDigit then do
        let (offset, st) ← getNumeric s pos st
        pure (offset - 1, st)
      else prob

/-- What the loop stops at. -/
def isEnd (c : Char) : Bool := c == nul || c == '\n'

/-- The day where only a time was given. -/
def impliedDay (clock : Clock) (past : Bool) (st : St) : Tm :=
  let now := clock.localtime clock.timeNow
  if past ∨ now.hour < st.hour ∨ st.hour = now.hour ∧ now.min < st.minute then now
  else clock.localtime (wrapLong (clock.timeNow + 24 * 60 * 60))

/-- The year where none was given. -/
def impliedYear (clock : Clock) (past : Bool) (st : St) : Int :=
  let now := clock.localtime clock.timeNow
  if past then
    if now.mon < st.month then now.year - 1 else now.year
  else if now.mon < st.month ∨ st.month = now.mon ∧ now.mday < st.mday ∨
      st.month = now.mon ∧ st.mday = now.mday ∧ now.hour < st.hour ∨
      st.month = now.mon ∧ st.mday = now.mday ∧ st.hour = now.hour ∧ now.min < st.minute then
    now.year
  else now.year + 1

/-- What is still missing is set. -/
def St.complete (clock : Clock) (past : Bool) (st : St) : St :=
  let st :=
    if st.hour = -1 then { st with hour := 0, minute := 0 }
    else if st.month = -1 then st.setDay (impliedDay clock past st)
    else st
  if st.year = -1 then { st with year := impliedYear clock past st } else st

/-- The time of what was read. -/
def finish (clock : Clock) (past : Bool) (st : St) : Parse Int :=
  if st.hour = -1 ∧ st.month = -1 then .ok 0
  else
    let st := st.complete clock past
    let retTime := clock.mktime ⟨st.second, st.minute, st.hour, st.mday, st.month, st.year⟩
    if retTime ≠ -1 then .ok retTime else prob

/-- `parse_time` -/
def parseTime (clock : Clock) (s : List Char) (past : Bool) : Parse Int :=
  if startsWith s 0 "uts".toList then
    let uts := strtol (s.drop 3)
    if uts.1 < 1000000 ∨ uts.1 = longMax ∨ uts.2 ≠ [] then prob else .ok uts.1
  else do
    let st ← scan nul isEnd (parseBody clock s) s (s.length + 1) 0 .init
    finish clock past st

end Slurm.ParseTime
