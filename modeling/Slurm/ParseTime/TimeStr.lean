import Slurm.Lib.Int32
import Slurm.Lib.Scanf

/-!
# Time limits (`common/parse_time.c`)

`time_str2secs` reads a time limit in one of the forms `min`, `min:sec`, `h:min:sec`, `d-h`,
`d-h:min` and `d-h:min:sec`, after `_is_valid_timespec` has looked at it.  A value that does
not fit into an `int` is `none`; the numbers that `sscanf` reads are `int` values, too.

A string is the list of its characters.
-/

namespace Slurm.ParseTime

open Lib.Decimal
open Lib.Int32 (checked)
open Lib.Scanf

/-- `INFINITE`, as an `int`. -/
def infinite : Int := -1

/-- `NO_VAL`, as an `int`. -/
def noVal : Int := -2

/-- `xstrcasecmp` finds no difference. -/
def sameLetters (s t : List Char) : Bool := s.map Char.toLower == t.map Char.toLower

/-! ## The validator -/

/-- The local variables of `_is_valid_timespec`. -/
structure Spec where
  digit : Nat
  dash : Nat
  colon : Nat
  alreadyDigit : Bool

/-- One character, or none where `false` is returned. -/
def timespecStep (k : Spec) (c : Char) : Option Spec :=
  if c.isDigit then
    if k.alreadyDigit then some k else some { k with digit := k.digit + 1, alreadyDigit := true }
  else if c = '-' then
    if k.colon ≠ 0 then none else some { k with dash := k.dash + 1, alreadyDigit := false }
  else if c = ':' then some { k with colon := k.colon + 1, alreadyDigit := false }
  else none

/-- The checks after the loop. -/
def timespecEnd (k : Spec) : Bool :=
  if k.digit = 0 then false
  else if 1 < k.dash ∨ 2 < k.colon then false
  else if k.dash ≠ 0 then
    if k.colon = 1 ∧ k.digit < 3 then false
    else if k.colon = 2 ∧ k.digit < 4 then false
    else true
  else
    if k.colon = 1 ∧ k.digit < 2 then false
    else if k.colon = 2 ∧ k.digit < 3 then false
    else true

/-- `_is_valid_timespec` -/
def isValidTimespec (s : List Char) : Bool :=
  match s.foldlM timespecStep ⟨0, 0, 0, false⟩ with
  | none => false
  | some k => timespecEnd k

/-! ## Reading -/

/-- The `int` values that `sscanf` sets, in the order of the format. -/
def sscanf (seps s : List Char) : Option (List Int) := (fields seps s).mapM checked

/-- `d + h + m + s` -/
def sumUp (d h m s : Int) : Option Int := do
  let t ← checked (d + h)
  let t ← checked (t + m)
  checked (t + s)

/-- The names of `INFINITE`. -/
def Named (s : List Char) : Prop :=
  sameLetters s "-1".toList ∨ sameLetters s "INFINITE".toList ∨ sameLetters s "UNLIMITED".toList

instance (s : List Char) : Decidable (Named s) := inferInstanceAs (Decidable (_ ∨ _))

/-- `days-[hours[:minutes[:seconds]]]` -/
def readDays (string : List Char) : Option Int := do
  let v ← sscanf ['-', ':', ':'] string
  let d ← checked (v.getD 0 0 * 86400)
  let h ← checked (v.getD 1 0 * 3600)
  let m ← checked (v.getD 2 0 * 60)
  sumUp d h m (v.getD 3 0)

/-- `hours:minutes:seconds`, or `minutes[:seconds]` where `sscanf` does not set three numbers. -/
def readHours (string : List Char) : Option Int := do
  let v ← sscanf [':', ':'] string
  if v.length = 3 then do
    let h ← checked (v.getD 0 0 * 3600)
    let m ← checked (v.getD 1 0 * 60)
    sumUp 0 h m (v.getD 2 0)
  else do
    let s := v.getD 1 0
    let m ← checked (v.getD 0 0 * 60)
    sumUp 0 0 m s

/-- `time_str2secs` -/
def timeStr2secs : Option (List Char) → Option Int
  | none => some noVal
  | some [] => some noVal
  | some string =>
    if Named string then some infinite
    else if isValidTimespec string = false then some noVal
    else if '-' ∈ string then readDays string
    else readHours string

/-- `time_str2mins` -/
def timeStr2mins (string : Option (List Char)) : Option Int := do
  let i ← timeStr2secs string
  if i ≠ infinite ∧ i ≠ noVal then do
    let i ← checked (i + 59)
    pure (i.tdiv 60)
  else pure i

/-! ## Printing -/

/-- `snprintf` to `size` bytes. -/
def snprintf (size : Nat) (text : List Char) : List Char := text.take (size - 1)

/-- What is printed for the four numbers. -/
def timeText (days hours minutes seconds : Int) : List Char :=
  if days < 0 ∨ hours < 0 ∨ minutes < 0 ∨ seconds < 0 then "INVALID".toList
  else
    let clock := padded 2 hours.toNat ++
      ':' :: (padded 2 minutes.toNat ++ ':' :: padded 2 seconds.toNat)
    if days ≠ 0 then padded 1 days.toNat ++ '-' :: clock else clock

/-- The text of `secs2time_str`. -/
def secsText (time : Int) : List Char :=
  if time = 0xffffffff then "UNLIMITED".toList
  else
    timeText (time.tdiv 86400) ((time.tdiv 3600).tmod 24) ((time.tdiv 60).tmod 60) (time.tmod 60)

/-- `secs2time_str` -/
def secs2timeStr (time : Int) (size : Nat) : List Char := snprintf size (secsText time)

/-- The text of `mins2time_str`. -/
def minsText (time : BitVec 32) : List Char :=
  if time = 0xffffffff then "UNLIMITED".toList
  else timeText (time.toNat / 1440) (time.toNat / 60 % 24) (time.toNat % 60) 0

/-- `mins2time_str` -/
def mins2timeStr (time : BitVec 32) (size : Nat) : List Char := snprintf size (minsText time)

end Slurm.ParseTime
