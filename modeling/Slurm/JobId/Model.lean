import Slurm.Bitstring.RoundTrip

/-!
# Job id strings

`src/common/slurm_protocol_defs.c`: `unfmt_job_id_string`, `fmt_job_id_string`, and the reading of an
array expression by `slurm_array_str2bitmap` and `slurm_parse_array_tok`.

A string is the list of its characters before the `'\0'`, and a pointer into it is what is left of
it.  The next character is looked at as `head?`, which is `none` at the `'\0'`; a pointer that is
moved past the `'\0'`, or an entry of `step_names` that does not exist, is a fault.  Fields are
counted in 32 bits.
-/

namespace Slurm.JobId

open Lib.Decimal
open Slurm.Bitstring (Bitstr ValidSize bitAlloc bitSet bitFls bitFfs bitFmtFull)
open Slurm.Hostlist (isSpace strtoulSign)

/-! ## Values -/

def noVal : Nat := 0xfffffffe

def maxFedJobId : Int := 0xfffffffd

def maxHetJobComponents : Int := 128

def slurmMaxNormalStepId : Int := 0xfffffff0

/-- `LONG_MAX` -/
def longMax : Int := 9223372036854775807

/-- `LONG_MIN` -/
def longMin : Int := -9223372036854775808

/-- A number as it is stored in a `uint32_t`. -/
def u32 (v : Int) : Nat := (v % 4294967296).toNat

/-- `step_names` -/
def stepNames : List (List Char × Nat) :=
  [("TBD".toList, 0xfffffffd), ("extern".toList, 0xfffffffc), ("batch".toList, 0xfffffffb),
    ("interactive".toList, 0xfffffffa)]

/-- `slurm_selected_step_t`, with `step_id` in it.  A field that is not set is `NO_VAL`. -/
structure SelectedStep where
  arrayBitmap : Option Bitstr
  arrayTaskId : Nat
  hetJobOffset : Nat
  jobId : Nat
  stepHetComp : Nat
  stepId : Nat
  deriving DecidableEq

/-- The error codes. -/
inductive Rc where
  | slurmError
  | emptyJobId
  | invalidJobIdZero
  | invalidJobIdNegative
  | invalidJobIdTooLarge
  | invalidJobIdNonNumeric
  | emptyJobArrayId
  | invalidJobArrayIdNegative
  | invalidJobArrayIdTooLarge
  | invalidJobArrayIdNonNumeric
  | invalidHetJobAndArray
  | emptyHetJobComp
  | invalidHetJobCompNegative
  | invalidHetJobCompTooLarge
  | invalidHetJobCompNonNumeric
  | emptyStepId
  | invalidStepIdNegative
  | invalidStepIdTooLarge
  | invalidStepIdNonNumeric
  | invalidHetStepJob
  | emptyHetStep
  | invalidHetStepZero
  | invalidHetStepNegative
  | invalidHetStepTooLarge
  | invalidHetStepNonNumeric
  deriving DecidableEq

/-- Why a run ends without an id: an error code, a read of memory that is not there, or an assertion
that does not hold. -/
inductive Stop where
  | rc (code : Rc)
  | outOfBounds
  | assertFailed
  deriving DecidableEq

/-- A run. -/
abbrev Run (α : Type) : Type := Except Stop α

/-- An error code is returned. -/
def fail {α : Type} (code : Rc) : Run α := .error (.rc code)

/-! ## Strings -/

/-- The pointer after this one. -/
def advance : List Char → Run (List Char)
  | [] => .error .outOfBounds
  | _ :: s => .ok s

/-- The number at the start of a string, of any size, and what is after it. -/
def number (s : List Char) : Option Int × List Char :=
  if ((strtoulSign (s.dropWhile isSpace)).2.takeWhile Char.isDigit) = [] then (none, s)
  else
    (some (if (strtoulSign (s.dropWhile isSpace)).1 = true then
        -(value ((strtoulSign (s.dropWhile isSpace)).2.takeWhile Char.isDigit) : Int)
      else value ((strtoulSign (s.dropWhile isSpace)).2.takeWhile Char.isDigit)),
      (strtoulSign (s.dropWhile isSpace)).2.dropWhile Char.isDigit)

/-- What `strtol` gives: a `long`, the end pointer, and if `errno` is set. -/
structure Strtol where
  val : Int
  endPtr : List Char
  errno : Bool

/-- `strtol` in base 10. -/
def strtol (s : List Char) : Strtol where
  val := max longMin (min longMax ((number s).1.getD 0))
  endPtr := (number s).2
  errno := decide ((number s).1.getD 0 < longMin ∨ longMax < (number s).1.getD 0)

/-- All tokens that `strtok_r` finds between commas: there are no empty ones. -/
def strtok (s : List Char) : List (List Char) := (s.splitOn ',').filter (· ≠ [])

/-! ## Array expressions -/

/-- A closing bracket is skipped. -/
def skipClose (s : List Char) : Run (List Char) := if s.head? = some ']' then advance s else .ok s

/-- An opening bracket is skipped. -/
def skipOpen (s : List Char) : Run (List Char) := if s.head? = some '[' then advance s else .ok s

/-- A token may end here. -/
def TokEnds (s : List Char) : Prop := s.head? = none ∨ s.head? = some '%'

instance (s : List Char) : Decidable (TokEnds s) := inferInstanceAs (Decidable (_ ∨ _))

/-- The loop of `slurm_parse_array_tok` that sets bits. -/
def setSteps (b : Bitstr) (first last step : Int) : Bitstr :=
  (List.range ((last - first) / step + 1).toNat).foldl
    (fun b (k : Nat) => bitSet b (first + k * step).toNat) b

/-- The end of `slurm_parse_array_tok`. -/
def setTok (b : Bitstr) (max : Nat) (first last step : Int) : Option Bitstr :=
  if last < first then none
  else if last ≥ max then none
  else some (setSteps b first last step)

/-- `slurm_parse_array_tok`, where `none` is `false`. -/
def slurmParseArrayTok (tok : List Char) (b : Bitstr) (max : Nat) : Run (Option Bitstr) := do
  let first := strtol (← skipOpen tok)
  let endPtr ← skipClose first.endPtr
  if first.val < 0 then return none
  else if endPtr.head? = some '-' then
    let last := strtol (← advance endPtr)
    let endPtr ← skipClose last.endPtr
    if endPtr.head? = some ':' then
      let step := strtol (← advance endPtr)
      let endPtr ← skipClose step.endPtr
      if ¬ TokEnds endPtr then return none
      else if step.val ≤ 0 ∨ step.val ≥ max then return none
      else return setTok b max first.val last.val step.val
    else if ¬ TokEnds endPtr then return none
    else return setTok b max first.val last.val 1
  else if ¬ TokEnds endPtr then return none
  else return setTok b max first.val first.val 1

/-- The loop over the tokens. -/
def tokLoop (max : Nat) : List (List Char) → Bitstr → Run (Option Bitstr)
  | [], b => return some b
  | tok :: toks, b => do
    match ← slurmParseArrayTok tok b max with
    | none => return none
    | some b => tokLoop max toks b

/-- `slurm_array_str2bitmap`, where `none` is `NULL`. -/
def slurmArrayStr2bitmap (str : List Char) (maxArraySize : Nat) : Run (Option Bitstr) :=
  if h : maxArraySize ≠ noVal ∧ ValidSize maxArraySize then do
    match ← tokLoop maxArraySize (strtok str) (bitAlloc maxArraySize h.2) with
    | none => return none
    | some b => if bitFls b = none then return none else return some b
  else .error .assertFailed

/-! ## Reading -/

/-- The id before anything is read. -/
def blank : SelectedStep where
  arrayBitmap := none
  arrayTaskId := noVal
  hetJobOffset := noVal
  jobId := noVal
  stepHetComp := noVal
  stepId := noVal

/-- The job id. -/
def readJob (src : List Char) : Run (SelectedStep × List Char) :=
  if src.head? = none then fail .emptyJobId
  else if (strtol src).val = 0 then fail .invalidJobIdZero
  else if (strtol src).val < 0 then fail .invalidJobIdNegative
  else if (strtol src).val ≥ maxFedJobId then fail .invalidJobIdTooLarge
  else if (strtol src).endPtr = src then fail .invalidJobIdNonNumeric
  else if (strtol src).errno = true then fail .slurmError
  else .ok ({ blank with jobId := u32 (strtol src).val }, (strtol src).endPtr)

/-- An array expression in brackets.  The string starts with the `'_'`. -/
def readSet (maxArraySize : Nat) (id : SelectedStep) (s : List Char) :
    Run (SelectedStep × List Char) := do
  if maxArraySize = 0 ∨ maxArraySize = noVal then fail .invalidJobIdNonNumeric
  else
    let str ← advance s
    let closeBracket := (← advance str).dropWhile (· ≠ ']')
    if closeBracket = [] then fail .invalidJobArrayIdNonNumeric
    else
      let endPtr ← advance closeBracket
      if endPtr.head? ≠ none then fail .invalidJobArrayIdNonNumeric
      else
        match ← slurmArrayStr2bitmap str maxArraySize with
        | none => fail .invalidJobArrayIdNonNumeric
        | some b => return ({ id with arrayBitmap := some b }, endPtr)

/-- An array task.  The string starts with the `'_'`. -/
def readTask (id : SelectedStep) (s : List Char) : Run (SelectedStep × List Char) := do
  let t ← advance s
  if t.head? = none then fail .emptyJobArrayId
  else if (strtol t).val < 0 then fail .invalidJobArrayIdNegative
  else if (strtol t).val = longMax then fail .invalidJobArrayIdTooLarge
  else if (strtol t).endPtr = t then fail .invalidJobArrayIdNonNumeric
  else if (strtol t).errno = true then fail .slurmError
  else return ({ id with arrayTaskId := u32 (strtol t).val }, (strtol t).endPtr)

/-- What is after a `'_'`. -/
def readArray (maxArraySize : Nat) (id : SelectedStep) (s : List Char) :
    Run (SelectedStep × List Char) := do
  if s.head? = some '_' then
    if (← advance s).head? = some '[' then readSet maxArraySize id s
    else readTask id s
  else return (id, s)

/-- The component of a heterogeneous job. -/
def readHet (id : SelectedStep) (s : List Char) : Run (SelectedStep × List Char) := do
  if s.head? = some '+' then
    if id.arrayTaskId ≠ noVal then fail .invalidHetJobAndArray
    else
      let t ← advance s
      if t.head? = none then fail .emptyHetJobComp
      else if (strtol t).val < 0 then fail .invalidHetJobCompNegative
      else if (strtol t).val > maxHetJobComponents then fail .invalidHetJobCompTooLarge
      else if (strtol t).endPtr = t then fail .invalidHetJobCompNonNumeric
      else if (strtol t).errno = true then fail .slurmError
      else if (strtol t).endPtr.head? = some '_' then fail .invalidHetJobAndArray
      else return ({ id with hetJobOffset := u32 (strtol t).val }, (strtol t).endPtr)
  else return (id, s)

/-- `xstrncasecmp` finds the name at the start of a string. -/
def Named (name t : List Char) : Prop := (t.take name.length).map Char.toLower = name.map Char.toLower

instance (name t : List Char) : Decidable (Named name t) := inferInstanceAs (Decidable (_ = _))

/-- The loop over the step names, from entry `i` on. -/
def findName (t : List Char) (i : Nat) : Run (Int × List Char) :=
  match h : stepNames[i]? with
  | none => .error .outOfBounds
  | some (name, stepId) =>
    if Named name t then .ok (stepId, t.drop name.length)
    else if i = stepNames.length then fail .invalidStepIdNonNumeric
    else findName t (i + 1)
termination_by stepNames.length - i
decreasing_by
  have := (List.getElem?_eq_some_iff.mp h).1
  omega

/-- The step, and what is after it. -/
def readStepId (t : List Char) : Run (Int × List Char) :=
  if (strtol t).endPtr = t then findName t 0
  else if (strtol t).val < 0 then fail .invalidStepIdNegative
  else if (strtol t).val ≥ slurmMaxNormalStepId then fail .invalidStepIdTooLarge
  else if (strtol t).errno = true then fail .slurmError
  else .ok ((strtol t).val, (strtol t).endPtr)

/-- What is after the step. -/
def readHetStep (id : SelectedStep) (s : List Char) : Run SelectedStep := do
  if s.head? = none then return id
  else if s.head? ≠ some '+' then fail .invalidStepIdNonNumeric
  else if id.hetJobOffset ≠ noVal then fail .invalidHetStepJob
  else
    let t ← advance s
    if t.head? = none then return id
    else if (strtol t).endPtr = t then fail .emptyHetStep
    else if (strtol t).val = 0 then fail .invalidHetStepZero
    else if (strtol t).val < 0 then fail .invalidHetStepNegative
    else if (strtol t).val ≥ maxHetJobComponents then fail .invalidHetStepTooLarge
    else if (strtol t).errno = true then fail .slurmError
    else if (strtol t).endPtr.head? ≠ none then fail .invalidHetStepNonNumeric
    else return { id with stepHetComp := u32 (strtol t).val }

/-- What is after the job. -/
def readStep (id : SelectedStep) (s : List Char) : Run SelectedStep := do
  if s.head? = none then return id
  else if s.head? ≠ some '.' then fail .invalidJobIdNonNumeric
  else
    let t ← advance s
    if t.head? = none then fail .emptyStepId
    else
      let (step, endPtr) ← readStepId t
      readHetStep { id with stepId := u32 step } endPtr

/-- `unfmt_job_id_string` -/
def unfmtJobIdString (src : List Char) (maxArraySize : Nat) : Run SelectedStep := do
  let (id, s) ← readJob src
  let (id, s) ← readArray maxArraySize id s
  let (id, s) ← readHet id s
  readStep id s

/-! ## Writing -/

/-- `%u` -/
def decimal (n : Nat) : List Char := Nat.toDigits 10 n

/-- The text of a step. -/
def stepText (stepId : Nat) : List Char :=
  match stepNames.find? fun entry => decide (entry.2 = stepId) with
  | some entry => entry.1
  | none => decimal stepId

/-- A number after a mark, if it is set. -/
def marked (mark : Char) (n : Nat) : List Char := if n = noVal then [] else mark :: decimal n

/-- `fmt_job_id_string` -/
def fmtJobIdString (id : SelectedStep) : Except Rc (List Char) :=
  if id.jobId = noVal then .error .emptyJobId
  else if id.arrayTaskId ≠ noVal ∧ id.hetJobOffset ≠ noVal then .error .invalidHetJobAndArray
  else if id.arrayBitmap.any (fun b => (bitFfs b).isSome) = true then
    .ok (decimal id.jobId ++ '_' :: '[' :: ((id.arrayBitmap.bind bitFmtFull).getD [] ++ [']']))
  else if id.stepId = noVal ∧ id.stepHetComp ≠ noVal then .error .emptyStepId
  else
    .ok (decimal id.jobId ++ marked '_' id.arrayTaskId ++ marked '+' id.hetJobOffset ++
      if id.stepId = noVal then [] else '.' :: stepText id.stepId ++ marked '+' id.stepHetComp)

end Slurm.JobId
