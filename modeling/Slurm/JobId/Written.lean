import Slurm.JobId.Model

/-!
# What a job id string has written in it

The components of a job id string, with numbers of any size and with a place for each number that is
missing.  An array expression may have empty tokens, and a `%` with what is after it says nothing
about the id.

* `Written.InRange`: the components are ones that are accepted.
* `Written.Complete`: nothing is missing, and an array task is below `NO_VAL`.
* `Written.Denotes`: an id has the components, each with its written value.
-/

namespace Slurm.JobId

open Slurm.Bitstring (Bitstr ValidSize bitAlloc)

/-! ## Array expressions -/

/-- A token: a task, or two of them with a dash between, and a step after a colon. -/
structure Item where
  first : Option Int
  last : Option (Option Int)
  step : Option (Option Int)

/-- The text without a closing bracket in front. -/
def dropClose (s : List Char) : List Char := if s.head? = some ']' then s.tail else s

/-- The item of a token without its opening bracket. -/
def scanItem (t : List Char) : Option Item :=
  let s := dropClose (number t).2
  if s.head? = some '-' then
    let u := dropClose (number s.tail).2
    if u.head? = some ':' then
      if TokEnds (dropClose (number u.tail).2) then
        some ⟨(number t).1, some (number s.tail).1, some (number u.tail).1⟩
      else none
    else if TokEnds u then some ⟨(number t).1, some (number s.tail).1, none⟩
    else none
  else if TokEnds s then some ⟨(number t).1, none, none⟩
  else none

/-- The text without an opening bracket in front. -/
def dropOpen (s : List Char) : List Char := if s.head? = some '[' then s.tail else s

/-- The item of a token. -/
def scanTok (tok : List Char) : Option Item := scanItem (dropOpen tok)

/-- The first task. -/
def Item.lo (item : Item) : Int := item.first.getD 0

/-- The last task. -/
def Item.hi (item : Item) : Int := (item.last.map fun last => last.getD 0).getD item.lo

/-- The distance between two tasks. -/
def Item.stride (item : Item) : Int := (item.step.map fun step => step.getD 0).getD 1

structure Item.InRange (max : Nat) (item : Item) : Prop where
  lo_nonneg : 0 ≤ item.lo
  lo_le : item.lo ≤ item.hi
  hi_lt : item.hi < max
  step : ∀ step, item.step = some step → 0 < item.stride ∧ item.stride < max

/-- Each number of the item is there. -/
structure Item.Complete (item : Item) : Prop where
  first : item.first ≠ none
  last : item.last ≠ some none
  step : item.step ≠ some none

/-- The item has a task. -/
def Item.Has (item : Item) (task : Nat) : Prop :=
  item.lo ≤ task ∧ task ≤ item.hi ∧ item.stride ∣ task - item.lo

/-! ## After the job -/

/-- What is between the job and the step: an array expression, an array task or the component of a
heterogeneous job.  A component after an array task has a place of its own. -/
inductive Middle where
  | plain
  | set (items : List Item)
  | task (v : Int) (comp : Option Int)
  | het (v : Int)

/-- An array expression in brackets, from its opening bracket on. -/
def scanSet (s : List Char) : Option (Middle × List Char) :=
  if s.tail.dropWhile (· ≠ ']') = [']'] then
    ((strtok s).mapM scanTok).map fun items => (.set items, [])
  else none

/-- The component of a heterogeneous job, after its mark. -/
def scanHet (t : List Char) : Option (Int × List Char) :=
  (number t).1.bind fun v => if (number t).2.head? = some '_' then none else some (v, (number t).2)

/-- An array task, after its mark. -/
def scanTask (t : List Char) : Option (Middle × List Char) :=
  (number t).1.bind fun v =>
    if (number t).2.head? = some '+' then
      (scanHet (number t).2.tail).map fun r => (.task v (some r.1), r.2)
    else some (.task v none, (number t).2)

/-- What is between the job and the step, and the text after it. -/
def scanMiddle (s : List Char) : Option (Middle × List Char) :=
  if s.head? = some '_' then
    if s.tail.head? = some '[' then scanSet s.tail else scanTask s.tail
  else if s.head? = some '+' then (scanHet s.tail).map fun r => (.het r.1, r.2)
  else some (.plain, s)

def HetInRange (v : Int) : Prop := 0 ≤ v ∧ v ≤ maxHetJobComponents

def TaskInRange (v : Int) : Prop := 0 ≤ v ∧ v < longMax

/-- The components are ones that are accepted.  A component after an array task is accepted only where
the task is stored as `NO_VAL`. -/
def Middle.InRange (max : Nat) : Middle → Prop
  | .plain => True
  | .set items => ValidSize max ∧ ∀ item ∈ items, item.InRange max
  | .task v none => TaskInRange v
  | .task v (some comp) => TaskInRange v ∧ u32 v = noVal ∧ HetInRange comp
  | .het v => HetInRange v

/-- There is the component of a heterogeneous job. -/
def Middle.IsHet : Middle → Prop
  | .task _ (some _) => True
  | .het _ => True
  | _ => False

def Middle.Complete : Middle → Prop
  | .set items => ∀ item ∈ items, item.Complete
  | .task v _ => v < noVal
  | _ => True

/-! ## Steps -/

/-- A step is a number or one of the names. -/
inductive StepId where
  | number (v : Int)
  | name (stepId : Nat)

/-- A step, and what is after a plus behind it. -/
structure StepPart where
  id : StepId
  plus : Option (Option Int)

/-- The name at the start of a text, and what is after it. -/
def nameOf (t : List Char) : Option (Nat × List Char) :=
  (stepNames.find? fun entry => decide (Named entry.1 t)).map fun entry =>
    (entry.2, t.drop entry.1.length)

/-- The step at the start of a text, and what is after it. -/
def scanStepId (t : List Char) : Option (StepId × List Char) :=
  match (number t).1 with
  | some v => some (.number v, (number t).2)
  | none => (nameOf t).map fun r => (.name r.1, r.2)

/-- What is after a step. -/
def scanPlus (s : List Char) : Option (Option (Option Int)) :=
  if s = [] then some none
  else if s.head? = some '+' then
    if s.tail = [] then some (some none)
    else if (number s.tail).2 = [] then (number s.tail).1.map fun v => some (some v)
    else none
  else none

/-- What is after the job. -/
def scanStep (s : List Char) : Option (Option StepPart) :=
  if s = [] then some none
  else if s.head? = some '.' then
    (scanStepId s.tail).bind fun r => (scanPlus r.2).map fun plus => some ⟨r.1, plus⟩
  else none

def StepId.InRange : StepId → Prop
  | .number v => 0 ≤ v ∧ v < slurmMaxNormalStepId
  | .name _ => True

/-- There is nothing after the step of a heterogeneous job. -/
structure PlusInRange (isHet : Prop) (plus : Option (Option Int)) : Prop where
  single : plus ≠ none → ¬ isHet
  het : ∀ v, plus = some (some v) → 0 < v ∧ v < maxHetJobComponents

structure StepPart.InRange (isHet : Prop) (part : StepPart) : Prop where
  id : part.id.InRange
  plus : PlusInRange isHet part.plus

/-! ## Strings -/

/-- The components of a string. -/
structure Written where
  job : Int
  middle : Middle
  step : Option StepPart

/-- The components that a string has written in it. -/
def scan (src : List Char) : Option Written :=
  (number src).1.bind fun job =>
    (scanMiddle (number src).2).bind fun r => (scanStep r.2).map fun step => ⟨job, r.1, step⟩

def JobInRange (v : Int) : Prop := 0 < v ∧ v < maxFedJobId

/-- The components are ones that are accepted. -/
structure Written.InRange (max : Nat) (w : Written) : Prop where
  job : JobInRange w.job
  middle : w.middle.InRange max
  step : ∀ part, w.step = some part → part.InRange w.middle.IsHet

/-- Nothing is missing, and an array task is below `NO_VAL`. -/
structure Written.Complete (w : Written) : Prop where
  middle : w.middle.Complete
  step : ∀ part, w.step = some part → part.plus ≠ some none

/-- The bitmap of an array expression. -/
structure SetDenotes (max : Nat) (items : List Item) (b : Bitstr) : Prop where
  nbits : b.nbits = max
  bits : ∀ task, b.bit task = true ↔ ∃ item ∈ items, item.Has task

/-- The fields of what is between the job and the step. -/
def Middle.Denotes (max : Nat) (id : SelectedStep) : Middle → Prop
  | .plain => id.arrayBitmap = none ∧ id.arrayTaskId = noVal ∧ id.hetJobOffset = noVal
  | .set items => (∃ b, id.arrayBitmap = some b ∧ SetDenotes max items b) ∧ id.arrayTaskId = noVal ∧
      id.hetJobOffset = noVal
  | .task v comp => id.arrayBitmap = none ∧ ((id.arrayTaskId : Int) = v ∧ id.arrayTaskId < noVal) ∧
      comp = none ∧ id.hetJobOffset = noVal
  | .het v => id.arrayBitmap = none ∧ id.arrayTaskId = noVal ∧ (id.hetJobOffset : Int) = v ∧
      id.hetJobOffset < noVal

/-- The field of a step. -/
def StepId.Denotes (id : SelectedStep) : StepId → Prop
  | .number v => (id.stepId : Int) = v ∧ id.stepId < noVal
  | .name stepId => id.stepId = stepId

/-- The fields of a step and of what is after it. -/
structure StepPart.Denotes (id : SelectedStep) (part : StepPart) : Prop where
  step : part.id.Denotes id
  absent : part.plus = none → id.stepHetComp = noVal
  het : ∀ v, part.plus = some (some v) → (id.stepHetComp : Int) = v ∧ id.stepHetComp < noVal

/-- An id has the components, each with its written value. -/
structure Written.Denotes (max : Nat) (id : SelectedStep) (w : Written) : Prop where
  job : (id.jobId : Int) = w.job
  middle : w.middle.Denotes max id
  absent : w.step = none → id.stepId = noVal ∧ id.stepHetComp = noVal
  step : ∀ part, w.step = some part → part.Denotes id

/-! ## What is stored -/

/-- The bitmap that an array expression is stored as. -/
def bitmapOf (max : Nat) (items : List Item) : Option Bitstr :=
  if h : ValidSize max then
    some (items.foldl (fun b item => setSteps b item.lo item.hi item.stride) (bitAlloc max h))
  else none

/-- What is between the job and the step, as it is stored. -/
def Middle.store (max : Nat) (id : SelectedStep) : Middle → SelectedStep
  | .plain => id
  | .set items => { id with arrayBitmap := bitmapOf max items }
  | .task v none => { id with arrayTaskId := u32 v }
  | .task v (some comp) => { id with arrayTaskId := u32 v, hetJobOffset := u32 comp }
  | .het v => { id with hetJobOffset := u32 v }

/-- The value of a step. -/
def StepId.val : StepId → Int
  | .number v => v
  | .name stepId => stepId

/-- What is after a step, as it is stored. -/
def storePlus (id : SelectedStep) : Option (Option Int) → SelectedStep
  | some (some v) => { id with stepHetComp := u32 v }
  | _ => id

/-- A step, as it is stored. -/
def StepPart.store (id : SelectedStep) (part : StepPart) : SelectedStep :=
  storePlus { id with stepId := u32 part.id.val } part.plus

/-- What is after the job, as it is stored. -/
def storeStep (id : SelectedStep) (step : Option StepPart) : SelectedStep :=
  step.elim id fun part => part.store id

/-- The components, as they are stored. -/
def Written.store (max : Nat) (w : Written) : SelectedStep :=
  storeStep (w.middle.store max { blank with jobId := u32 w.job }) w.step

end Slurm.JobId
