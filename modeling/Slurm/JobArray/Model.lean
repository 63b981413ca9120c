import Slurm.Bitstring.Sets
import Slurm.Lib.Linked

/-!
# Job arrays

The record of a job array holds its tasks in a bitmap until they are split off into records of their
own.  Records are found through three hash tables, which are chained through fields of the records.
A record is given by its number here, `0` is `NULL`.

* `findJobRecord`, `findJobArrayRec`: the searches.
* `jobArraySplit`, `jobArrayPreSched`, `jobArrayPostSched`: a task gets a record.
* `Step` and `exec`: what happens to the record of an array.
-/

namespace Slurm.JobArray

open Slurm.Bitstring Lib.Chains

/-! ## Records -/

/-- `NO_VAL` -/
def noVal : BitVec 32 := 0xfffffffe

/-- `INFINITE` -/
def infinite : BitVec 32 := 0xffffffff

/-- `job_array_struct_t`; the bitmap is `none` after it was freed. -/
structure ArrayStruct where
  taskIdBitmap : Option Bitstr
  taskCnt : BitVec 32

/-- `job_record_t` -/
structure JobRecord where
  jobId : BitVec 32
  arrayJobId : BitVec 32
  arrayTaskId : BitVec 32
  arrayRecs : Option ArrayStruct
  jobState : BitVec 32
  jobNext : Nat
  jobArrayNextJ : Nat
  jobArrayNextT : Nat

/-- `job_record_create` -/
def jobRecordCreate : JobRecord := ⟨0, 0, noVal, none, 0, 0, 0, 0⟩

/-- `IS_JOB_FINISHED` -/
def isJobFinished (r : JobRecord) : Bool := (r.jobState &&& 0xff).toNat > 2

/-- The records, which are numbered from `1` to `count`, and the hash tables. -/
structure JobMgr where
  count : Nat
  records : Nat → JobRecord
  hashTableSize : Nat
  jobHash : Nat → Nat
  jobArrayHashJ : Nat → Nat
  jobArrayHashT : Nat → Nat

/-- `JOB_HASH_INX` -/
def JobMgr.jobHashInx (m : JobMgr) (jobId : BitVec 32) : Nat := jobId.toNat % m.hashTableSize

/-- `JOB_ARRAY_HASH_INX` -/
def JobMgr.jobArrayHashInx (m : JobMgr) (jobId taskId : BitVec 32) : Nat :=
  (jobId + taskId).toNat % m.hashTableSize

/-- The record `p` is written. -/
def JobMgr.put (m : JobMgr) (p : Nat) (r : JobRecord) : JobMgr :=
  { m with records := Function.update m.records p r }

/-- `_create_job_record` -/
def createJobRecord (m : JobMgr) : JobMgr :=
  { m with
    count := m.count + 1
    records := Function.update m.records (m.count + 1) jobRecordCreate }

/-! ## Searches -/

/-- `find_job_record` -/
def findJobRecord (m : JobMgr) (jobId : BitVec 32) : Nat :=
  search (fun p => (m.records p).jobNext) (fun p => (m.records p).jobId == jobId) m.count
    (m.jobHash (m.jobHashInx jobId))

/-- The loop of `find_job_array_rec` for any task of an array: the first record that is not
finished, else the last one. -/
def findAnyTask (m : JobMgr) (arrayJobId : BitVec 32) : Nat → Nat → Nat → Nat
  | 0, _, found => found
  | fuel + 1, p, found =>
    if p = 0 then found
    else if (m.records p).arrayJobId = arrayJobId then
      if isJobFinished (m.records p) then
        findAnyTask m arrayJobId fuel (m.records p).jobArrayNextJ p
      else p
    else findAnyTask m arrayJobId fuel (m.records p).jobArrayNextJ found

/-- The record with all of the pending tasks, if the task is one of them. -/
def findPendingTask (m : JobMgr) (arrayJobId arrayTaskId : BitVec 32) : Nat :=
  let p := findJobRecord m arrayJobId
  if p = 0 then 0
  else
    match (m.records p).arrayRecs.bind ArrayStruct.taskIdBitmap with
    | none => 0
    | some bitmap =>
      if arrayTaskId.toNat < bitmap.nbits ∧ bitTest bitmap arrayTaskId.toNat then p else 0

/-- The search of `find_job_array_rec` through the hash table of tasks. -/
def findSplitTask (m : JobMgr) (arrayJobId arrayTaskId : BitVec 32) : Nat :=
  search (fun p => (m.records p).jobArrayNextT)
    (fun p => (m.records p).arrayJobId == arrayJobId && (m.records p).arrayTaskId == arrayTaskId)
    m.count (m.jobArrayHashT (m.jobArrayHashInx arrayJobId arrayTaskId))

/-- `find_job_array_rec` -/
def findJobArrayRec (m : JobMgr) (arrayJobId arrayTaskId : BitVec 32) : Nat :=
  if arrayTaskId = noVal then findJobRecord m arrayJobId
  else if arrayTaskId = infinite then
    let p := findJobRecord m arrayJobId
    if p ≠ 0 ∧ (m.records p).arrayRecs.isSome ∧ (m.records p).arrayJobId = arrayJobId then p
    else findAnyTask m arrayJobId m.count (m.jobArrayHashJ (m.jobHashInx arrayJobId)) 0
  else
    let p := findSplitTask m arrayJobId arrayTaskId
    if p ≠ 0 then p else findPendingTask m arrayJobId arrayTaskId

/-! ## Hash tables -/

/-- `_add_job_hash` -/
def addJobHash (m : JobMgr) (p : Nat) : JobMgr :=
  let inx := m.jobHashInx (m.records p).jobId
  { m.put p { m.records p with jobNext := m.jobHash inx } with
    jobHash := Function.update m.jobHash inx p }

/-- `_remove_job_hash` for `JOB_HASH_JOB`. -/
def removeJobHash (m : JobMgr) (p : Nat) : JobMgr :=
  let inx := m.jobHashInx (m.records p).jobId
  let next := (m.records p).jobNext
  match linkTo (fun q => (m.records q).jobNext) p m.count none (m.jobHash inx) with
  | none => m
  | some none =>
    { m.put p { m.records p with jobNext := 0 } with jobHash := Function.update m.jobHash inx next }
  | some (some q) =>
    let m := m.put q { m.records q with jobNext := next }
    m.put p { m.records p with jobNext := 0 }

/-- `_add_job_array_hash` -/
def addJobArrayHash (m : JobMgr) (p : Nat) : JobMgr :=
  let r := m.records p
  if r.arrayTaskId = noVal then m
  else
    let inxJ := m.jobHashInx r.arrayJobId
    let inxT := m.jobArrayHashInx r.arrayJobId r.arrayTaskId
    { m.put p { r with jobArrayNextJ := m.jobArrayHashJ inxJ, jobArrayNextT := m.jobArrayHashT inxT } with
      jobArrayHashJ := Function.update m.jobArrayHashJ inxJ p
      jobArrayHashT := Function.update m.jobArrayHashT inxT p }

/-! ## Arrays -/

/-- `_create_job_array`, which makes the record of a job that of an array. -/
def createJobArray (m : JobMgr) (p : Nat) (arrayBitmap : Bitstr) : JobMgr :=
  match bitFls arrayBitmap with
  | none => m
  | some maxTaskId =>
    if h : ValidSize (maxTaskId + 1) then
      let bitmap := bitRealloc arrayBitmap (maxTaskId + 1) h
      let recs : ArrayStruct := ⟨some bitmap, BitVec.ofNat 32 (bitSetCount bitmap)⟩
      m.put p { m.records p with arrayJobId := (m.records p).jobId, arrayRecs := some recs }
    else m

/-- `job_array_pre_sched` -/
def jobArrayPreSched (m : JobMgr) (p : Nat) : JobMgr :=
  let r := m.records p
  match r.arrayRecs with
  | none => m
  | some recs =>
    match recs.taskIdBitmap with
    | none => m
    | some bitmap =>
      match bitFfs bitmap with
      | none => m.put p { r with arrayRecs := some { recs with taskIdBitmap := none } }
      | some i => m.put p { r with arrayJobId := r.jobId, arrayTaskId := BitVec.ofNat 32 i }

/-- `job_array_post_sched` for the last task of an array. -/
def postSchedLast (m : JobMgr) (p : Nat) (recs : ArrayStruct) : JobMgr :=
  let r := m.records p
  let taskCnt := if recs.taskCnt ≠ 0 then recs.taskCnt - 1 else recs.taskCnt
  let taskIdBitmap := if taskCnt = 0 then none else recs.taskIdBitmap
  let m := m.put p { r with arrayRecs := some ⟨taskIdBitmap, taskCnt⟩ }
  if findJobArrayRec m r.arrayJobId r.arrayTaskId = 0 then addJobArrayHash m p else m

/-- The end of the part of `job_array_split` that takes the task out of the array, which is now in the
record `pend`.  For the last task that is left it calls `job_array_post_sched`, with at most one task. -/
def splitTask (m : JobMgr) (pend : Nat) (recs : ArrayStruct) : JobMgr :=
  let r := m.records pend
  let bitmap := recs.taskIdBitmap.map fun b => bitClear b r.arrayTaskId.toNat
  if recs.taskCnt ≠ 0 then
    let recs : ArrayStruct := ⟨bitmap, recs.taskCnt - 1⟩
    if recs.taskCnt.toNat ≤ 1 then
      match bitmap.bind bitFfs with
      | none => m.put pend { r with arrayRecs := some recs, arrayTaskId := noVal }
      | some i =>
        postSchedLast (m.put pend { r with arrayRecs := some recs, arrayTaskId := BitVec.ofNat 32 i })
          pend recs
    else m.put pend { r with arrayRecs := some recs, arrayTaskId := noVal }
  else m.put pend { r with arrayRecs := some ⟨bitmap, recs.taskCnt⟩, arrayTaskId := noVal }

/-- `job_array_split`, where `_set_job_id` gives the number `newId`: the new record, which takes the
array over.  `none` is `fatal_abort`. -/
def jobArraySplit (m : JobMgr) (p : Nat) (newId : BitVec 32) : Option (JobMgr × Nat) :=
  let pend := m.count + 1
  let m := createJobRecord m
  let jobId := (m.records p).jobId
  let m := removeJobHash m p
  let m := m.put p { m.records p with jobId := newId }
  match (m.records p).arrayRecs with
  | none => none
  | some recs =>
    let m := m.put pend { m.records p with jobId := jobId }
    let m := m.put p { m.records p with arrayRecs := none }
    let m := splitTask m pend recs
    let m := addJobHash m p
    let m := addJobHash m pend
    let m := addJobArrayHash m p
    some (m, pend)

/-- `job_array_post_sched` -/
def jobArrayPostSched (m : JobMgr) (p : Nat) (newId : BitVec 32) : Option (JobMgr × Nat) :=
  match (m.records p).arrayRecs with
  | none => some (m, p)
  | some recs =>
    if recs.taskIdBitmap.isNone then some (m, p)
    else if recs.taskCnt.toNat ≤ 1 then some (postSchedLast m p recs, p)
    else
      (jobArraySplit m p newId).map fun (m, new) => (m.put new { m.records new with jobState := 0 }, new)

/-! ## Runs -/

/-- What is done with the record of an array: it is scheduled, or one of its tasks is split off.  The
number is what `_set_job_id` gives, where it is called. -/
inductive Step where
  | sched (newId : BitVec 32)
  | split (task : Nat) (newId : BitVec 32)

/-- One step on the record with the job id `a`. -/
def exec (a : BitVec 32) (m : JobMgr) : Step → Option JobMgr
  | .sched newId =>
    let p := findJobRecord m a
    (jobArrayPostSched (jobArrayPreSched m p) p newId).map Prod.fst
  | .split task newId =>
    let p := findJobRecord m a
    (jobArraySplit (m.put p { m.records p with arrayTaskId := BitVec.ofNat 32 task }) p newId).map
      Prod.fst

end Slurm.JobArray

/-!
## The hash tables of job records

* `Tables`: the records that are in the hash tables, whatever else is in the records.
* `SameJobs`: only links between records and the tables were written.
* `Tables.addJob`, `Tables.removeJob`, `Tables.addArray`, `Tables.put`, `Tables.create`: the writes.
* `Tables.findJobRecord_eq`, `Tables.findSplitTask_eq`: the searches.
-/

namespace Slurm.JobArray

open Slurm.Bitstring Lib.Chains Function

variable {m m' m'' : JobMgr} {jobs arrays : Set Nat} {p q : Nat} {r : JobRecord}

/-! ## What is in a record besides links -/

/-- Records are alike up to their links. -/
structure SameRecord (r r' : JobRecord) : Prop where
  jobId : r'.jobId = r.jobId
  arrayJobId : r'.arrayJobId = r.arrayJobId
  arrayTaskId : r'.arrayTaskId = r.arrayTaskId
  arrayRecs : r'.arrayRecs = r.arrayRecs

theorem SameRecord.refl (r : JobRecord) : SameRecord r r := ⟨rfl, rfl, rfl, rfl⟩

theorem SameRecord.trans {r r' r'' : JobRecord} (h : SameRecord r r') (h' : SameRecord r' r'') :
    SameRecord r r'' :=
  ⟨h'.jobId.trans h.jobId, h'.arrayJobId.trans h.arrayJobId, h'.arrayTaskId.trans h.arrayTaskId,
    h'.arrayRecs.trans h.arrayRecs⟩

/-- Only links and tables were written. -/
structure SameJobs (m m' : JobMgr) : Prop where
  count : m'.count = m.count
  size : m'.hashTableSize = m.hashTableSize
  record : ∀ q, SameRecord (m.records q) (m'.records q)

theorem SameJobs.trans (h : SameJobs m m') (h' : SameJobs m' m'') : SameJobs m m'' :=
  ⟨h'.count.trans h.count, h'.size.trans h.size, fun q => (h.record q).trans (h'.record q)⟩

@[simp]
theorem put_records_self (m : JobMgr) (p : Nat) (r : JobRecord) : (m.put p r).records p = r :=
  update_self _ _ _

theorem put_records_of_ne (h : q ≠ p) : (m.put p r).records q = m.records q :=
  update_of_ne h _ _

theorem put_put (m : JobMgr) (p : Nat) (r r' : JobRecord) : (m.put p r).put p r' = m.put p r' := by
  simp [JobMgr.put]

theorem sameRecord_put (h : SameRecord (m.records p) r) (q : Nat) :
    SameRecord (m.records q) ((m.put p r).records q) := by
  by_cases hq : q = p
  · rw [hq, put_records_self]
    exact h
  · rw [put_records_of_ne hq]
    exact SameRecord.refl _

/-! ## The tables -/

/-- The records `jobs` are in the hash table of jobs, and `arrays` in those of arrays and tasks. -/
structure Tables (m : JobMgr) (jobs arrays : Set Nat) : Prop where
  job : Hashed (fun p => (m.records p).jobNext) (fun p => m.jobHashInx (m.records p).jobId) m.jobHash
    jobs m.count
  arrayJ : Hashed (fun p => (m.records p).jobArrayNextJ)
    (fun p => m.jobHashInx (m.records p).arrayJobId) m.jobArrayHashJ arrays m.count
  arrayT : Hashed (fun p => (m.records p).jobArrayNextT)
    (fun p => m.jobArrayHashInx (m.records p).arrayJobId (m.records p).arrayTaskId)
    m.jobArrayHashT arrays m.count

theorem field_update {α : Type} (f : JobRecord → α) (m : JobMgr) (p : Nat) (r : JobRecord) :
    (fun q => f ((m.put p r).records q)) = Function.update (fun q => f (m.records q)) p (f r) :=
  funext fun q => apply_update (fun _ => f) m.records p r q

theorem field_put {α : Type} {f : JobRecord → α} (hf : f r = f (m.records p)) (q : Nat) :
    f ((m.put p r).records q) = f (m.records q) := by
  by_cases hq : q = p
  · rw [hq, put_records_self, hf]
  · rw [put_records_of_ne hq]

/-- A record may get other fields than those that it is hashed by. -/
theorem Tables.put (h : Tables m jobs arrays)
    (hjob : p ∈ jobs → r.jobNext = (m.records p).jobNext ∧ r.jobId = (m.records p).jobId)
    (harray : p ∈ arrays → r.jobArrayNextJ = (m.records p).jobArrayNextJ ∧
      r.jobArrayNextT = (m.records p).jobArrayNextT ∧ r.arrayJobId = (m.records p).arrayJobId ∧
      r.arrayTaskId = (m.records p).arrayTaskId) : Tables (m.put p r) jobs arrays := by
  have hfield : ∀ {α : Type} (f : JobRecord → α) {s : Set Nat}, (p ∈ s → f r = f (m.records p)) →
      ∀ q ∈ s, f ((m.put p r).records q) = f (m.records q) := by
    intro α f s hf q hq
    by_cases hqp : q = p
    · rw [hqp, put_records_self, hf (hqp ▸ hq)]
    · rw [put_records_of_ne hqp]
  constructor
  · apply h.job.congr _ _ le_rfl
    · exact hfield JobRecord.jobNext fun hp => (hjob hp).1
    · intro q hq
      exact congrArg m.jobHashInx (hfield JobRecord.jobId (fun hp => (hjob hp).2) q hq)
  · apply h.arrayJ.congr _ _ le_rfl
    · exact hfield JobRecord.jobArrayNextJ fun hp => (harray hp).1
    · intro q hq
      exact congrArg m.jobHashInx (hfield JobRecord.arrayJobId (fun hp => (harray hp).2.2.1) q hq)
  · apply h.arrayT.congr _ _ le_rfl
    · exact hfield JobRecord.jobArrayNextT fun hp => (harray hp).2.1
    · intro q hq
      exact congrArg₂ m.jobArrayHashInx
        (hfield JobRecord.arrayJobId (fun hp => (harray hp).2.2.1) q hq)
        (hfield JobRecord.arrayTaskId (fun hp => (harray hp).2.2.2) q hq)

/-- A new record is in no table. -/
theorem Tables.create (h : Tables m jobs arrays) : Tables (createJobRecord m) jobs arrays := by
  have hold : ∀ {s : Set Nat}, (∀ q ∈ s, 0 < q ∧ q ≤ m.count) →
      ∀ q ∈ s, (createJobRecord m).records q = m.records q := by
    intro s hs q hq
    have hle := (hs q hq).2
    exact update_of_ne (by omega) _ _
  constructor
  · apply h.job.congr _ _ (Nat.le_succ _)
    · exact fun q hq => congrArg _ (hold h.job.bound q hq)
    · exact fun q hq => congrArg (fun r : JobRecord => m.jobHashInx r.jobId) (hold h.job.bound q hq)
  · apply h.arrayJ.congr _ _ (Nat.le_succ _)
    · exact fun q hq => congrArg _ (hold h.arrayJ.bound q hq)
    · exact fun q hq =>
        congrArg (fun r : JobRecord => m.jobHashInx r.arrayJobId) (hold h.arrayJ.bound q hq)
  · apply h.arrayT.congr _ _ (Nat.le_succ _)
    · exact fun q hq => congrArg _ (hold h.arrayT.bound q hq)
    · exact fun q hq => congrArg (fun r : JobRecord => m.jobArrayHashInx r.arrayJobId r.arrayTaskId)
        (hold h.arrayT.bound q hq)

/-- `_add_job_hash` -/
theorem Tables.addJob (h : Tables m jobs arrays) (hp : p ∉ jobs) (hpos : 0 < p) (hle : p ≤ m.count) :
    Tables (addJobHash m p) (insert p jobs) arrays ∧ SameJobs m (addJobHash m p) := by
  have hsame : ∀ q, SameRecord (m.records q) ((addJobHash m p).records q) :=
    sameRecord_put ⟨rfl, rfl, rfl, rfl⟩
  have hid : ∀ q, ((addJobHash m p).records q).jobId = (m.records q).jobId := fun q => (hsame q).jobId
  refine ⟨⟨?_, ?_, ?_⟩, ⟨rfl, rfl, hsame⟩⟩
  · have hadd := h.job.add hp hpos hle
    apply hadd.congr _ _ le_rfl
    · exact fun q _ => congrFun (field_update JobRecord.jobNext m p _) q
    · exact fun q _ => congrArg m.jobHashInx (hid q)
  · apply h.arrayJ.congr _ _ le_rfl
    · exact fun q _ => field_put (f := JobRecord.jobArrayNextJ) (by rfl) q
    · exact fun q _ => congrArg m.jobHashInx (hsame q).arrayJobId
  · apply h.arrayT.congr _ _ le_rfl
    · exact fun q _ => field_put (f := JobRecord.jobArrayNextT) (by rfl) q
    · exact fun q _ => congrArg₂ m.jobArrayHashInx (hsame q).arrayJobId (hsame q).arrayTaskId

/-- `_remove_job_hash` -/
theorem Tables.removeJob (h : Tables m jobs arrays) (hp : p ∈ jobs) :
    Tables (removeJobHash m p) (jobs \ {p}) arrays ∧ SameJobs m (removeJobHash m p) := by
  obtain ⟨prev, hlink, hprev, hremove⟩ := h.job.remove hp
  have hremoved : ∃ m', removeJobHash m p = m' ∧ SameJobs m m' ∧
      m'.jobHash = rehead m.jobHash (m.jobHashInx (m.records p).jobId) (m.records p).jobNext prev ∧
      (∀ q, (m'.records q).jobNext = Function.update
        (relink (fun q => (m.records q).jobNext) (m.records p).jobNext prev) p 0 q) ∧
      m'.jobArrayHashJ = m.jobArrayHashJ ∧ m'.jobArrayHashT = m.jobArrayHashT ∧
      (∀ q, (m'.records q).jobArrayNextJ = (m.records q).jobArrayNextJ) ∧
      ∀ q, (m'.records q).jobArrayNextT = (m.records q).jobArrayNextT := by
    rw [removeJobHash]
    dsimp only at hlink ⊢
    rw [hlink]
    cases prev with
    | none =>
      refine ⟨_, rfl, ⟨rfl, rfl, sameRecord_put ⟨rfl, rfl, rfl, rfl⟩⟩, rfl, ?_, rfl, rfl, ?_, ?_⟩
      · exact fun q => congrFun (field_update JobRecord.jobNext m p _) q
      · exact fun q => field_put (f := JobRecord.jobArrayNextJ) (by rfl) q
      · exact fun q => field_put (f := JobRecord.jobArrayNextT) (by rfl) q
    | some k =>
      have hk : p ≠ k := (hprev k rfl).2.symm
      dsimp only
      refine ⟨_, rfl, ⟨rfl, rfl, fun q => ?_⟩, rfl, fun q => ?_, rfl, rfl, fun q => ?_, fun q => ?_⟩
      · have hfirst : SameRecord (m.records q)
            ((m.put k { m.records k with jobNext := (m.records p).jobNext }).records q) :=
          sameRecord_put (by constructor <;> rfl) q
        exact hfirst.trans (sameRecord_put (by constructor <;> rfl) q)
      · refine (congrFun (field_update JobRecord.jobNext _ p _) q).trans ?_
        rw [field_update JobRecord.jobNext m k]
        rfl
      · exact (field_put (f := JobRecord.jobArrayNextJ) (by rfl) q).trans
          (field_put (f := JobRecord.jobArrayNextJ) (by rfl) q)
      · exact (field_put (f := JobRecord.jobArrayNextT) (by rfl) q).trans
          (field_put (f := JobRecord.jobArrayNextT) (by rfl) q)
  obtain ⟨m', heq, hsame, htable, hnext, hJ, hT, hnextJ, hnextT⟩ := hremoved
  rw [heq]
  have hinx : ∀ id, m'.jobHashInx id = m.jobHashInx id := by
    intro id
    rw [JobMgr.jobHashInx, JobMgr.jobHashInx, hsame.size]
  refine ⟨⟨?_, ?_, ?_⟩, hsame⟩
  · rw [htable]
    apply hremove.congr _ _ (le_of_eq hsame.count.symm)
    · exact fun q _ => hnext q
    · intro q _
      rw [hinx, (hsame.record q).jobId]
  · rw [hJ]
    apply h.arrayJ.congr _ _ (le_of_eq hsame.count.symm)
    · exact fun q _ => hnextJ q
    · intro q _
      rw [hinx, (hsame.record q).arrayJobId]
  · rw [hT]
    apply h.arrayT.congr _ _ (le_of_eq hsame.count.symm)
    · exact fun q _ => hnextT q
    · intro q _
      rw [JobMgr.jobArrayHashInx, JobMgr.jobArrayHashInx, hsame.size, (hsame.record q).arrayJobId,
        (hsame.record q).arrayTaskId]

/-- `_add_job_array_hash` -/
theorem Tables.addArray (h : Tables m jobs arrays) (hp : p ∉ arrays) (hpos : 0 < p)
    (hle : p ≤ m.count) (htask : (m.records p).arrayTaskId ≠ noVal) :
    Tables (addJobArrayHash m p) jobs (insert p arrays) ∧ SameJobs m (addJobArrayHash m p) := by
  rw [addJobArrayHash]
  dsimp only
  rw [if_neg htask]
  have hsame : ∀ q, SameRecord (m.records q) ((m.put p { m.records p with
      jobArrayNextJ := m.jobArrayHashJ (m.jobHashInx (m.records p).arrayJobId)
      jobArrayNextT := m.jobArrayHashT
        (m.jobArrayHashInx (m.records p).arrayJobId (m.records p).arrayTaskId) }).records q) :=
    sameRecord_put ⟨rfl, rfl, rfl, rfl⟩
  refine ⟨⟨?_, ?_, ?_⟩, ⟨rfl, rfl, hsame⟩⟩
  · apply h.job.congr _ _ le_rfl
    · exact fun q _ => field_put (f := JobRecord.jobNext) (by rfl) q
    · exact fun q _ => congrArg m.jobHashInx (hsame q).jobId
  · apply (h.arrayJ.add hp hpos hle).congr _ _ le_rfl
    · exact fun q _ => congrFun (field_update JobRecord.jobArrayNextJ m p _) q
    · exact fun q _ => congrArg m.jobHashInx (hsame q).arrayJobId
  · apply (h.arrayT.add hp hpos hle).congr _ _ le_rfl
    · exact fun q _ => congrFun (field_update JobRecord.jobArrayNextT m p _) q
    · exact fun q _ => congrArg₂ m.jobArrayHashInx (hsame q).arrayJobId (hsame q).arrayTaskId

/-! ## Searches -/

/-- A record is found under its job id, where no other one in the table has it. -/
theorem Tables.findJobRecord_eq (h : Tables m jobs arrays) (hp : p ∈ jobs)
    (hunique : ∀ q ∈ jobs, (m.records q).jobId = (m.records p).jobId → q = p) :
    findJobRecord m (m.records p).jobId = p := by
  apply h.job.search_eq hp rfl
  · simp
  · intro q hq _ htest
    exact hunique q hq (beq_iff_eq.mp htest)

/-- What is found is a record with the job id. -/
theorem Tables.findJobRecord_found (h : Tables m jobs arrays) {jobId : BitVec 32}
    (hfound : findJobRecord m jobId ≠ 0) :
    findJobRecord m jobId ∈ jobs ∧ (m.records (findJobRecord m jobId)).jobId = jobId := by
  obtain ⟨hmem, -, htest⟩ := h.job.search_found hfound
  exact ⟨hmem, beq_iff_eq.mp htest⟩

/-- A record in the table is found as that of its task, where no other one is of this task. -/
theorem Tables.findSplitTask_eq (h : Tables m jobs arrays) (hp : p ∈ arrays)
    (hunique : ∀ q ∈ arrays, (m.records q).arrayJobId = (m.records p).arrayJobId →
      (m.records q).arrayTaskId = (m.records p).arrayTaskId → q = p) :
    findSplitTask m (m.records p).arrayJobId (m.records p).arrayTaskId = p := by
  apply h.arrayT.search_eq hp rfl
  · simp
  · intro q hq _ htest
    rw [Bool.and_eq_true, beq_iff_eq, beq_iff_eq] at htest
    exact hunique q hq htest.1 htest.2

theorem Tables.findSplitTask_eq_zero (h : Tables m jobs arrays) {arrayJobId arrayTaskId : BitVec 32}
    (hnone : ∀ q ∈ arrays, (m.records q).arrayJobId = arrayJobId →
      (m.records q).arrayTaskId ≠ arrayTaskId) : findSplitTask m arrayJobId arrayTaskId = 0 := by
  apply h.arrayT.search_eq_zero
  intro q hq _
  by_cases hid : (m.records q).arrayJobId = arrayJobId
  · simp [hid, hnone q hq hid]
  · simp [hid]

end Slurm.JobArray
