import Slurm.Depend.Model

/-!
# Testing dependencies (`slurmctld/job_scheduler.c`)

`testJobDependency` is `test_job_dependency`: one traversal of `depend_list` tests the local
entries that are not fulfilled and gathers what is said of all entries in `TestJobDep`, from
which the result is read.  `handleJobDependencyUpdates` reads it from the same flags, without
testing.

What is known of the other jobs, of the federation and of the time is in `World`.  The
functions that are called on the way to tell others (`fed_mgr_remove_remote_dependencies`,
`acct_policy_remove_accrue_time`) and the log are left out; `fed_mgr_job_requeue` and
`handle_invalid_dependency`, which end an update, are its outcome.
-/

namespace Slurm.Depend

/-! ## Data -/

/-- `depend_spec_t`, in a federation. -/
structure FedDependSpec extends DependSpec where
  /-- `SLURM_FLAGS_REMOTE` -/
  remote : Bool
  singletonBits : BitVec 64

/-- What of `job_details_t` a job shares with one that it expands. -/
structure Sharing where
  shareRes : Nat
  wholeNode : Nat

/-- `job_record_t` of a job that others depend on. -/
structure DependedJob where
  ptr : Nat
  /-- `magic` is `JOB_MAGIC`. -/
  isJob : Bool
  jobId : Nat
  arrayJobId : Nat
  jobState : BitVec 32
  startTime : Int
  endTime : Int
  details : Option Sharing

/-- `state_reason` -/
inductive StateReason where
  | noReason
  | dependency
  | depInvalid
  | other (reason : Nat)
  deriving DecidableEq

/-- `job_details_t` of the job whose dependencies are tested. -/
structure TestedDetails where
  dependency : Option (List Char)
  dependList : Option (List FedDependSpec)
  sharing : Sharing

/-- `job_record_t` of the job whose dependencies are tested. -/
structure TestedJob where
  arrayTaskId : Nat
  /-- `array_recs` is not `NULL`. -/
  arrayRecs : Bool
  name : Option String
  /-- `JOB_DEPENDENT` -/
  dependent : Bool
  stateReason : StateReason
  stateDesc : Option String
  timeLimit : Nat
  details : Option TestedDetails

/-- The federation, as a job of it sees it. -/
structure FedJob where
  /-- `FED_SIBLING_BIT` of this cluster. -/
  bit : BitVec 64
  /-- This cluster is the origin of the job. -/
  isOrigin : Bool
  /-- `_get_all_sibling_bits` -/
  siblingBits : BitVec 64
  disableRemoteSingleton : Bool

/-- What is known besides the job. -/
structure World where
  now : Int
  findJobArrayRec : Nat → Nat → Option DependedJob
  testJobArrayComplete : Nat → Bool
  testJobArrayCompleted : Nat → Bool
  testJobArrayPending : Nat → Bool
  /-- `_find_singleton_job` finds one in `job_list`. -/
  singletonJob : Bool
  /-- The job is a federated one. -/
  fed : Option FedJob
  isJobIdInFed : Nat → Bool
  jobStartedOnSib : DependedJob → Bool
  /-- `bb_g_job_test_stage_out` returns 1. -/
  stagedOut : DependedJob → Bool

/-! ## The states of a job -/

/-- `job_state & JOB_STATE_BASE` -/
def stateBase (state : BitVec 32) : Nat := (state &&& 0xff).toNat

def isJobPending (state : BitVec 32) : Bool := stateBase state == 0

def isJobComplete (state : BitVec 32) : Bool := stateBase state == 3

/-- `IS_JOB_COMPLETED`: finished, and not `JOB_COMPLETING`. -/
def isJobCompleted (state : BitVec 32) : Bool := 2 < stateBase state && !state.getLsbD 15

def isJobConfiguring (state : BitVec 32) : Bool := state.getLsbD 14

/-- `JOB_SPECIAL_EXIT` -/
def isSpecialExit (state : BitVec 32) : Bool := state.getLsbD 12

/-! ## One entry -/

/-- `fed_mgr_is_origin_job` -/
def isOriginJob (w : World) : Bool := w.fed.all FedJob.isOrigin

/-- `fed_mgr_is_singleton_satisfied`, where the bit of this cluster is set. -/
def isSingletonSatisfied (w : World) (dep : FedDependSpec) : Bool × FedDependSpec :=
  match w.fed with
  | none => (true, dep)
  | some fed =>
    if fed.disableRemoteSingleton then (true, dep)
    else if dep.dependType ≠ .singleton then (true, dep)
    else
      let dep := { dep with singletonBits := dep.singletonBits ||| fed.bit }
      if fed.isOrigin then (dep.singletonBits &&& fed.siblingBits == fed.siblingBits, dep)
      else (true, dep)

/-- What a test of an entry says: `clear_dep`, `failure`, and whether the type is known. -/
structure Tested where
  clearDep : Bool
  failure : Bool
  known : Bool := true

/-- Still depends. -/
def Tested.still : Tested := { clearDep := false, failure := false }

def Tested.clear : Tested := { clearDep := true, failure := false }

def Tested.fail : Tested := { clearDep := false, failure := true }

/-- The end of a job that must complete: still depends, or not. -/
def afterOk (isComplete isCompleted : Bool) : Tested :=
  if !isCompleted then .still else if isComplete then .clear else .fail

/-- `_test_job_dependency_common`, what it says of the entry. -/
def testJobDependencyCommon (w : World) (job : TestedJob) (dep : FedDependSpec)
    (djob : DependedJob) (isComplete isCompleted isPending : Bool) : Tested :=
  match dep.dependType with
  | .after =>
    if isPending then .still
    else if dep.dependTime = 0 ∨ djob.startTime ≠ 0 ∧ dep.dependTime ≤ w.now - djob.startTime ∨
        w.jobStartedOnSib djob then .clear
    else .still
  | .afterAny => if isCompleted then .clear else .still
  | .afterNotOk =>
    if isSpecialExit djob.jobState then .clear
    else if !isCompleted then .still
    else if !isComplete then .clear
    else .fail
  | .afterOk => afterOk isComplete isCompleted
  | .afterCorrespond =>
    let dcjob :=
      if job.arrayTaskId = noVal ∨ job.arrayTaskId = infinite then none
      else w.findJobArrayRec dep.jobId job.arrayTaskId
    match dcjob with
    | some dcjob => afterOk (isJobComplete dcjob.jobState) (isJobCompleted dcjob.jobState)
    | none =>
      if isCompleted && !isComplete && job.arrayRecs && job.arrayTaskId == noVal then .still
      else afterOk isComplete isCompleted
  | .burstBuffer => if isCompleted && w.stagedOut djob then .clear else .still
  | .expand =>
    if isPending then .still
    else if isCompleted then .fail
    else if djob.endTime ≠ 0 ∧ w.now < djob.endTime then .clear
    else .still
  | .singleton => { clearDep := false, failure := false, known := false }

/-- What `_test_job_dependency_common` changes in the job: one that expands another takes its
limit and its sharing over. -/
def expandJob (w : World) (job : TestedJob) (dep : FedDependSpec) (djob : DependedJob)
    (tested : Tested) : TestedJob :=
  if dep.dependType ≠ .expand then job
  else
    let job :=
      if tested.clearDep then { job with timeLimit := u32 (djob.endTime - w.now) / 60 } else job
    match tested.failure, job.details, djob.details with
    | false, some details, some sharing =>
      { job with details := some { details with sharing := sharing } }
    | _, _, _ => job

/-- The record is the one that is depended on. -/
def sameJob (dep : FedDependSpec) (djob : DependedJob) : Bool :=
  djob.isJob && (djob.jobId == dep.jobId || djob.arrayJobId == dep.jobId)

/-- The test of a local entry that is not fulfilled: what it says, the job, and the entry. -/
def testLocal (w : World) (job : TestedJob) (dep : FedDependSpec) :
    Tested × TestedJob × FedDependSpec :=
  let found := w.findJobArrayRec dep.jobId dep.arrayTaskId
  let dep := { dep with jobPtr := found.map DependedJob.ptr }
  if dep.dependType = .singleton ∧ job.name.isSome then
    if w.singletonJob then (.still, job, dep)
    else
      let (satisfied, dep) := isSingletonSatisfied w dep
      (if satisfied then .clear else .still, job, dep)
  else
    match found.filter (sameJob dep) with
    | none => (.clear, job, dep)
    | some djob =>
      let tested :=
        if dep.arrayTaskId = infinite then
          testJobDependencyCommon w job dep djob (w.testJobArrayComplete dep.jobId)
            (w.testJobArrayCompleted dep.jobId) (w.testJobArrayPending dep.jobId)
        else
          testJobDependencyCommon w job dep djob (isJobComplete djob.jobState)
            (isJobCompleted djob.jobState)
            (isJobPending djob.jobState || isJobConfiguring djob.jobState)
      (if tested.known then tested else .fail, expandJob w job dep djob tested, dep)

/-! ## The traversal -/

/-- `test_job_dep_t` -/
structure TestJobDep where
  andFailed : Bool
  changed : Bool
  hasLocalDepend : Bool
  hasUnfulfilled : Bool
  orFlag : Bool
  orSatisfied : Bool

/-- Before the traversal. -/
def TestJobDep.zero : TestJobDep :=
  { andFailed := false, changed := false, hasLocalDepend := false, hasUnfulfilled := false,
    orFlag := false, orSatisfied := false }

/-- `_test_dependency_state` -/
def testDependencyState (dep : FedDependSpec) (t : TestJobDep) : TestJobDep :=
  let t := { t with orFlag := dep.flagsOr }
  if t.orFlag then
    match dep.dependState with
    | .fulfilled => { t with orSatisfied := true }
    | .notFulfilled => { t with hasUnfulfilled := true }
    | .failed => t
  else
    match dep.dependState with
    | .failed => { t with andFailed := true }
    | .notFulfilled => { t with hasUnfulfilled := true }
    | .fulfilled => t

/-- A remote entry, whose cluster may have left the federation. -/
def leftFed (w : World) (dep : FedDependSpec) : Bool :=
  dep.remote && isOriginJob w && dep.dependState == .notFulfilled &&
    dep.dependType != .singleton && !w.isJobIdInFed dep.jobId

/-- A remote entry fails when its cluster left the federation. -/
def testRemote (w : World) (dep : FedDependSpec) : FedDependSpec :=
  if leftFed w dep then { dep with dependState := .failed } else dep

/-- The test changes the state of the entry. -/
def Tested.changes (tested : Tested) : Bool := tested.failure || tested.clearDep

/-- The entry after a test. -/
def Tested.apply (tested : Tested) (dep : FedDependSpec) : FedDependSpec :=
  if tested.failure then { dep with dependState := .failed }
  else if tested.clearDep then { dep with dependState := .fulfilled }
  else dep

/-- `_foreach_test_job_dependency` -/
def foreachTestJobDependency (w : World) (job : TestedJob) (t : TestJobDep) (dep : FedDependSpec) :
    TestedJob × TestJobDep × FedDependSpec :=
  let t := { t with changed := t.changed || leftFed w dep }
  let dep := testRemote w dep
  if dep.dependState ≠ .notFulfilled ∨ dep.remote then (job, testDependencyState dep t, dep)
  else
    let (tested, job, dep) := testLocal w job dep
    let dep := tested.apply dep
    let t := { t with hasLocalDepend := true, changed := t.changed || tested.changes }
    (job, testDependencyState dep t, dep)

/-- `list_for_each` of `_foreach_test_job_dependency`. -/
def testAll (w : World) : TestedJob → TestJobDep → List FedDependSpec →
    TestedJob × TestJobDep × List FedDependSpec
  | job, t, [] => (job, t, [])
  | job, t, dep :: deps =>
    let (job, t, dep) := foreachTestJobDependency w job t dep
    let (job, t, deps) := testAll w job t deps
    (job, t, dep :: deps)

/-! ## The verdict -/

/-- `NO_DEPEND` and the others. -/
inductive DependRc where
  | noDepend
  | localDepend
  | failDepend
  | remoteDepend
  deriving DecidableEq

/-- The dependency is fulfilled. -/
def TestJobDep.fulfilled (t : TestJobDep) : Bool :=
  t.orSatisfied || (!t.orFlag && !t.andFailed && !t.hasUnfulfilled)

/-- The dependency failed, if it is not fulfilled. -/
def TestJobDep.failed (t : TestJobDep) : Bool := t.andFailed || (t.orFlag && !t.hasUnfulfilled)

/-- `_depend_list2str`, without setting flags. -/
def dependList2str (deps : List FedDependSpec) : Option (List Char) :=
  let text := (dependListText false [] (deps.map FedDependSpec.toDependSpec)).1
  if text = [] then none else some text

/-- The job with other details. -/
def TestedJob.setDetails (job : TestedJob) (f : TestedDetails → TestedDetails) : TestedJob :=
  { job with details := job.details.map f }

/-- `test_job_dependency`: the result, `was_changed`, and the job. -/
def testJobDependency (w : World) (job : TestedJob) : DependRc × Bool × TestedJob :=
  match job.details.bind TestedDetails.dependList with
  | none => (.noDepend, false, { job with dependent := false })
  | some [] => (.noDepend, false, { job with dependent := false })
  | some (dep :: deps) =>
    let (job, t, after) := testAll w job .zero (dep :: deps)
    let job := job.setDetails fun details => { details with dependList := some after }
    let job :=
      if t.orSatisfied ∧ job.stateReason = .depInvalid then
        { job with stateReason := .noReason, stateDesc := none }
      else job
    if t.fulfilled then
      let kept := if isOriginJob w then [] else after
      let job := job.setDetails fun details =>
        { details with dependency := dependList2str kept, dependList := some kept }
      (.noDepend, t.changed, { job with dependent := false })
    else
      let job :=
        if t.changed then job.setDetails fun details =>
          { details with dependency := dependList2str after }
        else job
      let result :=
        if t.failed then .failDepend
        else if t.hasLocalDepend then .localDepend
        else .remoteDepend
      (result, t.changed, { job with dependent := true })

/-- What is done with a job whose dependencies were updated. -/
inductive Updated where
  /-- `fed_mgr_job_requeue` -/
  | requeue
  /-- `handle_invalid_dependency` -/
  | invalid
  | dependent
  deriving DecidableEq

/-- `list_for_each` of `_foreach_handle_job_dependency_updates`. -/
def foreachHandle (deps : List FedDependSpec) : TestJobDep :=
  deps.foldl (fun t dep => testDependencyState dep t) .zero

/-- `handle_job_dependency_updates`, for a job with a list. -/
def handleJobDependencyUpdates (job : TestedJob) (deps : List FedDependSpec) :
    Updated × TestedJob :=
  let t := foreachHandle deps
  let kept := if t.fulfilled then [] else deps
  let job := job.setDetails fun details =>
    { details with dependency := dependList2str kept, dependList := some kept }
  if t.fulfilled then
    let job :=
      if job.stateReason = .depInvalid ∨ job.stateReason = .dependency then
        { job with stateReason := .noReason, stateDesc := none }
      else job
    (.requeue, { job with dependent := false })
  else if t.failed then (.invalid, { job with dependent := true })
  else (.dependent, { job with dependent := true, stateReason := .dependency, stateDesc := none })

end Slurm.Depend

/-!
## Dependencies on job arrays (`slurmctld/job_scheduler.c`, `slurmctld/job_mgr.c`)

`updateJobDependency` is `update_job_dependency` for jobs of every kind: a record may be a job,
one task of a job array, or the record that holds all pending tasks of one.  A dependency is on
a job, on one task, or on the whole array, for which the task is `INFINITE`.

The record of a job is known by its `job_id`, which stands for the pointer to it.  The texts are
read as for jobs that are no arrays, up to the search for the job that is named.

The generic resources of a job that expands another one, and the log, are left out.
-/

namespace Slurm.ArrayDepend

open Slurm.Depend (DependType DependState FedDependSpec JobState Rc Next noVal infinite u32
  startsWith xlateArrayDep parseDependState parseJobRef parseDependTime endsJobRef dependTypeOf
  dependList2str isEmptyRequest)

/-! ## Records -/

/-- `array_recs`, with the bits of the tasks that are pending. -/
structure ArrayRecs where
  taskIdBitmap : Option (List Bool)

/-- `job_details_t` -/
structure Details where
  dependency : Option (List Char)
  dependList : Option (List FedDependSpec)
  expandingJobid : Nat

/-- `job_record_t` -/
structure JobRecord where
  jobId : Nat
  arrayJobId : Nat
  arrayTaskId : Nat
  arrayRecs : Option ArrayRecs
  state : JobState
  qosId : Nat
  part : Option Nat
  /-- `fed_details` is not `NULL`. -/
  fedDetails : Bool
  details : Option Details

/-- The records, in the order of the hash chains.  The pending tasks of an array are in the
record that has the id of the array. -/
structure JobTable where
  jobs : List JobRecord
  meta_id : ∀ r ∈ jobs, r.arrayRecs.isSome → r.jobId = r.arrayJobId

/-- What is read of the configuration, with the federation. -/
structure Conf extends Depend.Conf where
  disableRemoteSingleton : Bool
  /-- `fed_mgr_is_origin_job`, of the job. -/
  isOriginJob : Bool
  /-- `fed_mgr_is_origin_job_id` -/
  isOriginJobId : Nat → Bool

/-! ## Finding a job -/

/-- `find_job_record` -/
def findJobRecord (table : JobTable) (jobId : Nat) : Option JobRecord :=
  table.jobs.find? fun r => r.jobId = jobId

/-- `find_job_array_rec` -/
def findJobArrayRec (table : JobTable) (arrayJobId arrayTaskId : Nat) : Option JobRecord :=
  if arrayTaskId = noVal then findJobRecord table arrayJobId
  else if arrayTaskId = infinite then
    let pending := (findJobRecord table arrayJobId).filter fun r =>
      r.arrayRecs.isSome && r.arrayJobId = arrayJobId
    let tasks := table.jobs.filter fun r => r.arrayTaskId ≠ noVal && r.arrayJobId = arrayJobId
    pending.or ((tasks.find? fun r => r.state ≠ .finished).or tasks.getLast?)
  else
    let task := table.jobs.find? fun r => r.arrayJobId = arrayJobId && r.arrayTaskId = arrayTaskId
    task.or ((findJobRecord table arrayJobId).filter fun r =>
      ((r.arrayRecs.bind ArrayRecs.taskIdBitmap).getD []).getD arrayTaskId false)

/-- The record is one of the array. -/
def ofArray (jobId : Nat) (r : JobRecord) : Bool :=
  r.arrayJobId = jobId && (r.arrayTaskId ≠ noVal || r.arrayRecs.isSome)

/-- `_find_dependent_job_ptr`, with the task afterwards. -/
def findDependentJobPtr (table : JobTable) (jobId arrayTaskId : Nat) : Option JobRecord × Nat :=
  if arrayTaskId = noVal then
    let depJob := (findJobRecord table jobId).or (findJobArrayRec table jobId infinite)
    (depJob, if depJob.any (ofArray jobId) then infinite else arrayTaskId)
  else (findJobArrayRec table jobId arrayTaskId, arrayTaskId)

/-- `_depends_on_same_job` -/
def dependsOnSameJob (job : JobRecord) (depJob : Option Nat) (jobId arrayTaskId : Nat) : Bool :=
  if arrayTaskId = infinite ∧ (job.arrayTaskId ≠ noVal ∨ job.arrayRecs.isSome = true) then
    job.arrayJobId = jobId
  else depJob = some job.jobId

/-! ## Reading a request -/

/-- `_find_dependency` -/
def findDependency (dep newDep : FedDependSpec) : Bool :=
  dep.jobId = newDep.jobId && dep.arrayTaskId = newDep.arrayTaskId &&
    dep.dependType = newDep.dependType

/-- `_add_dependency_to_list` -/
def addDependencyToList (dependList : List FedDependSpec) (dep : FedDependSpec) :
    List FedDependSpec :=
  if dependList.any (findDependency · dep) then dependList else dependList ++ [dep]

/-- The dependency that is made for a job that was named. -/
def newDep (dependType : DependType) (state : DependState) (time : Int) (jobId arrayTaskId : Nat)
    (depJob : Option JobRecord) (remote : Bool) : FedDependSpec :=
  let depJob := if remote then none else depJob
  { arrayTaskId := arrayTaskId
    dependType := dependType
    flagsOr := false
    dependState := state
    dependTime := u32 time
    jobId := (depJob.map fun r => if arrayTaskId = noVal then r.jobId else r.arrayJobId).getD jobId
    jobPtr := depJob.map (·.jobId)
    remote := remote
    singletonBits := 0#64 }

/-- The dependency that is made for `singleton`. -/
def newSingleton (state : DependState) : FedDependSpec :=
  newDep .singleton state 0 0 0 none false

/-- What was read so far: `new_depend_list`, and what was put into `expanding_jobid`. -/
structure Request where
  dependList : List FedDependSpec
  expanding : Option Nat

/-- What a part of the request comes to: a return code, the request so far, and the rest of the
text. -/
structure Parsed where
  rc : Rc
  request : Request
  rest : List Char

/-- The job that is named may be expanded by the job. -/
def mayExpand (job : JobRecord) (depJob : Option JobRecord) : Bool :=
  match depJob with
  | none => false
  | some dep =>
    dep.state = .running && dep.qosId = job.qosId && dep.part.isSome && job.part.isSome &&
      dep.part = job.part

/-- The loop of `_parse_dependency_jobid_new` for one job id, after `expandCnt` jobs to expand and
with the time that was read last: what it comes to, and the time. -/
def parseJobid (conf : Conf) (table : JobTable) (job : JobRecord) (dependType : DependType)
    (expandCnt : Nat) (dependTime : Int) (request : Request) (s : List Char) : Parsed × Int :=
  let (jobId, task, tmp) := parseJobRef s
  if jobId = 0 ∨ ¬ endsJobRef tmp then (⟨.dependency, request, tmp⟩, dependTime)
  else
    let (depJob, task) := findDependentJobPtr table jobId task
    if depJob.isNone ∧ conf.isOriginJobId jobId ∧
        (dependType = .afterOk ∨ dependType = .afterNotOk) then
      (⟨.dependency, request, tmp⟩, dependTime)
    else if dependsOnSameJob job (depJob.map (·.jobId)) jobId task then
      (⟨.dependency, request, tmp⟩, dependTime)
    else if dependType = .expand ∧ (0 < expandCnt ∨ ¬ mayExpand job depJob) then
      (⟨.dependency, request, tmp⟩, dependTime)
    else
      match parseDependTime dependTime tmp with
      | none => (⟨.dependency, request, tmp⟩, dependTime)
      | some (dependTime, tmp) =>
        match parseDependState tmp with
        | none => (⟨.dependency, request, tmp⟩, dependTime)
        | some (state, tmp) =>
          let request : Request :=
            { request with expanding := if dependType = .expand then some jobId else request.expanding }
          let remote := job.fedDetails && !conf.isOriginJobId jobId
          if remote ∧ dependType = .expand then (⟨.dependency, request, tmp⟩, dependTime)
          else
            let dep := newDep dependType state dependTime jobId task depJob remote
            (⟨.success, { request with dependList := addDependencyToList request.dependList dep }, tmp⟩,
              dependTime)

/-- `_parse_dependency_jobid_new` -/
def parseDependencyJobidNew (conf : Conf) (table : JobTable) (job : JobRecord)
    (dependType : DependType) : Nat → Nat → Int → Request → List Char → Parsed
  | 0, _, _, request, s => ⟨.dependency, request, s⟩
  | fuel + 1, expandCnt, dependTime, request, s =>
    let (parsed, dependTime) := parseJobid conf table job dependType expandCnt dependTime request s
    if parsed.rc ≠ .success then parsed
    else
      match parsed.rest with
      | ':' :: rest =>
        parseDependencyJobidNew conf table job dependType fuel (expandCnt + 1) dependTime
          parsed.request rest
      | _ => parsed

/-- `_parse_dependency_jobid_old` -/
def parseDependencyJobidOld (conf : Conf) (table : JobTable) (job : JobRecord) (request : Request)
    (tok : List Char) : Parsed :=
  let (jobId, task, tmp) := parseJobRef tok
  if jobId = 0 ∨ ¬ (tmp = [] ∨ tmp.head? = some ',') then ⟨.dependency, request, tmp⟩
  else
    let (depJob, task) := findDependentJobPtr table jobId task
    if dependsOnSameJob job (depJob.map (·.jobId)) jobId task then ⟨.dependency, request, tmp⟩
    else
      let remote := job.fedDetails && !conf.isOriginJobId jobId
      let dep := newDep .afterAny .notFulfilled 0 jobId task depJob remote
      ⟨.success, { request with dependList := addDependencyToList request.dependList dep }, tmp⟩

/-- A specification of `update_job_dependency`. -/
def readSpec (conf : Conf) (table : JobTable) (job : JobRecord) (request : Request)
    (tok : List Char) : Request × Next :=
  if startsWith "singleton" tok then
    match parseDependState (tok.drop 9) with
    | none => (request, .stop .dependency)
    | some (state, tok) =>
      let request :=
        if conf.disableRemoteSingleton && !conf.isOriginJob then request
        else { request with dependList := addDependencyToList request.dependList (newSingleton state) }
      match tok with
      | [] => (request, .stop .success)
      | ',' :: tok => (request, .go false tok)
      | '?' :: tok => (request, .go true tok)
      | _ => (request, .stop .dependency)
  else if ':' ∉ tok then
    if tok.head?.any Char.isDigit then
      let parsed := parseDependencyJobidOld conf table job request tok
      if parsed.rc ≠ .success then (parsed.request, .stop parsed.rc)
      else
        match parsed.rest with
        | ',' :: tok => (parsed.request, .go false tok)
        | _ => (parsed.request, .stop .success)
    else (request, .stop .dependency)
  else
    match dependTypeOf conf.toConf tok with
    | .error rc => (request, .stop rc)
    | .ok dependType =>
      let s := (tok.dropWhile (· ≠ ':')).tail
      let parsed :=
        parseDependencyJobidNew conf table job dependType (s.length + 1) 0 0 request s
      if parsed.rc ≠ .success then (parsed.request, .stop parsed.rc)
      else
        match parsed.rest with
        | ',' :: tok => (parsed.request, .go false tok)
        | '?' :: tok => (parsed.request, .go true tok)
        | _ => (parsed.request, .stop .success)

/-- The loop of `update_job_dependency` over the specifications, with `or_flag`. -/
def readLoop (conf : Conf) (table : JobTable) (job : JobRecord) :
    Nat → Request → Bool → List Char → Rc × Request × Bool
  | 0, request, orFlag, _ => (.dependency, request, orFlag)
  | fuel + 1, request, orFlag, tok =>
    match readSpec conf table job request tok with
    | (request, .stop rc) => (rc, request, orFlag)
    | (request, .go isOr tok) => readLoop conf table job fuel request (orFlag || isOr) tok

/-- The reading of a request that is not empty: the return code, what was read, and `or_flag`. -/
def readRequest (conf : Conf) (table : JobTable) (job : JobRecord) (newDepend : List Char) :
    Rc × Request × Bool :=
  let tok := (xlateArrayDep conf.bitUnfmt newDepend).getD newDepend
  readLoop conf table job (tok.length + 1) ⟨[], none⟩ false tok

/-! ## Circular dependencies -/

/-- `_foreach_scan_depend` over a list, which stops where the job is found.  `scan` is the call
for the list of another job. -/
def scanList (table : JobTable) (job : JobRecord) (scan : List FedDependSpec → Nat → Bool × Nat) :
    List FedDependSpec → Nat → Bool × Nat
  | [], jobCounter => (false, jobCounter)
  | dep :: deps, jobCounter =>
    if dep.jobId = 0 then scanList table job scan deps jobCounter
    else if dep.jobPtr.isNone then scanList table job scan deps jobCounter
    else if dependsOnSameJob job dep.jobPtr dep.jobId dep.arrayTaskId then (true, jobCounter)
    else
      match dep.jobPtr.bind (findJobRecord table) with
      | none => scanList table job scan deps jobCounter
      | some rec =>
        match rec.details.bind Details.dependList with
        | none => scanList table job scan deps jobCounter
        | some dependList =>
          if rec.state = .finished then scanList table job scan deps jobCounter
          else
            match scan dependList jobCounter with
            | (true, jobCounter) => (true, jobCounter)
            | (false, jobCounter) => scanList table job scan deps jobCounter

/-- `_scan_depend`, with the counter before and after it. -/
def scanDepend (conf : Conf) (table : JobTable) (job : JobRecord) :
    Nat → List FedDependSpec → Nat → Bool × Nat
  | 0, _, jobCounter => (false, jobCounter + 1)
  | fuel + 1, dependList, jobCounter =>
    if conf.maxDependDepth ≤ jobCounter then (false, jobCounter + 1)
    else scanList table job (scanDepend conf table job fuel) dependList (jobCounter + 1)

/-- The search for the job in its new dependencies.  The calls are nested no deeper than the
counter goes. -/
def circular (conf : Conf) (table : JobTable) (job : JobRecord) (dependList : List FedDependSpec) :
    Bool :=
  (scanDepend conf table job (conf.maxDependDepth + 1) dependList 0).1

/-! ## The update -/

/-- The flags that `_foreach_depend_list2str` sets. -/
def setOr (setOrFlag : Bool) (dep : FedDependSpec) : FedDependSpec :=
  if dep.dependState = .fulfilled then dep else { dep with flagsOr := dep.flagsOr || setOrFlag }

/-- The list is taken over, and `_depend_list2str` sets its flags and makes its text. -/
def Details.setDepends (details : Details) (dependList : List FedDependSpec) (orFlag : Bool) :
    Details :=
  let dependList := dependList.map (setOr orFlag)
  { details with
    dependency := dependList2str dependList
    dependList := some dependList }

/-- `update_job_dependency`: the return code, and the details of the job. -/
def updateJobDependency (conf : Conf) (table : JobTable) (job : JobRecord)
    (newDepend : Option (List Char)) : Rc × Option Details :=
  match job.details with
  | none => (.einval, none)
  | some details =>
    let details := { details with expandingJobid := 0 }
    match newDepend with
    | none => (.success, some { details with dependency := none, dependList := none })
    | some text =>
      if isEmptyRequest newDepend then
        (.success, some { details with dependency := none, dependList := none })
      else
        let (rc, request, orFlag) := readRequest conf table job text
        let details := { details with expandingJobid := request.expanding.getD 0 }
        if rc ≠ .success then (rc, some details)
        else if circular conf table job request.dependList then (.circularDependency, some details)
        else (.success, some (details.setDepends request.dependList orFlag))

end Slurm.ArrayDepend
