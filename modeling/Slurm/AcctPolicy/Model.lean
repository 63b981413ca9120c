import Slurm.Lib.Ledger

/-!
# Usage of limits (`slurmctld/acct_policy.c`)

`adjustLimitUsage` is `_adjust_limit_usage`, for a job that is no array, with an association that
is valid and with limits enforced.  It changes the usage records of some QOS, with those of the
job's user and account in each of them, and of the job's association and its ancestors: each record
is an account of the books, which are marked wrong when a decrement underflows.

QOS, partitions, associations and users are numbers that stand for the pointers or ids.  TRES are
numbered as in the arrays of counts, and a bitmap is the set of its bits.

`tres_run_secs` and the counts of accruing jobs, which the priority plugin and other functions
decrease, are left out, and the log.
-/

namespace Slurm.AcctPolicy

open Lib.Ledger

/-! ## Data -/

def tresArrayEnergy : Nat := 2

def tresArrayNode : Nat := 3

def noConsumeVal64 : BitVec 64 := 0xfffffffffffffffd

/-- What the functions read of the configuration. -/
structure Conf where
  /-- `slurmctld_tres_cnt` -/
  tresCnt : Nat
  /-- `part_ptr->qos_ptr` -/
  partQos : Nat → Option Nat
  /-- `QOS_FLAG_OVER_PART_QOS` -/
  overPartQos : Nat → Bool
  /-- `assoc_ptr->acct` -/
  acct : Nat → String
  /-- `parent_assoc_ptr` -/
  parentAssoc : Nat → Option Nat
  /-- How far an association is from the root. -/
  depth : Nat → Nat
  parent_depth : ∀ a b, parentAssoc a = some b → depth b < depth a

/-- What a job is allocated: `tres_alloc_cnt` and `job_resrcs->node_bitmap`.  A job with no nodes
has no `job_resrcs`. -/
structure Alloc where
  tresAllocCnt : Nat → BitVec 64
  nodeBitmap : Option (Finset Nat)
  /-- `job_set_alloc_tres` counts the nodes. -/
  node_cnt : tresAllocCnt tresArrayNode = BitVec.ofNat 64 (nodeBitmap.getD ∅).card
  nonempty : ∀ bitmap, nodeBitmap = some bitmap → bitmap.Nonempty
  /-- A bitmap has fewer bits than that. -/
  size : ∀ bitmap, nodeBitmap = some bitmap → ∀ n ∈ bitmap, n < 2 ^ 31

/-- `job_record_t` -/
structure Job where
  assoc : Nat
  userId : Nat
  partPtr : Option Nat
  partPtrList : Option (List Nat)
  qosPtr : Option Nat
  /-- Ordered by priority. -/
  qosList : List Nat
  /-- `IS_JOB_PENDING` -/
  pending : Bool
  /-- With it, `tres_alloc_str` is set. -/
  alloc : Option Alloc

/-- The counters that `slurmdb_qos_usage_t`, `slurmdb_used_limits_t` and `slurmdb_assoc_usage_t`
have in common. -/
structure Usage where
  submitJobs : BitVec 32
  jobs : BitVec 32
  tres : Nat → BitVec 64
  nodeBitmap : Option (Finset Nat)
  nodeJobCnt : Nat → BitVec 16

/-- A usage record. -/
inductive Key where
  | qos (qos : Nat)
  /-- The limits of a user in a QOS. -/
  | qosUser (qos userId : Nat)
  /-- The limits of an account in a QOS. -/
  | qosAcct (qos : Nat) (acct : String)
  | assoc (assoc : Nat)
  deriving DecidableEq

/-- `ACCT_POLICY_*` -/
inductive AdjustType where
  | addSubmit
  | remSubmit
  | jobBegin
  | jobFini
  deriving DecidableEq

/-! ## Nodes -/

/-- `_add_usage_node_bitmap` -/
def addUsageNodeBitmap (nodeBitmap : Option (Finset Nat)) (u : Usage) : Usage :=
  match nodeBitmap with
  | none => u
  | some bitmap =>
    let grp := u.nodeBitmap.getD ∅ ∪ bitmap
    { u with
      nodeBitmap := some grp
      nodeJobCnt := fun n => if n ∈ bitmap then u.nodeJobCnt n + 1 else u.nodeJobCnt n
      tres := Function.update u.tres tresArrayNode (BitVec.ofNat 64 grp.card) }

/-- `_rm_usage_node_bitmap`, and whether a count underflows or is missing. -/
def rmUsageNodeBitmap (nodeBitmap : Option (Finset Nat)) (u : Usage) : Usage × Bool :=
  match nodeBitmap with
  | none => (u, false)
  | some bitmap =>
    match u.nodeBitmap with
    | none => (u, true)
    | some grp =>
      let cnt := fun n => if n ∈ bitmap then u.nodeJobCnt n - 1 else u.nodeJobCnt n
      let grp := grp.filter fun n => ¬ (n ∈ bitmap ∧ cnt n = 0)
      ({ u with
          nodeBitmap := some grp
          nodeJobCnt := cnt
          tres := Function.update u.tres tresArrayNode (BitVec.ofNat 64 grp.card) },
        decide (∃ n ∈ bitmap, u.nodeJobCnt n = 0))

/-! ## Counts -/

/-- The TRES that the loops do not pass over. -/
def counted (conf : Conf) (cnt : Nat → BitVec 64) (i : Nat) : Bool :=
  i < conf.tresCnt && i ≠ tresArrayEnergy && cnt i ≠ noConsumeVal64

def addSubmitJobs (u : Usage) : Usage := { u with submitJobs := u.submitJobs + 1 }

def remSubmitJobs (u : Usage) : Usage × Bool :=
  if 1 ≤ u.submitJobs then ({ u with submitJobs := u.submitJobs - 1 }, false)
  else ({ u with submitJobs := 0 }, true)

/-- The loop over the TRES of a job that starts, for those in `tres`. -/
def addTres (tres : Nat → Bool) (cnt : Nat → BitVec 64) (u : Usage) : Usage :=
  { u with tres := fun i => if tres i then u.tres i + cnt i else u.tres i }

/-- The loop over the TRES of a job that ends. -/
def remTres (conf : Conf) (tres : Nat → Bool) (cnt : Nat → BitVec 64) (u : Usage) : Usage × Bool :=
  ({ u with
      tres := fun i => if tres i then if cnt i > u.tres i then 0 else u.tres i - cnt i else u.tres i },
    decide (∃ i ∈ List.range conf.tresCnt, tres i = true ∧ cnt i > u.tres i))

/-- Of the usage of a QOS. -/
def decQosJobs (u : Usage) : Usage × Bool :=
  let jobs := u.jobs - 1
  if jobs.msb then ({ u with jobs := 0 }, true) else ({ u with jobs := jobs }, false)

/-- Of the limits of a user or an account, and of the usage of an association. -/
def decJobs (u : Usage) : Usage × Bool :=
  if u.jobs ≠ 0 then ({ u with jobs := u.jobs - 1 }, false) else (u, true)

/-- Two changes, one after the other. -/
def thenAlso (f g : Usage → Usage × Bool) (u : Usage) : Usage × Bool :=
  let (u, wrong) := f u
  let (u, wrong') := g u
  (u, wrong || wrong')

/-! ## Adjusting a record -/

/-- What `_qos_adjust_limit_usage` does to a usage record of a QOS; `decJobs` is how it takes a
job off. -/
def adjustQosRecord (conf : Conf) (decJobs : Usage → Usage × Bool) (type : AdjustType) (job : Job)
    (u : Usage) : Usage × Bool :=
  match type with
  | .addSubmit => (addSubmitJobs u, false)
  | .remSubmit => remSubmitJobs u
  | .jobBegin =>
    match job.alloc with
    | none => (u, false)
    | some alloc =>
      let u := addTres (counted conf alloc.tresAllocCnt) alloc.tresAllocCnt u
      (addUsageNodeBitmap alloc.nodeBitmap { u with jobs := u.jobs + 1 }, false)
  | .jobFini =>
    match job.alloc with
    | none => (u, false)
    | some alloc =>
      thenAlso decJobs
        (thenAlso (remTres conf (counted conf alloc.tresAllocCnt) alloc.tresAllocCnt)
          (rmUsageNodeBitmap alloc.nodeBitmap)) u

/-- What the loop over the associations does to one of them. -/
def adjustAssoc (conf : Conf) (type : AdjustType) (job : Job) (u : Usage) : Usage × Bool :=
  match type with
  | .addSubmit => (addSubmitJobs u, false)
  | .remSubmit => remSubmitJobs u
  | .jobBegin =>
    match job.alloc with
    | none => (u, false)
    | some alloc =>
      let u := addUsageNodeBitmap alloc.nodeBitmap { u with jobs := u.jobs + 1 }
      (addTres (fun i => counted conf alloc.tresAllocCnt i && i ≠ tresArrayNode) alloc.tresAllocCnt u,
        false)
  | .jobFini =>
    match job.alloc with
    | none => (u, false)
    | some alloc =>
      thenAlso decJobs
        (thenAlso (rmUsageNodeBitmap alloc.nodeBitmap)
          (remTres conf (fun i => counted conf alloc.tresAllocCnt i && i ≠ tresArrayNode)
            alloc.tresAllocCnt)) u

/-- The change of a record. -/
def adjust (conf : Conf) (type : AdjustType) (job : Job) : Key → Usage → Usage × Bool
  | .qos _ => adjustQosRecord conf decQosJobs type job
  | .qosUser _ _ => adjustQosRecord conf decJobs type job
  | .qosAcct _ _ => adjustQosRecord conf decJobs type job
  | .assoc _ => adjustAssoc conf type job

/-! ## Adjusting all records -/

/-- The records of a QOS: its usage, and the limits of the job's user and account. -/
def qosKeys (conf : Conf) (job : Job) (qos : Nat) : List Key :=
  [.qos qos, .qosUser qos job.userId, .qosAcct qos (conf.acct job.assoc)]

/-- `_qos_adjust_limit_usage` -/
def qosAdjustLimitUsage (conf : Conf) (type : AdjustType) (job : Job) (qosPtr : Option Nat)
    (b : Books Key Usage) : Books Key Usage :=
  match qosPtr with
  | none => b
  | some qos => b.applyAll (adjust conf type job) (qosKeys conf job qos)

/-- `_foreach_part_qos_limit_usage`, with the QOS that were handled already. -/
def foreachPartQosLimitUsage (conf : Conf) (type : AdjustType) (job : Job)
    (st : List Nat × Books Key Usage) (part : Nat) : List Nat × Books Key Usage :=
  match conf.partQos part with
  | none => st
  | some qos =>
    if qos ∈ st.1 then st
    else (qos :: st.1, qosAdjustLimitUsage conf type job (some qos) st.2)

/-- `acct_policy_set_qos_order` -/
def setQosOrder (conf : Conf) (job : Job) : Option Nat × Option Nat :=
  match job.qosPtr, job.partPtr.bind conf.partQos with
  | some qos, some partQos =>
    let (qos1, qos2) := if conf.overPartQos qos then (qos, partQos) else (partQos, qos)
    (some qos1, if qos1 = qos2 then none else some qos2)
  | some qos, none => (some qos, none)
  | none, partQos => (partQos, none)

/-- `_set_highest_prio_qos_ptr` -/
def setHighestPrioQosPtr (job : Job) : Job :=
  match job.qosList with
  | [] => job
  | qos :: _ => { job with qosPtr := some qos }

/-- The loop over an association and its ancestors, which are as many as its depth at most. -/
def assocsLoop (conf : Conf) : Nat → Nat → List Nat
  | 0, assoc => [assoc]
  | depth + 1, assoc =>
    match conf.parentAssoc assoc with
    | none => [assoc]
    | some parent => assoc :: assocsLoop conf depth parent

/-- An association and its ancestors. -/
def assocs (conf : Conf) (assoc : Nat) : List Nat := assocsLoop conf (conf.depth assoc) assoc

/-- The QOS records that are adjusted for the partitions of a job that may start in several. -/
def adjustPartQos (conf : Conf) (type : AdjustType) (job : Job) (parts : List Nat)
    (b : Books Key Usage) : Books Key Usage :=
  let jobFirst := job.qosPtr.any conf.overPartQos
  let st :=
    if jobFirst then (job.qosPtr.toList, qosAdjustLimitUsage conf type job job.qosPtr b) else ([], b)
  let st := parts.foldl (foreachPartQosLimitUsage conf type job) st
  if !jobFirst && job.qosPtr.any (· ∉ st.1) then
    qosAdjustLimitUsage conf type job job.qosPtr st.2
  else st.2

/-- The QOS records that are adjusted otherwise. -/
def adjustOrderedQos (conf : Conf) (type : AdjustType) (job : Job) (b : Books Key Usage) :
    Books Key Usage :=
  let b :=
    match type, job.partPtrList with
    | .jobBegin, some parts =>
      let partQos := job.partPtr.bind conf.partQos
      let handled := (if job.qosPtr ≠ partQos then partQos.toList else []) ++ job.qosPtr.toList
      (parts.foldl (foreachPartQosLimitUsage conf .remSubmit job) (handled, b)).2
    | _, _ => b
  let (qos1, qos2) := setQosOrder conf job
  qosAdjustLimitUsage conf type job qos2 (qosAdjustLimitUsage conf type job qos1 b)

/-- A job is submitted or removed. -/
def AdjustType.isSubmit (type : AdjustType) : Bool := type == .addSubmit || type == .remSubmit

/-- `_adjust_limit_usage` -/
def adjustLimitUsage (conf : Conf) (type : AdjustType) (job : Job) (b : Books Key Usage) :
    Job × Books Key Usage :=
  let origQosPtr := job.qosPtr
  let job := if type.isSubmit then setHighestPrioQosPtr job else job
  let b :=
    match job.partPtrList with
    | some parts =>
      if type.isSubmit ∧ (job.pending ∨ job.alloc.isNone) then adjustPartQos conf type job parts b
      else adjustOrderedQos conf type job b
    | none => adjustOrderedQos conf type job b
  let b := b.applyAll (adjust conf type job) ((assocs conf job.assoc).map .assoc)
  (if type = .remSubmit then { job with qosPtr := origQosPtr } else job, b)

end Slurm.AcctPolicy
