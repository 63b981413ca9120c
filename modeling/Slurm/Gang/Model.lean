import Slurm.JobResources.ClusterCores

/-!
# The time slicer (`slurmctld/gang.c`)

`_cycle_job_list` ends the time slice of a partition: the jobs that were active go to the back
of the job list, the active row is built anew from the front of the list, and jobs are
suspended and resumed accordingly.

What the row holds of the active jobs depends on the group type of the partition: a bit string
over the cores of the cluster, or one over its nodes, with the CPUs in use on each of them.

The results are none for a failed assertion, for the record of a blank entry of the node table,
and for a read behind the end of an array.  The signals to jobs, and what they do to the
partitions below, are returned as actions.
-/

namespace Slurm.Gang

open Slurm.Bitstring
open Slurm.ClusterCores (NodeTable JobRes nodesOf jobFitsIntoCores addJobToCores)

/-! ## Records -/

/-- `enum entity_type` -/
inductive EntityType where
  | node
  | socket
  | core
  | cpu
  | cpu2
  deriving DecidableEq, Repr

/-- The values of `row_state`. -/
inductive RowState where
  | active
  | noActive
  | filler
  deriving DecidableEq, Repr

/-- The values of `sig_state`. -/
inductive SigState where
  | suspend
  | resume
  deriving DecidableEq, Repr

/-- `job_resources_t`, the fields that are read here. -/
structure JobResources extends JobRes where
  cpus : Option (List Nat)

/-- `part_record_t` -/
structure PartRecord where
  crType : BitVec 16

/-- `job_record_t` -/
structure JobRecord where
  jobId : Nat
  priority : Nat
  partPtr : Option PartRecord
  jobResrcs : JobResources

/-- `node_record_t`, with the `tot_sockets` of its `config_ptr`. -/
structure NodeRecord where
  cpus : Nat
  totCores : Nat
  totSockets : Nat

/-- What is read of the configuration and the node table, with `slurm_job_preempt_mode`. -/
structure Slurmctld where
  selectTypeParam : BitVec 16
  taskPlugin : Option String
  nodeRecordTable : List (Option NodeRecord)
  slurmJobPreemptMode : JobRecord → BitVec 16

/-- The `tot_cores` of the nodes. -/
def Slurmctld.table (S : Slurmctld) : NodeTable := S.nodeRecordTable.map (Option.map (·.totCores))

/-- `struct gs_job` -/
structure GsJob where
  jobId : Nat
  jobPtr : JobRecord
  sigState : SigState
  rowState : RowState

/-- The part of `struct gs_part` that holds the active row. -/
structure ActiveRow where
  jobsActive : Nat
  activeResmap : Option Bitstr
  activeCpus : Option (List Nat)

/-- `struct gs_part` -/
structure GsPart extends ActiveRow where
  priority : Nat
  jobList : List GsJob
  shadow : List GsJob

/-! ## The group type -/

/-- The group type of a `SelectTypeParameters` value, which `_get_gr_type` and
`_get_part_gr_type` test alike. -/
def grTypeOf (S : Slurmctld) (crType : BitVec 16) : Option EntityType :=
  if crType &&& 0x0004#16 ≠ 0 then some .core
  else if crType &&& 0x0001#16 ≠ 0 then
    if S.taskPlugin = some "task/none" then some .cpu else some .cpu2
  else if crType &&& 0x0002#16 ≠ 0 then some .socket
  else none

/-- `_get_gr_type` -/
def getGrType (S : Slurmctld) : EntityType := (grTypeOf S S.selectTypeParam).getD .node

/-- `_get_part_gr_type` -/
def getPartGrType (S : Slurmctld) (partPtr : Option PartRecord) : EntityType :=
  match partPtr with
  | none => getGrType S
  | some part => (grTypeOf S part.crType).getD (getGrType S)

/-- The types whose rows are kept in cores. -/
def EntityType.byCores (type : EntityType) : Bool :=
  type = .cpu2 || type = .core || type = .socket

/-- `node_record_table_ptr[i]`, which must be a node. -/
def nodeRecord (S : Slurmctld) (i : Nat) : Option NodeRecord := S.nodeRecordTable.getD i none

/-- `_get_phys_bit_cnt` -/
def getPhysBitCnt (S : Slurmctld) (nodeIndex : Nat) : Option Nat := do
  let nodePtr ← nodeRecord S nodeIndex
  pure (if getGrType S = .cpu then nodePtr.cpus else nodePtr.totCores)

/-- `_get_socket_cnt` -/
def getSocketCnt (S : Slurmctld) (nodeIndex : Nat) : Option Nat := do
  let nodePtr ← nodeRecord S nodeIndex
  pure nodePtr.totSockets

/-! ## The conflict test -/

/-- The loop of `_can_cpus_fit`. -/
def cpusFitLoop (S : Slurmctld) (pCpus jCpus : List Nat) : List Nat → Nat → Option Bool
  | [], _ => some true
  | i :: nodes, j => do
    let used ← pCpus[i]?
    let wanted ← jCpus[j]?
    let limit ← getPhysBitCnt S i
    if limit < used + wanted then pure false else cpusFitLoop S pCpus jCpus nodes (j + 1)

/-- `_can_cpus_fit` -/
def canCpusFit (S : Slurmctld) (jobRes : JobResources) (row : ActiveRow) : Option Bool :=
  if getGrType S ≠ .cpu then some false
  else match row.activeCpus, jobRes.cpus with
    | some pCpus, some jCpus => cpusFitLoop S pCpus jCpus (nodesOf S.table jobRes.nodeBitmap) 0
    | _, _ => some false

/-- `_job_fits_in_active_row` -/
def jobFitsInActiveRow (S : Slurmctld) (jobPtr : JobRecord) (row : ActiveRow) : Option Bool :=
  match row.activeResmap with
  | none => some true
  | some resmap =>
    if row.jobsActive = 0 then some true
    else
      let jobRes := jobPtr.jobResrcs
      let jobGrType := getPartGrType S jobPtr.partPtr
      if jobGrType.byCores then jobFitsIntoCores S.table jobRes.toJobRes (some resmap)
      else
        let jobMap := bitAnd (bitCopy jobRes.nodeBitmap) resmap
        if bitSetCount jobMap = 0 then some true
        else if jobGrType = .cpu then canCpusFit S jobRes row
        else some false

/-! ## Adding a job -/

/-- The sockets of one node, `socks` of them with `cps` cores each from `c` on. -/
def fillNode (cps : Nat) : Nat → Nat → Bitstr → Nat × Bitstr
  | 0, c, resmap => (c, resmap)
  | socks + 1, c, resmap =>
    if (List.range cps).any fun k => bitTest resmap (c + k) then
      fillNode cps socks (c + cps) (bitNset resmap c (c + cps - 1))
    else fillNode cps socks (c + cps) resmap

/-- The loop of `_fill_sockets` from the first node of the job to the last one. -/
def fillLoop (S : Slurmctld) (jobNodemap : Bitstr) : List Nat → Nat → Bitstr → Option Bitstr
  | [], _, resmap => some resmap
  | n :: nodes, c, resmap => do
    let coresPerNode ← getPhysBitCnt S n
    if bitTest jobNodemap n = false then fillLoop S jobNodemap nodes (c + coresPerNode) resmap
    else do
      let socks ← getSocketCnt S n
      if socks = 0 then none
      else
        let filled := fillNode (coresPerNode / socks) socks c resmap
        fillLoop S jobNodemap nodes filled.1 filled.2

/-- The cores of the nodes before the first one of the job. -/
def skipNodes (S : Slurmctld) : List Nat → Nat → Option Nat
  | [], c => some c
  | n :: nodes, c => do
    let coresPerNode ← getPhysBitCnt S n
    skipNodes S nodes (c + coresPerNode)

/-- `_fill_sockets` -/
def fillSockets (S : Slurmctld) (jobNodemap : Bitstr) : Option Bitstr → Option (Option Bitstr)
  | none => some none
  | some resmap => do
    let firstBit ← bitFfs jobNodemap
    let lastBit ← bitFls jobNodemap
    let c ← skipNodes S (List.range firstBit) 0
    let resmap ← fillLoop S jobNodemap (List.range' firstBit (lastBit + 1 - firstBit)) c resmap
    pure (some resmap)

/-- `bit_clear_all` -/
def bitClearAll (b : Bitstr) : Bitstr := bitNclear b 0 (b.nbits - 1)

/-- The job is added to `active_resmap`. -/
def addToResmap (S : Slurmctld) (jobRes : JobResources) (jobGrType : EntityType) (row : ActiveRow) :
    Option (Option Bitstr) :=
  if jobGrType.byCores then do
    let resmap := if row.jobsActive = 0 then row.activeResmap.map bitClearAll else row.activeResmap
    let resmap ← addJobToCores S.table jobRes.toJobRes resmap
    if jobGrType = .socket then fillSockets S jobRes.nodeBitmap resmap else pure resmap
  else
    match row.activeResmap with
    | none => some (some (bitCopy jobRes.nodeBitmap))
    | some resmap =>
      if row.jobsActive = 0 then
        if h : jobRes.nodeBitmap.nbits = resmap.nbits then
          some (some (bitCopybits resmap jobRes.nodeBitmap h))
        else none
      else some (some (bitOr resmap jobRes.nodeBitmap))

/-- One node of the loop that overwrites `active_cpus`. -/
def overwriteCpus (nodeBitmap : Bitstr) (cpus : List Nat) (s : Nat × List Nat) (i : Nat) :
    Option (Nat × List Nat) :=
  if bitTest nodeBitmap i then do
    let wanted ← cpus[s.1]?
    pure (s.1 + 1, s.2.set i wanted)
  else some (s.1, s.2.set i 0)

/-- One node of the loop that adds to `active_cpus`, whose elements are 16 bits wide. -/
def increaseCpus (S : Slurmctld) (nodeBitmap : Bitstr) (cpus : List Nat) (s : Nat × List Nat)
    (i : Nat) : Option (Nat × List Nat) :=
  if bitTest nodeBitmap i then do
    let limit ← getPhysBitCnt S i
    let used ← s.2[i]?
    let wanted ← cpus[s.1]?
    let sum := (used + wanted) % 0x10000
    pure (s.1 + 1, s.2.set i (if limit < sum then limit else sum))
  else some s

/-- The job is added to `active_cpus`, after it was added to `active_resmap`. -/
def addToCpus (S : Slurmctld) (jobRes : JobResources) (resmap : Option Bitstr) (row : ActiveRow) :
    Option (List Nat) := do
  let sz ← resmap.map (·.nbits)
  let cpus ← jobRes.cpus
  let activeCpus := row.activeCpus.getD (List.replicate sz 0)
  let s ←
    if row.jobsActive = 0 then
      (List.range sz).foldlM (overwriteCpus jobRes.nodeBitmap cpus) (0, activeCpus)
    else (List.range sz).foldlM (increaseCpus S jobRes.nodeBitmap cpus) (0, activeCpus)
  pure s.2

/-- `_add_job_to_active` -/
def addJobToActive (S : Slurmctld) (jobPtr : JobRecord) (row : ActiveRow) : Option ActiveRow := do
  let jobRes := jobPtr.jobResrcs
  let jobGrType := getPartGrType S jobPtr.partPtr
  let resmap ← addToResmap S jobRes jobGrType row
  let activeCpus ←
    if jobGrType = .cpu then (addToCpus S jobRes resmap row).map some else some row.activeCpus
  pure ⟨row.jobsActive + 1, resmap, activeCpus⟩

/-! ## The active row -/

/-- The jobs of the list in order, each of which is added when it fits. -/
def activate (S : Slurmctld) : ActiveRow → List GsJob → Option (ActiveRow × List GsJob)
  | row, [] => some (row, [])
  | row, jPtr :: jobs => do
    let fits ←
      if jPtr.jobPtr.priority = 0 then some false else jobFitsInActiveRow S jPtr.jobPtr row
    if fits then do
      let row ← addJobToActive S jPtr.jobPtr row
      let rest ← activate S row jobs
      pure (rest.1, { jPtr with rowState := .active } :: rest.2)
    else do
      let rest ← activate S row jobs
      pure (rest.1, jPtr :: rest.2)

/-- `_build_active_row` -/
def buildActiveRow (S : Slurmctld) (part : GsPart) : Option GsPart :=
  let row : ActiveRow := { part.toActiveRow with jobsActive := 0 }
  if part.jobList.length = 0 then some { part with toActiveRow := row }
  else do
    let row ← part.shadow.foldlM (fun row s => addJobToActive S s.jobPtr row) row
    let built ← activate S row part.jobList
    pure { part with toActiveRow := built.1, jobList := built.2 }

/-! ## The time slice -/

/-- The jobs behind `j` move down by one place.  Returned is the last place with the list. -/
def shiftDown : Nat → Nat → List GsJob → Nat × List GsJob
  | 0, j, jobList => (j, jobList)
  | fuel + 1, j, jobList =>
    match jobList[j + 1]? with
    | none => (j, jobList)
    | some next => shiftDown fuel (j + 1) (jobList.set j next)

/-- The loop at place `i`, while the job there is active. -/
def moveActive : Nat → Nat → List GsJob → List GsJob
  | 0, _, jobList => jobList
  | fuel + 1, i, jobList =>
    match jobList[i]? with
    | none => jobList
    | some jPtr =>
      if jPtr.rowState = .active then
        let shifted := shiftDown jobList.length i jobList
        moveActive fuel i (shifted.2.set shifted.1 { jPtr with rowState := .noActive })
      else jobList

/-- A filler at place `i` is no filler any more. -/
def clearFiller (i : Nat) (jobList : List GsJob) : List GsJob :=
  match jobList[i]? with
  | none => jobList
  | some jPtr =>
    if jPtr.rowState = .filler then jobList.set i { jPtr with rowState := .noActive } else jobList

/-- The loop that orders the job list anew. -/
def reorder (jobList : List GsJob) : List GsJob :=
  (List.range jobList.length).foldl
    (fun jobs i => clearFiller i (moveActive (jobList.length + 1) i jobs)) jobList

/-- What is done to jobs, and to the shadows in other partitions. -/
inductive Action where
  | suspendJob (jobId : Nat)
  | preemptJobQueue (jobId : Nat)
  | resumeJob (jobId : Nat)
  | clearShadow (jobId : Nat)
  | castShadow (jobId : Nat) (priority : Nat)

/-- A running job that is not active is suspended or preempted. -/
def suspendOne (S : Slurmctld) (numShadows : Nat) (jPtr : GsJob) : GsJob × List Action :=
  if jPtr.rowState = .noActive ∧ jPtr.sigState = .resume then
    let preemptMode := S.slurmJobPreemptMode jPtr.jobPtr
    let stop :=
      if numShadows ≠ 0 ∧ preemptMode ≠ 0x0000#16 ∧ preemptMode ≠ 0x0001#16 then
        Action.preemptJobQueue jPtr.jobId
      else Action.suspendJob jPtr.jobPtr.jobId
    ({ jPtr with sigState := .suspend }, [stop, .clearShadow jPtr.jobId])
  else (jPtr, [])

/-- A suspended job that is active is resumed. -/
def resumeOne (priority : Nat) (jPtr : GsJob) : GsJob × List Action :=
  if jPtr.rowState = .active ∧ jPtr.sigState = .suspend ∧ jPtr.jobPtr.priority ≠ 0 then
    ({ jPtr with sigState := .resume },
      [.resumeJob jPtr.jobPtr.jobId, .castShadow jPtr.jobId priority])
  else (jPtr, [])

/-- `_cycle_job_list` -/
def cycleJobList (S : Slurmctld) (part : GsPart) : Option (GsPart × List Action) := do
  let part ← buildActiveRow S { part with jobList := reorder part.jobList }
  let suspended := part.jobList.map (suspendOne S part.shadow.length)
  let resumed := (suspended.map (·.1)).map (resumeOne part.priority)
  pure ({ part with jobList := resumed.map (·.1) },
    suspended.flatMap (·.2) ++ resumed.flatMap (·.2))

end Slurm.Gang
