import Slurm.Lib.Dealing

/-!
# Jobs whose tasks are distributed

What `src/plugins/select/cons_tres/dist_tasks.c` reads of a job, and the number of its tasks.
-/

namespace Slurm.DistTasks

/-- The fields of `job_details_t` and of its `multi_core_data_t` that are read. -/
structure Details where
  numTasks : BitVec 32
  /-- `JOB_NTASKS_SET` is in the flags of the job. -/
  ntasksSet : Bool
  ntasksPerNode : BitVec 16
  cpusPerTask : BitVec 16
  overcommit : Bool
  /-- The base of `task_dist` is `SLURM_DIST_PLANE`. -/
  distPlane : Bool
  planeSize : BitVec 16
  threadsPerCore : BitVec 16

/-- `NO_VAL16`. -/
def noVal16 : BitVec 16 := 0xfffe

/-- What a distribution returns. -/
inductive Rc where
  | success
  | error
  /-- `ESLURM_BAD_TASK_COUNT`. -/
  | badTaskCount
  deriving DecidableEq, Repr

/-- `_get_task_count`: the number of tasks that was asked for, or one that is worked out. -/
def getTaskCount (details : Details) (nhosts : Nat) (ncpus : BitVec 32) : Nat :=
  if details.numTasks ≠ 0 ∧ details.ntasksSet = true then
    details.numTasks.toNat
  else if details.ntasksPerNode ≠ 0 then
    details.ntasksPerNode.toNat * nhosts % 2 ^ 32
  else if 1 < details.cpusPerTask.toNat then
    ncpus.toNat / details.cpusPerTask.toNat
  else
    ncpus.toNat

/-- `cpus_per_task`, where 0 is changed to 1. -/
def cpusPerTaskOf (details : Details) : Nat :=
  if details.cpusPerTask = 0 then 1 else details.cpusPerTask.toNat

theorem cpusPerTaskOf_pos (details : Details) : 0 < cpusPerTaskOf details := by
  rw [cpusPerTaskOf]
  split
  · exact Nat.one_pos
  · rename_i hne
    exact Nat.pos_of_ne_zero fun h => hne (BitVec.eq_of_toNat_eq h)

end Slurm.DistTasks

/-!
## Tasks on the CPUs that are needed

`_dist_tasks_compute_c_b` gives each node of a job one task, fills the cores that this takes, and
deals the other tasks in sweeps over the nodes.  The sweeps are those of `Lib.Dealing`: a `break` out
of the tasks of a node is a node that refuses this task and so the later ones.

* `takeTask_cpus`: the CPUs of a node are those of its tasks, as far as it has them.
* `fillLoop_spec`: the loop ends, with all tasks or with no node that takes one more.
* `computeCB_right`: what is promised of the tasks and the CPUs.
-/

namespace Slurm.DistTasks

open Lib.Dealing Bool

/-! ## The code -/

/-- A node of a job: its entry of `job_res->cpus`, its `tpc`, and its entries of `gres_task_limit`,
`gres_min_cpus` and `arbitrary_tpn`. -/
structure NodeInput where
  cpus : BitVec 16
  tpc : BitVec 16
  gresTaskLimit : BitVec 32
  gresMinCpus : BitVec 32
  arbitraryTpn : BitVec 16
  tpc_ne_zero : tpc ≠ 0

/-- A job whose tasks are distributed. -/
structure FillJob where
  details : Details
  ncpus : BitVec 32
  /-- `tres_per_task` is set. -/
  tresPerTask : Bool
  /-- `gres_per_task` of the entries of `gres_list_req`. -/
  gresListReq : List (BitVec 64)
  /-- `gres_task_limit` is not `NULL`. -/
  hasTaskLimit : Bool
  /-- `arbitrary_tpn` is not `NULL`. -/
  hasArbitraryTpn : Bool
  nodes : List NodeInput

/-- A node in the loops: its entries, and the CPUs and tasks that it has so far. -/
structure NodeShare where
  availCpus : Nat
  vpus : Nat
  gresTaskLimit : Nat
  gresMinCpus : Nat
  arbitraryTpn : Option Nat
  cpus : Nat
  tasks : Nat
  deriving DecidableEq, Repr

/-- The nodes of a job before they have tasks. -/
def FillJob.shares (job : FillJob) : List NodeShare :=
  job.nodes.map fun n => {
    availCpus := n.cpus.toNat
    vpus := n.tpc.toNat
    gresTaskLimit := n.gresTaskLimit.toNat
    gresMinCpus := n.gresMinCpus.toNat
    arbitraryTpn := if job.hasArbitraryTpn = true then some n.arbitraryTpn.toNat else none
    cpus := 0
    tasks := 0 }

/-- `gres_select_util_job_tres_per_task`: the limit of a node is one of the GRES of its tasks. -/
def FillJob.tresPerTaskLimit (job : FillJob) : Bool := job.gresListReq.any (· ≠ 0)

/-- The loop over `l` that adds the CPUs of a task. -/
def addCpus (availCpus : Nat) : Nat → Nat → Nat
  | 0, cpus => cpus
  | l + 1, cpus => addCpus availCpus l (if cpus < availCpus then cpus + 1 else cpus)

/-- A node has one more task. -/
def takeTask (cpusPerTask : Nat) (_ : Nat) (s : NodeShare) : NodeShare :=
  { s with tasks := s.tasks + 1, cpus := addCpus s.availCpus cpusPerTask s.cpus }

/-- `dist_tasks_tres_tasks_avail`, for a limit that may be `NULL`. -/
def tresTasksAvail (limited : Bool) (s : NodeShare) : Bool :=
  !limited || decide (s.tasks < s.gresTaskLimit)

/-- `_at_tpn_limit`. -/
def atTpnLimit (details : Details) (s : NodeShare) : Int :=
  let arbitraryRc : Int := match s.arbitraryTpn with
    | none => -1
    | some tpn => s.tasks - tpn
  if details.ntasksPerNode = 0 then
    max (-1) arbitraryRc
  else
    max (s.tasks - details.ntasksPerNode.toNat) arbitraryRc

/-- A node has the CPUs of one more task. -/
def hasCpus (cpusPerTask : Nat) (s : NodeShare) : Bool :=
  decide (cpusPerTask ≤ s.availCpus - s.cpus)

/-- A node takes one more task. -/
def takesMore (details : Details) (cpusPerTask : Nat) (limited : Bool) (s : NodeShare) : Bool :=
  hasCpus cpusPerTask s && tresTasksAvail limited s && decide (atTpnLimit details s < 0)

/-- The first sweep: one task for each node with CPUs, whatever its limits. -/
def oneTask (cpusPerTask : Nat) : Turn NodeShare where
  turns := fun _ => 1
  accept := fun s => decide (s.availCpus ≠ 0)
  put := takeTask cpusPerTask
  room := fun _ => false

/-- The second sweep: the CPUs on the cores that are already taken. -/
def fillAllocated (details : Details) (cpusPerTask : Nat) (limited : Bool) : Turn NodeShare where
  turns := fun s => s.cpus % s.vpus / cpusPerTask
  accept := takesMore details cpusPerTask limited
  put := takeTask cpusPerTask
  room := fun _ => false

/-- A later sweep: the tasks of a core for each node. -/
def packCores (details : Details) (cpusPerTask : Nat) (limited : Bool) : Turn NodeShare where
  turns := fun s => max (s.vpus / cpusPerTask) 1
  accept := takesMore details cpusPerTask limited
  put := takeTask cpusPerTask
  room := hasCpus cpusPerTask

/-- The loop of the later sweeps.  A limit that is not one of the tasks is dropped when no space
remains. -/
def fillLoop (details : Details) (cpusPerTask maxtasks : Nat) (tresPerTaskLimit : Bool) :
    Nat → Bool → Nat → List NodeShare → Option (Rc × List NodeShare)
  | 0, _, _, _ => none
  | fuel + 1, limited, tid, shares =>
    if tid < maxtasks then
      let r := sweep maxtasks (packCores details cpusPerTask limited) ⟨tid, false⟩ shares
      if r.1.room = false ∧ r.1.item < maxtasks then
        if limited = true ∧ tresPerTaskLimit = false then
          fillLoop details cpusPerTask maxtasks tresPerTaskLimit fuel false r.1.item r.2
        else
          some (.badTaskCount, r.2)
      else
        fillLoop details cpusPerTask maxtasks tresPerTaskLimit fuel limited r.1.item r.2
    else
      some (.success, shares)

/-- The number of tasks, where 0 is changed to 1. -/
def FillJob.taskCount (job : FillJob) : Nat :=
  let maxtasks := getTaskCount job.details job.nodes.length job.ncpus
  if maxtasks = 0 then 1 else maxtasks

/-- The nodes after the sweep of one task each. -/
def firstSweep (job : FillJob) : Hand × List NodeShare :=
  sweep job.taskCount (oneTask (cpusPerTaskOf job.details)) ⟨0, false⟩ job.shares

/-- The nodes after the cores that are taken were filled. -/
def secondSweep (job : FillJob) : Hand × List NodeShare :=
  sweep job.taskCount (fillAllocated job.details (cpusPerTaskOf job.details) job.hasTaskLimit)
    (firstSweep job).1 (firstSweep job).2

/-- What `_dist_tasks_compute_c_b` has before the CPUs are adjusted to `gres_min_cpus`. -/
def computeCB (job : FillJob) : Option (Rc × List NodeShare) :=
  let maxtasks :=
    if job.details.overcommit = true ∧ job.tresPerTask = false then 0 else job.taskCount
  fillLoop job.details (cpusPerTaskOf job.details) maxtasks job.tresPerTaskLimit
    (job.taskCount + 2) job.hasTaskLimit (secondSweep job).1.item (secondSweep job).2

/-- `dist_tasks_gres_min_cpus`. -/
def distTasksGresMinCpus (shares : List NodeShare) : List NodeShare :=
  shares.map fun s =>
    if s.cpus < s.gresMinCpus then
      { s with cpus := if s.availCpus < s.gresMinCpus then s.availCpus else s.gresMinCpus }
    else
      s

/-- `do_gres_min_cpus`: a node that was given its first task has a minimum. -/
def doGresMinCpus (shares : List NodeShare) : Bool :=
  shares.any fun s => decide (s.tasks ≠ 0 ∧ s.gresMinCpus ≠ 0)

/-- `_dist_tasks_compute_c_b`. -/
def distTasksComputeCB (job : FillJob) : Option (Rc × List NodeShare) :=
  if job.nodes = [] then
    some (.error, [])
  else
    (computeCB job).map fun r =>
      (r.1, if doGresMinCpus (firstSweep job).2 = true then distTasksGresMinCpus r.2 else r.2)

/-! ## What is promised -/

/-- A node without its CPUs and tasks. -/
def NodeShare.idle (s : NodeShare) : NodeShare := { s with cpus := 0, tasks := 0 }

/-- What is promised of the nodes, before the CPUs are adjusted.  `more` says that a node could take
one more task. -/
structure FillRight (job : FillJob) (maxtasks : Nat) (more : NodeShare → Bool) (rc : Rc)
    (shares : List NodeShare) : Prop where
  nodes : shares.map NodeShare.idle = job.shares
  returned : rc = .success ∨ rc = .badTaskCount
  total : rc = .success → (shares.map NodeShare.tasks).sum = maxtasks
  cpus : rc = .success →
    ∀ s ∈ shares, s.cpus = min s.availCpus (s.tasks * cpusPerTaskOf job.details)
  full : rc = .badTaskCount → ∀ s ∈ shares, more s = false

/-- No node has more tasks than its limit of GRES, where this is one of the tasks. -/
def WithinGres (job : FillJob) (shares : List NodeShare) : Prop :=
  job.hasTaskLimit = true → job.tresPerTaskLimit = true →
    ∀ s ∈ shares, s.tasks ≤ max 1 s.gresTaskLimit

/-- No node has more tasks than `ntasks_per_node`. -/
def WithinTpn (job : FillJob) (shares : List NodeShare) : Prop :=
  job.details.ntasksPerNode ≠ 0 → ∀ s ∈ shares, s.tasks ≤ max 1 job.details.ntasksPerNode.toNat

/-! ## One task -/

section Task

variable {details : Details} {cpusPerTask : Nat} {limited : Bool} {s : NodeShare}

theorem addCpus_eq (availCpus l : Nat) {cpus : Nat} (h : cpus ≤ availCpus) :
    addCpus availCpus l cpus = min availCpus (cpus + l) := by
  induction l generalizing cpus with
  | zero =>
    rw [addCpus]
    omega
  | succ l ih =>
    rw [addCpus]
    split
    · rw [ih (by omega)]
      omega
    · rw [ih h]
      omega

/-- The CPUs of a node are those of its tasks, as far as it has them. -/
def Covered (cpusPerTask : Nat) (s : NodeShare) : Prop :=
  s.cpus = min s.availCpus (s.tasks * cpusPerTask)

theorem takeTask_cpus (n : Nat) (h : Covered cpusPerTask s) :
    Covered cpusPerTask (takeTask cpusPerTask n s) := by
  have hle : s.cpus ≤ s.availCpus := by
    rw [h]
    exact Nat.min_le_left _ _
  show addCpus s.availCpus cpusPerTask s.cpus = min s.availCpus ((s.tasks + 1) * cpusPerTask)
  rw [addCpus_eq _ _ hle, h, Nat.succ_mul]
  omega

theorem tresTasksAvail_and (hard : Bool) (h : tresTasksAvail limited s = true) :
    tresTasksAvail (limited && hard) s = true := by
  cases limited
  · rfl
  · cases hard
    · rfl
    · exact h

theorem takesMore_and (hard : Bool) (h : takesMore details cpusPerTask limited s = true) :
    takesMore details cpusPerTask (limited && hard) s = true := by
  unfold takesMore at h ⊢
  rw [and_eq_true, and_eq_true] at h ⊢
  exact ⟨⟨h.1.1, tresTasksAvail_and hard h.1.2⟩, h.2⟩

/-- A node that takes one more task is below its limits. -/
theorem tasks_lt_of_takesMore (h : takesMore details cpusPerTask limited s = true) :
    (limited = true → s.tasks < s.gresTaskLimit) ∧
      (details.ntasksPerNode ≠ 0 → s.tasks < details.ntasksPerNode.toNat) := by
  unfold takesMore at h
  rw [and_eq_true, and_eq_true, decide_eq_true_eq] at h
  refine ⟨fun hlimited => ?_, fun htpn => ?_⟩
  · have hgres := h.1.2
    rw [tresTasksAvail, hlimited] at hgres
    simpa using hgres
  · have hlt := h.2
    rw [atTpnLimit] at hlt
    simp only [if_neg htpn] at hlt
    have hle := Int.lt_of_le_of_lt (le_max_left _ _) hlt
    omega

end Task

/-! ## The loop -/

section Loop

variable {details : Details} {cpusPerTask maxtasks : Nat} {hard : Bool}

/-- The loop ends: a sweep without space ends it or drops the limit, and any other one deals a
task. -/
theorem fillLoop_spec {fuel : Nat} {limited : Bool} {tid : Nat} {shares : List NodeShare}
    (hfuel : maxtasks - tid + limited.toNat < fuel) :
    ∃ rc tid' shares', fillLoop details cpusPerTask maxtasks hard fuel limited tid shares =
        some (rc, shares') ∧
      Deal (takeTask cpusPerTask) (fun s => takesMore details cpusPerTask (limited && hard) s = true)
        maxtasks tid shares tid' shares' ∧
      (rc = .success ∧ maxtasks ≤ tid' ∨
        rc = .badTaskCount ∧
          ∀ s ∈ shares', takesMore details cpusPerTask (limited && hard) s = false) := by
  induction fuel generalizing limited tid shares with
  | zero => omega
  | succ fuel ih =>
    rw [fillLoop]
    split
    · rename_i hlt
      have hdeal : Deal (takeTask cpusPerTask)
          (fun s => takesMore details cpusPerTask (limited && hard) s = true) maxtasks tid shares
          (sweep maxtasks (packCores details cpusPerTask limited) ⟨tid, false⟩ shares).1.item
          (sweep maxtasks (packCores details cpusPerTask limited) ⟨tid, false⟩ shares).2 :=
        (sweep_deal maxtasks (packCores details cpusPerTask limited) ⟨tid, false⟩ shares).weaken
          fun s hs => takesMore_and hard hs
      have hle := hdeal.le
      simp only
      split
      · rename_i hstuck
        split
        · rename_i hsoft
          obtain ⟨rfl, rfl⟩ := hsoft
          rw [Bool.and_false] at hdeal ⊢
          have hlater : maxtasks - (sweep maxtasks (packCores details cpusPerTask true)
              ⟨tid, false⟩ shares).1.item + Bool.toNat false < fuel := by
            simp only [toNat_true, toNat_false] at hfuel ⊢
            omega
          obtain ⟨rc, tid', shares', heq, hmore, hend⟩ := ih hlater
          exact ⟨rc, tid', shares', heq, hdeal.trans hmore, hend⟩
        · rename_i hhard
          have hsame : (limited && hard) = limited := by
            cases limited
            · rfl
            · simpa using hhard
          refine ⟨_, _, _, rfl, hdeal, Or.inr ⟨rfl, ?_⟩⟩
          rw [hsame]
          refine sweep_stuck maxtasks (packCores details cpusPerTask limited) (fun n s hs => ?_)
            (fun s => Nat.lt_of_lt_of_le Nat.one_pos (Nat.le_max_right _ _)) hstuck.2 hstuck.1
          have hcpus : takesMore details cpusPerTask limited (takeTask cpusPerTask n s) = true := hs
          unfold takesMore at hcpus
          rw [and_eq_true, and_eq_true] at hcpus
          exact hcpus.1.1
      · rename_i hspace
        have hprogress : tid < (sweep maxtasks (packCores details cpusPerTask limited)
            ⟨tid, false⟩ shares).1.item ∨ maxtasks ≤ (sweep maxtasks
              (packCores details cpusPerTask limited) ⟨tid, false⟩ shares).1.item := by
          by_cases hroom : (sweep maxtasks (packCores details cpusPerTask limited)
              ⟨tid, false⟩ shares).1.room = true
          · exact Or.inl (sweep_item_lt_of_room maxtasks _ rfl hroom)
          · rw [not_eq_true] at hroom
            exact Or.inr (Nat.le_of_not_lt fun hlt' => hspace ⟨hroom, hlt'⟩)
        obtain ⟨rc, tid', shares', heq, hmore, hend⟩ := @ih limited
          (sweep maxtasks (packCores details cpusPerTask limited) ⟨tid, false⟩ shares).1.item
          (sweep maxtasks (packCores details cpusPerTask limited) ⟨tid, false⟩ shares).2
          (by omega)
        exact ⟨rc, tid', shares', heq, hdeal.trans hmore, hend⟩
    · rename_i hge
      exact ⟨_, tid, _, rfl, .nothing, Or.inl ⟨rfl, Nat.le_of_not_lt hge⟩⟩

end Loop

/-! ## All sweeps -/

section Deals

variable {job : FillJob} {ok : NodeShare → Prop} {maxtasks tid : Nat} {shares : List NodeShare}

theorem tasks_of_mem_shares {s : NodeShare} (h : s ∈ job.shares) : s.tasks = 0 := by
  obtain ⟨n, -, rfl⟩ := List.mem_map.mp h
  rfl

theorem map_idle_shares (job : FillJob) : job.shares.map NodeShare.idle = job.shares := by
  simp [FillJob.shares, NodeShare.idle]

/-- What holds of the nodes after any series of single tasks. -/
theorem deal_nodes (h : Deal (takeTask (cpusPerTaskOf job.details)) ok maxtasks 0 job.shares tid shares) :
    shares.map NodeShare.idle = job.shares ∧ (shares.map NodeShare.tasks).sum = tid ∧
      ∀ s ∈ shares, Covered (cpusPerTaskOf job.details) s := by
  have hzero : (job.shares.map NodeShare.tasks).sum = 0 :=
    List.sum_eq_zero (by simpa using fun s => tasks_of_mem_shares)
  have hsum := h.sum_size NodeShare.tasks fun _ _ => rfl
  refine ⟨?_, by omega, ?_⟩
  · rw [h.map_eq (f := NodeShare.idle) fun _ _ => rfl, map_idle_shares]
  · refine h.forall_mem (P := fun _ => Covered (cpusPerTaskOf job.details))
      (fun n s _ hs => takeTask_cpus n hs) (fun _ _ hs => hs) fun s hs => ?_
    obtain ⟨n, -, rfl⟩ := List.mem_map.mp hs
    simp [Covered]

/-- A node keeps its limits, apart from its first task. -/
def WithinLimits (job : FillJob) (s : NodeShare) : Prop :=
  ((job.hasTaskLimit && job.tresPerTaskLimit) = true → s.tasks ≤ max 1 s.gresTaskLimit) ∧
    (job.details.ntasksPerNode ≠ 0 → s.tasks ≤ max 1 job.details.ntasksPerNode.toNat)

theorem withinLimits_takeTask (n : Nat) {s : NodeShare}
    (h : takesMore job.details (cpusPerTaskOf job.details) (job.hasTaskLimit && job.tresPerTaskLimit) s =
      true) : WithinLimits job (takeTask (cpusPerTaskOf job.details) n s) := by
  have hlt := tasks_lt_of_takesMore h
  refine ⟨fun hlimited => ?_, fun htpn => ?_⟩
  · have := hlt.1 hlimited
    show s.tasks + 1 ≤ max 1 s.gresTaskLimit
    omega
  · have := hlt.2 htpn
    show s.tasks + 1 ≤ max 1 job.details.ntasksPerNode.toNat
    omega

/-- After the sweep of one task each. -/
theorem withinLimits_firstSweep : ∀ s ∈ (firstSweep job).2, WithinLimits job s := by
  intro s hs
  obtain ⟨s', hs', h', rfl⟩ := mem_sweep _ _ hs
  have hzero := tasks_of_mem_shares hs'
  have hone : (attempts job.taskCount (oneTask (cpusPerTaskOf job.details)) 1 h' s').2.tasks ≤ 1 := by
    rw [attempts_one]
    split
    · show s'.tasks + 1 ≤ 1
      omega
    · show s'.tasks ≤ 1
      omega
  exact ⟨fun _ => hone.trans (Nat.le_max_left _ _), fun _ => hone.trans (Nat.le_max_left _ _)⟩

end Deals

/-- What is promised of the tasks and the CPUs of a job that does not overcommit. -/
theorem computeCB_right (job : FillJob) (hovercommit : job.details.overcommit = false) :
    ∃ rc shares, computeCB job = some (rc, shares) ∧
      FillRight job job.taskCount
        (takesMore job.details (cpusPerTaskOf job.details) (job.hasTaskLimit && job.tresPerTaskLimit))
        rc shares ∧
      WithinGres job shares ∧ WithinTpn job shares := by
  have hcount : (if job.details.overcommit = true ∧ job.tresPerTask = false then 0
      else job.taskCount) = job.taskCount := by
    rw [if_neg fun h => by rw [hovercommit] at h; exact absurd h.1 (by decide)]
  have hbool := toNat_le job.hasTaskLimit
  obtain ⟨rc, tid, shares, heq, hloop, hend⟩ := @fillLoop_spec job.details
    (cpusPerTaskOf job.details) job.taskCount job.tresPerTaskLimit (job.taskCount + 2)
    job.hasTaskLimit (secondSweep job).1.item (secondSweep job).2 (by omega)
  have hfirst := sweep_deal job.taskCount (oneTask (cpusPerTaskOf job.details)) ⟨0, false⟩ job.shares
  have hsecond := (sweep_deal job.taskCount
    (fillAllocated job.details (cpusPerTaskOf job.details) job.hasTaskLimit)
    (firstSweep job).1 (firstSweep job).2).weaken
      fun s hs => takesMore_and job.tresPerTaskLimit hs
  have hlater := hsecond.trans hloop
  have hwhole : Deal (takeTask (cpusPerTaskOf job.details)) (fun _ => True) job.taskCount 0
      job.shares tid shares :=
    (hfirst.weaken fun _ _ => trivial).trans (hlater.weaken fun _ _ => trivial)
  have hle := hwhole.le_limit (Nat.zero_le _)
  have hnodes := deal_nodes hwhole
  have hlimits : ∀ s ∈ shares, WithinLimits job s :=
    hlater.forall_mem (P := fun _ => WithinLimits job) (fun n s hs _ => withinLimits_takeTask n hs)
      (fun _ _ hs => hs) withinLimits_firstSweep
  refine ⟨rc, shares, ?_, ?_, ?_, ?_⟩
  · rw [computeCB, hcount, heq]
  · refine ⟨hnodes.1, ?_, fun hsuccess => ?_, fun _ => hnodes.2.2, fun hbad => ?_⟩
    · exact hend.imp And.left And.left
    · rcases hend with hall | hstuck
      · rw [hnodes.2.1]
        omega
      · rw [hstuck.1] at hsuccess
        cases hsuccess
    · rcases hend with hall | hstuck
      · rw [hall.1] at hbad
        cases hbad
      · exact hstuck.2
  · exact fun hlimited hhard s hs => (hlimits s hs).1 (by rw [hlimited, hhard]; rfl)
  · exact fun htpn s hs => (hlimits s hs).2 htpn

end Slurm.DistTasks
