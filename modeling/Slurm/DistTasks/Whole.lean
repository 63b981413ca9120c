import Slurm.DistTasks.Fill

/-!
# Tasks on whole nodes

`_set_task_dist` distributes the tasks of a job that has all CPUs of its nodes.  Every node has
one task, and the others are dealt in chunks.

* `Filled`: the state of a node in the loop; `dealSweep_spec` is one sweep and `dealLoop_spec` the
  loop.
* `internal_spec`: the tasks of the nodes.
* `distContract_iff`: when the tasks and the CPUs are right.
* `scaleLoop_iff_ordered`: what this means for the order of the nodes.
-/

namespace Slurm.DistTasks

open List Option Nat

variable {cpus : Nat}

/-! ## The code -/

/-- A job with the CPUs of each of its nodes, and the threads per core of each node of its
`node_bitmap`. -/
structure WholeJob where
  details : Details
  ncpus : BitVec 32
  cpus : List (BitVec 16)
  nodes : List (BitVec 16)
  cpus_ne : cpus ≠ []
  nodes_length : nodes.length = cpus.length

/-- A node in the loops: what is left of its CPUs, and its tasks. -/
structure Share where
  avail : Nat
  tasks : Nat
  deriving DecidableEq, Repr

/-- A node has its first task, also where it has too few CPUs for one. -/
def firstTask (cpusPerTask cpus : Nat) : Share :=
  if cpus < cpusPerTask then ⟨0, 1⟩ else ⟨cpus - cpusPerTask, 1⟩

/-- The number of tasks that a node is dealt. -/
def chunk (planeSize cpusPerTask left : Nat) (s : Share) : Nat :=
  min (min (max (s.tasks % planeSize) 1) (s.avail / cpusPerTask)) left

/-- A sweep of the loop over the nodes. -/
def dealSweep (planeSize cpusPerTask maxtasks : Nat) : Nat → List Share → Nat × List Share
  | tid, [] => (tid, [])
  | tid, s :: rest =>
    if s.avail < cpusPerTask then
      let r := dealSweep planeSize cpusPerTask maxtasks tid rest
      (r.1, s :: r.2)
    else
      let i := chunk planeSize cpusPerTask (maxtasks - tid) s
      let r := dealSweep planeSize cpusPerTask maxtasks (tid + i) rest
      (r.1, ⟨s.avail - i * cpusPerTask, s.tasks + i⟩ :: r.2)

/-- The loop, which ends when no node was dealt a task.  It returns `none` when it takes more than
some number of sweeps. -/
def dealLoop (planeSize cpusPerTask maxtasks : Nat) :
    Nat → Nat → List Share → Option (Nat × List Share)
  | 0, _, _ => none
  | fuel + 1, tid, shares =>
    if tid < maxtasks then
      let r := dealSweep planeSize cpusPerTask maxtasks tid shares
      if r.1 = tid then some r else dealLoop planeSize cpusPerTask maxtasks fuel r.1 r.2
    else
      some (tid, shares)

/-- The size of a plane, which must not be zero. -/
def planeSizeOf (details : Details) : Nat :=
  if details.distPlane = true then details.planeSize.toNat else 1

/-- The number of tasks, where 0 is changed to 1. -/
def taskCount (job : WholeJob) : Nat :=
  let maxtasks := getTaskCount job.details job.cpus.length job.ncpus
  if maxtasks = 0 then 1 else maxtasks

/-- What `_set_task_dist_internal` returns, with the tasks of each node. -/
structure Dist where
  rc : Rc
  tasksPerNode : List Nat
  deriving DecidableEq, Repr

/-- `_set_task_dist_internal`. -/
def setTaskDistInternal (job : WholeJob) : Option Dist :=
  let planeSize := planeSizeOf job.details
  if planeSize = 0 then
    some ⟨.error, []⟩
  else
    let maxtasks := taskCount job
    let cpusPerTask := cpusPerTaskOf job.details
    let shares := job.cpus.map fun c => firstTask cpusPerTask c.toNat
    (dealLoop planeSize cpusPerTask maxtasks (maxtasks + 1) job.cpus.length shares).map fun r =>
      ⟨if r.1 < maxtasks then .badTaskCount else .success, r.2.map Share.tasks⟩

/-- The loop over the nodes that multiplies the CPUs.  Its index into the CPUs is left where it is
for a node that is skipped. -/
def scaleLoop (threadsPerCore : BitVec 16) : List (BitVec 16) → List (BitVec 16) → List (BitVec 16)
  | cpus, [] => cpus
  | [], _ :: _ => []
  | c :: cpus, tpc :: nodes =>
    if threadsPerCore = tpc then
      scaleLoop threadsPerCore (c :: cpus) nodes
    else
      c * tpc :: scaleLoop threadsPerCore cpus nodes

/-- `_set_task_dist`, for a `cr_type` that has cores or sockets or has not: what it returns, and
the CPUs of each node. -/
def setTaskDist (job : WholeJob) (coreOrSocket : Bool) : Option (Rc × List (BitVec 16)) :=
  (setTaskDistInternal job).map fun dist =>
    if dist.rc ≠ .success then
      (dist.rc, job.cpus)
    else if job.details.threadsPerCore ≠ noVal16 ∧ coreOrSocket = true then
      (.success, scaleLoop job.details.threadsPerCore job.cpus job.nodes)
    else
      (.success, job.cpus)

/-! ## What is promised -/

/-- What is promised of the tasks of the nodes. -/
structure TasksRight (job : WholeJob) (dist : Dist) : Prop where
  total : dist.rc = .success → dist.tasksPerNode.sum = max job.cpus.length (taskCount job)
  each : dist.rc = .success → List.Forall₂ (fun _ t => 1 ≤ t) job.cpus dist.tasksPerNode
  within : dist.rc = .success → job.details.overcommit = false →
    (∀ c ∈ job.cpus, cpusPerTaskOf job.details ≤ c.toNat) →
      List.Forall₂ (fun c t => t * cpusPerTaskOf job.details ≤ c.toNat) job.cpus dist.tasksPerNode
  fails : dist.rc ≠ .success → ∀ (n : Nat) (h : n < job.cpus.length),
    job.cpus[n].toNat < (dist.tasksPerNode.getD n 0 + 1) * cpusPerTaskOf job.details

/-- The number that the CPUs of a node are multiplied by. -/
def ownFactor (threadsPerCore tpc : BitVec 16) : BitVec 16 := if threadsPerCore = tpc then 1 else tpc

/-- What is promised of a distribution. -/
structure DistContract (job : WholeJob) (coreOrSocket : Bool) : Prop where
  tasks : ∃ dist, setTaskDistInternal job = some dist ∧ TasksRight job dist
  cpus : ∃ rc cpus, setTaskDist job coreOrSocket = some (rc, cpus) ∧
    (rc = .success → coreOrSocket = true → job.details.threadsPerCore ≠ noVal16 →
      cpus = List.zipWith (fun c tpc => c * ownFactor job.details.threadsPerCore tpc)
        job.cpus job.nodes)

/-- The size of a plane is not zero, where it is asked for and some node has room for a task. -/
def PlaneOk (job : WholeJob) : Prop :=
  planeSizeOf job.details ≠ 0 ∨ ∀ c ∈ job.cpus, c.toNat < cpusPerTaskOf job.details

/-- The number of tasks that a node has room for, the first one set aside. -/
def roomOf (cpusPerTask cpus : Nat) : Nat := max 1 (cpus / cpusPerTask)

/-- The CPUs are to be multiplied: the tasks have room and the request asks for it. -/
def Scales (job : WholeJob) (coreOrSocket : Bool) : Prop :=
  planeSizeOf job.details ≠ 0 ∧
    taskCount job ≤ (job.cpus.map fun c => roomOf (cpusPerTaskOf job.details) c.toNat).sum ∧
    coreOrSocket = true ∧ job.details.threadsPerCore ≠ noVal16

/-- The numbers of threads that are multiplied with, in the order of the nodes that have them. -/
def factors (job : WholeJob) : List (BitVec 16) :=
  job.nodes.filter fun tpc => decide (job.details.threadsPerCore ≠ tpc)

/-- The `k`-th of the nodes with another number of threads has what is right for the CPUs of
node `k`. -/
def Aligned (job : WholeJob) : Prop :=
  ∀ (k : Nat) (h : k < job.cpus.length) (h' : k < job.nodes.length),
    job.cpus[k] * (factors job).getD k 1 =
      job.cpus[k] * ownFactor job.details.threadsPerCore job.nodes[k]

/-! ## The loop -/

variable {s : Share}

section Loop

variable {planeSize cpusPerTask maxtasks : Nat}

/-- A node with some CPUs in the loop: the tasks have their CPUs, except for a first one that has
too few. -/
def Filled (cpusPerTask cpus : Nat) (s : Share) : Prop :=
  1 ≤ s.tasks ∧
    (s.avail + s.tasks * cpusPerTask = cpus ∨ cpus < cpusPerTask ∧ s.avail = 0 ∧ s.tasks = 1)

theorem firstTask_filled (cpus : Nat) : Filled cpusPerTask cpus (firstTask cpusPerTask cpus) := by
  rw [firstTask]
  split
  · rename_i hlt
    exact ⟨Nat.le_refl 1, Or.inr ⟨hlt, rfl, rfl⟩⟩
  · refine ⟨Nat.le_refl 1, Or.inl ?_⟩
    show cpus - cpusPerTask + 1 * cpusPerTask = cpus
    omega

theorem Filled.tasks_le (hpos : 0 < cpusPerTask) (h : Filled cpusPerTask cpus s) :
    s.tasks ≤ roomOf cpusPerTask cpus := by
  rw [roomOf]
  rcases h.2 with heq | hfew
  · have hle : s.tasks ≤ cpus / cpusPerTask := (Nat.le_div_iff_mul_le hpos).mpr (by omega)
    omega
  · omega

/-- A node without room has all tasks that it has room for. -/
theorem Filled.tasks_eq (hpos : 0 < cpusPerTask) (h : Filled cpusPerTask cpus s)
    (hfull : s.avail < cpusPerTask) : s.tasks = roomOf cpusPerTask cpus := by
  have hone := h.1
  rw [roomOf]
  rcases h.2 with heq | hfew
  · have hdiv : cpus / cpusPerTask = s.tasks := by
      rw [← heq, add_mul_div_right _ _ hpos, div_eq_of_lt hfull, Nat.zero_add]
    omega
  · have hdiv : cpus / cpusPerTask = 0 := div_eq_of_lt hfew.1
    omega

theorem chunk_mul_le (left : Nat) (s : Share) :
    chunk planeSize cpusPerTask left s * cpusPerTask ≤ s.avail := by
  have hle : chunk planeSize cpusPerTask left s ≤ s.avail / cpusPerTask :=
    (Nat.min_le_left _ _).trans (Nat.min_le_right _ _)
  exact (Nat.mul_le_mul_right _ hle).trans (div_mul_le_self _ _)

theorem chunk_pos (hpos : 0 < cpusPerTask) {left : Nat} (hleft : 0 < left) {s : Share}
    (hroom : cpusPerTask ≤ s.avail) : 0 < chunk planeSize cpusPerTask left s := by
  have hdiv : 0 < s.avail / cpusPerTask := Nat.div_pos hroom hpos
  rw [chunk]
  omega

/-- A chunk keeps the CPUs of a node. -/
theorem Filled.deal (h : Filled cpusPerTask cpus s) (hroom : cpusPerTask ≤ s.avail)
    (hpos : 0 < cpusPerTask) {i : Nat} (hi : i * cpusPerTask ≤ s.avail) :
    Filled cpusPerTask cpus ⟨s.avail - i * cpusPerTask, s.tasks + i⟩ := by
  have hone := h.1
  refine ⟨by dsimp only; omega, Or.inl ?_⟩
  rcases h.2 with heq | hfew
  · show s.avail - i * cpusPerTask + (s.tasks + i) * cpusPerTask = cpus
    rw [Nat.add_mul]
    omega
  · omega

/-- What a sweep does: from `tid` on it deals tasks, none only when no node has room. -/
structure Swept (cpusPerTask maxtasks : Nat) (cpus : List Nat) (tid : Nat) (shares : List Share)
    (r : Nat × List Share) : Prop where
  filled : List.Forall₂ (Filled cpusPerTask) cpus r.2
  le : r.1 ≤ maxtasks
  mono : tid ≤ r.1
  sum : r.1 + (shares.map Share.tasks).sum = tid + (r.2.map Share.tasks).sum
  full : r.1 = tid → tid < maxtasks → ∀ s ∈ r.2, s.avail < cpusPerTask

theorem dealSweep_spec (hpos : 0 < cpusPerTask) {cpus : List Nat} {shares : List Share}
    (hfilled : List.Forall₂ (Filled cpusPerTask) cpus shares) {tid : Nat} (hle : tid ≤ maxtasks) :
    Swept cpusPerTask maxtasks cpus tid shares
      (dealSweep planeSize cpusPerTask maxtasks tid shares) := by
  induction hfilled generalizing tid with
  | nil => exact ⟨.nil, hle, Nat.le_refl _, rfl, fun _ _ s hs => absurd hs not_mem_nil⟩
  | @cons c s cpus shares hs hrest ih =>
    rw [dealSweep]
    split
    · rename_i hfull
      have h := ih hle
      refine ⟨.cons hs h.filled, h.le, h.mono, ?_, fun heq hlt => ?_⟩
      · have hsum := h.sum
        simp
        omega
      · exact List.forall_mem_cons.mpr ⟨hfull, h.full heq hlt⟩
    · rename_i hroom
      have hroom' : cpusPerTask ≤ s.avail := Nat.le_of_not_lt hroom
      have hleft : chunk planeSize cpusPerTask (maxtasks - tid) s ≤ maxtasks - tid :=
        Nat.min_le_right _ _
      have h := @ih (tid + chunk planeSize cpusPerTask (maxtasks - tid) s) (by omega)
      have hmono := h.mono
      refine ⟨.cons (hs.deal hroom' hpos (chunk_mul_le _ _)) h.filled, h.le, ?_, ?_, fun heq hlt => ?_⟩
      · dsimp only
        omega
      · have hsum := h.sum
        simp
        omega
      · have hchunk := @chunk_pos planeSize _ hpos _
          (show 0 < maxtasks - tid by omega) _ hroom'
        dsimp only at heq
        omega

/-- What the loop does. -/
structure Dealt (cpusPerTask maxtasks : Nat) (cpus : List Nat) (tid : Nat) (shares : List Share)
    (r : Nat × List Share) : Prop where
  filled : List.Forall₂ (Filled cpusPerTask) cpus r.2
  le : r.1 ≤ max tid maxtasks
  mono : tid ≤ r.1
  sum : r.1 + (shares.map Share.tasks).sum = tid + (r.2.map Share.tasks).sum
  full : r.1 < maxtasks → ∀ s ∈ r.2, s.avail < cpusPerTask

/-- The loop ends, since every sweep but the last one deals a task. -/
theorem dealLoop_spec (hpos : 0 < cpusPerTask) {cpus : List Nat} {fuel tid : Nat}
    {shares : List Share} (hfilled : List.Forall₂ (Filled cpusPerTask) cpus shares)
    (hfuel : maxtasks - tid < fuel) :
    ∃ r, dealLoop planeSize cpusPerTask maxtasks fuel tid shares = some r ∧
      Dealt cpusPerTask maxtasks cpus tid shares r := by
  induction fuel generalizing tid shares with
  | zero => omega
  | succ fuel ih =>
    rw [dealLoop]
    split
    · rename_i hlt
      have hswept := @dealSweep_spec planeSize _ _ hpos _ _ hfilled _ (Nat.le_of_lt hlt)
      have hmono := hswept.mono
      have hle := hswept.le
      simp only
      split
      · rename_i heq
        exact ⟨_, rfl, hswept.filled, by omega, hmono, hswept.sum, fun _ => hswept.full heq hlt⟩
      · rename_i hne
        have hlater : maxtasks - (dealSweep planeSize cpusPerTask maxtasks tid shares).1 < fuel := by
          omega
        obtain ⟨r, hr, hdealt⟩ := ih hswept.filled hlater
        have hmono' := hdealt.mono
        have hle' := hdealt.le
        have hsum := hswept.sum
        have hsum' := hdealt.sum
        exact ⟨r, hr, hdealt.filled, by omega, by omega, by omega, hdealt.full⟩
    · rename_i hge
      exact ⟨_, rfl, hfilled, Nat.le_max_left _ _, Nat.le_refl _, rfl, fun hlt => absurd hlt hge⟩

end Loop

/-! ## The tasks of the nodes -/

variable (job : WholeJob)

/-- The CPUs of the nodes as numbers. -/
def cpusOf : List Nat := job.cpus.map BitVec.toNat

/-- The nodes with their first tasks. -/
def firstShares : List Share := (cpusOf job).map (firstTask (cpusPerTaskOf job.details))

theorem firstShares_filled :
    List.Forall₂ (Filled (cpusPerTaskOf job.details)) (cpusOf job) (firstShares job) := by
  rw [firstShares, List.forall₂_map_right_iff]
  exact List.forall₂_same.mpr fun c _ => firstTask_filled c

theorem firstShares_sum : ((firstShares job).map Share.tasks).sum = job.cpus.length := by
  have hone : ∀ c, (firstTask (cpusPerTaskOf job.details) c).tasks = 1 := by
    intro c
    rw [firstTask]
    split <;> rfl
  simp [firstShares, cpusOf, Function.comp_def, hone]

/-- The distribution where the size of a plane is not zero. -/
structure Internal (dist : Dist) (shares : List Share) : Prop where
  tasks : dist.tasksPerNode = shares.map Share.tasks
  filled : List.Forall₂ (Filled (cpusPerTaskOf job.details)) (cpusOf job) shares
  rc : dist.rc = if dist.tasksPerNode.sum < taskCount job then .badTaskCount else .success
  le : dist.tasksPerNode.sum ≤ max job.cpus.length (taskCount job)
  ge : job.cpus.length ≤ dist.tasksPerNode.sum
  full : dist.tasksPerNode.sum < taskCount job →
    ∀ s ∈ shares, s.avail < cpusPerTaskOf job.details

theorem internal_spec (hplane : planeSizeOf job.details ≠ 0) :
    ∃ dist shares, setTaskDistInternal job = some dist ∧ Internal job dist shares := by
  obtain ⟨r, hr, hdealt⟩ := @dealLoop_spec (planeSizeOf job.details) _
    (taskCount job) (cpusPerTaskOf_pos job.details) _ (taskCount job + 1) job.cpus.length _
    (firstShares_filled job) (by omega)
  have hmap : (job.cpus.map fun c => firstTask (cpusPerTaskOf job.details) c.toNat) = firstShares job := by
    simp [firstShares, cpusOf]
  have hsum := hdealt.sum
  have htid : (r.2.map Share.tasks).sum = r.1 := by
    rw [firstShares_sum] at hsum
    omega
  refine ⟨⟨if r.1 < taskCount job then .badTaskCount else .success, r.2.map Share.tasks⟩, r.2, ?_, ?_⟩
  · unfold setTaskDistInternal
    simp only [if_neg hplane, hmap, hr, map_some]
  · exact {
      tasks := rfl
      filled := hdealt.filled
      rc := by rw [htid]
      le := by rw [htid]; exact hdealt.le
      ge := by rw [htid]; exact hdealt.mono
      full := by rw [htid]; exact hdealt.full }

theorem internal_error (hplane : planeSizeOf job.details = 0) :
    setTaskDistInternal job = some ⟨.error, []⟩ := by
  unfold setTaskDistInternal
  simp only [if_pos hplane]

theorem sum_tasks_le {cpusPerTask : Nat} (hpos : 0 < cpusPerTask) {cpus : List Nat}
    {shares : List Share} (h : List.Forall₂ (Filled cpusPerTask) cpus shares) :
    (shares.map Share.tasks).sum ≤ (cpus.map (roomOf cpusPerTask)).sum := by
  induction h with
  | nil => exact Nat.le_refl _
  | cons hs _ ih =>
    have hle := hs.tasks_le hpos
    simp
    omega

theorem sum_tasks_eq {cpusPerTask : Nat} (hpos : 0 < cpusPerTask) {cpus : List Nat}
    {shares : List Share} (h : List.Forall₂ (Filled cpusPerTask) cpus shares)
    (hfull : ∀ s ∈ shares, s.avail < cpusPerTask) :
    (shares.map Share.tasks).sum = (cpus.map (roomOf cpusPerTask)).sum := by
  induction h with
  | nil => rfl
  | cons hs _ ih =>
    rw [forall_mem_cons] at hfull
    simp [hs.tasks_eq hpos hfull.1, ih hfull.2]

variable {job} {dist : Dist} {shares : List Share}

/-- The distribution succeeds exactly when the nodes have room for the tasks. -/
theorem Internal.success_iff (h : Internal job dist shares) :
    dist.rc = .success ↔
      taskCount job ≤ (job.cpus.map fun c => roomOf (cpusPerTaskOf job.details) c.toNat).sum := by
  have hpos := cpusPerTaskOf_pos job.details
  have hroom : (job.cpus.map fun c => roomOf (cpusPerTaskOf job.details) c.toNat) =
      (cpusOf job).map (roomOf (cpusPerTaskOf job.details)) := by
    simp [cpusOf]
  have hle := sum_tasks_le hpos h.filled
  rw [hroom, h.rc]
  rw [← h.tasks] at hle
  split
  · rename_i hlt
    have heq := sum_tasks_eq hpos h.filled (h.full hlt)
    rw [← h.tasks] at heq
    exact iff_of_false (by decide) (by omega)
  · rename_i hge
    exact iff_of_true rfl (by omega)

theorem forall₂_tasks {R : BitVec 16 → Nat → Prop} (h : Internal job dist shares)
    (hR : ∀ c ∈ job.cpus, ∀ s, Filled (cpusPerTaskOf job.details) c.toNat s → R c s.tasks) :
    List.Forall₂ R job.cpus dist.tasksPerNode := by
  have hfilled := h.filled
  rw [cpusOf, List.forall₂_map_left_iff] at hfilled
  rw [h.tasks, List.forall₂_map_right_iff]
  clear h
  generalize job.cpus = cpus at hfilled hR
  induction hfilled with
  | nil => exact .nil
  | cons hs _ ih =>
    rw [forall_mem_cons] at hR
    exact .cons (hR.1 _ hs) (ih hR.2)

theorem Internal.room_lt (h : Internal job dist shares) (hfails : dist.rc ≠ .success) (n : Nat)
    (hn : n < job.cpus.length) :
    job.cpus[n].toNat < (dist.tasksPerNode.getD n 0 + 1) * cpusPerTaskOf job.details := by
  have hpos := cpusPerTaskOf_pos job.details
  have hlt : dist.tasksPerNode.sum < taskCount job := by
    by_contra hge
    exact hfails (by rw [h.rc, if_neg hge])
  have hlen := h.filled.length_eq
  rw [cpusOf, length_map] at hlen
  have hn' : n < shares.length := by omega
  have hfull := h.full hlt shares[n] (getElem_mem hn')
  have hfilled : Filled (cpusPerTaskOf job.details) job.cpus[n].toNat shares[n] := by
    simpa [cpusOf] using h.filled.get (i := n) (by rw [cpusOf, length_map]; exact hn) hn'
  have htasks : dist.tasksPerNode.getD n 0 = shares[n].tasks := by
    rw [h.tasks, getD_eq_getElem _ _ (by simpa using hn'), getElem_map]
  rw [htasks, Nat.add_mul]
  rcases hfilled.2 with heq | hfew
  · omega
  · rw [hfew.2.2]
    omega

/-- What is promised of the tasks, where the size of a plane is not zero. -/
theorem Internal.right (h : Internal job dist shares) : TasksRight job dist where
  total hsuccess := by
    have hle := h.le
    have hge := h.ge
    have hrc := h.rc
    rw [hsuccess] at hrc
    split at hrc
    · cases hrc
    · omega
  each _ := forall₂_tasks h fun _ _ _ hs => hs.1
  within _ _ henough := by
    refine forall₂_tasks h fun c hc s hs => ?_
    have hle := henough c hc
    rcases hs.2 with heq | hfew
    · omega
    · omega
  fails hfails n hn := h.room_lt hfails n hn

/-! ## The CPUs of the nodes -/

/-- The index into the CPUs goes on at the nodes with another number of threads only. -/
theorem scaleLoop_getElem? (t : BitVec 16) (cpus nodes : List (BitVec 16))
    (hlen : nodes.length ≤ cpus.length) (k : Nat) :
    (scaleLoop t cpus nodes)[k]? =
      cpus[k]?.map fun c => c * (nodes.filter fun tpc => decide (t ≠ tpc)).getD k 1 := by
  induction nodes generalizing cpus k with
  | nil => simp [scaleLoop]
  | cons tpc nodes ih =>
    cases cpus with
    | nil => simp at hlen
    | cons c cpus =>
      rw [length_cons, length_cons] at hlen
      rw [scaleLoop]
      split
      · rename_i heq
        rw [ih (c :: cpus) (by rw [length_cons]; omega)]
        simp [heq]
      · rename_i hne
        cases k with
        | zero => simp [hne]
        | succ k => simpa [hne] using ih cpus (by omega) k

variable (job)

theorem scaled_iff :
    scaleLoop job.details.threadsPerCore job.cpus job.nodes =
        List.zipWith (fun c tpc => c * ownFactor job.details.threadsPerCore tpc) job.cpus job.nodes ↔
      Aligned job := by
  have hlen := job.nodes_length
  constructor
  · intro h k hk hk'
    have hget := congrArg (fun l => l[k]?) h
    simpa [scaleLoop_getElem? _ _ _ (Nat.le_of_eq hlen), hk, hk', factors] using hget
  · intro h
    apply ext_getElem?
    intro k
    rw [scaleLoop_getElem? _ _ _ (Nat.le_of_eq hlen)]
    by_cases hk : k < job.cpus.length
    · have hk' : k < job.nodes.length := by omega
      simpa [hk, hk', factors] using h k hk hk'
    · have hk' : ¬ k < job.nodes.length := by omega
      simp [hk, hk']

/-! ## The order of the nodes -/

/-- Behind a node with the number of threads that was asked for, every node has this number or
one thread. -/
def Ordered : Prop :=
  job.nodes.Pairwise fun tpc tpc' =>
    job.details.threadsPerCore = tpc → job.details.threadsPerCore = tpc' ∨ tpc' = 1

/-- Behind some ones, the nodes with another number of threads have what is right for the nodes
exactly when that number is one. -/
theorem factors_shifted_iff (t : BitVec 16) (m : Nat) (nodes : List (BitVec 16)) :
    (∀ k, (nodes.filter fun tpc => decide (t ≠ tpc)).getD k 1 =
        (List.replicate (m + 1) 1 ++ nodes.map (ownFactor t)).getD k 1) ↔
      ∀ tpc ∈ nodes, t = tpc ∨ tpc = 1 := by
  induction nodes generalizing m with
  | nil =>
    refine iff_of_true (fun k => ?_) fun tpc htpc => absurd htpc not_mem_nil
    simp [getElem?_replicate]
    split <;> rfl
  | cons tpc nodes ih =>
    rw [forall_mem_cons, map_cons, ownFactor]
    by_cases heq : t = tpc
    · have hshift : List.replicate (m + 1) (1 : BitVec 16) ++ 1 :: nodes.map (ownFactor t) =
          List.replicate (m + 1 + 1) 1 ++ nodes.map (ownFactor t) := by
        rw [replicate_succ' (n := m + 1), append_assoc, singleton_append]
      rw [if_pos heq, hshift, filter_cons_of_neg (by simpa using heq), ih (m + 1)]
      simp [heq]
    · rw [if_neg heq, filter_cons_of_pos (by simpa using heq), ← and_forall_add_one,
        or_iff_right heq]
      simp only [replicate_succ, cons_append, getD_cons_zero, getD_cons_succ]
      refine and_congr_right fun hone => ?_
      have hshift : List.replicate m (1 : BitVec 16) ++ tpc :: nodes.map (ownFactor t) =
          List.replicate (m + 1) 1 ++ nodes.map (ownFactor t) := by
        rw [hone, replicate_succ', append_assoc, singleton_append]
      rw [hshift, ih m]

theorem factors_iff (t : BitVec 16) (nodes : List (BitVec 16)) :
    (∀ k, (nodes.filter fun tpc => decide (t ≠ tpc)).getD k 1 = (nodes.map (ownFactor t)).getD k 1) ↔
      nodes.Pairwise fun tpc tpc' => t = tpc → t = tpc' ∨ tpc' = 1 := by
  induction nodes with
  | nil => simp
  | cons tpc nodes ih =>
    rw [pairwise_cons, map_cons, ownFactor]
    by_cases heq : t = tpc
    · have hone := factors_shifted_iff t 0 nodes
      rw [if_pos heq, filter_cons_of_neg (by simpa using heq)]
      refine Iff.trans hone ⟨fun h => ⟨fun tpc' hmem _ => h tpc' hmem, ?_⟩, fun h tpc' hmem =>
        h.1 tpc' hmem heq⟩
      exact pairwise_of_forall_mem_list fun _ _ tpc' hmem _ => h tpc' hmem
    · rw [if_neg heq, filter_cons_of_pos (by simpa using heq), ← and_forall_add_one]
      simp only [getD_cons_zero, getD_cons_succ, true_and, ih]
      exact (and_iff_right fun _ _ h => absurd h heq).symm

theorem mul_cancel {c x y : BitVec 16} (hpos : 0 < c.toNat) (hx : c.toNat * x.toNat < 2 ^ 16)
    (hy : c.toNat * y.toNat < 2 ^ 16) (h : c * x = c * y) : x = y := by
  have hnat := congrArg BitVec.toNat h
  rw [BitVec.toNat_mul, BitVec.toNat_mul, mod_eq_of_lt hx, mod_eq_of_lt hy] at hnat
  exact BitVec.eq_of_toNat_eq (Nat.eq_of_mul_eq_mul_left hpos hnat)

/-- Where every node has CPUs and the products fit, the right numbers are multiplied with exactly
in this order. -/
theorem scaleLoop_iff_ordered (hpos : ∀ c ∈ job.cpus, 0 < c.toNat)
    (hfits : ∀ c ∈ job.cpus, ∀ tpc ∈ job.nodes, c.toNat * tpc.toNat < 2 ^ 16) :
    scaleLoop job.details.threadsPerCore job.cpus job.nodes =
        zipWith (fun c tpc => c * ownFactor job.details.threadsPerCore tpc) job.cpus job.nodes ↔
      Ordered job := by
  have hlen := job.nodes_length
  have hmap (k : Nat) (hk' : k < job.nodes.length) :
      (job.nodes.map (ownFactor job.details.threadsPerCore)).getD k 1 =
        ownFactor job.details.threadsPerCore job.nodes[k] := by
    rw [getD_eq_getElem _ _ (by simpa using hk'), getElem_map]
  rw [scaled_iff, Ordered, ← factors_iff]
  constructor
  · intro h k
    by_cases hk : k < job.cpus.length
    · have hk' : k < job.nodes.length := by omega
      have hc := getElem_mem hk
      have hfit : ∀ x : BitVec 16, x ∈ job.nodes ∨ x = 1 → job.cpus[k].toNat * x.toNat < 2 ^ 16 := by
        intro x hx
        rcases hx with hx | rfl
        · exact hfits _ hc x hx
        · simpa using job.cpus[k].isLt
      have hfactor : (factors job).getD k 1 ∈ job.nodes ∨ (factors job).getD k 1 = 1 := by
        by_cases hin : k < (factors job).length
        · rw [getD_eq_getElem _ _ hin]
          exact Or.inl (mem_of_mem_filter (getElem_mem hin))
        · exact Or.inr (getD_eq_default _ _ (Nat.le_of_not_lt hin))
      have hown : ownFactor job.details.threadsPerCore job.nodes[k] ∈ job.nodes ∨
          ownFactor job.details.threadsPerCore job.nodes[k] = 1 := by
        rw [ownFactor]
        split
        · exact Or.inr rfl
        · exact Or.inl (getElem_mem hk')
      have heq := mul_cancel (hpos _ hc) (hfit _ hfactor) (hfit _ hown) (h k hk hk')
      rw [hmap k hk']
      exact heq
    · have hfilter := length_filter_le (fun tpc => decide (job.details.threadsPerCore ≠ tpc)) job.nodes
      rw [getD_eq_default _ _ (by omega), getD_eq_default _ _ (by rw [length_map]; omega)]
  · intro h k hk hk'
    rw [factors, h k, hmap k hk']

/-! ## All jobs -/

theorem tasksRight_error_iff (hplane : planeSizeOf job.details = 0) :
    TasksRight job ⟨.error, []⟩ ↔ PlaneOk job := by
  rw [PlaneOk, or_iff_right (not_not_intro hplane)]
  constructor
  · intro h c hc
    obtain ⟨n, hn, rfl⟩ := getElem_of_mem hc
    simpa using h.fails (by decide) n hn
  · intro h
    have hne : Rc.error ≠ Rc.success := by decide
    refine ⟨fun hrc => absurd hrc hne, fun hrc => absurd hrc hne, fun hrc => absurd hrc hne, ?_⟩
    intro _ n hn
    simpa using h _ (getElem_mem hn)

theorem setTaskDist_of_failed (hdist : setTaskDistInternal job = some dist)
    (hfails : dist.rc ≠ .success) (coreOrSocket : Bool) :
    setTaskDist job coreOrSocket = some (dist.rc, job.cpus) := by
  rw [setTaskDist, hdist, map_some, if_pos hfails]

theorem setTaskDist_of_success (hdist : setTaskDistInternal job = some dist)
    (hsuccess : dist.rc = .success) (hset : job.details.threadsPerCore ≠ noVal16) :
    setTaskDist job true =
      some (.success, scaleLoop job.details.threadsPerCore job.cpus job.nodes) := by
  have hcond : job.details.threadsPerCore ≠ noVal16 ∧ true = true := ⟨hset, rfl⟩
  rw [setTaskDist, hdist, map_some, if_neg (not_not_intro hsuccess), if_pos hcond]

/-- The distribution is right exactly when the size of a plane is not zero and, where the CPUs are
to be multiplied, they are multiplied by the right numbers. -/
theorem distContract_iff (coreOrSocket : Bool) :
    DistContract job coreOrSocket ↔
      PlaneOk job ∧ (Scales job coreOrSocket → Aligned job) := by
  by_cases hplane : planeSizeOf job.details = 0
  · have herror := internal_error job hplane
    have hscales : Scales job coreOrSocket → Aligned job := fun h => absurd hplane h.1
    rw [← tasksRight_error_iff job hplane, and_iff_left hscales]
    constructor
    · intro h
      obtain ⟨dist, hdist, hright⟩ := h.tasks
      rw [herror, Option.some.injEq] at hdist
      rwa [← hdist] at hright
    · intro h
      exact ⟨⟨_, herror, h⟩, .error, job.cpus,
        setTaskDist_of_failed job herror (by decide) coreOrSocket, fun hrc => absurd hrc (by decide)⟩
  · obtain ⟨dist, shares, hdist, hinternal⟩ := internal_spec job hplane
    have htasks : ∃ dist, setTaskDistInternal job = some dist ∧ TasksRight job dist :=
      ⟨dist, hdist, hinternal.right⟩
    rw [and_iff_right (show PlaneOk job from Or.inl hplane)]
    constructor
    · intro h hscales
      obtain ⟨-, hroom, rfl, hset⟩ := hscales
      obtain ⟨rc, cpus, heq, hcpus⟩ := h.cpus
      rw [setTaskDist_of_success job hdist (hinternal.success_iff.mpr hroom) hset,
        Option.some.injEq, Prod.mk.injEq] at heq
      rw [← scaled_iff, heq.2]
      exact hcpus heq.1.symm rfl hset
    · intro h
      refine ⟨htasks, ?_⟩
      by_cases hsuccess : dist.rc = .success
      · by_cases hscales : Scales job coreOrSocket
        · obtain ⟨-, hroom, rfl, hset⟩ := hscales
          exact ⟨_, _, setTaskDist_of_success job hdist hsuccess hset,
            fun _ _ _ => (scaled_iff job).mpr (h ⟨hplane, hroom, rfl, hset⟩)⟩
        · cases hreturned : setTaskDist job coreOrSocket with
          | none => simp [setTaskDist, hdist] at hreturned
          | some r =>
            refine ⟨r.1, r.2, rfl, fun _ hcr hset => ?_⟩
            exact absurd ⟨hplane, hinternal.success_iff.mp hsuccess, hcr, hset⟩ hscales
      · exact ⟨dist.rc, job.cpus, setTaskDist_of_failed job hdist hsuccess coreOrSocket,
          fun hrc => absurd hrc hsuccess⟩

/-- Two nodes with 4 CPUs each, the second one with two threads per core where one was asked
for. -/
def mixedJob : WholeJob where
  details :=
    { numTasks := 2, ntasksSet := true, ntasksPerNode := 0, cpusPerTask := 1, overcommit := false,
      distPlane := false, planeSize := 0, threadsPerCore := 1 }
  ncpus := 8
  cpus := [4, 4]
  nodes := [1, 2]
  cpus_ne := List.cons_ne_nil _ _
  nodes_length := rfl

theorem scaleLoop_mixedJob : scaleLoop 1 [4, 4] [1, 2] ≠ [4, 8] := by
  have h := scaleLoop_iff_ordered mixedJob (by simp [mixedJob]) (by simp [mixedJob])
  exact fun heq => absurd (h.mp heq) (by simp [Ordered, mixedJob])

/-- The CPUs of the first node are doubled in the place of those of the second one. -/
theorem distContract_fails : ¬ DistContract mixedJob true := by
  intro h
  obtain ⟨rc, cpus, heq, hcpus⟩ := h.cpus
  have hrun : setTaskDist mixedJob true = some (.success, [8, 4]) := by decide
  rw [hrun, Option.some.injEq, Prod.mk.injEq] at heq
  have hright := hcpus heq.1.symm rfl (by decide)
  rw [← heq.2] at hright
  revert hright
  decide

end Slurm.DistTasks
