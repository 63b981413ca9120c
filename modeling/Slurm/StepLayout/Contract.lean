import Slurm.StepLayout.Placement

/-!
# The contract of a task layout

`LayoutContract` is what `_init_task_layout` owes its callers: it ends, in a
placement, and no node gets more tasks than CPUs when the CPUs are enough.

* `layoutContract_iff`: it holds for every layout but planes of one task, and for
  those exactly when the round robin shares respect the CPUs.
* `layoutContract_fails`: four tasks in planes of one, on nodes of one and three
  CPUs.  The second loop of the first cycle places nothing, the cycle reports no
  space, and the first node is over-subscribed while the second has a free CPU.
-/

namespace Slurm.StepLayout

/-- The step is laid out by the CPUs of its nodes: not from a file of hosts, and
not in planes of no tasks. -/
def ByCpus (req : StepLayoutReq) : Prop :=
  req.taskDist &&& distStateBase ≠ distArbitrary ∧
    (req.taskDist &&& distStateBase = distPlane → 1 ≤ req.planeSize)

/-- With counters that have no bound, at most 65535 tasks land on a node. -/
def LandsInRange (selectTypeParam : Nat) (req : StepLayoutReq) : Prop :=
  ∀ fuel nodes, initTaskLayout 0 selectTypeParam fuel req = .success nodes → InRange nodes

/-- The layout ends in a placement that keeps to the CPUs when they are enough. -/
def LayoutContract (selectTypeParam : Nat) (req : StepLayoutReq) : Prop :=
  LaysOut (layoutCpus req) req.numTasks (req.numTasks ≤ (layoutCpus req).sum)
    fun fuel => initTaskLayout taskCounter selectTypeParam fuel req

/-- A plane of one task meets the condition on its shares. -/
def PlanesFit (req : StepLayoutReq) : Prop :=
  req.taskDist &&& distStateBase = distPlane → req.planeSize = 1 →
    OneTaskPlanesFit (layoutCpus req) req.numTasks

theorem cpusFrom_length (req : StepLayoutReq) (perTask taskReps : List Nat) (n : Nat)
    (cpu task : Nat × Nat) : (cpusFrom req perTask taskReps n cpu task).length = n := by
  induction n generalizing cpu task with
  | zero => rfl
  | succ n ih => rw [cpusFrom, List.length_cons, ih]

theorem layoutCpus_length (req : StepLayoutReq) :
    (layoutCpus req).length = min req.numHosts req.hostCount := cpusFrom_length _ _ _ _ _ _

/-- A plane distribution is not a cyclic one. -/
theorem not_cyclic_of_plane {dist : Nat} (h : dist &&& distStateBase = distPlane) :
    dist &&& distNodeMask ≠ distNodeCyclic := by
  have hmask : dist &&& distNodeMask = (dist &&& distStateBase) &&& distNodeMask := by
    rw [Nat.and_assoc]
    rfl
  rw [hmask, h]
  decide

/-- A layout that counts in 16 bits lays out what one without a bound does. -/
theorem LaysOut.congr {cpus : List Nat} {taskCnt : Nat} {fits : Prop} {layout layout' : Nat → Outcome}
    (h : LaysOut cpus taskCnt fits layout)
    (hcongr : ∀ fuel nodes, layout fuel = .success nodes → layout' fuel = .success nodes) :
    LaysOut cpus taskCnt fits layout' := by
  obtain ⟨bound, nodes, hrun, hplace, hfits⟩ := h
  exact ⟨bound, nodes, fun fuel hfuel => hcongr _ _ (hrun fuel hfuel), hplace, hfits⟩

theorem LaysOut.weaken {cpus : List Nat} {taskCnt : Nat} {fits fits' : Prop} {layout : Nat → Outcome}
    (h : LaysOut cpus taskCnt fits layout) (himp : fits' → fits) :
    LaysOut cpus taskCnt fits' layout := by
  obtain ⟨bound, nodes, hrun, hplace, hfits⟩ := h
  exact ⟨bound, nodes, hrun, hplace, fun hf => hfits (himp hf)⟩

/-- As long as the tasks of a node can be counted, 16 bits make no difference. -/
theorem initTaskLayout_congr {sel : Nat} {req : StepLayoutReq} (hland : LandsInRange sel req)
    {fuel : Nat} {nodes : List Node} (h : initTaskLayout 0 sel fuel req = .success nodes) :
    initTaskLayout taskCounter sel fuel req = .success nodes := by
  have hm := hland fuel nodes h
  unfold initTaskLayout taskLayout at h ⊢
  split at h
  · cases h
  · rename_i hhosts
    rw [if_neg hhosts]
    dsimp only at h ⊢
    split at h
    · rename_i hcyclic
      rw [if_pos hcyclic]
      exact taskLayoutCyclic_congr h hm
    · rename_i hcyclic
      rw [if_neg hcyclic]
      split at h
      · cases h
      · rename_i harbitrary
        rw [if_neg harbitrary]
        split at h
        · rename_i hplane
          rw [if_pos hplane]
          exact taskLayoutPlane_congr h hm
        · rename_i hplane
          rw [if_neg hplane]
          exact taskLayoutBlock_congr h hm

/-- A layout that is not in planes of one task. -/
theorem initTaskLayout_spec {sel : Nat} {req : StepLayoutReq}
    (hhosts : 0 < min req.numHosts req.hostCount) (hpos : ∀ c ∈ layoutCpus req, 1 ≤ c)
    (hdist : ByCpus req) :
    LaysOut (layoutCpus req) req.numTasks (req.numTasks ≤ (layoutCpus req).sum ∧
        ¬ (req.taskDist &&& distStateBase = distPlane ∧ req.planeSize = 1))
      fun fuel => initTaskLayout 0 sel fuel req := by
  have hne : layoutCpus req ≠ [] := by
    intro hnil
    have hlen := layoutCpus_length req
    rw [hnil, List.length_nil] at hlen
    omega
  simp only [initTaskLayout, if_neg (Nat.ne_of_gt hhosts), taskLayout, if_neg hdist.1]
  split
  · exact (taskLayoutCyclic_spec hne).weaken fun hf => hf.1
  · split
    · rename_i hplane
      exact (taskLayoutPlane_spec hne hpos (hdist.2 hplane)).weaken
        fun hf => ⟨hf.1, fun hone => hf.2 ⟨hplane, hone⟩⟩
    · exact (taskLayoutBlock_spec hne hpos sel req.taskDist).weaken fun hf => hf.1

/-- A layout meets its contract exactly when its planes of one task fit. -/
theorem layoutContract_iff (sel : Nat) (req : StepLayoutReq)
    (hhosts : 0 < min req.numHosts req.hostCount) (hpos : ∀ c ∈ layoutCpus req, 1 ≤ c)
    (hdist : ByCpus req) (hland : LandsInRange sel req) :
    LayoutContract sel req ↔ PlanesFit req := by
  by_cases hone : req.taskDist &&& distStateBase = distPlane ∧ req.planeSize = 1
  · obtain ⟨hplane, hsize⟩ := hone
    have hne : layoutCpus req ≠ [] := by
      intro hnil
      have hlen := layoutCpus_length req
      rw [hnil, List.length_nil] at hlen
      omega
    obtain ⟨bound, nodes, hrun, hplace, hfits⟩ :=
      taskLayoutPlane_one_spec req.numTasks hne hpos
    have hrun0 : ∀ fuel, bound ≤ fuel → initTaskLayout 0 sel fuel req = .success nodes := by
      intro fuel hfuel
      simp only [initTaskLayout, if_neg (Nat.ne_of_gt hhosts), taskLayout,
        if_neg (not_cyclic_of_plane hplane), if_neg hdist.1, if_pos hplane, hsize]
      exact hrun fuel hfuel
    constructor
    · rintro ⟨bound', nodes', hrun', -, hfits'⟩ _ _
      have hsame : initTaskLayout taskCounter sel (max bound bound') req = .success nodes' :=
        hrun' (max bound bound') (Nat.le_max_right _ _)
      rw [initTaskLayout_congr hland (hrun0 (max bound bound') (Nat.le_max_left _ _))] at hsame
      cases hsame
      exact hfits.mp hfits'
    · intro hfit
      exact ⟨bound, nodes, fun fuel hfuel => initTaskLayout_congr hland (hrun0 fuel hfuel), hplace,
        hfits.mpr (hfit hplane hsize)⟩
  · constructor
    · exact fun _ hplane hsize => absurd ⟨hplane, hsize⟩ hone
    · intro _
      exact ((initTaskLayout_spec hhosts hpos hdist).congr
        fun _ _ h => initTaskLayout_congr hland h).weaken fun hsum => ⟨hsum, hone⟩

/-- Four tasks in planes of one, on a node of one CPU and a node of three. -/
def fourInPlanesOfOne : StepLayoutReq where
  cpusPerNode := [1, 3]
  cpuCountReps := [1, 1]
  cpusPerTask := none
  cpusTaskReps := []
  numHosts := 2
  hostCount := 2
  numTasks := 4
  planeSize := 1
  taskDist := distPlane

/-- The four CPUs are enough, and the first node gets two tasks. -/
theorem layoutContract_fails : ¬ LayoutContract 0 fourInPlanesOfOne := by
  rintro ⟨bound, nodes, hrun, -, hfits⟩
  have hlayout : ∀ fuel, initTaskLayout taskCounter 0 (fuel + 4) fourInPlanesOfOne
      = .success [⟨1, 2, [0, 2]⟩, ⟨3, 2, [1, 3]⟩] := fun _ => rfl
  have hsame : initTaskLayout taskCounter 0 (bound + 4) fourInPlanesOfOne = .success nodes :=
    hrun (bound + 4) (Nat.le_add_right _ _)
  rw [hlayout bound] at hsame
  cases hsame
  exact absurd (hfits (by decide) ⟨1, 2, [0, 2]⟩ (by decide)) (by decide)

/-- The same tasks in planes of two. -/
def fourInPlanesOfTwo : StepLayoutReq := { fourInPlanesOfOne with planeSize := 2 }

theorem fourInPlanesOfTwo_layout (fuel : Nat) :
    initTaskLayout 0 0 (fuel + 3) fourInPlanesOfTwo
      = .success [⟨1, 1, [0]⟩, ⟨3, 3, [1, 2, 3]⟩] := rfl

theorem layoutContract_iff_witness : LayoutContract 0 fourInPlanesOfTwo := by
  refine (layoutContract_iff 0 fourInPlanesOfTwo (by decide) (by decide)
    ⟨by decide, fun _ => by decide⟩ ?_).mpr fun _ hone => absurd hone (by decide)
  intro fuel nodes h
  match fuel with
  | 0 => cases h
  | 1 => cases h
  | 2 =>
    cases h
    decide
  | fuel + 3 =>
    rw [fourInPlanesOfTwo_layout] at h
    cases h
    decide

end Slurm.StepLayout
