import Slurm.DistTasks.Fill

/-!
# Tasks in planes

`_compute_plane_dist` deals the tasks of a job in planes: a cycle visits the nodes one after another
and gives each a plane of tasks.

* `planeSweep_deal`: a cycle deals single tasks.
* `planeLoop_spec`: the loop ends, with all tasks or with no node that takes one more.
* `planeSweep_tested`: what a cycle does as long as no visited node is at its limit.
* `tasksContract_of_untouched`: the tasks of both distributions.
-/

namespace Slurm.DistTasks

open Lib.Dealing List Bool

variable {p : Nat} {shares nodes : List NodeShare}

/-! ## The code -/

/-- A job that may have a `mc_ptr`. -/
structure PlaneJob extends FillJob where
  hasMcPtr : Bool

/-- `plane_size`. -/
def PlaneJob.planeSize (job : PlaneJob) : Nat :=
  if job.hasMcPtr = true then job.details.planeSize.toNat else 1

/-- The next task, a node, and `more_tres_tasks`. -/
structure Visit where
  tid : Nat
  share : NodeShare
  more : Bool

/-- The loop over a plane.  `tested` says that there is a limit and that it is tested. -/
def planeNode (cpusPerTask maxtasks : Nat) (tested : Bool) : Nat → Visit → Visit
  | 0, v => v
  | p + 1, v =>
    if v.tid < maxtasks then
      if tresTasksAvail tested v.share = true then
        if v.share.cpus < v.share.availCpus then
          planeNode cpusPerTask maxtasks tested p ⟨v.tid + 1, takeTask cpusPerTask v.tid v.share, true⟩
        else
          planeNode cpusPerTask maxtasks tested p { v with more := true }
      else
        planeNode cpusPerTask maxtasks tested p v
    else
      v

/-- The next task, `test_tres_tasks` and `space_remaining`. -/
structure Cycle where
  tid : Nat
  test : Bool
  space : Bool

/-- The visit of a node. -/
def visit (cpusPerTask maxtasks planeSize : Nat) (limited : Bool) (c : Cycle) (s : NodeShare) : Visit :=
  planeNode cpusPerTask maxtasks (c.test && limited) planeSize ⟨c.tid, s, false⟩

/-- The cycle after a visit.  A node at its limit ends the tests, for itself and for all others. -/
def Cycle.after (c : Cycle) (v : Visit) : Cycle where
  tid := v.tid
  test := c.test && v.more
  space := c.space || decide (v.share.cpus < v.share.availCpus)

/-- A cycle over the nodes. -/
def planeSweep (cpusPerTask maxtasks planeSize : Nat) (limited : Bool) :
    Cycle → List NodeShare → Cycle × List NodeShare
  | c, [] => (c, [])
  | c, s :: rest =>
    if c.tid < maxtasks then
      let v := visit cpusPerTask maxtasks planeSize limited c s
      let r := planeSweep cpusPerTask maxtasks planeSize limited (c.after v) rest
      (r.1, v.share :: r.2)
    else
      (c, s :: rest)

/-- The loop over the cycles. -/
def planeLoop (cpusPerTask maxtasks planeSize : Nat) (tresPerTaskLimit : Bool) :
    Nat → Bool → Bool → Nat → List NodeShare → Option (Rc × List NodeShare)
  | 0, _, _, _, _ => none
  | fuel + 1, limited, test, tid, shares =>
    if tid < maxtasks then
      let r := planeSweep cpusPerTask maxtasks planeSize limited ⟨tid, test, false⟩ shares
      if r.1.space = false ∧ r.1.tid < maxtasks then
        if limited = true ∧ tresPerTaskLimit = false then
          planeLoop cpusPerTask maxtasks planeSize tresPerTaskLimit fuel false r.1.test r.1.tid r.2
        else
          some (.badTaskCount, r.2)
      else
        planeLoop cpusPerTask maxtasks planeSize tresPerTaskLimit fuel limited r.1.test r.1.tid r.2
    else
      some (.success, shares)

/-- The number of tasks. -/
def PlaneJob.maxtasks (job : PlaneJob) : Nat :=
  getTaskCount job.details job.nodes.length job.ncpus

/-- What `_compute_plane_dist` has before the CPUs are adjusted to `gres_min_cpus`. -/
def planeDist (job : PlaneJob) : Option (Rc × List NodeShare) :=
  planeLoop job.details.cpusPerTask.toNat job.maxtasks job.planeSize job.tresPerTaskLimit
    (job.maxtasks + 3) job.hasTaskLimit true 0 job.shares

/-- `_compute_plane_dist`. -/
def computePlaneDist (job : PlaneJob) : Option (Rc × List NodeShare) :=
  if job.nodes = [] ∨ job.planeSize = 0 then
    some (.error, [])
  else
    (planeDist job).map fun r =>
      (r.1, if doGresMinCpus r.2 = true then distTasksGresMinCpus r.2 else r.2)

/-! ## A visit -/

variable {v : Visit}

section Visit

variable {cpusPerTask maxtasks planeSize : Nat} {tested : Bool}

/-- A node has CPUs for one more task. -/
def HasRoom (s : NodeShare) : Prop := s.cpus < s.availCpus

theorem planeNode_deal (p : Nat) (v : Visit) :
    Deal (takeTask cpusPerTask) HasRoom maxtasks v.tid [v.share]
      (planeNode cpusPerTask maxtasks tested p v).tid
      [(planeNode cpusPerTask maxtasks tested p v).share] := by
  induction p generalizing v with
  | zero => exact .nothing
  | succ p ih =>
    rw [planeNode]
    split
    · rename_i hlt
      split
      · split
        · rename_i hroom
          have hone : Deal (takeTask cpusPerTask) HasRoom maxtasks v.tid [v.share] (v.tid + 1)
              [takeTask cpusPerTask v.tid v.share] :=
            Deal.item (l := []) (r := []) .nothing hlt hroom
          exact hone.trans (ih ⟨v.tid + 1, takeTask cpusPerTask v.tid v.share, true⟩)
        · exact ih { v with more := true }
      · exact ih v
    · exact .nothing

theorem planeNode_tid_le (p : Nat) (v : Visit) :
    v.tid ≤ (planeNode cpusPerTask maxtasks tested p v).tid := (planeNode_deal p v).le

/-- A node that passes a test gets a task or has no room. -/
theorem planeNode_more (hmore : v.more = false)
    (h : (planeNode cpusPerTask maxtasks tested p v).more = true) :
    v.tid < (planeNode cpusPerTask maxtasks tested p v).tid ∨ ¬ HasRoom v.share := by
  induction p with
  | zero =>
    rw [planeNode, hmore] at h
    cases h
  | succ p ih =>
    rw [planeNode] at h ⊢
    split
    · split
      · split
        · exact Or.inl (planeNode_tid_le p ⟨v.tid + 1, takeTask cpusPerTask v.tid v.share, true⟩)
        · rename_i hroom
          exact Or.inr hroom
      · rename_i hlt havail
        rw [if_pos hlt, if_neg havail] at h
        exact ih h
    · rename_i hlt
      rw [if_neg hlt, hmore] at h
      cases h

theorem planeNode_more_of_more (p : Nat) (hmore : v.more = true) :
    (planeNode cpusPerTask maxtasks tested p v).more = true := by
  induction p generalizing v with
  | zero => exact hmore
  | succ p ih =>
    rw [planeNode]
    split
    · split
      · split
        · exact ih rfl
        · exact ih rfl
      · exact ih hmore
    · exact hmore

/-- A node that is not at its limit passes a test. -/
theorem planeNode_more_of_avail (hp : 0 < p) (hlt : v.tid < maxtasks)
    (havail : tresTasksAvail tested v.share = true) :
    (planeNode cpusPerTask maxtasks tested p v).more = true := by
  cases p with
  | zero => omega
  | succ p =>
    rw [planeNode, if_pos hlt, if_pos havail]
    split
    · exact planeNode_more_of_more p rfl
    · exact planeNode_more_of_more p rfl

/-- A visit that gives no task leaves the node as it is. -/
theorem planeNode_share_eq (h : (planeNode cpusPerTask maxtasks tested p v).tid = v.tid) :
    (planeNode cpusPerTask maxtasks tested p v).share = v.share := by
  have hdeal := @planeNode_deal cpusPerTask maxtasks tested p v
  exact List.singleton_inj.mp (hdeal.eq_self h)

end Visit

/-! ## A cycle -/

variable {c : Cycle}

section Cycles

variable {cpusPerTask maxtasks planeSize : Nat} {limited : Bool}

theorem visit_deal (c : Cycle) (s : NodeShare) :
    Deal (takeTask cpusPerTask) HasRoom maxtasks c.tid [s]
      (visit cpusPerTask maxtasks planeSize limited c s).tid
      [(visit cpusPerTask maxtasks planeSize limited c s).share] :=
  planeNode_deal planeSize ⟨c.tid, s, false⟩

theorem planeSweep_deal (c : Cycle) (shares : List NodeShare) :
    Deal (takeTask cpusPerTask) HasRoom maxtasks c.tid shares
      (planeSweep cpusPerTask maxtasks planeSize limited c shares).1.tid
      (planeSweep cpusPerTask maxtasks planeSize limited c shares).2 := by
  induction shares generalizing c with
  | nil => exact .nothing
  | cons s rest ih =>
    rw [planeSweep]
    split
    · have hhead := (@visit_deal cpusPerTask maxtasks planeSize limited c s).frame [] rest
      have hrest := (ih (c.after (visit cpusPerTask maxtasks planeSize limited c s))).frame
        [(visit cpusPerTask maxtasks planeSize limited c s).share] []
      rw [append_nil, append_nil] at hrest
      exact hhead.trans hrest
    · exact .nothing

theorem planeSweep_cons_pos (hlt : c.tid < maxtasks) (s : NodeShare) (rest : List NodeShare) :
    planeSweep cpusPerTask maxtasks planeSize limited c (s :: rest) =
      ((planeSweep cpusPerTask maxtasks planeSize limited
          (c.after (visit cpusPerTask maxtasks planeSize limited c s)) rest).1,
        (visit cpusPerTask maxtasks planeSize limited c s).share ::
          (planeSweep cpusPerTask maxtasks planeSize limited
            (c.after (visit cpusPerTask maxtasks planeSize limited c s)) rest).2) := by
  rw [planeSweep, if_pos hlt]

theorem planeSweep_of_le (hle : maxtasks ≤ c.tid) (shares : List NodeShare) :
    planeSweep cpusPerTask maxtasks planeSize limited c shares = (c, shares) := by
  cases shares with
  | nil => rfl
  | cons s rest => rw [planeSweep, if_neg (by omega)]

theorem planeSweep_test
    (h : (planeSweep cpusPerTask maxtasks planeSize limited c shares).1.test = true) :
    c.test = true := by
  induction shares generalizing c with
  | nil => exact h
  | cons s rest ih =>
    by_cases hlt : c.tid < maxtasks
    · rw [planeSweep_cons_pos hlt] at h
      have hhead : (c.test && (visit cpusPerTask maxtasks planeSize limited c s).more) = true := ih h
      rw [and_eq_true] at hhead
      exact hhead.1
    · rwa [planeSweep_of_le (by omega)] at h

/-- A cycle that gives no task and ends no tests reports no space. -/
theorem planeSweep_space (hplane : 0 < planeSize) (hlt : c.tid < maxtasks)
    (htid : (planeSweep cpusPerTask maxtasks planeSize limited c shares).1.tid = c.tid)
    (htest : (planeSweep cpusPerTask maxtasks planeSize limited c shares).1.test = c.test) :
    (planeSweep cpusPerTask maxtasks planeSize limited c shares).1.space = c.space := by
  induction shares generalizing c with
  | nil => rfl
  | cons s rest ih =>
    rw [planeSweep_cons_pos hlt] at htid htest ⊢
    have hle := (@visit_deal cpusPerTask maxtasks planeSize limited c s).le
    have hrest := (@planeSweep_deal cpusPerTask maxtasks planeSize limited
      (c.after (visit cpusPerTask maxtasks planeSize limited c s)) rest).le.trans_eq htid
    have hsame : (visit cpusPerTask maxtasks planeSize limited c s).tid = c.tid :=
      Nat.le_antisymm hrest hle
    -- Where the tests go on, the node passed one; where there are none, it passes all.
    have hmore : (visit cpusPerTask maxtasks planeSize limited c s).more = true := by
      cases hc : c.test with
      | false => exact planeNode_more_of_avail hplane hlt (by rw [hc]; rfl)
      | true =>
        have hend : (c.test && (visit cpusPerTask maxtasks planeSize limited c s).more) = true :=
          planeSweep_test (htest.trans hc)
        rw [and_eq_true] at hend
        exact hend.2
    have hfull : ¬ HasRoom s := by
      rcases planeNode_more (v := ⟨c.tid, s, false⟩) rfl hmore with hless | hfull
      · have hmoved : c.tid < (visit cpusPerTask maxtasks planeSize limited c s).tid := hless
        omega
      · exact hfull
    have hshare : (visit cpusPerTask maxtasks planeSize limited c s).share = s :=
      planeNode_share_eq hsame
    have hspace : (c.after (visit cpusPerTask maxtasks planeSize limited c s)).space = c.space := by
      have hdecide : decide (s.cpus < s.availCpus) = false := decide_eq_false hfull
      simp [Cycle.after, hshare, hdecide]
    have hafter : (c.after (visit cpusPerTask maxtasks planeSize limited c s)).test = c.test := by
      simp [Cycle.after, hmore]
    rw [ih (by rw [Cycle.after, hsame]; exact hlt) (by rw [htid]; exact hsame.symm)
      (htest.trans hafter.symm), hspace]

/-- A whole cycle that reports no space has filled every node. -/
theorem planeSweep_full {c : Cycle} {shares : List NodeShare}
    (hlt : (planeSweep cpusPerTask maxtasks planeSize limited c shares).1.tid < maxtasks)
    (hspace : (planeSweep cpusPerTask maxtasks planeSize limited c shares).1.space = false) :
    c.space = false ∧
      ∀ s ∈ (planeSweep cpusPerTask maxtasks planeSize limited c shares).2, ¬ HasRoom s := by
  induction shares generalizing c with
  | nil => exact ⟨hspace, fun s hs => absurd hs not_mem_nil⟩
  | cons s rest ih =>
    have hitem : c.tid < maxtasks := Nat.lt_of_le_of_lt (@planeSweep_deal cpusPerTask
      maxtasks planeSize limited c (s :: rest)).le hlt
    rw [planeSweep_cons_pos hitem] at hlt hspace ⊢
    obtain ⟨hafter, hrest⟩ := ih hlt hspace
    rw [Cycle.after, or_eq_false_iff, decide_eq_false_iff_not] at hafter
    exact ⟨hafter.1, List.forall_mem_cons.mpr ⟨hafter.2, hrest⟩⟩

end Cycles

/-! ## The loop -/

section Loop

variable {cpusPerTask maxtasks planeSize : Nat} {hard : Bool}

/-- A cycle that does not end the loop makes less of what is left: tasks, or tests. -/
theorem planeSweep_decreases (hplane : 0 < planeSize) {limited test : Bool} {tid : Nat}
    (hlt : tid < maxtasks) {r : Cycle × List NodeShare}
    (hr : planeSweep cpusPerTask maxtasks planeSize limited ⟨tid, test, false⟩ shares = r) :
    tid ≤ r.1.tid ∧ r.1.test.toNat ≤ test.toNat ∧
      (r.1.space = true → maxtasks - r.1.tid + r.1.test.toNat < maxtasks - tid + test.toNat) := by
  have hdeal := @planeSweep_deal cpusPerTask maxtasks planeSize limited ⟨tid, test, false⟩ shares
  rw [hr] at hdeal
  have hle : tid ≤ r.1.tid := hdeal.le
  have htest : r.1.test.toNat ≤ test.toNat := by
    cases hend : r.1.test with
    | false => exact Nat.zero_le _
    | true =>
      have hbefore : test = true := planeSweep_test (c := ⟨tid, test, false⟩) (by rw [hr]; exact hend)
      rw [hbefore]
  refine ⟨hle, htest, fun hspace => ?_⟩
  by_contra hnot
  have htid : r.1.tid = tid := by omega
  have htoNat : r.1.test.toNat = test.toNat := by omega
  have hsame : r.1.test = test := by
    revert htoNat
    cases r.1.test <;> cases test <;> decide
  have hno := planeSweep_space (c := ⟨tid, test, false⟩) hplane hlt (by rw [hr]; exact htid)
    (by rw [hr]; exact hsame)
  rw [hr, hspace] at hno
  cases hno

/-- The loop ends: a cycle deals a task, ends the tests, drops the limit, or is the last one. -/
theorem planeLoop_spec (hplane : 0 < planeSize) {fuel : Nat} {limited test : Bool} {tid : Nat}
    {shares : List NodeShare}
    (hfuel : maxtasks - tid + limited.toNat + test.toNat < fuel) :
    ∃ rc tid' shares', planeLoop cpusPerTask maxtasks planeSize hard fuel limited test tid shares =
        some (rc, shares') ∧
      Deal (takeTask cpusPerTask) HasRoom maxtasks tid shares tid' shares' ∧
      (rc = .success ∧ maxtasks ≤ tid' ∨ rc = .badTaskCount ∧ ∀ s ∈ shares', ¬ HasRoom s) := by
  induction fuel generalizing limited test tid shares with
  | zero => omega
  | succ fuel ih =>
    rw [planeLoop]
    split
    · rename_i hlt
      have hdeal := @planeSweep_deal cpusPerTask maxtasks planeSize limited ⟨tid, test, false⟩ shares
      have hfull := @planeSweep_full cpusPerTask maxtasks planeSize limited ⟨tid, test, false⟩ shares
      generalize hr : planeSweep cpusPerTask maxtasks planeSize limited ⟨tid, test, false⟩ shares = r at hdeal hfull
      obtain ⟨hle, htest, hless⟩ := planeSweep_decreases hplane hlt hr
      simp only
      split
      · rename_i hstuck
        split
        · rename_i hsoft
          obtain ⟨rfl, rfl⟩ := hsoft
          obtain ⟨rc, tid', shares', heq, hmore, hend⟩ := @ih false r.1.test r.1.tid r.2 (by
              rw [toNat_true] at hfuel
              rw [toNat_false]
              omega)
          exact ⟨rc, tid', shares', heq, hdeal.trans hmore, hend⟩
        · exact ⟨_, _, _, rfl, hdeal, Or.inr ⟨rfl, (hfull hstuck.2 hstuck.1).2⟩⟩
      · rename_i hspace
        have hdrop : maxtasks - r.1.tid + r.1.test.toNat < maxtasks - tid + test.toNat := by
          by_cases hroom : r.1.space = true
          · exact hless hroom
          · have hall : ¬ r.1.tid < maxtasks := fun hlt' => hspace ⟨by simpa using hroom, hlt'⟩
            omega
        obtain ⟨rc, tid', shares', heq, hmore, hend⟩ := @ih limited r.1.test r.1.tid r.2
          (by omega)
        exact ⟨rc, tid', shares', heq, hdeal.trans hmore, hend⟩
    · rename_i hge
      exact ⟨_, tid, _, rfl, .nothing, Or.inl ⟨rfl, Nat.le_of_not_lt hge⟩⟩

end Loop

/-! ## As long as no visited node is at its limit -/

section Tested

variable {cpusPerTask maxtasks planeSize : Nat}

/-- The number of tasks that a node has CPUs for. -/
def cpuTasks (cpusPerTask : Nat) (s : NodeShare) : Nat :=
  (s.availCpus + (cpusPerTask - 1)) / cpusPerTask

/-- The number of tasks that a node has CPUs and GRES for. -/
def topTasks (cpusPerTask : Nat) (s : NodeShare) : Nat :=
  min s.gresTaskLimit (cpuTasks cpusPerTask s)

/-- The number of tasks of a node after some cycles, each of which gave it a plane as far as it has
CPUs and GRES. -/
def level (cpusPerTask planeSize k : Nat) (s : NodeShare) : Nat :=
  min (topTasks cpusPerTask s) (k * planeSize)

/-- All tasks are dealt before a node is visited that is at its limit: before this visit the nodes
in front of it had `k + 1` planes, and the others `k`. -/
def Untouched (cpusPerTask maxtasks planeSize : Nat) (nodes : List NodeShare) : Prop :=
  ∀ (k : Nat) (front : List NodeShare) (s : NodeShare) (rest : List NodeShare),
    nodes = front ++ s :: rest → s.gresTaskLimit ≤ min (cpuTasks cpusPerTask s) (k * planeSize) →
      maxtasks ≤ (front.map (level cpusPerTask planeSize (k + 1))).sum +
        ((s :: rest).map (level cpusPerTask planeSize k)).sum

theorem hasRoom_iff (hpos : 0 < cpusPerTask) {s : NodeShare} (h : Covered cpusPerTask s) :
    HasRoom s ↔ s.tasks < cpuTasks cpusPerTask s := by
  have hdiv : s.tasks < cpuTasks cpusPerTask s ↔
      (s.tasks + 1) * cpusPerTask ≤ s.availCpus + (cpusPerTask - 1) := Nat.le_div_iff_mul_le hpos
  rw [hdiv, HasRoom, h, Nat.succ_mul]
  omega

/-- A visit that tests the limit gives a plane, unless the tasks end. -/
theorem planeNode_tested (hpos : 0 < cpusPerTask) (p : Nat) {v : Visit}
    (hcovered : Covered cpusPerTask v.share) (hle : v.share.tasks ≤ topTasks cpusPerTask v.share) :
    (planeNode cpusPerTask maxtasks true p v).share.tasks ≤ topTasks cpusPerTask v.share ∧
      (maxtasks ≤ (planeNode cpusPerTask maxtasks true p v).tid ∨
        (planeNode cpusPerTask maxtasks true p v).share.tasks =
          min (topTasks cpusPerTask v.share) (v.share.tasks + p)) := by
  induction p generalizing v with
  | zero => exact ⟨hle, Or.inr (Nat.min_eq_right hle).symm⟩
  | succ p ih =>
    have havail : tresTasksAvail true v.share = true ↔ v.share.tasks < v.share.gresTaskLimit := by
      simp [tresTasksAvail]
    have hroom := hasRoom_iff hpos hcovered
    have htop : topTasks cpusPerTask v.share ≤ v.share.gresTaskLimit := Nat.min_le_left _ _
    have htop' : topTasks cpusPerTask v.share ≤ cpuTasks cpusPerTask v.share := Nat.min_le_right _ _
    rw [planeNode]
    split
    · split
      · rename_i hpass
        rw [havail] at hpass
        split
        · rename_i hspace
          have hlt := hroom.mp hspace
          have hmin : v.share.tasks < topTasks cpusPerTask v.share := Nat.lt_min.mpr ⟨hpass, hlt⟩
          have hih := ih (v := ⟨v.tid + 1, takeTask cpusPerTask v.tid v.share, true⟩)
            (takeTask_cpus v.tid hcovered) hmin
          refine ⟨hih.1, hih.2.imp_right fun h => ?_⟩
          rw [h]
          show min (topTasks cpusPerTask v.share) (v.share.tasks + 1 + p) = _
          rw [Nat.add_right_comm, Nat.add_assoc]
        · rename_i hspace
          have hge : ¬ v.share.tasks < cpuTasks cpusPerTask v.share := fun h => hspace (hroom.mpr h)
          have hih := ih (v := { v with more := true }) hcovered hle
          refine ⟨hih.1, hih.2.imp_right fun h => ?_⟩
          rw [h]
          show min (topTasks cpusPerTask v.share) (v.share.tasks + p) = _
          omega
      · rename_i hpass
        rw [havail] at hpass
        have hih := ih hcovered hle
        exact ⟨hih.1, hih.2.imp_right fun h => by omega⟩
    · rename_i hend
      exact ⟨hle, Or.inl (Nat.le_of_not_lt hend)⟩

/-- A node after some cycles that tested its limit. -/
def AtLevel (cpusPerTask planeSize k : Nat) (s : NodeShare) : Prop :=
  Covered cpusPerTask s ∧ s.tasks = level cpusPerTask planeSize k s

theorem visit_frame (limited : Bool) (c : Cycle) (s : NodeShare) :
    (visit cpusPerTask maxtasks planeSize limited c s).share.idle = s.idle ∧
      (visit cpusPerTask maxtasks planeSize limited c s).share.tasks + c.tid =
        s.tasks + (visit cpusPerTask maxtasks planeSize limited c s).tid ∧
      (Covered cpusPerTask s → Covered cpusPerTask (visit cpusPerTask maxtasks planeSize limited c s).share) := by
  have hdeal := @visit_deal cpusPerTask maxtasks planeSize limited c s
  have hidle := hdeal.map_eq (f := NodeShare.idle) fun _ _ => rfl
  have hsum := hdeal.sum_size NodeShare.tasks fun _ _ => rfl
  refine ⟨List.singleton_inj.mp hidle, by simpa using hsum, fun hcovered => ?_⟩
  have hall := hdeal.forall_mem (P := fun _ => Covered cpusPerTask)
    (fun n s _ hs => takeTask_cpus n hs) (fun _ _ hs => hs) (by simpa using hcovered)
  simpa using hall

theorem level_idle (k : Nat) (s : NodeShare) :
    level cpusPerTask planeSize k s.idle = level cpusPerTask planeSize k s := rfl

theorem level_succ (k : Nat) (s : NodeShare) :
    level cpusPerTask planeSize (k + 1) s =
      min (topTasks cpusPerTask s) (level cpusPerTask planeSize k s + planeSize) := by
  rw [level, level, Nat.succ_mul]
  omega

theorem sum_levels_idle (k : Nat) (shares : List NodeShare) :
    ((shares.map NodeShare.idle).map (level cpusPerTask planeSize k)).sum =
      (shares.map (level cpusPerTask planeSize k)).sum := by
  rw [map_map]
  rfl

/-- A cycle of which no visit comes too late tests the limit of every node that it visits. -/
theorem planeSweep_tested (hpos : 0 < cpusPerTask) (hplane : 0 < planeSize) {nodes : List NodeShare}
    (huntouched : Untouched cpusPerTask maxtasks planeSize nodes) {k : Nat}
    {front shares : List NodeShare} (hnodes : nodes = front ++ shares.map NodeShare.idle)
    (hlevel : ∀ s ∈ shares, AtLevel cpusPerTask planeSize k s) {c : Cycle} (htest : c.test = true)
    (htid : c.tid = (front.map (level cpusPerTask planeSize (k + 1))).sum +
      (shares.map (level cpusPerTask planeSize k)).sum)
    {r : Cycle × List NodeShare}
    (hr : planeSweep cpusPerTask maxtasks planeSize true c shares = r) :
    r.1.test = true ∧ (∀ s ∈ r.2, s.tasks ≤ s.gresTaskLimit) ∧
      (maxtasks ≤ r.1.tid ∨
        (∀ s ∈ r.2, AtLevel cpusPerTask planeSize (k + 1) s) ∧
          r.1.tid = (front.map (level cpusPerTask planeSize (k + 1))).sum +
            (r.2.map (level cpusPerTask planeSize (k + 1))).sum) := by
  have hlimit : ∀ s, AtLevel cpusPerTask planeSize k s → s.tasks ≤ s.gresTaskLimit := by
    intro s hs
    rw [hs.2]
    exact (Nat.min_le_left _ _).trans (Nat.min_le_left _ _)
  induction shares generalizing front c r with
  | nil =>
    rw [planeSweep] at hr
    rw [← hr]
    exact ⟨htest, fun s hs => absurd hs not_mem_nil,
      Or.inr ⟨fun s hs => absurd hs not_mem_nil, htid⟩⟩
  | cons s rest ih =>
    by_cases hlt : c.tid < maxtasks
    · rw [planeSweep_cons_pos hlt] at hr
      have hs := hlevel s mem_cons_self
      have hrest : ∀ x ∈ rest, AtLevel cpusPerTask planeSize k x :=
        fun x hx => hlevel x (mem_cons_of_mem s hx)
      have htop : s.tasks ≤ topTasks cpusPerTask s := hs.2.trans_le (Nat.min_le_left _ _)
      have hbelow : s.tasks < s.gresTaskLimit := by
        by_contra hnot
        have hlate : s.gresTaskLimit ≤ min (cpuTasks cpusPerTask s) (k * planeSize) := by
          have hat := hs.2
          rw [level, topTasks] at hat
          omega
        have hall := huntouched k front s.idle (rest.map NodeShare.idle) hnodes hlate
        have hsame := @sum_levels_idle cpusPerTask planeSize k (s :: rest)
        rw [map_cons] at hsame
        omega
      have hvisit : visit cpusPerTask maxtasks planeSize true c s =
          planeNode cpusPerTask maxtasks true planeSize ⟨c.tid, s, false⟩ := by
        rw [visit, htest]
        rfl
      have hmore : (visit cpusPerTask maxtasks planeSize true c s).more = true := by
        rw [hvisit]
        exact planeNode_more_of_avail hplane hlt (by simpa [tresTasksAvail] using hbelow)
      have htested := @planeNode_tested cpusPerTask maxtasks hpos planeSize ⟨c.tid, s, false⟩ hs.1 htop
      rw [← hvisit] at htested
      obtain ⟨hidle, hsum, hcovered⟩ := @visit_frame cpusPerTask maxtasks planeSize true c s
      have hlimit_eq : (visit cpusPerTask maxtasks planeSize true c s).share.gresTaskLimit =
          s.gresTaskLimit := by
        show (visit cpusPerTask maxtasks planeSize true c s).share.idle.gresTaskLimit = _
        rw [hidle]
        rfl
      have hwithin : (visit cpusPerTask maxtasks planeSize true c s).share.tasks ≤
          (visit cpusPerTask maxtasks planeSize true c s).share.gresTaskLimit := by
        rw [hlimit_eq]
        exact htested.1.trans (Nat.min_le_left _ _)
      have hafter : (c.after (visit cpusPerTask maxtasks planeSize true c s)).test = true := by
        rw [Cycle.after, htest, hmore]
        rfl
      rcases htested.2 with hend | hplaned
      · rw [planeSweep_of_le hend] at hr
        rw [← hr]
        exact ⟨hafter, List.forall_mem_cons.mpr ⟨hwithin, fun x hx => hlimit x (hrest x hx)⟩, Or.inl hend⟩
      · have hnext : (visit cpusPerTask maxtasks planeSize true c s).share.tasks =
            level cpusPerTask planeSize (k + 1) s := by
          rw [hplaned, level_succ, ← hs.2]
        have hlevel_eq : level cpusPerTask planeSize (k + 1)
            (visit cpusPerTask maxtasks planeSize true c s).share =
              level cpusPerTask planeSize (k + 1) s := by
          rw [← level_idle, hidle, level_idle]
        obtain ⟨htest', hlimit', hlater⟩ := @ih (front ++ [s.idle])
          (by rw [hnodes, append_assoc]; rfl) hrest _ hafter (by
            have hat := hs.2
            rw [map_cons, sum_cons] at htid
            rw [map_append, sum_append, map_singleton, sum_singleton, level_idle]
            show (visit cpusPerTask maxtasks planeSize true c s).tid = _
            omega) _ rfl
        rw [← hr]
        refine ⟨htest', List.forall_mem_cons.mpr ⟨hwithin, hlimit'⟩, hlater.imp_right fun h => ?_⟩
        refine ⟨List.forall_mem_cons.mpr ⟨⟨hcovered hs.1, by rw [hnext, hlevel_eq]⟩, h.1⟩, ?_⟩
        rw [h.2, map_append, sum_append, map_singleton, sum_singleton, level_idle,
          map_cons, sum_cons, hlevel_eq, Nat.add_assoc]
    · rw [planeSweep_of_le (Nat.le_of_not_lt hlt)] at hr
      rw [← hr]
      exact ⟨htest, fun s hs => hlimit s (hlevel s hs), Or.inl (Nat.le_of_not_lt hlt)⟩

/-- A loop that tests the limits of all nodes in every cycle keeps them. -/
theorem planeLoop_tested (hpos : 0 < cpusPerTask) (hplane : 0 < planeSize)
    (huntouched : Untouched cpusPerTask maxtasks planeSize nodes) {fuel k tid : Nat}
    (hnodes : nodes = shares.map NodeShare.idle)
    (hlevel : ∀ s ∈ shares, AtLevel cpusPerTask planeSize k s)
    (htid : tid = (shares.map (level cpusPerTask planeSize k)).sum) {rc : Rc}
    {shares' : List NodeShare}
    (h : planeLoop cpusPerTask maxtasks planeSize true fuel true true tid shares = some (rc, shares'))
    : ∀ s ∈ shares', s.tasks ≤ s.gresTaskLimit := by
  induction fuel generalizing k tid shares with
  | zero => cases h
  | succ fuel ih =>
    rw [planeLoop] at h
    split at h
    · generalize hr : planeSweep cpusPerTask maxtasks planeSize true ⟨tid, true, false⟩ shares = r at h
      obtain ⟨htest, hlimit, hlater⟩ := planeSweep_tested hpos hplane huntouched
        (show nodes = [] ++ shares.map NodeShare.idle from hnodes) hlevel (c := ⟨tid, true, false⟩) rfl (by simpa using htid) hr
      simp only at h
      split at h
      · rw [if_neg (by decide), Option.some.injEq, Prod.mk.injEq] at h
        rw [← h.2]
        exact hlimit
      · rw [htest] at h
        rcases hlater with hend | hnext
        · cases fuel with
          | zero => cases h
          | succ fuel =>
            rw [planeLoop, if_neg (by omega), Option.some.injEq, Prod.mk.injEq] at h
            rw [← h.2]
            exact hlimit
        · have hidle : r.2.map NodeShare.idle = shares.map NodeShare.idle := by
            rw [← hr]
            exact (planeSweep_deal _ _).map_eq fun _ _ => rfl
          exact ih (hnodes.trans hidle.symm) hnext.1 (by simpa using hnext.2) h
    · rw [Option.some.injEq, Prod.mk.injEq] at h
      rw [← h.2]
      intro s hs
      rw [(hlevel s hs).2]
      exact (Nat.min_le_left _ _).trans (Nat.min_le_left _ _)

end Tested

/-! ## All jobs -/

/-- A job whose tasks are distributed: it has nodes, tasks and CPUs for each, does not overcommit,
and its planes are not empty. -/
structure Request where
  job : PlaneJob
  nodes_ne : job.nodes ≠ []
  count_pos : 0 < job.maxtasks
  cpus_ne : job.details.cpusPerTask ≠ 0
  no_overcommit : job.details.overcommit = false
  plane_pos : 0 < job.planeSize

/-- A node takes one more task of a plane. -/
def takesPlane (job : PlaneJob) (s : NodeShare) : Bool :=
  decide (s.cpus < s.availCpus) && tresTasksAvail (job.hasTaskLimit && job.tresPerTaskLimit) s

/-- What is promised of both distributions. -/
structure TasksContract (req : Request) : Prop where
  cb : ∃ rc shares adjusted,
    computeCB req.job.toFillJob = some (rc, shares) ∧
    distTasksComputeCB req.job.toFillJob = some (rc, adjusted) ∧
    adjusted.map NodeShare.tasks = shares.map NodeShare.tasks ∧
    FillRight req.job.toFillJob req.job.maxtasks
      (takesMore req.job.details (cpusPerTaskOf req.job.details)
        (req.job.hasTaskLimit && req.job.tresPerTaskLimit)) rc shares ∧
    (rc = .success → WithinGres req.job.toFillJob shares ∧ WithinTpn req.job.toFillJob shares)
  plane : ∃ rc shares adjusted,
    planeDist req.job = some (rc, shares) ∧
    computePlaneDist req.job = some (rc, adjusted) ∧
    adjusted.map NodeShare.tasks = shares.map NodeShare.tasks ∧
    FillRight req.job.toFillJob req.job.maxtasks (takesPlane req.job) rc shares ∧
    (rc = .success → WithinGres req.job.toFillJob shares)

/-- Where the limits are those of the tasks, all tasks are dealt before a node is visited that is at
its limit, or they are more than there are CPUs for. -/
def InTime (req : Request) : Prop :=
  req.job.hasTaskLimit = true → req.job.tresPerTaskLimit = true →
    Untouched req.job.details.cpusPerTask.toNat req.job.maxtasks req.job.planeSize req.job.shares ∨
      (req.job.shares.map (cpuTasks req.job.details.cpusPerTask.toNat)).sum < req.job.maxtasks

theorem tasks_adjusted (shares : List NodeShare) (flag : Bool) :
    (if flag = true then distTasksGresMinCpus shares else shares).map NodeShare.tasks =
      shares.map NodeShare.tasks := by
  split
  · rw [distTasksGresMinCpus, map_map]
    refine map_congr_left fun s _ => ?_
    rw [Function.comp_apply]
    split <;> rfl
  · rfl

theorem sum_tasks_le_cpuTasks {cpusPerTask : Nat} (hidle : shares.map NodeShare.idle = nodes)
    (hle : ∀ s ∈ shares, s.tasks ≤ cpuTasks cpusPerTask s) :
    (shares.map NodeShare.tasks).sum ≤ (nodes.map (cpuTasks cpusPerTask)).sum := by
  rw [← hidle, map_map]
  exact sum_le_sum hle

section Request

variable (req : Request)

theorem cpus_pos : 0 < req.job.details.cpusPerTask.toNat :=
  Nat.pos_of_ne_zero fun h => req.cpus_ne (BitVec.eq_of_toNat_eq h)

theorem cpusPerTaskOf_eq : cpusPerTaskOf req.job.details = req.job.details.cpusPerTask.toNat := by
  rw [cpusPerTaskOf, if_neg req.cpus_ne]

theorem taskCount_eq : req.job.toFillJob.taskCount = req.job.maxtasks := by
  have hpos := req.count_pos
  rw [PlaneJob.maxtasks] at hpos
  unfold FillJob.taskCount
  simp only
  rw [if_neg (by omega), PlaneJob.maxtasks]

theorem firstLevels :
    (∀ s ∈ req.job.shares, AtLevel req.job.details.cpusPerTask.toNat req.job.planeSize 0 s) ∧
      0 = (req.job.shares.map (level req.job.details.cpusPerTask.toNat req.job.planeSize 0)).sum := by
  have hzero : ∀ s, level req.job.details.cpusPerTask.toNat req.job.planeSize 0 s = 0 := by
    intro s
    rw [level, Nat.zero_mul, Nat.min_zero]
  refine ⟨fun s hs => ⟨?_, ?_⟩, ?_⟩
  · obtain ⟨n, -, rfl⟩ := List.mem_map.mp hs
    simp [Covered]
  · rw [hzero, tasks_of_mem_shares hs]
  · rw [map_congr_left fun s _ => hzero s]
    simp

/-- The planes: the loop ends, and keeps the limits where it comes to no node at its limit. -/
theorem planeDist_right (h : InTime req) :
    ∃ rc shares, planeDist req.job = some (rc, shares) ∧
      FillRight req.job.toFillJob req.job.maxtasks (takesPlane req.job) rc shares ∧
      (rc = .success → WithinGres req.job.toFillJob shares) := by
  have hpos := cpus_pos req
  have hbool := toNat_le req.job.hasTaskLimit
  obtain ⟨rc, tid, shares, heq, hdeal, hend⟩ := @planeLoop_spec
    req.job.details.cpusPerTask.toNat req.job.maxtasks _ req.job.tresPerTaskLimit req.plane_pos
    (req.job.maxtasks + 3) req.job.hasTaskLimit true 0 req.job.shares
    (by rw [toNat_true]; omega)
  have hnodes := @deal_nodes req.job.toFillJob _ _ _ _ (by rw [cpusPerTaskOf_eq]; exact hdeal)
  have hle := hdeal.le_limit (Nat.zero_le _)
  have htotal : rc = .success → (shares.map NodeShare.tasks).sum = req.job.maxtasks := by
    intro hsuccess
    rcases hend with hall | hstuck
    · rw [hnodes.2.1]
      omega
    · rw [hstuck.1] at hsuccess
      cases hsuccess
  refine ⟨rc, shares, heq, ⟨hnodes.1, hend.imp And.left And.left, htotal, fun _ => hnodes.2.2, ?_⟩, ?_⟩
  · intro hbad s hs
    rcases hend with hall | hstuck
    · rw [hall.1] at hbad
      cases hbad
    · have hfull : ¬ s.cpus < s.availCpus := hstuck.2 s hs
      rw [takesPlane, decide_eq_false hfull, Bool.false_and]
  · intro hsuccess hlimited hhard s hs
    rcases h hlimited hhard with huntouched | hmany
    · rw [hlimited, hhard] at heq
      have hwithin := planeLoop_tested hpos req.plane_pos huntouched (k := 0)
        (map_idle_shares req.job.toFillJob).symm
        (firstLevels req).1 (firstLevels req).2 heq s hs
      exact hwithin.trans (Nat.le_max_right _ _)
    · have hfits : ∀ s ∈ shares, Covered req.job.details.cpusPerTask.toNat s ∧
          s.tasks ≤ cpuTasks req.job.details.cpusPerTask.toNat s := by
        refine hdeal.forall_mem (P := fun _ s => Covered req.job.details.cpusPerTask.toNat s ∧
          s.tasks ≤ cpuTasks req.job.details.cpusPerTask.toNat s) (fun n s hroom hs => ?_)
          (fun _ _ hs => hs) fun s hs => ⟨((firstLevels req).1 s hs).1, ?_⟩
        · exact ⟨takeTask_cpus n hs.1, (hasRoom_iff hpos hs.1).mp hroom⟩
        · rw [tasks_of_mem_shares hs]
          exact Nat.zero_le _
      have hsum := sum_tasks_le_cpuTasks hnodes.1 fun s hs => (hfits s hs).2
      rw [htotal hsuccess] at hsum
      omega

/-- Both distributions are right, where the planes come to no node at its limit before all tasks
are dealt. -/
theorem tasksContract_of_inTime (h : InTime req) : TasksContract req where
  cb := by
    obtain ⟨rc, shares, heq, hright, hgres, htpn⟩ :=
      computeCB_right req.job.toFillJob req.no_overcommit
    rw [taskCount_eq] at hright
    refine ⟨rc, shares, _, heq, ?_,
      tasks_adjusted shares (doGresMinCpus (firstSweep req.job.toFillJob).2), hright,
      fun _ => ⟨hgres, htpn⟩⟩
    rw [distTasksComputeCB, if_neg req.nodes_ne, heq]
    rfl
  plane := by
    obtain ⟨rc, shares, heq, hright, hgres⟩ := planeDist_right req h
    have hne : ¬ (req.job.nodes = [] ∨ req.job.planeSize = 0) := fun hor =>
      hor.elim req.nodes_ne req.plane_pos.ne'
    refine ⟨rc, shares, _, heq, ?_, tasks_adjusted shares (doGresMinCpus shares), hright, hgres⟩
    rw [computePlaneDist, if_neg hne, heq]
    rfl

end Request

/-! ## Two nodes with limits -/

theorem one_ne_zero16 : (1 : BitVec 16) ≠ 0 := by decide

/-- A node of 4 CPUs with a limit of GRES. -/
def limitedNode (limit : BitVec 32) : NodeInput where
  cpus := 4
  tpc := 1
  gresTaskLimit := limit
  gresMinCpus := 0
  arbitraryTpn := 0
  tpc_ne_zero := one_ne_zero16

/-- A job on two nodes with the limits 1 and 3, for planes of one task. -/
def limitedJob (numTasks : BitVec 32) : PlaneJob where
  details :=
    { numTasks := numTasks, ntasksSet := true, ntasksPerNode := 0, cpusPerTask := 1,
      overcommit := false, distPlane := true, planeSize := 1, threadsPerCore := noVal16 }
  ncpus := 8
  tresPerTask := true
  gresListReq := [1]
  hasTaskLimit := true
  hasArbitraryTpn := false
  nodes := [limitedNode 1, limitedNode 3]
  hasMcPtr := true

/-- Two tasks, which fit in the first cycle. -/
def twoTasks : Request where
  job := limitedJob 2
  nodes_ne := List.cons_ne_nil _ _
  count_pos := by decide
  cpus_ne := by decide
  no_overcommit := rfl
  plane_pos := by decide

/-- Four tasks, as many as the limits allow. -/
def fourTasks : Request where
  job := limitedJob 4
  nodes_ne := List.cons_ne_nil _ _
  count_pos := by decide
  cpus_ne := by decide
  no_overcommit := rfl
  plane_pos := by decide

/-- The two tasks are dealt in the first cycle, in which no node is at its limit. -/
theorem twoTasks_inTime : InTime twoTasks := by
  refine fun _ _ => Or.inl fun k front s rest hnodes hlate => ?_
  have hshares : twoTasks.job.shares = [⟨4, 1, 1, 0, none, 0, 0⟩, ⟨4, 1, 3, 0, none, 0, 0⟩] := by rfl
  have hplane : twoTasks.job.planeSize = 1 := by rfl
  have hcpus : twoTasks.job.details.cpusPerTask.toNat = 1 := by rfl
  have hcount : twoTasks.job.maxtasks = 2 := by rfl
  rw [hshares] at hnodes
  rw [hplane, hcpus] at hlate ⊢
  rw [hcount]
  cases front with
  | nil =>
    simp only [nil_append, List.cons.injEq] at hnodes
    rw [← hnodes.1] at hlate ⊢
    rw [← hnodes.2]
    simp [level, topTasks, cpuTasks] at hlate ⊢
    omega
  | cons first front =>
    cases front with
    | nil =>
      simp only [cons_append, nil_append, List.cons.injEq] at hnodes
      rw [← hnodes.2.1] at hlate ⊢
      rw [← hnodes.1, ← hnodes.2.2]
      simp [level, topTasks, cpuTasks] at hlate ⊢
      omega
    | cons second front => simp at hnodes

theorem tasksContract_twoTasks : TasksContract twoTasks := tasksContract_of_inTime twoTasks twoTasks_inTime

/-- The first node is at its limit in the second cycle, and is given another task in the third
one. -/
theorem tasksContract_fails : ¬ TasksContract fourTasks := by
  intro h
  obtain ⟨rc, shares, adjusted, heq, -, -, -, hgres⟩ := h.plane
  have hrun : planeDist fourTasks.job =
      some (.success, [⟨4, 1, 1, 0, none, 2, 2⟩, ⟨4, 1, 3, 0, none, 2, 2⟩]) := by decide
  rw [hrun, Option.some.injEq, Prod.mk.injEq] at heq
  have hwithin := hgres heq.1.symm rfl (by decide)
  rw [← heq.2] at hwithin
  revert hwithin
  decide

end Slurm.DistTasks
