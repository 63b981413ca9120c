import Slurm.StepLayout.Model

/-!
# How many tasks each node gets

The block and plane layouts first count the tasks of every node and then hand out
the task ids; the cyclic layout does both at once.  This file is about the counts,
with counters that have no bound (`w = 0`).

`Counted` is what every count ends with: all the tasks placed, and no node above
its CPUs when the CPUs are enough.  `countPacked_spec`, `countUnpacked_spec`,
`cyclic_spec` and `planeCount_spec` prove it.  Each keeps an invariant over the
rounds and uses `Lib.Dealing.rounds_total`.

A plane of one task per node is different.  The second loop of its first cycle
places nothing, so the cycle reports no space and every later cycle
over-subscribes.  `planeCount_one_spec` says what it counts: the share of each
node in a plain round robin.
-/

namespace Slurm.StepLayout

open List Bool Nat

open Lib.Dealing (Turn Hand sweep rounds Deal)

variable {taskCnt : Nat}
variable {cpus : List Nat} {fits : Prop} {j planeSize start : Nat} {h : Hand} {overSub : Bool}

/-! ## Nodes -/

theorem addTask_tasks (t : Nat) (n : Node) : (addTask 0 t n).tasks = n.tasks + 1 := by
  simp [addTask]

theorem addTask_cpus (w t : Nat) (n : Node) : (addTask w t n).cpus = n.cpus := rfl

theorem addTaskId_tasks (t : Nat) (n : Node) : (addTaskId 0 t n).tasks = n.tasks + 1 := by
  simp [addTaskId]

theorem addTaskId_cpus (w t : Nat) (n : Node) : (addTaskId w t n).cpus = n.cpus := rfl

/-- `tasks` of all the nodes. -/
def totalTasks (nodes : List Node) : Nat := (nodes.map Node.tasks).sum

/-- A property of a node that a list of idle nodes has. -/
theorem forall_idle {P : Node → Prop} (h : ∀ c ∈ cpus, P (Node.idle c)) :
    ∀ n ∈ cpus.map Node.idle, P n := by
  intro n hn
  obtain ⟨c, hc, rfl⟩ := List.mem_map.mp hn
  exact h c hc

theorem totalTasks_idle (cpus : List Nat) : totalTasks (cpus.map Node.idle) = 0 := by
  induction cpus with
  | nil => rfl
  | cons c cpus ih =>
    simp only [totalTasks, map_cons, sum_cons] at ih ⊢
    rw [ih]
    rfl

theorem totalCpus_idle (cpus : List Nat) : totalCpus (cpus.map Node.idle) = cpus.sum := by
  rw [totalCpus, map_map]
  congr 1
  exact map_id cpus

/-- Full nodes hold as many tasks as they have CPUs. -/
theorem totalTasks_of_full {nodes : List Node} (h : ∀ n ∈ nodes, n.tasks = n.cpus) :
    totalTasks nodes = totalCpus nodes :=
  congrArg List.sum (map_congr_left h)

theorem totalTasks_of_add {nodes : List Node} {m : Nat} (h : ∀ n ∈ nodes, n.tasks = n.cpus + m) :
    totalTasks nodes = totalCpus nodes + nodes.length * m := by
  induction nodes with
  | nil => simp [totalTasks, totalCpus]
  | cons n nodes ih =>
    have hrest := ih fun c hc => h c (mem_cons_of_mem _ hc)
    have hn := h n mem_cons_self
    simp only [totalTasks, totalCpus, map_cons, sum_cons, length_cons] at hrest ⊢
    rw [hrest, hn, Nat.add_mul, Nat.one_mul]
    omega

/-! ## Counts -/

/-- All tasks are counted, the nodes have kept their CPUs and have no task ids, and
no node is above its CPUs when `fits` holds. -/
structure Counted (cpus : List Nat) (taskCnt : Nat) (fits : Prop) (nodes : List Node) : Prop where
  cpus_eq : nodes.map Node.cpus = cpus
  total : totalTasks nodes = taskCnt
  tids_nil : ∀ n ∈ nodes, n.tids = []
  le_cpus : fits → ∀ n ∈ nodes, n.tasks ≤ n.cpus

section Deals

variable {ok : Node → Prop} {t u : Nat} {bs bs' : List Node}

theorem deal_total (h : Deal (addTask 0) ok taskCnt t bs u bs') :
    totalTasks bs' + t = totalTasks bs + u := h.sum_size Node.tasks addTask_tasks

theorem deal_cpus (h : Deal (addTask 0) ok taskCnt t bs u bs') :
    bs'.map Node.cpus = bs.map Node.cpus := h.map_eq (addTask_cpus 0)

theorem deal_tids (h : Deal (addTask 0) ok taskCnt t bs u bs') (hbs : ∀ n ∈ bs, n.tids = []) :
    ∀ n ∈ bs', n.tids = [] := by
  refine h.forall_mem (P := fun _ n => n.tids = []) ?_ ?_ hbs
  · exact fun _ _ _ hn => hn
  · exact fun _ _ hn => hn

/-- A deal from idle nodes, up to the last task, is a count. -/
theorem counted_of_deal (h : Deal (addTask 0) ok taskCnt 0 (cpus.map Node.idle) u bs')
    (hu : taskCnt ≤ u) (hfits : fits → ∀ n ∈ bs', n.tasks ≤ n.cpus) :
    Counted cpus taskCnt fits bs' where
  cpus_eq := by
    rw [deal_cpus h, map_map]
    exact map_id cpus
  total := by
    have htotal := deal_total h
    have hle := h.le_limit (Nat.zero_le _)
    rw [totalTasks_idle] at htotal
    omega
  tids_nil := deal_tids h (forall_idle fun _ _ => rfl)
  le_cpus := hfits

theorem deal_totalCpus (h : Deal (addTask 0) ok taskCnt 0 (cpus.map Node.idle) u bs') :
    totalCpus bs' = cpus.sum := by
  rw [totalCpus, deal_cpus h, ← totalCpus, totalCpus_idle]

theorem deal_totalTasks (h : Deal (addTask 0) ok taskCnt 0 (cpus.map Node.idle) u bs') :
    totalTasks bs' = u := by
  have htotal := deal_total h
  rw [totalTasks_idle] at htotal
  omega

theorem deal_ne_nil (hcpus : cpus ≠ [])
    (h : Deal (addTask 0) ok taskCnt 0 (cpus.map Node.idle) u bs') : bs' ≠ [] := by
  intro hnil
  have hlen := h.length_eq
  rw [hnil, length_map, length_nil] at hlen
  exact hcpus (List.length_eq_zero_iff.mp hlen.symm)

theorem deal_forall_cpus {P : Nat → Prop} (hP : ∀ c ∈ cpus, P c)
    (h : Deal (addTask 0) ok taskCnt 0 (cpus.map Node.idle) u bs') : ∀ n ∈ bs', P n.cpus := by
  intro n hn
  refine hP _ ?_
  have hmem : n.cpus ∈ bs'.map Node.cpus := mem_map_of_mem hn
  rw [deal_cpus h, map_map] at hmem
  rwa [show (Node.cpus ∘ Node.idle) = id from rfl, map_id] at hmem

end Deals

/-! ## Block layouts -/

/-- The tasks of a node stay below its CPUs while only free CPUs are given away. -/
theorem deal_le_cpus {ok : Node → Prop} (hok : ∀ n, ok n → n.tasks < n.cpus) {t u : Nat}
    {bs bs' : List Node} (h : Deal (addTask 0) ok taskCnt t bs u bs')
    (hbs : ∀ n ∈ bs, n.tasks ≤ n.cpus) : ∀ n ∈ bs', n.tasks ≤ n.cpus := by
  refine h.forall_mem (P := fun _ n => n.tasks ≤ n.cpus) (fun t n hn _ => ?_) (fun _ _ hn => hn) hbs
  rw [addTask_tasks]
  exact hok n hn

/-- A round that places a task when there is one left. -/
theorem lt_of_sweep {v : Turn Node} {t : Nat} {bs : List Node} (ht : t < taskCnt)
    (hb : ∃ n ∈ bs, v.accept n = true ∧ 0 < v.turns n) :
    t < (sweep taskCnt v ⟨t, false⟩ bs).1.item :=
  Lib.Dealing.sweep_progress taskCnt v (h := ⟨t, false⟩) ht hb

theorem exists_mem_of_ne_nil {bs : List Node} (h : bs ≠ []) : ∃ n, n ∈ bs :=
  List.exists_mem_of_ne_nil bs h

/-- The packed count.  Passes 1 and 2 give away free CPUs only, and pass 3 starts
when there are none. -/
theorem countPacked_spec (taskCnt : Nat) (hcpus : cpus ≠ []) :
    ∃ u nodes, (∀ fuel, taskCnt ≤ fuel →
        countPacked 0 taskCnt fuel (cpus.map Node.idle) = some (u, nodes)) ∧
      Deal (addTask 0) (fun _ => True) taskCnt 0 (cpus.map Node.idle) u nodes ∧
      Counted cpus taskCnt (taskCnt ≤ cpus.sum) nodes := by
  -- Passes 1 and 2.
  let first := sweep taskCnt (packFirst 0) ⟨0, false⟩ (cpus.map Node.idle)
  let fill := sweep taskCnt (packFill 0) first.1 first.2
  have hfirst : Deal (addTask 0) (fun n => n.tasks < n.cpus) taskCnt 0 (cpus.map Node.idle)
      first.1.item first.2 :=
    (Lib.Dealing.sweep_deal taskCnt (packFirst 0) ⟨0, false⟩ _).weaken
      fun n hn => of_decide_eq_true hn
  have hfirst_le : ∀ n ∈ first.2, n.tasks ≤ n.cpus :=
    deal_le_cpus (fun _ hn => hn) hfirst (forall_idle fun _ _ => Nat.zero_le _)
  have hfillStep : Deal (addTask 0) (fun n => n.tasks < n.cpus) taskCnt first.1.item first.2
      fill.1.item fill.2 :=
    (Lib.Dealing.sweep_deal taskCnt (packFill 0) first.1 first.2).weaken
      fun n hn => of_decide_eq_true hn
  have hfill := hfirst.trans hfillStep
  have hfill_le : ∀ n ∈ fill.2, n.tasks ≤ n.cpus := deal_le_cpus (fun _ hn => hn) hfillStep hfirst_le
  have hdone : taskCnt ≤ cpus.sum → taskCnt ≤ fill.1.item := by
    intro hsum
    by_contra hlt
    have hfull : ∀ n ∈ fill.2, n.tasks = n.cpus :=
      Lib.Dealing.sweep_fill taskCnt (packFill 0) addTask_tasks (addTask_cpus 0)
        (fun n => by simp [packFill]) (fun n hn => ⟨hfirst_le n hn, Nat.le_add_left _ _⟩)
        (Nat.lt_of_not_le hlt)
    have htotal := totalTasks_of_full hfull
    rw [deal_totalTasks hfill, deal_totalCpus hfill] at htotal
    omega
  -- Pass 3.
  obtain ⟨_, _, u, nodes, hu, ⟨hdeal, hle⟩, hrun⟩ := Lib.Dealing.rounds_total
    taskCnt (fun _ _ t ns => sweep taskCnt (packSpread 0) ⟨t, false⟩ ns)
    (fun _ _ t bs => Deal (addTask 0) (fun _ => True) taskCnt 0 (cpus.map Node.idle) t bs ∧
      (taskCnt ≤ cpus.sum → taskCnt ≤ t ∧ ∀ n ∈ bs, n.tasks ≤ n.cpus))
    (fun _ t => taskCnt - t)
    (by
      intro j overSub t bs ht ⟨hdeal, hle⟩
      have hstep := Lib.Dealing.sweep_deal taskCnt (packSpread 0) ⟨t, false⟩ bs
      obtain ⟨n, hn⟩ := exists_mem_of_ne_nil (deal_ne_nil hcpus hdeal)
      have hmore := lt_of_sweep (v := packSpread 0) ht ⟨n, hn, rfl, Nat.one_pos⟩
      refine ⟨⟨hdeal.trans (hstep.weaken fun _ _ => trivial), fun hsum => ?_⟩, by omega⟩
      exact absurd (hle hsum).1 (Nat.not_le_of_lt ht))
    0 false fill.1.item fill.2
    ⟨hfill.weaken fun _ _ => trivial, fun hsum => ⟨hdone hsum, hfill_le⟩⟩
  exact ⟨u, nodes, fun fuel hfuel => hrun fuel (by omega), hdeal,
    counted_of_deal hdeal hu fun hsum => (hle hsum).2⟩

/-- What the unpacked count keeps over its cycles. -/
structure UnpackedInv (cpus : List Nat) (taskCnt j : Nat) (overSub : Bool) (t : Nat)
    (bs : List Node) : Prop where
  deal : Deal (addTask 0) (fun _ => True) taskCnt 0 (cpus.map Node.idle) t bs
  level : t < taskCnt → overSub = false →
    (∀ n ∈ bs, n.tasks = min j n.cpus) ∧ ∃ n ∈ bs, j < n.cpus
  fits : taskCnt ≤ cpus.sum → (t < taskCnt → overSub = false) ∧ ∀ n ∈ bs, n.tasks ≤ n.cpus

/-- One cycle, before over-subscription. -/
theorem unpackedInv_level {t : Nat} {bs : List Node} (ht : t < taskCnt)
    (h : UnpackedInv cpus taskCnt j false t bs) :
    UnpackedInv cpus taskCnt (j + 1)
      (!(sweep taskCnt (fakeCyclic 0 j false) ⟨t, false⟩ bs).1.room)
      (sweep taskCnt (fakeCyclic 0 j false) ⟨t, false⟩ bs).1.item
      (sweep taskCnt (fakeCyclic 0 j false) ⟨t, false⟩ bs).2 := by
  obtain ⟨hlevel, -⟩ := h.level ht rfl
  have hacc : ∀ n, (fakeCyclic 0 j false).accept n = true ↔ j < n.cpus := by
    intro n
    simp [fakeCyclic]
  have hroom : ∀ n, (fakeCyclic 0 j false).room n = true ↔ j + 1 < n.cpus := by
    intro n
    simp [fakeCyclic]
  have hdeal := h.deal.trans ((Lib.Dealing.sweep_deal taskCnt (fakeCyclic 0 j false)
    ⟨t, false⟩ bs).weaken fun _ _ => trivial)
  have hraise := fun hlt => Lib.Dealing.sweep_level taskCnt (fakeCyclic 0 j false) j
    (fun _ => rfl) addTask_tasks (addTask_cpus 0) hacc (h := ⟨t, false⟩) hlevel hlt
  have hspace := fun hlt => Lib.Dealing.sweep_level_room taskCnt (fakeCyclic 0 j false) j
    (fun _ => rfl) (addTask_cpus 0) hacc hroom (h := ⟨t, false⟩) bs hlt
  refine ⟨hdeal, fun hlt hover => ⟨hraise hlt, ?_⟩, fun hsum => ⟨fun hlt => ?_, ?_⟩⟩
  · rw [not_eq_false'] at hover
    simpa using (hspace hlt).mp hover
  · -- No space would mean that all the CPUs are taken, and they are enough.
    rw [not_eq_false']
    by_contra hno
    have hfull : ∀ n ∈ (sweep taskCnt (fakeCyclic 0 j false) ⟨t, false⟩ bs).2,
        n.tasks = n.cpus := by
      intro n hn
      have hlev := hraise hlt n hn
      have hj : ¬ j + 1 < n.cpus := fun hj => hno ((hspace hlt).mpr (Or.inr ⟨n, hn, hj⟩))
      omega
    have htotal := totalTasks_of_full hfull
    rw [deal_totalTasks hdeal, deal_totalCpus hdeal] at htotal
    omega
  · exact Lib.Dealing.sweep_level_le taskCnt (fakeCyclic 0 j false) j (fun _ => rfl)
      addTask_tasks (addTask_cpus 0) hacc (h := ⟨t, false⟩) hlevel

/-- The unpacked count. -/
theorem countUnpacked_spec (taskCnt : Nat) (hcpus : cpus ≠ []) (hpos : ∀ c ∈ cpus, 1 ≤ c) :
    ∃ u nodes, (∀ fuel, taskCnt ≤ fuel →
        countUnpacked 0 taskCnt fuel (cpus.map Node.idle) = some (u, nodes)) ∧
      Deal (addTask 0) (fun _ => True) taskCnt 0 (cpus.map Node.idle) u nodes ∧
      Counted cpus taskCnt (taskCnt ≤ cpus.sum) nodes := by
  have hstart : UnpackedInv cpus taskCnt 0 false 0 (cpus.map Node.idle) := by
    refine ⟨.nothing, fun _ _ => ⟨forall_idle fun _ _ => by simp [Node.idle], ?_⟩,
      fun _ => ⟨fun _ => rfl, forall_idle fun _ _ => Nat.zero_le _⟩⟩
    obtain ⟨c, hc⟩ := List.exists_mem_of_ne_nil cpus hcpus
    exact ⟨Node.idle c, mem_map_of_mem hc, hpos c hc⟩
  obtain ⟨_, _, u, nodes, hu, hinv, hrun⟩ := Lib.Dealing.rounds_total
    taskCnt (fun j overSub t ns => sweep taskCnt (fakeCyclic 0 j overSub) ⟨t, false⟩ ns)
    (UnpackedInv cpus taskCnt) (fun _ t => taskCnt - t)
    (by
      intro j overSub t bs ht hinv
      cases overSub with
      | false =>
        obtain ⟨-, n, hn, hj⟩ := hinv.level ht rfl
        have hmore := lt_of_sweep (v := fakeCyclic 0 j false) ht
          ⟨n, hn, by simp [fakeCyclic, hj], Nat.one_pos⟩
        exact ⟨unpackedInv_level ht hinv, by omega⟩
      | true =>
        obtain ⟨n, hn⟩ := exists_mem_of_ne_nil (deal_ne_nil hcpus hinv.deal)
        have hmore := lt_of_sweep (v := fakeCyclic 0 j true) ht
          ⟨n, hn, by simp [fakeCyclic], Nat.one_pos⟩
        refine ⟨⟨hinv.deal.trans ((Lib.Dealing.sweep_deal taskCnt (fakeCyclic 0 j true)
          ⟨t, false⟩ bs).weaken fun _ _ => trivial), fun _ hover => ?_, fun hsum => ?_⟩, by omega⟩
        · simp at hover
        · exact absurd ((hinv.fits hsum).1 ht) (by simp))
    0 false 0 _ hstart
  exact ⟨u, nodes, fun fuel hfuel => hrun fuel (by omega), hinv.deal,
    counted_of_deal hinv.deal hu fun hsum => (hinv.fits hsum).2⟩

/-! ## Plane layouts -/

/-- What the count of a plane layout keeps.  `fits` is that the CPUs are enough. -/
structure PlaneInv (cpus : List Nat) (taskCnt : Nat) (fits : Prop) (j : Nat) (overSub : Bool)
    (t : Nat) (bs : List Node) : Prop where
  deal : Deal (addTask 0) (fun _ => True) taskCnt 0 (cpus.map Node.idle) t bs
  first : j = 0 → overSub = false ∧ ∀ n ∈ bs, n.tasks = 0
  below : overSub = false → ∀ n ∈ bs, n.tasks ≤ n.cpus
  fits : fits → (t < taskCnt → overSub = false) ∧ ∀ n ∈ bs, n.tasks ≤ n.cpus

/-- A cycle only places tasks. -/
theorem planeRound_deal (planeSize j : Nat) (overSub : Bool) (t : Nat) (bs : List Node) :
    Deal (addTask 0) (fun _ => True) taskCnt t bs
      (planeRound 0 taskCnt planeSize j overSub t bs).1.item
      (planeRound 0 taskCnt planeSize j overSub t bs).2 := by
  unfold planeRound
  split
  · exact ((Lib.Dealing.sweep_deal taskCnt (planeFirst 0) ⟨t, false⟩ bs).weaken
      fun _ _ => trivial).trans ((Lib.Dealing.sweep_deal taskCnt
        (planeBlock 0 planeSize 1 overSub) _ _).weaken fun _ _ => trivial)
  · exact (Lib.Dealing.sweep_deal taskCnt (planeBlock 0 planeSize 0 overSub) ⟨t, false⟩ bs).weaken
      fun _ _ => trivial

/-- A sweep of blocks, before over-subscription, gives away free CPUs only. -/
theorem planeBlock_le {bs : List Node} (hbs : ∀ n ∈ bs, n.tasks ≤ n.cpus) :
    ∀ n ∈ (sweep taskCnt (planeBlock 0 planeSize start false) h bs).2, n.tasks ≤ n.cpus := by
  refine (Lib.Dealing.sweep_deal taskCnt (planeBlock 0 planeSize start false) h bs).forall_mem
    (P := fun _ n => n.tasks ≤ n.cpus) (fun t n hok hle => ?_) (fun _ _ hn => hn) hbs
  have hne : n.cpus ≠ n.tasks := by simpa [planeBlock] using hok
  show (addTask 0 t n).tasks ≤ n.cpus
  rw [addTask_tasks]
  omega

/-- Such a sweep reports no space only when it has filled every node. -/
theorem planeBlock_full (hsize : start < planeSize) {bs : List Node}
    (hbs : ∀ n ∈ bs, n.tasks ≤ n.cpus)
    (hlt : (sweep taskCnt (planeBlock 0 planeSize start false) h bs).1.item < taskCnt)
    (hno : (sweep taskCnt (planeBlock 0 planeSize start false) h bs).1.room = false) :
    ∀ n ∈ (sweep taskCnt (planeBlock 0 planeSize start false) h bs).2, n.tasks = n.cpus :=
  Lib.Dealing.sweep_full taskCnt (planeBlock 0 planeSize start false) addTask_tasks
    (addTask_cpus 0) (fun n => by simp [planeBlock, ne_comm])
    (fun n => by simp [planeBlock])
    (fun n hn => ⟨hbs n hn, Nat.sub_pos_of_lt hsize⟩) hlt hno

/-- The first task on each node fits, for every node has a CPU. -/
theorem planeFirst_le (taskCnt : Nat) (h : Hand) {bs : List Node} (hbs : ∀ n ∈ bs, n.tasks = 0)
    (hpos : ∀ n ∈ bs, 1 ≤ n.cpus) :
    ∀ n ∈ (sweep taskCnt (planeFirst 0) h bs).2, n.tasks ≤ n.cpus := by
  intro n' hn'
  obtain ⟨n, hn, h', rfl⟩ := Lib.Dealing.mem_sweep taskCnt (planeFirst 0) hn'
  have h0 := hbs n hn
  have h1 := hpos n hn
  rw [show (planeFirst 0).turns n = 1 from rfl, Lib.Dealing.attempts_one]
  split
  · show (addTask 0 h'.item n).tasks ≤ n.cpus
    rw [addTask_tasks]
    omega
  · show n.tasks ≤ n.cpus
    omega

/-- A sweep of blocks, before over-subscription, keeps the invariant. -/
theorem planeInv_block {bs : List Node} (hfits : fits → taskCnt ≤ cpus.sum ∧ start < planeSize)
    (hdeal : Deal (addTask 0) (fun _ => True) taskCnt 0 (cpus.map Node.idle) h.item bs)
    (hbs : ∀ n ∈ bs, n.tasks ≤ n.cpus) :
    PlaneInv cpus taskCnt fits (j + 1)
      (!(sweep taskCnt (planeBlock 0 planeSize start false) h bs).1.room)
      (sweep taskCnt (planeBlock 0 planeSize start false) h bs).1.item
      (sweep taskCnt (planeBlock 0 planeSize start false) h bs).2 := by
  have hdeal' := hdeal.trans ((Lib.Dealing.sweep_deal taskCnt
    (planeBlock 0 planeSize start false) h bs).weaken fun _ _ => trivial)
  refine ⟨hdeal', fun hj => absurd hj (succ_ne_zero j), fun _ => planeBlock_le hbs,
    fun hf => ⟨fun hlt => ?_, planeBlock_le hbs⟩⟩
  rw [not_eq_false']
  by_contra hno
  rw [not_eq_true] at hno
  have htotal := totalTasks_of_full (planeBlock_full (hfits hf).2 hbs hlt hno)
  rw [deal_totalTasks hdeal', deal_totalCpus hdeal'] at htotal
  have hsum := (hfits hf).1
  omega

/-- One cycle keeps the invariant.  It places a task, or it finds no space and
starts to over-subscribe. -/
theorem planeInv_round (hcpus : cpus ≠ []) (hpos : ∀ c ∈ cpus, 1 ≤ c) (hsize : 1 ≤ planeSize)
    (hfits : fits → taskCnt ≤ cpus.sum ∧ planeSize ≠ 1) {t : Nat} {bs : List Node}
    (ht : t < taskCnt) (h : PlaneInv cpus taskCnt fits j overSub t bs) :
    PlaneInv cpus taskCnt fits (j + 1)
        (overSub || !(planeRound 0 taskCnt planeSize j overSub t bs).1.room)
        (planeRound 0 taskCnt planeSize j overSub t bs).1.item
        (planeRound 0 taskCnt planeSize j overSub t bs).2 ∧
      (t < (planeRound 0 taskCnt planeSize j overSub t bs).1.item ∨
        overSub = false ∧ (planeRound 0 taskCnt planeSize j overSub t bs).1.room = false ∧
          t ≤ (planeRound 0 taskCnt planeSize j overSub t bs).1.item) := by
  obtain ⟨n, hn⟩ := exists_mem_of_ne_nil (deal_ne_nil hcpus h.deal)
  unfold planeRound
  by_cases hj : j = 0
  · obtain ⟨rfl, hzero⟩ := h.first hj
    simp only [if_pos hj, Bool.false_or]
    have hfirst := h.deal.trans ((Lib.Dealing.sweep_deal taskCnt (planeFirst 0)
      ⟨t, false⟩ bs).weaken fun _ _ => trivial)
    have hle := planeFirst_le taskCnt ⟨t, false⟩ hzero (deal_forall_cpus hpos h.deal)
    refine ⟨planeInv_block (fun hf => ⟨(hfits hf).1, ?_⟩) hfirst hle, Or.inl ?_⟩
    · have hne := (hfits hf).2
      omega
    · have hmore := lt_of_sweep (v := planeFirst 0) ht ⟨n, hn, rfl, Nat.one_pos⟩
      exact Nat.lt_of_lt_of_le hmore (Lib.Dealing.sweep_item_le _ _ _ _)
  · simp only [if_neg hj]
    cases overSub with
    | false =>
      simp only [Bool.false_or]
      refine ⟨planeInv_block (fun hf => ⟨(hfits hf).1, hsize⟩) h.deal (h.below rfl), ?_⟩
      rcases eq_false_or_eq_true
        (sweep taskCnt (planeBlock 0 planeSize 0 false) ⟨t, false⟩ bs).1.room with hr | hr
      · exact Or.inl (Lib.Dealing.sweep_item_lt_of_room taskCnt _ (h := ⟨t, false⟩) rfl hr)
      · exact Or.inr ⟨trivial, hr, Lib.Dealing.sweep_item_le taskCnt _ ⟨t, false⟩ bs⟩
    | true =>
      simp only [Bool.true_or]
      have hmore := lt_of_sweep (v := planeBlock 0 planeSize 0 true) ht
        ⟨n, hn, by simp [planeBlock], hsize⟩
      refine ⟨⟨h.deal.trans ((Lib.Dealing.sweep_deal taskCnt (planeBlock 0 planeSize 0 true)
        ⟨t, false⟩ bs).weaken fun _ _ => trivial), fun hj => absurd hj (succ_ne_zero j),
        fun hover => ?_, fun hf => ?_⟩, Or.inl hmore⟩
      · cases hover
      · exact absurd ((h.fits hf).1 ht) (by simp)

/-- The count of a plane layout.  `fits` needs a plane of more than one task. -/
theorem planeCount_spec (taskCnt : Nat) (hcpus : cpus ≠ []) (hpos : ∀ c ∈ cpus, 1 ≤ c)
    (hsize : 1 ≤ planeSize) :
    ∃ u nodes, (∀ fuel, 2 * taskCnt + 1 ≤ fuel →
        rounds taskCnt (planeRound 0 taskCnt planeSize) fuel 0 false 0 (cpus.map Node.idle)
          = some (u, nodes)) ∧
      Deal (addTask 0) (fun _ => True) taskCnt 0 (cpus.map Node.idle) u nodes ∧
      Counted cpus taskCnt (taskCnt ≤ cpus.sum ∧ planeSize ≠ 1) nodes := by
  obtain ⟨_, _, u, nodes, hu, hinv, hrun⟩ := Lib.Dealing.rounds_total
    taskCnt (planeRound 0 taskCnt planeSize)
    (PlaneInv cpus taskCnt (taskCnt ≤ cpus.sum ∧ planeSize ≠ 1))
    (fun overSub t => 2 * (taskCnt - t) + if overSub then 0 else 1)
    (by
      intro j overSub t bs ht hinv
      obtain ⟨hinv', hmore⟩ := planeInv_round hcpus hpos hsize id ht hinv
      refine ⟨hinv', ?_⟩
      rcases hmore with hmore | ⟨rfl, hno, hle⟩
      · rcases eq_false_or_eq_true overSub with rfl | rfl
        · simp only [Bool.true_or, if_true]
          omega
        · split <;> simp <;> omega
      · simp only [hno, Bool.not_false, Bool.or_true, if_true, false_eq_true, if_false]
        omega)
    0 false 0 (cpus.map Node.idle)
    ⟨.nothing, fun _ => ⟨rfl, forall_idle fun _ _ => rfl⟩,
      fun _ => forall_idle fun _ _ => Nat.zero_le _,
      fun _ => ⟨fun _ => rfl, forall_idle fun _ _ => Nat.zero_le _⟩⟩
  exact ⟨u, nodes, fun fuel hfuel => hrun fuel (by simpa using hfuel), hinv.deal,
    counted_of_deal hinv.deal hu fun hf => (hinv.fits hf).2⟩

/-! ## Planes of one task -/

/-- The tasks of node `i` when `taskCnt` tasks go round `nodeCnt` nodes, one each. -/
def roundRobinShare (nodeCnt taskCnt i : Nat) : Nat := (taskCnt + (nodeCnt - 1 - i)) / nodeCnt

theorem roundRobinShare_mul {n i : Nat} (hi : i < n) (j : Nat) :
    roundRobinShare n (j * n) i = j := by
  unfold roundRobinShare
  rw [Nat.add_comm, add_mul_div_right _ _ (by omega), div_eq_of_lt (by omega),
    Nat.zero_add]

/-- One more turn gives node `i` a task, unless the tasks end before it. -/
theorem roundRobinShare_turn {n i t : Nat} (hi : i < n) (ht : j * n < t) (hle : t ≤ j * n + n) :
    roundRobinShare n t i = if j * n + i < t then j + 1 else j := by
  unfold roundRobinShare
  split
  · rename_i hlt
    rw [Nat.div_eq_iff (by omega), Nat.add_mul]
    omega
  · rename_i hlt
    rw [Nat.div_eq_iff (by omega)]
    omega

/-- A sweep of no attempts. -/
theorem sweep_planeBlock_one (overSub : Bool) (h : Hand) (bs : List Node) :
    sweep taskCnt (planeBlock 0 1 1 overSub) h bs = (h, bs) := by
  induction bs generalizing h with
  | nil => rfl
  | cons n bs ih =>
    rw [sweep]
    split
    · show ((sweep taskCnt (planeBlock 0 1 1 overSub) h bs).1,
        n :: (sweep taskCnt (planeBlock 0 1 1 overSub) h bs).2) = (h, n :: bs)
      rw [ih]
    · rfl

/-- A cycle of planes of one task is one turn of a round robin. -/
theorem planeRound_one {t : Nat} {bs : List Node} (hover : 0 < j → overSub = true)
    (ht : t ≤ taskCnt) :
    (overSub || !(planeRound 0 taskCnt 1 j overSub t bs).1.room) = true ∧
      (planeRound 0 taskCnt 1 j overSub t bs).1.item = min taskCnt (t + bs.length) ∧
      ∀ i : Nat, (planeRound 0 taskCnt 1 j overSub t bs).2[i]?
        = bs[i]?.map fun n => if t + i < taskCnt then addTask 0 (t + i) n else n := by
  unfold planeRound
  by_cases hj : j = 0
  · simp only [if_pos hj, sweep_planeBlock_one]
    have hroom : (sweep taskCnt (planeFirst 0) ⟨t, false⟩ bs).1.room = false := by
      induction bs generalizing t with
      | nil => rfl
      | cons n bs ih =>
        rw [sweep]
        split
        · rename_i hlt
          have hlt' : t + 1 ≤ taskCnt := hlt
          simpa [planeFirst, Lib.Dealing.attempts, show t < taskCnt from hlt] using ih hlt'
        · rfl
    rw [hroom]
    exact ⟨by simp, Lib.Dealing.sweep_each taskCnt (planeFirst 0) (fun _ => rfl) (fun _ => rfl)
      (h := ⟨t, false⟩) ht bs⟩
  · simp only [if_neg hj]
    have hover' := hover (Nat.pos_of_ne_zero hj)
    subst hover'
    exact ⟨rfl, Lib.Dealing.sweep_each taskCnt (planeBlock 0 1 0 true) (fun _ => rfl)
      (fun _ => by simp [planeBlock]) (h := ⟨t, false⟩) ht bs⟩

/-- What the count keeps with planes of one task. -/
structure RoundRobinInv (len taskCnt j : Nat) (overSub : Bool) (t : Nat) (bs : List Node) :
    Prop where
  le : t ≤ taskCnt
  length_eq : bs.length = len
  overSub : 0 < j → overSub = true
  turn : t < taskCnt → t = j * len
  share : ∀ (i : Nat) n, bs[i]? = some n → n.tasks = roundRobinShare len t i

theorem roundRobinInv_round {len t : Nat} {bs : List Node} (hlen : 0 < len) (ht : t < taskCnt)
    (h : RoundRobinInv len taskCnt j overSub t bs) :
    RoundRobinInv len taskCnt (j + 1)
        (overSub || !(planeRound 0 taskCnt 1 j overSub t bs).1.room)
        (planeRound 0 taskCnt 1 j overSub t bs).1.item
        (planeRound 0 taskCnt 1 j overSub t bs).2 ∧
      t < (planeRound 0 taskCnt 1 j overSub t bs).1.item := by
  obtain ⟨hover, hitem, hget⟩ := planeRound_one h.overSub h.le
  rw [h.length_eq] at hitem
  have hturn := h.turn ht
  have hnext : (j + 1) * len = j * len + len := succ_mul j len
  refine ⟨⟨by omega, ?_, fun _ => hover, fun hlt => by omega, fun i n' hn' => ?_⟩, by omega⟩
  · rw [(planeRound_deal 1 j overSub t bs).length_eq, h.length_eq]
  · rw [hget, Option.map_eq_some_iff] at hn'
    obtain ⟨n, hn, rfl⟩ := hn'
    have hi : i < len := by
      rw [← h.length_eq]
      exact (List.getElem?_eq_some_iff.mp hn).1
    have hshare := h.share i n hn
    rw [hturn, roundRobinShare_mul hi] at hshare
    rw [roundRobinShare_turn (j := j) hi (by omega) (by omega)]
    have hiff : j * len + i < (planeRound 0 taskCnt 1 j overSub t bs).1.item ↔ t + i < taskCnt := by
      omega
    simp only [hiff]
    split
    · rw [addTask_tasks, hshare]
    · exact hshare

/-- With planes of one task, every node gets its round robin share. -/
theorem planeCount_one_spec (taskCnt : Nat) (hcpus : cpus ≠ []) :
    ∃ u nodes, (∀ fuel, taskCnt ≤ fuel →
        rounds taskCnt (planeRound 0 taskCnt 1) fuel 0 false 0 (cpus.map Node.idle)
          = some (u, nodes)) ∧
      ∀ (i : Nat) n, nodes[i]? = some n → n.tasks = roundRobinShare cpus.length taskCnt i := by
  have hlen : 0 < cpus.length := length_pos_of_ne_nil hcpus
  obtain ⟨_, _, u, nodes, hu, hinv, hrun⟩ := Lib.Dealing.rounds_total
    taskCnt (planeRound 0 taskCnt 1) (RoundRobinInv cpus.length taskCnt)
    (fun _ t => taskCnt - t)
    (by
      intro j overSub t bs ht hinv
      obtain ⟨hinv', hmore⟩ := roundRobinInv_round hlen ht hinv
      exact ⟨hinv', by omega⟩)
    0 false 0 (cpus.map Node.idle)
    ⟨Nat.zero_le _, length_map _, fun h => absurd h (Nat.lt_irrefl 0),
      fun _ => (Nat.zero_mul _).symm, fun i n hn => by
        rw [getElem?_map, Option.map_eq_some_iff] at hn
        obtain ⟨c, hc, rfl⟩ := hn
        have hi := (List.getElem?_eq_some_iff.mp hc).1
        have hshare := roundRobinShare_mul hi 0
        rw [Nat.zero_mul] at hshare
        exact hshare.symm⟩
  refine ⟨u, nodes, fun fuel hfuel => hrun fuel hfuel, ?_⟩
  have hend : u = taskCnt := Nat.le_antisymm hinv.le hu
  rw [← hend]
  exact hinv.share

end Slurm.StepLayout
