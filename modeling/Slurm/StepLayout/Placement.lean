import Slurm.StepLayout.Counting

/-!
# A task layout is a placement

`IsPlacement` says what a layout is for: every task id on exactly one node, the
counts equal to the lengths of the id arrays, and the ids of a node increasing.

* `taskLayoutBlock_spec`, `taskLayoutCyclic_spec`, `taskLayoutPlane_spec`: the
  layouts end in a placement, with counters that have no bound.
* `taskLayoutPlane_one_spec`: a plane of one task ends in a placement too, and
  keeps to the CPUs when the round robin shares do.
* `taskLayoutBlock_congr`, `taskLayoutCyclic_congr`, `taskLayoutPlane_congr`: as
  long as no more than 65535 tasks land on a node, a layout that counts in a
  `uint16_t` is the one without a bound.
-/

namespace Slurm.StepLayout

open List

open Lib.Dealing (Turn Hand sweep rounds Deal Agree)

variable {taskCnt : Nat}
variable {nodes bs : List Node} {fits : Prop} {t planeSize u fuel : Nat} {n : Node}

/-- Every task is on one node, and the nodes count their tasks. -/
structure IsPlacement (cpus : List Nat) (taskCnt : Nat) (nodes : List Node) : Prop where
  cpus_eq : nodes.map Node.cpus = cpus
  every_task : ((nodes.map Node.tids).flatten).Perm (List.range taskCnt)
  count : ∀ n ∈ nodes, n.tasks = n.tids.length
  increasing : ∀ n ∈ nodes, n.tids.Pairwise (· < ·)

/-! ## Task ids of a block layout -/

theorem distributeBlock_cpus (start : Nat) (nodes : List Node) :
    (distributeBlock start nodes).map Node.cpus = nodes.map Node.cpus := by
  induction nodes generalizing start with
  | nil => rfl
  | cons n nodes ih => rw [distributeBlock, map_cons, map_cons, ih]

theorem distributeBlock_tids (start : Nat) (nodes : List Node) :
    ((distributeBlock start nodes).map Node.tids).flatten
      = List.range' start (totalTasks nodes) := by
  induction nodes generalizing start with
  | nil => rfl
  | cons n nodes ih =>
    have htotal : totalTasks (n :: nodes) = n.tasks + totalTasks nodes := rfl
    rw [distributeBlock, map_cons, flatten_cons, ih, htotal, range'_append_1]

/-- A node after the ids are handed out keeps its counts and has consecutive ids. -/
theorem mem_distributeBlock {start : Nat} {n' : Node} (h : n' ∈ distributeBlock start nodes) :
    ∃ n ∈ nodes, ∃ s, n' = { n with tids := List.range' s n.tasks } := by
  induction nodes generalizing start with
  | nil => simp [distributeBlock] at h
  | cons n nodes ih =>
    rw [distributeBlock] at h
    rcases List.mem_cons.mp h with rfl | h
    · exact ⟨n, mem_cons_self, start, rfl⟩
    · obtain ⟨m, hm, s, heq⟩ := ih h
      exact ⟨m, mem_cons_of_mem _ hm, s, heq⟩

theorem isPlacement_distributeBlock {cpus : List Nat} (h : Counted cpus taskCnt fits nodes) :
    IsPlacement cpus taskCnt (distributeBlock 0 nodes) ∧
      (fits → ∀ n ∈ distributeBlock 0 nodes, n.tasks ≤ n.cpus) := by
  refine ⟨⟨?_, ?_, fun n' hn' => ?_, fun n' hn' => ?_⟩, fun hf n' hn' => ?_⟩
  · rw [distributeBlock_cpus, h.cpus_eq]
  · rw [distributeBlock_tids, h.total, range_eq_range']
  all_goals obtain ⟨n, hn, s, rfl⟩ := mem_distributeBlock hn'
  · exact length_range'.symm
  · exact pairwise_lt_range'
  · exact h.le_cpus hf n hn

/-! ## Task ids of a plane layout -/

theorem forall_eq_of_sum_le {f g : Node → Nat} (hle : ∀ n ∈ nodes, f n ≤ g n)
    (hsum : (nodes.map g).sum ≤ (nodes.map f).sum) : ∀ n ∈ nodes, f n = g n := by
  induction nodes with
  | nil => simp
  | cons n nodes ih =>
    have hrest : (nodes.map f).sum ≤ (nodes.map g).sum :=
      sum_le_sum fun m hm => hle m (mem_cons_of_mem _ hm)
    have hn := hle n mem_cons_self
    simp only [map_cons, sum_cons] at hsum
    intro m hm
    rcases List.mem_cons.mp hm with rfl | hm
    · omega
    · exact ih (fun c hc => hle c (mem_cons_of_mem _ hc)) (by omega) m hm

/-- The ids a node has got so far. -/
structure IdsSoFar (t : Nat) (n : Node) : Prop where
  le_tasks : n.tids.length ≤ n.tasks
  increasing : n.tids.Pairwise (· < ·)
  below : ∀ x ∈ n.tids, x < t

theorem pairwise_lt_concat {l : List Nat} (h : l.Pairwise (· < ·)) (hlt : ∀ x ∈ l, x < t) :
    (l ++ [t]).Pairwise (· < ·) := by
  rw [pairwise_append]
  refine ⟨h, pairwise_singleton _ _, fun x hx y hy => ?_⟩
  rw [List.mem_singleton.mp hy]
  exact hlt x hx

theorem forall_lt_concat {l : List Nat} (hlt : ∀ x ∈ l, x < t) : ∀ x ∈ l ++ [t], x < t + 1 := by
  intro x hx
  rcases List.mem_append.mp hx with hx | hx
  · exact Nat.lt_succ_of_lt (hlt x hx)
  · rw [List.mem_singleton.mp hx]
    exact Nat.lt_succ_self t

theorem IdsSoFar.put (hok : (planeDistribute planeSize).accept n = true) (h : IdsSoFar t n) :
    IdsSoFar (t + 1) ((planeDistribute planeSize).put t n) where
  le_tasks := by
    have hlt : n.tids.length < n.tasks := of_decide_eq_true hok
    show (n.tids ++ [t]).length ≤ n.tasks
    rw [length_append]
    exact hlt
  increasing := pairwise_lt_concat h.increasing h.below
  below := forall_lt_concat h.below

/-- The ids of a plane layout are all handed out, to the nodes that were counted. -/
theorem planeDistribute_spec {cpus : List Nat} (h : Counted cpus taskCnt fits nodes)
    (hsize : 1 ≤ planeSize) :
    ∃ placed, (∀ fuel, taskCnt ≤ fuel →
        rounds taskCnt (fun _ _ t ns => sweep taskCnt (planeDistribute planeSize) ⟨t, false⟩ ns)
          fuel 0 false 0 nodes = some (taskCnt, placed)) ∧
      IsPlacement cpus taskCnt placed ∧ placed.map Node.tasks = nodes.map Node.tasks ∧
      placed.map Node.cpus = nodes.map Node.cpus := by
  have hsum : ∀ {ok : Node → Prop} {t : Nat} {bs : List Node},
      Deal (planeDistribute planeSize).put ok taskCnt 0 nodes t bs →
      (bs.map fun n => n.tids.length).sum = t ∧ (bs.map Node.tasks).sum = taskCnt := by
    intro ok t bs hdeal
    have hlen := hdeal.sum_size (fun n => n.tids.length) fun t n => by
      simp [planeDistribute]
    have hzero : (nodes.map fun n => n.tids.length).sum = 0 := by
      refine sum_eq_zero fun x hx => ?_
      obtain ⟨n, hn, rfl⟩ := List.mem_map.mp hx
      rw [h.tids_nil n hn, length_nil]
    have htasks := hdeal.map_eq (f := Node.tasks) fun _ _ => rfl
    rw [htasks]
    exact ⟨by omega, h.total⟩
  obtain ⟨_, _, u, placed, hu, ⟨hdeal, hids⟩, hrun⟩ := Lib.Dealing.rounds_total
    taskCnt (fun _ _ t ns => sweep taskCnt (planeDistribute planeSize) ⟨t, false⟩ ns)
    (fun _ _ t bs => Deal (planeDistribute planeSize).put
        (fun n => (planeDistribute planeSize).accept n = true) taskCnt 0 nodes t bs ∧
      ∀ n ∈ bs, IdsSoFar t n)
    (fun _ t => taskCnt - t)
    (by
      intro j overSub t bs ht ⟨hdeal, hids⟩
      have hstep := Lib.Dealing.sweep_deal taskCnt (planeDistribute planeSize) ⟨t, false⟩ bs
      have hids' := hstep.forall_mem (P := IdsSoFar) (fun t n hok hn => IdsSoFar.put hok hn)
        (fun t n hn => ⟨hn.le_tasks, hn.increasing, fun x hx => Nat.lt_succ_of_lt (hn.below x hx)⟩)
        hids
      have hlack : ∃ n ∈ bs, (planeDistribute planeSize).accept n = true ∧
          0 < (planeDistribute planeSize).turns n := by
        by_contra hnone
        have hfull : ∀ n ∈ bs, n.tids.length = n.tasks := by
          intro n hn
          by_contra hne
          refine hnone ⟨n, hn, ?_, hsize⟩
          have hle := (hids n hn).le_tasks
          simp only [planeDistribute, decide_eq_true_eq]
          omega
        have hsums := hsum hdeal
        rw [map_congr_left hfull] at hsums
        omega
      have hmore := lt_of_sweep ht hlack
      exact ⟨⟨hdeal.trans hstep, hids'⟩, by omega⟩)
    0 false 0 nodes
    ⟨.nothing, fun n hn => by
      have hnil := h.tids_nil n hn
      exact ⟨by simp [hnil], by simp [hnil], by simp [hnil]⟩⟩
  have hend : u = taskCnt := Nat.le_antisymm (hdeal.le_limit (Nat.zero_le _)) hu
  subst hend
  have htasks := hdeal.map_eq (f := Node.tasks) fun _ _ => rfl
  have hcpus := hdeal.map_eq (f := Node.cpus) fun _ _ => rfl
  refine ⟨placed, fun fuel hfuel => hrun fuel (by omega), ⟨?_, ?_, ?_, ?_⟩, htasks, hcpus⟩
  · rw [hcpus, h.cpus_eq]
  · have hperm := hdeal.perm Node.tids fun _ _ _ => rfl
    have hnil : (nodes.map Node.tids).flatten = [] := by
      rw [flatten_eq_nil_iff]
      intro l hl
      obtain ⟨n, hn, rfl⟩ := List.mem_map.mp hl
      exact h.tids_nil n hn
    rwa [hnil, nil_append, Nat.sub_zero, ← range_eq_range'] at hperm
  · have hsums := hsum hdeal
    exact fun n hn => (forall_eq_of_sum_le (fun m hm => (hids m hm).le_tasks) (by omega) n hn).symm
  · exact fun n hn => (hids n hn).increasing

/-! ## Cyclic layouts -/

/-- The room of a node: its CPUs and the over-subscription it is allowed. -/
def cyclicCap (m : Nat) (n : Node) : Nat := n.cpus + m

/-- The over-subscription is enough for all the tasks. -/
theorem le_cyclic_capacity (taskCnt : Nat) (hnodes : nodes ≠ []) :
    taskCnt ≤ totalCpus nodes + nodes.length * maxOverSubscribe taskCnt nodes := by
  unfold maxOverSubscribe
  split
  · have hlen := length_pos_of_ne_nil hnodes
    have hdiv := Nat.lt_mul_div_succ (taskCnt - totalCpus nodes + (nodes.length - 1)) hlen
    rw [Nat.mul_add, Nat.mul_one] at hdiv
    omega
  · omega

/-- What a cyclic layout keeps.  `m` is `max_over_subscribe`. -/
structure CyclicInv (nodes : List Node) (taskCnt m j : Nat) (overSub : Bool) (t : Nat)
    (bs : List Node) : Prop where
  deal : Deal (addTaskId 0) (fun _ => True) taskCnt 0 nodes t bs
  level : t < taskCnt → ∀ n ∈ bs, n.tasks = min j (cyclicCap m n)
  le : ∀ n ∈ bs, n.tasks ≤ cyclicCap m n
  overSub : m = 0 ∨ overSub = true

theorem cyclicTurn_accept {m j : Nat} {overSub : Bool} (hover : m = 0 ∨ overSub = true) (n : Node) :
    (cyclicTurn 0 m j overSub).accept n = true ↔ j < cyclicCap m n := by
  simp only [cyclicTurn, cyclicCap, Bool.or_eq_true, Bool.and_eq_true, decide_eq_true_eq]
  rcases hover with rfl | rfl
  · simp
  · simp only [true_and]
    omega

theorem cyclicInv_round {m : Nat} (hcap : taskCnt ≤ totalCpus nodes + nodes.length * m)
    (hidle : totalTasks nodes = 0) {j : Nat} {overSub : Bool} (ht : t < taskCnt)
    (h : CyclicInv nodes taskCnt m j overSub t bs) :
    CyclicInv nodes taskCnt m (j + 1)
        (overSub || !(sweep taskCnt (cyclicTurn 0 m j overSub) ⟨t, false⟩ bs).1.room)
        (sweep taskCnt (cyclicTurn 0 m j overSub) ⟨t, false⟩ bs).1.item
        (sweep taskCnt (cyclicTurn 0 m j overSub) ⟨t, false⟩ bs).2 ∧
      t < (sweep taskCnt (cyclicTurn 0 m j overSub) ⟨t, false⟩ bs).1.item := by
  have hacc := cyclicTurn_accept (j := j) h.overSub
  have hcpus := h.deal.map_eq (addTaskId_cpus 0)
  have htotal := h.deal.sum_size Node.tasks addTaskId_tasks
  refine ⟨⟨?_, fun hlt => ?_, ?_, ?_⟩, ?_⟩
  · exact h.deal.trans ((Lib.Dealing.sweep_deal taskCnt (cyclicTurn 0 m j overSub)
      ⟨t, false⟩ bs).weaken fun _ _ => trivial)
  · exact Lib.Dealing.sweep_level taskCnt (cyclicTurn 0 m j overSub) j (fun _ => rfl)
      addTaskId_tasks (fun _ _ => rfl) hacc (h := ⟨t, false⟩) (h.level ht) hlt
  · exact Lib.Dealing.sweep_level_le taskCnt (cyclicTurn 0 m j overSub) j (fun _ => rfl)
      addTaskId_tasks (fun _ _ => rfl) hacc (h := ⟨t, false⟩) (h.level ht)
  · rcases h.overSub with h0 | hover
    · exact Or.inl h0
    · exact Or.inr (by rw [hover, Bool.true_or])
  · refine lt_of_sweep ht ?_
    by_contra hnone
    -- Nobody has room, so everything is given away, and that is all the tasks.
    have hfull : ∀ n ∈ bs, n.tasks = n.cpus + m := by
      intro n hn
      have hj : ¬ j < cyclicCap m n := fun hj => hnone ⟨n, hn, (hacc n).mpr hj, Nat.one_pos⟩
      have hlev := h.level ht n hn
      unfold cyclicCap at hj hlev
      omega
    have hsum := totalTasks_of_add hfull
    have hcpus' : totalCpus bs = totalCpus nodes := congrArg List.sum hcpus
    rw [hcpus', h.deal.length_eq] at hsum
    unfold totalTasks at hsum hidle
    omega

/-- The ids of a node of a cyclic layout. -/
structure CyclicIds (t : Nat) (n : Node) : Prop where
  count : n.tasks = n.tids.length
  increasing : n.tids.Pairwise (· < ·)
  below : ∀ x ∈ n.tids, x < t

theorem addTaskId_tids (h : n.tasks = n.tids.length) (w : Nat) :
    (addTaskId w t n).tids = n.tids ++ [t] := by
  rw [addTaskId, h, take_length]

theorem CyclicIds.put (h : CyclicIds t n) :
    CyclicIds (t + 1) (addTaskId 0 t n) where
  count := by rw [addTaskId_tids h.count, addTaskId_tasks, length_append, h.count]; rfl
  increasing := by
    rw [addTaskId_tids h.count]
    exact pairwise_lt_concat h.increasing h.below
  below := by
    rw [addTaskId_tids h.count]
    exact forall_lt_concat h.below

/-- A cyclic deal of all the tasks is a placement. -/
theorem isPlacement_of_cyclic {cpus : List Nat}
    (h : Deal (addTaskId 0) (fun _ => True) taskCnt 0 (cpus.map Node.idle) taskCnt bs) :
    IsPlacement cpus taskCnt bs := by
  have hids : ∀ n ∈ bs, CyclicIds taskCnt n := by
    refine h.forall_mem (fun t n _ hn => hn.put) (fun t n hn => ?_) (forall_idle fun c _ => ?_)
    · exact ⟨hn.count, hn.increasing, fun x hx => Nat.lt_succ_of_lt (hn.below x hx)⟩
    · exact ⟨rfl, List.Pairwise.nil, fun x hx => absurd hx not_mem_nil⟩
  have hcount := h.with_inv (P := fun n => n.tasks = n.tids.length)
    (fun t n _ hn => by rw [addTaskId_tids hn, addTaskId_tasks, length_append, hn]; rfl)
    (forall_idle fun _ _ => rfl)
  refine ⟨?_, ?_, fun n hn => (hids n hn).count, fun n hn => (hids n hn).increasing⟩
  · rw [h.map_eq (addTaskId_cpus 0), map_map]
    exact map_id cpus
  · have hperm := hcount.perm Node.tids fun t n hn => addTaskId_tids hn.2 0
    have hnil : ((cpus.map Node.idle).map Node.tids).flatten = [] := by
      rw [flatten_eq_nil_iff]
      intro l hl
      obtain ⟨n, hn, rfl⟩ := List.mem_map.mp hl
      exact forall_idle (P := fun n => n.tids = []) (fun _ _ => rfl) n hn
    rwa [hnil, nil_append, Nat.sub_zero, ← range_eq_range'] at hperm

/-! ## The layouts, with counters that have no bound -/

/-- A layout that ends in a placement, and keeps to the CPUs when `fits` holds. -/
def LaysOut (cpus : List Nat) (taskCnt : Nat) (fits : Prop) (layout : Nat → Outcome) : Prop :=
  ∃ bound nodes, (∀ fuel, bound ≤ fuel → layout fuel = .success nodes) ∧
    IsPlacement cpus taskCnt nodes ∧ (fits → ∀ n ∈ nodes, n.tasks ≤ n.cpus)

variable {cpus : List Nat}

theorem taskLayoutBlock_spec (hcpus : cpus ≠ []) (hpos : ∀ c ∈ cpus, 1 ≤ c)
    (selectTypeParam taskDist : Nat) :
    LaysOut cpus taskCnt (taskCnt ≤ cpus.sum) fun fuel =>
      taskLayoutBlock 0 taskCnt selectTypeParam taskDist fuel (cpus.map Node.idle) := by
  unfold taskLayoutBlock
  cases packNodes selectTypeParam taskDist with
  | true =>
    obtain ⟨u, nodes, hrun, -, hcounted⟩ := countPacked_spec taskCnt hcpus
    obtain ⟨hplace, hfits⟩ := isPlacement_distributeBlock hcounted
    refine ⟨taskCnt, _, fun fuel hfuel => ?_, hplace, hfits⟩
    simp [hrun fuel hfuel]
  | false =>
    obtain ⟨u, nodes, hrun, -, hcounted⟩ := countUnpacked_spec taskCnt hcpus hpos
    obtain ⟨hplace, hfits⟩ := isPlacement_distributeBlock hcounted
    refine ⟨taskCnt, _, fun fuel hfuel => ?_, hplace, hfits⟩
    simp [hrun fuel hfuel]

theorem taskLayoutCyclic_spec (hcpus : cpus ≠ []) :
    LaysOut cpus taskCnt (taskCnt ≤ cpus.sum) fun fuel =>
      taskLayoutCyclic 0 taskCnt fuel (cpus.map Node.idle) := by
  have hnodes : cpus.map Node.idle ≠ [] := by simpa using hcpus
  obtain ⟨m, hm⟩ : ∃ m, m = maxOverSubscribe taskCnt (cpus.map Node.idle) := ⟨_, rfl⟩
  have hcap := le_cyclic_capacity taskCnt hnodes
  rw [← hm] at hcap
  have hover : m = 0 ∨ decide (totalCpus (cpus.map Node.idle) < taskCnt) = true := by
    rw [hm, maxOverSubscribe]
    by_cases hlt : totalCpus (cpus.map Node.idle) < taskCnt
    · exact Or.inr (decide_eq_true hlt)
    · exact Or.inl (if_neg hlt)
  obtain ⟨_, _, u, nodes, hu, hinv, hrun⟩ := Lib.Dealing.rounds_total
    taskCnt (fun j overSub t ns => sweep taskCnt (cyclicTurn 0 m j overSub) ⟨t, false⟩ ns)
    (CyclicInv (cpus.map Node.idle) taskCnt m) (fun _ t => taskCnt - t)
    (by
      intro j overSub t bs ht hinv
      obtain ⟨hinv', hmore⟩ := cyclicInv_round hcap (totalTasks_idle cpus) ht hinv
      exact ⟨hinv', by omega⟩)
    0 (decide (totalCpus (cpus.map Node.idle) < taskCnt)) 0 (cpus.map Node.idle)
    ⟨.nothing, fun _ => forall_idle fun _ _ => (Nat.zero_min _).symm,
      forall_idle fun _ _ => Nat.zero_le _, hover⟩
  have hend : u = taskCnt := Nat.le_antisymm (hinv.deal.le_limit (Nat.zero_le _)) hu
  subst hend
  refine ⟨u, nodes, fun fuel hfuel => ?_, isPlacement_of_cyclic hinv.deal, fun hsum n hn => ?_⟩
  · show taskLayoutCyclic 0 u fuel (cpus.map Node.idle) = .success nodes
    simp only [taskLayoutCyclic, ← hm, hrun fuel (by omega)]
  · have hle := hinv.le n hn
    have hm0 : m = 0 := by
      rw [hm, maxOverSubscribe, totalCpus_idle, if_neg (by omega)]
    rwa [cyclicCap, hm0] at hle

/-- From a count that ends to a plane layout that ends. -/
theorem taskLayoutPlane_of_counted (hsize : 1 ≤ planeSize) {bound : Nat} {counted : List Node}
    (hcounted : Counted cpus taskCnt fits counted) (hrun : ∀ fuel, bound ≤ fuel →
      rounds taskCnt (planeRound 0 taskCnt planeSize) fuel 0 false 0 (cpus.map Node.idle)
        = some (u, counted)) :
    ∃ nodes, (∀ fuel, bound + taskCnt ≤ fuel →
        taskLayoutPlane 0 taskCnt planeSize fuel (cpus.map Node.idle) = .success nodes) ∧
      IsPlacement cpus taskCnt nodes ∧ nodes.map Node.tasks = counted.map Node.tasks ∧
      nodes.map Node.cpus = counted.map Node.cpus := by
  obtain ⟨placed, hplaced, hplace, htasks, hcpus⟩ := planeDistribute_spec hcounted hsize
  refine ⟨placed, fun fuel hfuel => ?_, hplace, htasks, hcpus⟩
  have hne : planeSize ≠ 0 := by omega
  simp only [taskLayoutPlane, if_neg hne, hrun fuel (by omega), hplaced fuel (by omega), if_true]

/-- A bound on every node, read off the lists of counts and CPUs. -/
theorem tasks_le_cpus_of_map_eq {counted : List Node}
    (htasks : nodes.map Node.tasks = counted.map Node.tasks)
    (hcpus : nodes.map Node.cpus = counted.map Node.cpus) (hle : ∀ n ∈ counted, n.tasks ≤ n.cpus) :
    ∀ n ∈ nodes, n.tasks ≤ n.cpus := by
  intro n hn
  obtain ⟨i, hi⟩ := mem_iff_getElem?.mp hn
  have ht := congrArg (fun l => l[i]?) htasks
  have hc := congrArg (fun l => l[i]?) hcpus
  simp only [getElem?_map, hi, Option.map_some] at ht hc
  rw [eq_comm, Option.map_eq_some_iff] at ht hc
  obtain ⟨m, hm, htm⟩ := ht
  obtain ⟨m', hm', hcm⟩ := hc
  rw [hm, Option.some.injEq] at hm'
  subst hm'
  rw [← htm, ← hcm]
  exact hle m (mem_of_getElem? hm)

theorem taskLayoutPlane_spec (hcpus : cpus ≠ []) (hpos : ∀ c ∈ cpus, 1 ≤ c)
    (hsize : 1 ≤ planeSize) :
    LaysOut cpus taskCnt (taskCnt ≤ cpus.sum ∧ planeSize ≠ 1) fun fuel =>
      taskLayoutPlane 0 taskCnt planeSize fuel (cpus.map Node.idle) := by
  obtain ⟨u, counted, hrun, -, hcounted⟩ :=
    planeCount_spec taskCnt hcpus hpos hsize
  obtain ⟨nodes, hlayout, hplace, htasks, hcpus'⟩ :=
    taskLayoutPlane_of_counted hsize hcounted hrun
  exact ⟨_, nodes, hlayout, hplace, fun hf =>
    tasks_le_cpus_of_map_eq htasks hcpus' (hcounted.le_cpus hf)⟩

/-- The round robin shares respect the CPUs, or there are more tasks than CPUs. -/
def OneTaskPlanesFit (cpus : List Nat) (taskCnt : Nat) : Prop :=
  cpus.sum < taskCnt ∨
    ∀ i (h : i < cpus.length), roundRobinShare cpus.length taskCnt i ≤ cpus[i]

/-- Planes of one task respect the CPUs when the round robin shares do. -/
theorem taskLayoutPlane_one_spec (taskCnt : Nat) (hcpus : cpus ≠ []) (hpos : ∀ c ∈ cpus, 1 ≤ c) :
    ∃ bound nodes, (∀ fuel, bound ≤ fuel →
        taskLayoutPlane 0 taskCnt 1 fuel (cpus.map Node.idle) = .success nodes) ∧
      IsPlacement cpus taskCnt nodes ∧
      ((taskCnt ≤ cpus.sum → ∀ n ∈ nodes, n.tasks ≤ n.cpus) ↔ OneTaskPlanesFit cpus taskCnt) := by
  obtain ⟨u, counted, hrun, -, hcounted⟩ :=
    planeCount_spec taskCnt hcpus hpos (Nat.le_refl 1)
  obtain ⟨u', counted', hrun', hshare⟩ := planeCount_one_spec taskCnt hcpus
  have hsame := hrun (2 * taskCnt + 1) (Nat.le_refl _)
  rw [hrun' (2 * taskCnt + 1) (by omega)] at hsame
  cases hsame
  obtain ⟨nodes, hlayout, hplace, htasks, hcpus'⟩ :=
    taskLayoutPlane_of_counted (Nat.le_refl 1) hcounted hrun
  have hnode : ∀ (i : Nat) n, nodes[i]? = some n →
      n.tasks = roundRobinShare cpus.length taskCnt i ∧ cpus[i]? = some n.cpus := by
    intro i n hi
    have ht := congrArg (fun l => l[i]?) htasks
    have hc := congrArg (fun l => l[i]?) hplace.cpus_eq
    simp only [getElem?_map, hi, Option.map_some] at ht hc
    rw [eq_comm, Option.map_eq_some_iff] at ht
    obtain ⟨m, hm, htm⟩ := ht
    exact ⟨by rw [← htm]; exact hshare i m hm, hc.symm⟩
  refine ⟨_, nodes, hlayout, hplace, ?_⟩
  unfold OneTaskPlanesFit
  constructor
  · intro hfits
    by_cases hsum : cpus.sum < taskCnt
    · exact Or.inl hsum
    · refine Or.inr fun i hi => ?_
      have hlen : i < nodes.length := by
        have hlen' := congrArg List.length hplace.cpus_eq
        rw [length_map] at hlen'
        omega
      obtain ⟨htask, hcpu⟩ := hnode i nodes[i] (getElem?_eq_getElem hlen)
      have hle := hfits (Nat.le_of_not_lt hsum) nodes[i] (getElem_mem hlen)
      rw [getElem?_eq_getElem hi, Option.some.injEq] at hcpu
      rw [hcpu, ← htask]
      exact hle
  · intro hfit hsum n hn
    rcases hfit with hlt | hfit
    · omega
    · obtain ⟨i, hi⟩ := mem_iff_getElem?.mp hn
      obtain ⟨htask, hcpu⟩ := hnode i n hi
      obtain ⟨hlen, hcpu⟩ := List.getElem?_eq_some_iff.mp hcpu
      rw [htask, ← hcpu]
      exact hfit i hlen

/-! ## Counters of 16 bits -/

/-- No node has more tasks than the counter can hold. -/
def InRange (nodes : List Node) : Prop := ∀ n ∈ nodes, n.tasks ≤ taskCounter - 1

instance (nodes : List Node) : Decidable (InRange nodes) :=
  inferInstanceAs (Decidable (∀ n ∈ nodes, n.tasks ≤ taskCounter - 1))

theorem addTask_congr (t : Nat) (n : Node) (h : (addTask 0 t n).tasks ≤ taskCounter - 1) :
    addTask taskCounter t n = addTask 0 t n := by
  rw [addTask_tasks] at h
  simp only [addTask, Nat.mod_zero]
  rw [Nat.mod_eq_of_lt (by omega)]

theorem addTaskId_congr (t : Nat) (n : Node) (h : (addTaskId 0 t n).tasks ≤ taskCounter - 1) :
    addTaskId taskCounter t n = addTaskId 0 t n := by
  rw [addTaskId_tasks] at h
  simp only [addTaskId, Nat.mod_zero]
  rw [Nat.mod_eq_of_lt (by omega)]

theorem agree_packFirst : Agree Node.tasks (taskCounter - 1) (packFirst 0) (packFirst taskCounter) :=
  ⟨addTask_tasks, rfl, rfl, rfl, addTask_congr⟩

theorem agree_packFill : Agree Node.tasks (taskCounter - 1) (packFill 0) (packFill taskCounter) :=
  ⟨addTask_tasks, rfl, rfl, rfl, addTask_congr⟩

theorem agree_packSpread :
    Agree Node.tasks (taskCounter - 1) (packSpread 0) (packSpread taskCounter) :=
  ⟨addTask_tasks, rfl, rfl, rfl, addTask_congr⟩

theorem agree_fakeCyclic (j : Nat) (overSub : Bool) :
    Agree Node.tasks (taskCounter - 1) (fakeCyclic 0 j overSub) (fakeCyclic taskCounter j overSub) :=
  ⟨addTask_tasks, rfl, rfl, rfl, addTask_congr⟩

theorem agree_cyclicTurn (m j : Nat) (overSub : Bool) :
    Agree Node.tasks (taskCounter - 1) (cyclicTurn 0 m j overSub) (cyclicTurn taskCounter m j overSub) :=
  ⟨addTaskId_tasks, rfl, rfl, rfl, addTaskId_congr⟩

theorem agree_planeFirst :
    Agree Node.tasks (taskCounter - 1) (planeFirst 0) (planeFirst taskCounter) :=
  ⟨addTask_tasks, rfl, rfl, rfl, addTask_congr⟩

theorem agree_planeBlock (planeSize start : Nat) (overSub : Bool) :
    Agree Node.tasks (taskCounter - 1) (planeBlock 0 planeSize start overSub)
      (planeBlock taskCounter planeSize start overSub) :=
  ⟨addTask_tasks, rfl, rfl, rfl, addTask_congr⟩

theorem planeRound_congr (planeSize j : Nat) (overSub : Bool) (t : Nat) (bs : List Node)
    (h : InRange (planeRound 0 taskCnt planeSize j overSub t bs).2) :
    planeRound taskCounter taskCnt planeSize j overSub t bs
      = planeRound 0 taskCnt planeSize j overSub t bs := by
  unfold planeRound at h ⊢
  split
  · rename_i hj
    rw [if_pos hj] at h
    have hfirst : InRange (sweep taskCnt (planeFirst 0) ⟨t, false⟩ bs).2 :=
      (Lib.Dealing.sweep_deal taskCnt (planeBlock 0 planeSize 1 overSub) _ _).size_le addTask_tasks h
    simp only [Lib.Dealing.sweep_congr agree_planeFirst ⟨t, false⟩ bs hfirst]
    exact Lib.Dealing.sweep_congr (agree_planeBlock planeSize 1 overSub) _ _ h
  · rename_i hj
    rw [if_neg hj] at h
    exact Lib.Dealing.sweep_congr (agree_planeBlock planeSize 0 overSub) _ _ h

theorem countPacked_congr (h : countPacked 0 taskCnt fuel nodes = some (u, bs)) (hm : InRange bs) :
    countPacked taskCounter taskCnt fuel nodes = some (u, bs) := by
  unfold countPacked at h ⊢
  have hstep : ∀ j (overSub : Bool) t bs, Deal (addTask 0) (fun _ => True) taskCnt t bs
      (sweep taskCnt (packSpread 0) ⟨t, false⟩ bs).1.item
      (sweep taskCnt (packSpread 0) ⟨t, false⟩ bs).2 := fun (_ : Nat) _ t bs =>
    (Lib.Dealing.sweep_deal taskCnt (packSpread 0) ⟨t, false⟩ bs).weaken fun _ _ => trivial
  have hfill := (Lib.Dealing.rounds_deal hstep h).size_le addTask_tasks hm
  have hfirst := (Lib.Dealing.sweep_deal taskCnt (packFill 0) _ _).size_le addTask_tasks hfill
  rw [Lib.Dealing.sweep_congr agree_packFirst _ _ hfirst]
  simp only [Lib.Dealing.sweep_congr agree_packFill _ _ hfill]
  exact Lib.Dealing.rounds_congr addTask_tasks hstep
    (fun _ _ t bs hbs => Lib.Dealing.sweep_congr agree_packSpread ⟨t, false⟩ bs hbs) h hm

theorem countUnpacked_congr (h : countUnpacked 0 taskCnt fuel nodes = some (u, bs))
    (hm : InRange bs) : countUnpacked taskCounter taskCnt fuel nodes = some (u, bs) :=
  Lib.Dealing.rounds_congr addTask_tasks
    (fun j overSub t bs => (Lib.Dealing.sweep_deal taskCnt (fakeCyclic 0 j overSub) ⟨t, false⟩ bs).weaken
      fun _ _ => trivial)
    (fun j overSub t bs hbs => Lib.Dealing.sweep_congr (agree_fakeCyclic j overSub) ⟨t, false⟩ bs hbs) h hm

theorem inRange_distributeBlock {start : Nat} (h : InRange (distributeBlock start nodes)) :
    InRange nodes := by
  induction nodes generalizing start with
  | nil => exact h
  | cons n nodes ih =>
    intro m hm
    rcases List.mem_cons.mp hm with rfl | hm
    · exact h { m with tids := List.range' start m.tasks } mem_cons_self
    · exact ih (fun c hc => h c (mem_cons_of_mem _ hc)) m hm

theorem taskLayoutBlock_congr {sel dist : Nat}
    (h : taskLayoutBlock 0 taskCnt sel dist fuel nodes = .success bs) (hm : InRange bs) :
    taskLayoutBlock taskCounter taskCnt sel dist fuel nodes = .success bs := by
  unfold taskLayoutBlock at h ⊢
  dsimp only at h ⊢
  split at h
  · cases h
  · rename_i r hr
    cases h
    have hrange := inRange_distributeBlock hm
    cases hpack : packNodes sel dist with
    | true =>
      rw [if_pos hpack] at hr
      simp [countPacked_congr hr hrange]
    | false =>
      rw [if_neg (by simp [hpack])] at hr
      simp [countUnpacked_congr hr hrange]

theorem taskLayoutCyclic_congr (h : taskLayoutCyclic 0 taskCnt fuel nodes = .success bs)
    (hm : InRange bs) : taskLayoutCyclic taskCounter taskCnt fuel nodes = .success bs := by
  unfold taskLayoutCyclic at h ⊢
  dsimp only at h ⊢
  split at h
  · cases h
  · rename_i r hr
    cases h
    rw [Lib.Dealing.rounds_congr addTaskId_tasks
      (fun j overSub t bs => (Lib.Dealing.sweep_deal taskCnt
        (cyclicTurn 0 (maxOverSubscribe taskCnt nodes) j overSub) ⟨t, false⟩ bs).weaken
          fun _ _ => trivial)
      (fun j overSub t bs hbs => Lib.Dealing.sweep_congr (agree_cyclicTurn _ j overSub) ⟨t, false⟩ bs hbs)
      hr hm]

theorem taskLayoutPlane_congr (h : taskLayoutPlane 0 taskCnt planeSize fuel nodes = .success bs)
    (hm : InRange bs) : taskLayoutPlane taskCounter taskCnt planeSize fuel nodes = .success bs := by
  unfold taskLayoutPlane at h ⊢
  split at h
  · cases h
  · rename_i hsize
    rw [if_neg hsize]
    split at h
    · cases h
    · rename_i counted hcounted
      split at h
      · cases h
      · rename_i placed hplaced
        split at h
        · rename_i hcnt
          cases h
          have hdeal := Lib.Dealing.rounds_deal (fun _ _ t bs =>
            Lib.Dealing.sweep_deal taskCnt (planeDistribute planeSize) ⟨t, false⟩ bs) hplaced
          have hrange : InRange counted.2 := by
            have htasks := hdeal.map_eq (f := Node.tasks) fun _ _ => rfl
            intro n hn
            have hmem : n.tasks ∈ placed.2.map Node.tasks := by
              rw [htasks]
              exact mem_map_of_mem hn
            obtain ⟨n', hn', heq⟩ := List.mem_map.mp hmem
            rw [← heq]
            exact hm n' hn'
          rw [Lib.Dealing.rounds_congr addTask_tasks (planeRound_deal planeSize)
            (planeRound_congr planeSize) hcounted hrange]
          simp only [hplaced, if_pos hcnt]
        · cases h

end Slurm.StepLayout
