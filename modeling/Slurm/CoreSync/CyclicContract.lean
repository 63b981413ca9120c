import Slurm.CoreSync.Sockets

/-!
# Cyclic core selection keeps exactly what is needed

* `node_synced`: a node with enough cores keeps those that it needs.
* `nodes_right`: so do all nodes, one after the other.
* `cyclicContract`: the function succeeds, and keeps within the limit of tasks for each socket.
-/

namespace Slurm.CoreSync

open List Nat

variable {socks : List Sock}

/-! ## What is promised -/

/-- The first core of a node that comes after others. -/
def offset (front : List SyncNode) : Nat := (front.map SyncNode.size).sum

/-- A job that is allocated cores, with no number of tasks for each core, whose nodes have the cores
that they need. -/
structure CoreJob extends SyncJob where
  crSocket_eq : crSocket = false
  crCore_eq : crCore = true
  ntasksPerCore_eq : ntasksPerCore = infinite16
  enough : ∀ front node back, nodes = front ++ node :: back →
    node.need ≤ ones coreMap (offset front) (offset front + node.size)

/-- The CPUs that the tasks of one socket may use. -/
def SyncJob.socketLimit (job : SyncJob) : Nat := job.ntasksPerSocket * job.cpusPerTask

/-- The available cores of a socket, from the first core of its node. -/
def socketOnes (coreMap : List Bool) (c : Nat) (node : SyncNode) (s : Nat) : Nat :=
  ones coreMap (c + s * node.cores) (c + s * node.cores + node.cores)

/-- What is promised for a node that comes after others. -/
structure NodeRight (job : CoreJob) (r : SyncResult) (front : List SyncNode) (node : SyncNode) : Prop where
  exact : ones r.coreMap (offset front) (offset front + node.size) = node.need
  cpus : r.cpus[front.length]? = some (node.need * node.tpc)
  limited : job.ntasksPerSocket ≠ infinite16 → node.vpus = 1 →
    node.cpus ≤ ((List.range node.sockets).map fun s =>
      min job.socketLimit (socketOnes job.coreMap (offset front) node s)).sum →
    ∀ s < node.sockets, socketOnes r.coreMap (offset front) node s ≤ job.socketLimit

/-- What is promised of a result. -/
structure CyclicRight (job : CoreJob) (r : SyncResult) : Prop where
  success : r.success = true
  available : ∀ j, bitTest r.coreMap j = true → bitTest job.coreMap j = true
  nodes : ∀ front node back, job.nodes = front ++ node :: back → NodeRight job r front node

/-- What is promised of the function: it ends with a result that is right, and no node changes a
bit of another one. -/
structure CyclicContract (job : CoreJob) : Prop where
  right : ∃ r, cyclicSyncCoreBitmap job.toSyncJob = some r ∧ CyclicRight job r
  others : ∀ coreMap c node coreMap' cpus,
    cyclicNode job.toSyncJob coreMap c node = .synced coreMap' cpus →
    ∀ j, j < c ∨ c + node.size ≤ j → bitTest coreMap' j = bitTest coreMap j

variable {job : CoreJob} {m m' : List Bool} {c : Nat} {node : SyncNode}

theorem allocSockets_eq (job : CoreJob) : job.allocSockets = false := job.crSocket_eq

theorem allocCores_eq (job : CoreJob) : job.allocCores = true := by
  rw [SyncJob.allocCores, job.crSocket_eq, job.crCore_eq]
  rfl

/-! ## Before the rounds -/

/-- The sockets before the rounds, with the cores that have been taken by then. -/
structure Ready (m : List Bool) (c : Nat) (node : SyncNode) (h : Count) (socks : List Sock) : Prop where
  inPlace : InPlace node.cores c socks
  length : socks.length = node.sockets
  kept : (socks.map (kept m node.cores)).sum = h.coreCnt
  need : h.coreCnt + coresFor node.vpus h.cpus = node.need
  cpus_le : h.cpus ≤ node.cpus

theorem length_firstSocks (c : Nat) (node : SyncNode) : (firstSocks c node).length = node.sockets := by
  simp [firstSocks]

theorem firstSocks_kept (m : List Bool) (c : Nat) (node : SyncNode) :
    ((firstSocks c node).map (kept m node.cores)).sum = 0 := by
  refine sum_eq_zero fun x hx => ?_
  obtain ⟨s, hs, rfl⟩ := List.mem_map.mp hx
  rw [kept, (firstSocks_fresh hs).1, ones_self]

theorem firstSocks_left (m : List Bool) (c : Nat) (node : SyncNode) :
    ((firstSocks c node).map (left m)).sum = ones m c (c + node.size) := by
  have h := left_node (m := m) (firstSocks_inPlace c node) fun s hs => firstSocks_fresh hs
  rwa [length_firstSocks] at h

theorem firstSocks_ready (m : List Bool) (c : Nat) (node : SyncNode) :
    Ready m c node ⟨node.cpus, 0⟩ (firstSocks c node) :=
  ⟨firstSocks_inPlace c node, length_firstSocks c node, firstSocks_kept m c node, Nat.zero_add _, le_refl _⟩

theorem Ready.advance {h h' : Count} {socks' : List Sock} (hready : Ready m c node h socks)
    (hadv : Advance m node.vpus node.cores h socks h' socks') : Ready m c node h' socks' := by
  have hkept := hadv.kept
  have hbefore := hready.kept
  exact ⟨hready.inPlace.moved hadv.moved, hadv.moved.length_eq.symm.trans hready.length, by omega,
    hadv.need.trans hready.need, hadv.cpus_le.trans hready.cpus_le⟩

/-! ## Marked sockets -/

/-- The sockets of a node with marks. -/
def marked (socks : List Sock) (marks : List Bool) : List Sock :=
  List.zipWith (fun s avoid => { s with avoid }) socks marks

theorem marked_left {marks : List Bool} (hlen : marks.length = socks.length) (vpus : Nat) :
    ((marked socks marks).map (left m)).sum * vpus = unmarked id (cpusCnt m vpus socks) marks := by
  induction socks generalizing marks with
  | nil => simp [marked, cpusCnt, unmarked]
  | cons s rest ih =>
    cases marks with
    | nil => cases hlen
    | cons mark marks =>
      have hrest := @ih marks (Nat.succ.inj hlen)
      rw [marked] at hrest ⊢
      rw [cpusCnt] at hrest ⊢
      rw [map_cons, unmarked_cons, ← hrest, zipWith_cons_cons, map_cons, sum_cons,
        Nat.add_mul]
      cases mark <;> simp [left]

theorem marked_cap {k limit : Nat} {socks : List Sock} {marks : List Bool}
    (hlen : marks.length = socks.length) (hfresh : ∀ s ∈ socks, s.start = s.stop - k ∧ s.avoid = false) :
    ((marked socks marks).map fun s => min limit (cap m k s)).sum =
      unmarked (min limit) (cpusCnt m 1 socks) marks := by
  induction socks generalizing marks with
  | nil => simp [marked, cpusCnt, unmarked]
  | cons s rest ih =>
    cases marks with
    | nil => cases hlen
    | cons mark marks =>
      rw [forall_mem_cons] at hfresh
      have hrest := @ih marks (Nat.succ.inj hlen) hfresh.2
      rw [marked] at hrest ⊢
      rw [cpusCnt] at hrest ⊢
      rw [map_cons, unmarked_cons, ← hrest, zipWith_cons_cons, map_cons, sum_cons]
      cases mark <;> simp [cap, hfresh.1.1]

theorem marked_ready {h : Count} {marks : List Bool} (hlen : marks.length = socks.length)
    (hready : Ready m c node h socks) : Ready m c node h (marked socks marks) := by
  have hget : ∀ (i : Nat) (s : Sock), (marked socks marks)[i]? = some s →
      ∃ s' : Sock, socks[i]? = some s' ∧ s.start = s'.start ∧ s.stop = s'.stop := by
    intro i s hs
    rw [marked, getElem?_zipWith] at hs
    cases hi : socks[i]? with
    | none => simp [hi] at hs
    | some s' =>
      cases hmark : marks[i]? with
      | none => simp [hi, hmark] at hs
      | some mark =>
        simp only [hi, hmark, Option.some.injEq] at hs
        exact ⟨s', rfl, by rw [← hs], by rw [← hs]⟩
  have hkept : (marked socks marks).map (kept m node.cores) = socks.map (kept m node.cores) := by
    refine ext_getElem? fun i => ?_
    rw [marked, getElem?_map, getElem?_map, getElem?_zipWith]
    by_cases hi : i < socks.length
    · rw [getElem?_eq_getElem hi, getElem?_eq_getElem (by omega)]
      rfl
    · rw [getElem?_eq_none (by omega)]
  refine ⟨fun i s hs => ?_, ?_, by rw [hkept]; exact hready.kept, hready.need,
    hready.cpus_le⟩
  · obtain ⟨s', hs', hstart, hstop⟩ := hget i s hs
    rw [hstart, hstop]
    exact hready.inPlace i s' hs'
  · rw [marked, length_zipWith, hlen, Nat.min_self]
    exact hready.length

/-! ## One node -/

theorem le_coresFor_mul {vpus : Nat} (hv : 0 < vpus) (cpus : Nat) : cpus ≤ coresFor vpus cpus * vpus := by
  have hmod := mod_lt (cpus + vpus - 1) hv
  have hdiv := div_add_mod' (cpus + vpus - 1) vpus
  rw [coresFor]
  omega

theorem coresFor_le {vpus cpus x : Nat} (hv : 0 < vpus) (h : cpus ≤ x * vpus) : coresFor vpus cpus ≤ x := by
  refine Nat.lt_succ_iff.mp ((Nat.div_lt_iff_lt_mul hv).mpr ?_)
  rw [succ_mul]
  omega

theorem length_marksOf (limit cpus : Nat) (cnts : List Nat) : (marksOf limit cpus cnts).length = cnts.length := by
  rw [marksOf, length_avoidSockets]
  exact (clip_spec (le_refl _)).1.length_eq.symm

theorem firstSocks_cpus (m : List Bool) (c : Nat) (node : SyncNode) :
    (cpusCnt m node.vpus (firstSocks c node)).sum = ones m c (c + node.size) * node.vpus := by
  rw [← firstSocks_left, ← sum_map_mul_right, cpusCnt]
  congr 1
  refine map_congr_left fun s hs => ?_
  rw [left, if_neg (by simp [(firstSocks_fresh hs).2])]

theorem length_marks (job : CoreJob) (m : List Bool) (c : Nat) (node : SyncNode) :
    (marksOf job.socketLimit node.cpus (cpusCnt m node.vpus (firstSocks c node))).length =
      (firstSocks c node).length := by
  rw [length_marksOf, cpusCnt, length_map]

theorem packSockets_firstSocks (job : CoreJob) (m : List Bool) (c : Nat) (node : SyncNode) :
    Advance m node.vpus node.cores ⟨node.cpus, 0⟩ (firstSocks c node)
      (packSockets job.toSyncJob m node.vpus ⟨node.cpus, 0⟩ job.cpusPerTask (firstSocks c node)).1
      (packSockets job.toSyncJob m node.vpus ⟨node.cpus, 0⟩ job.cpusPerTask (firstSocks c node)).2 :=
  packSockets_advance job.ntasksPerCore_eq node.vpus_pos (firstSocks_inPlace c node).inRange
    fun _ hs => (firstSocks_fresh hs).2

/-- Before the rounds the sockets are in their places. -/
theorem beforeRounds_ready (job : CoreJob) (m : List Bool) (c : Nat) (node : SyncNode) :
    Ready m c node (beforeRounds job.toSyncJob m c node).1 (beforeRounds job.toSyncJob m c node).2 := by
  have hready := firstSocks_ready m c node
  unfold beforeRounds
  split
  · exact marked_ready (length_marks job m c node) hready
  · split
    · exact hready.advance (packSockets_firstSocks job m c node)
    · exact hready

/-- Before the rounds there are enough cores in the sockets that are not avoided. -/
theorem beforeRounds_enough (henough : node.need ≤ ones m c (c + node.size)) :
    coresFor node.vpus (beforeRounds job.toSyncJob m c node).1.cpus ≤
      ((beforeRounds job.toSyncJob m c node).2.map (left m)).sum := by
  have hv := node.vpus_pos
  have hleft := firstSocks_left m c node
  unfold beforeRounds
  split
  · refine coresFor_le hv ?_
    have hmarks := @marks_left job.socketLimit node.cpus (cpusCnt m node.vpus (firstSocks c node)) (by
      rw [firstSocks_cpus]
      exact (le_coresFor_mul hv node.cpus).trans (Nat.mul_le_mul_right _ henough))
    rw [← marked_left (length_marks job m c node)] at hmarks
    exact hmarks
  · split
    · have hadv := packSockets_firstSocks job m c node
      have hneed := hadv.need
      have hleft' := hadv.left
      have hfirst := (firstSocks_ready m c node).need
      simp only at hneed hleft' hfirst
      omega
    · rw [hleft]
      exact henough

/-- What becomes of a node. -/
structure Synced (job : CoreJob) (m : List Bool) (c : Nat) (node : SyncNode) (m' : List Bool) : Prop where
  exact : ones m' c (c + node.size) = node.need
  available : ∀ j, bitTest m' j = true → bitTest m j = true
  others : ∀ j, j < c ∨ c + node.size ≤ j → bitTest m' j = bitTest m j
  length : m'.length = m.length
  limited : job.ntasksPerSocket ≠ infinite16 → node.vpus = 1 →
    node.cpus ≤ ((List.range node.sockets).map fun s =>
      min job.socketLimit (socketOnes m c node s)).sum →
    ∀ s < node.sockets, socketOnes m' c node s ≤ job.socketLimit

theorem cleared_inside (h : InPlace node.cores c socks) (hlen : socks.length = node.sockets)
    {j : Nat} (hj : j < c ∨ c + node.size ≤ j) : ¬ Cleared socks j := by
  intro hcleared
  obtain ⟨s, hs, hstart, hstop⟩ := hcleared
  obtain ⟨i, hi⟩ := getElem?_of_mem hs
  obtain ⟨hstop', hbase, -⟩ := h i s hi
  have hlt := (List.getElem?_eq_some_iff.mp hi).1
  have hle : (i + 1) * node.cores ≤ node.sockets * node.cores := Nat.mul_le_mul_right _ (by omega)
  rw [succ_mul] at hle
  rw [SyncNode.size] at hj
  omega

/-- The cores of sockets, with the limit. -/
theorem sum_limit (h : InPlace node.cores c socks)
    (hfresh : ∀ s ∈ socks, s.start = s.stop - node.cores ∧ s.avoid = false) (limit : Nat) :
    ((cpusCnt m 1 socks).map (min limit)).sum = ((List.range socks.length).map fun s =>
      min limit (socketOnes m c node s)).sum := by
  congr 1
  refine ext_getElem (by simp [cpusCnt]) fun i hi hi' => ?_
  rw [length_map, length_range] at hi'
  obtain ⟨hstop, -, -⟩ := h i _ (getElem?_eq_getElem hi')
  obtain ⟨hstart, -⟩ := hfresh _ (getElem_mem hi')
  simp only [cpusCnt, getElem_map, getElem_range, Nat.mul_one, socketOnes]
  rw [hstart, hstop, Nat.add_sub_cancel]

/-- The sockets of a node with a limit, and what its sockets can give within it. -/
theorem beforeRounds_limit (hset : job.ntasksPerSocket ≠ infinite16) (hone : node.vpus = 1)
    (hsum : node.cpus ≤ ((List.range node.sockets).map fun s =>
      min job.socketLimit (socketOnes m c node s)).sum) :
    (beforeRounds job.toSyncJob m c node).1 = ⟨node.cpus, 0⟩ ∧
      (∀ s ∈ (beforeRounds job.toSyncJob m c node).2, kept m node.cores s = 0) ∧
      node.cpus ≤ ((beforeRounds job.toSyncJob m c node).2.map fun s =>
        min job.socketLimit (cap m node.cores s)).sum := by
  have hready := firstSocks_ready m c node
  have hlen := length_marks job m c node
  have hmarked := marked_ready hlen hready
  have hkept := hmarked.kept
  unfold beforeRounds
  rw [if_pos hset]
  refine ⟨rfl, fun s hs => ?_, ?_⟩
  · exact List.sum_eq_zero_iff.mp hkept _ (mem_map_of_mem hs)
  · have hcap := @marked_cap m node.cores job.socketLimit (firstSocks c node) _ hlen
      fun s hs => firstSocks_fresh hs
    have hlimit := sum_limit (m := m) (firstSocks_inPlace c node) (fun s hs => firstSocks_fresh hs)
      job.socketLimit
    rw [length_firstSocks] at hlimit
    have hmarks := @marks_limit job.socketLimit node.cpus (cpusCnt m 1 (firstSocks c node))
      (by rw [hlimit]; exact hsum)
    rw [hone] at hcap ⊢
    exact hmarks.trans_eq hcap.symm

/-- A node with enough cores keeps those that it needs. -/
theorem node_synced (henough : node.need ≤ ones m c (c + node.size)) :
    ∃ m', cyclicNode job.toSyncJob m c node = .synced m' (node.need * node.tpc) ∧
      Synced job m c node m' := by
  have hready := beforeRounds_ready job m c node
  have hleft := @beforeRounds_enough job m c node henough
  have hv := node.vpus_pos
  obtain ⟨h', socks', heq, hdone, hadv⟩ := @rounds_spec job.toSyncJob m node.vpus node.cores hv
    (node.cpus + 1) (beforeRounds job.toSyncJob m c node).1 _ hready.inPlace.inRange
    (hready.cpus_le.trans (le_succ _)) hleft
  have hafter := hready.advance hadv
  obtain ⟨hbits, hlen, hcnt⟩ := finish_spec (allocSockets_eq job) socks' (m, h'.coreCnt)
  have hcores : h'.coreCnt = node.need := by
    have hneed := hafter.need
    rwa [hdone, coresFor_zero hv, Nat.add_zero] at hneed
  have hexact : ones (socks'.foldl (finishSock job.toSyncJob) (m, h'.coreCnt)).1 c (c + node.size) =
      node.need := by
    have hnode := kept_node hafter.inPlace hbits
    rw [hafter.length, hafter.kept] at hnode
    exact hnode.trans hcores
  have hfits : node.need * node.tpc < 2 ^ 16 := by
    have hsize := ones_le_sub m c (c + node.size)
    have hmul : node.need * node.tpc ≤ node.size * node.tpc := Nat.mul_le_mul_right _ (by omega)
    exact hmul.trans_lt node.threads_lt
  refine ⟨(socks'.foldl (finishSock job.toSyncJob) (m, h'.coreCnt)).1, ?_, hexact, fun j hj => ?_,
    fun j hj => ?_, hlen, fun hset hone hsum s hs => ?_⟩
  · rw [cyclicNode, heq]
    simp only
    rw [hcnt, hcores, cpusOf, if_pos (.inl (allocCores_eq job)), mod_eq_of_lt hfits]
  · rw [hbits, Bool.and_eq_true] at hj
    exact hj.1
  · rw [hbits]
    simp [cleared_inside hafter.inPlace hafter.length hj]
  · obtain ⟨hfirst, hzero, hlimit⟩ := @beforeRounds_limit job m c node hset hone hsum
    have hget : socks'[s]? = some (socks'.get ⟨s, by rw [hafter.length]; exact hs⟩) := by
      rw [get_eq_getElem]
      exact getElem?_eq_getElem _
    rw [socketOnes, kept_block hafter.inPlace hbits hget]
    refine rounds_level (r := 0) hv hready.inPlace.inRange (Nat.zero_le _)
      (fun t ht => by rw [hzero t ht, Nat.zero_min]) hready.kept ?_ heq hdone _ (get_mem _ _)
    rw [hfirst]
    have hcpus : coresFor node.vpus node.cpus ≤ node.cpus := coresFor_le hv (by rw [hone]; omega)
    simp only
    omega

/-! ## All nodes -/

theorem offset_append (front : List SyncNode) (node : SyncNode) :
    offset (front ++ [node]) = offset front + node.size := by
  simp [offset]

theorem offset_le_length {front rest : List SyncNode} (h : job.nodes = front ++ rest) :
    offset front + offset rest = job.coreMap.length := by
  rw [job.size_eq, h, offset, offset, map_append, List.sum_append]

/-- What the loop makes of the nodes that are left: it keeps the bits of those before. -/
structure NodesRight (job : CoreJob) (front rest : List SyncNode) (m : List Bool) (acc : List Nat)
    (r : SyncResult) : Prop where
  success : r.success = true
  before : ∀ j, j < offset front → bitTest r.coreMap j = bitTest m j
  cpus : acc <+: r.cpus
  available : ∀ j, bitTest r.coreMap j = true → bitTest job.coreMap j = true
  nodes : ∀ mid node back, rest = mid ++ node :: back → NodeRight job r (front ++ mid) node

theorem socketOnes_congr {s : Nat} (hs : s < node.sockets)
    (h : ∀ j, c ≤ j → j < c + node.size → bitTest m j = bitTest m' j) :
    socketOnes m c node s = socketOnes m' c node s := by
  refine ones_congr fun j hj hlt => h j (by omega) ?_
  have hle : (s + 1) * node.cores ≤ node.sockets * node.cores := Nat.mul_le_mul_right _ hs
  rw [succ_mul] at hle
  rw [SyncNode.size]
  omega

/-- The nodes, one after the other: each is synced on the bits that it had at first. -/
theorem nodes_right {front rest : List SyncNode} (hsplit : job.nodes = front ++ rest) {m : List Bool}
    {acc : List Nat} (hacc : acc.length = front.length) (hlen : m.length = job.coreMap.length)
    (hrest : ∀ j, offset front ≤ j → bitTest m j = bitTest job.coreMap j)
    (havail : ∀ j, bitTest m j = true → bitTest job.coreMap j = true) :
    ∃ r, cyclicNodes job.toSyncJob rest (offset front) m acc = some r ∧
      NodesRight job front rest m acc r := by
  induction rest generalizing front m acc with
  | nil =>
    refine ⟨_, rfl, rfl, fun _ _ => rfl, prefix_rfl, havail, fun mid node back h => ?_⟩
    simp at h
  | cons node rest ih =>
    have hroom := offset_le_length hsplit
    rw [offset, offset, map_cons, sum_cons] at hroom
    have henough : node.need ≤ ones m (offset front) (offset front + node.size) := by
      rw [ones_congr fun j hj _ => hrest j hj]
      exact job.enough front node rest hsplit
    obtain ⟨m', hnode, hsynced⟩ := @node_synced job m (offset front) node henough
    have hnext : job.nodes = (front ++ [node]) ++ rest := by rw [hsplit, append_assoc]; rfl
    obtain ⟨r, hr, hright⟩ := @ih (front ++ [node]) hnext m' (acc ++ [node.need * node.tpc])
      (by rw [length_append, length_append, hacc]; rfl) (hsynced.length.trans hlen)
      (fun j hj => by
        rw [offset_append] at hj
        rw [hsynced.others j (.inr hj)]
        exact hrest j (by omega))
      fun j hj => havail j (hsynced.available j hj)
    rw [offset_append] at hr
    have hbefore := hright.before
    rw [offset_append] at hbefore
    have hcpus : r.cpus[front.length]? = some (node.need * node.tpc) := by
      obtain ⟨more, hmore⟩ := hright.cpus
      rw [← hmore, append_assoc, getElem?_append_right hacc.le, hacc, Nat.sub_self]
      rfl
    have hhere : NodeRight job r front node := by
      refine ⟨?_, hcpus, fun hset hone hsum s hs => ?_⟩
      · rw [ones_congr fun j _ hlt => hbefore j hlt]
        exact hsynced.exact
      · rw [socketOnes_congr hs fun j _ hlt => hbefore j hlt]
        refine hsynced.limited hset hone ?_ s hs
        rwa [map_congr_left fun s hs => by
          rw [socketOnes_congr (List.mem_range.mp hs) fun j hj _ => hrest j hj]]
    refine ⟨r, ?_, hright.success, fun j hj => ?_, ?_, hright.available, fun mid node' back h => ?_⟩
    · rw [cyclicNodes, if_neg (by rw [hlen, ← hroom, offset]; omega), hnode]
      exact hr
    · rw [hbefore j (by omega), hsynced.others j (.inl hj)]
    · exact (prefix_append _ _).trans hright.cpus
    · cases mid with
      | nil =>
        rw [nil_append, List.cons.injEq] at h
        rw [append_nil, ← h.1]
        exact hhere
      | cons node'' mid =>
        rw [cons_append, List.cons.injEq] at h
        have hmid := hright.nodes mid node' back h.2
        rw [h.1, append_assoc] at hmid
        exact hmid

/-! ## The contract -/

/-- A node changes only its own bits. -/
theorem node_others {cpus : Nat} (h : cyclicNode job.toSyncJob m c node = .synced m' cpus) {j : Nat}
    (hj : j < c ∨ c + node.size ≤ j) : bitTest m' j = bitTest m j := by
  have hready := beforeRounds_ready job m c node
  unfold cyclicNode at h
  split at h
  · cases h
  · cases h
  · rename_i h' socks' heq
    cases h
    have hadv := rounds_advance node.vpus_pos hready.inPlace.inRange heq
    rw [(finish_spec (allocSockets_eq job) socks' (m, h'.coreCnt)).1]
    have hnot := cleared_inside (hready.inPlace.moved hadv.moved)
      (hadv.moved.length_eq.symm.trans hready.length) hj
    simp [hnot]

/-- Cyclic core selection keeps exactly what is needed, and within the limit where it can. -/
theorem cyclicContract (job : CoreJob) : CyclicContract job where
  right := by
    obtain ⟨r, hr, hright⟩ := @nodes_right job [] job.nodes rfl job.coreMap [] rfl rfl
      (fun _ _ => rfl) fun _ => id
    exact ⟨r, hr, hright.success, hright.available, fun front node back h => hright.nodes front node back h⟩
  others coreMap c node coreMap' cpus h j hj := node_others h hj

end Slurm.CoreSync
