import Slurm.Pmi2.Fence

/-!
# The invariant of a fence

Rounds are counted by `kvs_seq`.  A node is in the round after the last one that it sent, and `srun` is
in the round after the last one that it answered.

* `putsOf`, `fencedTasks`, `handledKids`: what the counters and the buffer of a node stand for.
* `Counts`: the counters of a node; `Counts.complete` says when they are both zero.
* `Inv`: the invariant.  The nodes in `hot` have handled a message and may have to send.
-/

namespace Slurm.Pmi2

open Lib.Forest Finset

variable {n : Nat} {st : Step n} {s s' : Net n} {x : Option (Fin n)} {v : Fin n}
variable {kids : Finset (Fin n)} {nd : Node n} {tasks : Finset Nat}

/-! ## What the variables stand for -/

/-- The pairs that the tasks of a stepd put before their fence of a round. -/
def putsOf (puts : List (Put n)) (w : Fin n) (r : Nat) : Multiset Pair :=
  ((puts.filter fun e => e.node = w ∧ e.round = r).map Put.pair : List Pair)

/-- The same for all stepds of a branch of the tree. -/
def branchPuts (st : Step n) (puts : List (Put n)) (c : Fin n) (r : Nat) : Multiset Pair :=
  ∑ w ∈ st.tree.branch c, putsOf puts w r

/-- The same for the tasks of a node. -/
def ownPuts (puts : List (Put n)) (r : Nat) : Option (Fin n) → Multiset Pair
  | none => 0
  | some v => putsOf puts v r

/-- The tasks of a node that fenced in a round. -/
def fencedTasks (st : Step n) (fenced : Fin n → Nat → Nat) (r : Nat) : Option (Fin n) → Finset Nat
  | none => ∅
  | some v => (Finset.range (st.ltasks v)).filter fun t => r ≤ fenced v t

/-- The children whose message of its round a node has handled. -/
def handledKids (st : Step n) (x : Option (Fin n)) (nd : Node n) : Finset (Fin n) :=
  (st.tree.children x).filter fun c => nd.childrenKvsSeq c = nd.kvsSeq

/-- What the children stand for in the counter of a node. -/
def offspring (st : Step n) (kids : Finset (Fin n)) : Nat := ∑ c ∈ kids, (st.numChildren (some c) + 1)

theorem offspring_children (x : Option (Fin n)) : offspring st (st.tree.children x) = st.numChildren x :=
  (card_below x).symm

theorem fencedTasks_sub (fenced : Fin n → Nat → Nat) (r : Nat) (x : Option (Fin n)) :
    fencedTasks st fenced r x ⊆ Finset.range (st.tasks x) := by
  cases x with
  | none => exact empty_subset _
  | some v => exact filter_subset _ _

/-- Kids that stand for all offspring are all of them. -/
theorem eq_children_of_offspring (hsub : kids ⊆ st.tree.children x)
    (h : offspring st kids = st.numChildren x) : kids = st.tree.children x := by
  rw [← offspring_children] at h
  by_contra hne
  obtain ⟨c, hc, hnot⟩ := exists_of_ssubset (hsub.ssubset_of_ne hne)
  have hlt : offspring st kids < offspring st (st.tree.children x) :=
    sum_lt_sum_of_subset hsub hc hnot (Nat.succ_pos _) fun _ _ _ => Nat.zero_le _
  omega

/-! ## Counters -/

/-- The counters of a node of which some tasks have fenced and some kids were handled. -/
structure Counts (st : Step n) (x : Option (Fin n)) (nd : Node n) (tasks : Finset Nat)
    (kids : Finset (Fin n)) : Prop where
  idle : tasks = ∅ → kids = ∅ → nd.tasksToWait = 0 ∧ nd.childrenToWait = 0
  armed : tasks ≠ ∅ ∨ kids ≠ ∅ → nd.tasksToWait = st.tasks x - tasks.card ∧
    nd.childrenToWait = st.numChildren x - offspring st kids

/-- A node has not everything that it waits for. -/
def Incomplete (st : Step n) (x : Option (Fin n)) (tasks : Finset Nat) (kids : Finset (Fin n)) : Prop :=
  tasks = ∅ ∧ kids = ∅ ∨ tasks.card < st.tasks x ∨ offspring st kids < st.numChildren x

/-- After the counters were set they say what is missing. -/
theorem Counts.arm (h : Counts st x nd tasks kids) (htasks : tasks ⊆ Finset.range (st.tasks x))
    (hkids : kids ⊆ st.tree.children x) (hincomplete : Incomplete st x tasks kids) :
    (nd.arm st x).tasksToWait = st.tasks x - tasks.card ∧
      (nd.arm st x).childrenToWait = st.numChildren x - offspring st kids := by
  have hle := card_le_card htasks
  rw [card_range] at hle
  have hle' : offspring st kids ≤ st.numChildren x := by
    rw [← offspring_children]
    exact sum_le_sum_of_subset hkids
  rw [Node.arm]
  by_cases hidle : tasks = ∅ ∧ kids = ∅
  · rw [if_pos (h.idle hidle.1 hidle.2), hidle.1, hidle.2]
    simp [offspring]
  · have harmed := h.armed (not_and_or.mp hidle)
    rw [if_neg]
    · exact harmed
    · rw [harmed.1, harmed.2]
      rcases hincomplete with hno | hlt | hlt
      · exact absurd hno hidle
      · omega
      · omega

/-- Both counters are zero when all tasks have fenced and all children were handled. -/
theorem Counts.complete (h : Counts st x nd tasks kids) (htasks : tasks ⊆ Finset.range (st.tasks x))
    (hkids : kids ⊆ st.tree.children x) (hany : tasks ≠ ∅ ∨ kids ≠ ∅)
    (hzero : nd.childrenToWait = 0 ∧ nd.tasksToWait = 0) :
    tasks = Finset.range (st.tasks x) ∧ kids = st.tree.children x := by
  have harmed := h.armed hany
  have hle := card_le_card htasks
  rw [card_range] at hle
  constructor
  · apply eq_of_subset_of_card_le htasks
    rw [card_range]
    omega
  · apply eq_children_of_offspring hkids
    have hle' : offspring st kids ≤ st.numChildren x := by
      rw [← offspring_children]
      exact sum_le_sum_of_subset hkids
    omega

theorem Counts.incomplete (h : Counts st x nd tasks kids)
    (htasks : tasks ⊆ Finset.range (st.tasks x)) (hkids : kids ⊆ st.tree.children x)
    (hzero : ¬ (nd.childrenToWait = 0 ∧ nd.tasksToWait = 0)) : Incomplete st x tasks kids := by
  by_cases hidle : tasks = ∅ ∧ kids = ∅
  · exact Or.inl hidle
  · right
    have harmed := h.armed (not_and_or.mp hidle)
    have hle := card_le_card htasks
    rw [card_range] at hle
    have hle' : offspring st kids ≤ st.numChildren x := by
      rw [← offspring_children]
      exact sum_le_sum_of_subset hkids
    omega

/-! ## The invariant -/

/-- The round of a node. -/
def Net.round (s : Net n) (x : Option (Fin n)) : Nat := (s.node x).kvsSeq

/-- What a node counts. -/
structure NodeOk (st : Step n) (s : Net n) (x : Option (Fin n)) : Prop where
  kid : ∀ c, st.tree.parent c = x →
    (s.node x).childrenKvsSeq c = s.round x ∧ s.round x < s.round (some c) ∨
      (s.node x).childrenKvsSeq c + 1 = s.round x
  seq : (s.node x).temp.seq = s.round x
  fits : (s.node x).temp.cnt ≤ (s.node x).temp.size
  pairs : ((s.node x).temp.pairs : Multiset Pair) = ownPuts s.puts (s.round x) x +
    ∑ c ∈ handledKids st x (s.node x), branchPuts st s.puts c (s.round x)
  counts : Counts st x (s.node x) (fencedTasks st s.fenced (s.round x) x)
    (handledKids st x (s.node x))

/-- Where a stepd and its tasks are. -/
structure StepdOk (st : Step n) (s : Net n) (v : Fin n) : Prop where
  phase : s.round (some v) = s.handled v + 1 + (s.node (some v)).waitingKvsResp.toNat
  handled_le : s.handled v ≤ s.answers.length
  round_gt : s.answers.length < s.round (some v)
  above : ∀ u, st.tree.parent v = some u → s.round (some u) ≤ s.round (some v)
  fenced : ∀ t < st.ltasks v, s.fenced v t = s.handled v + (s.blocked v t).toNat
  blocked : (s.node (some v)).waitingKvsResp = true → ∀ t < st.ltasks v, s.blocked v t = true
  resps : s.resps.filter (fun m => m.dest = v) =
    match s.answers[s.handled v]? with
    | none => []
    | some a => [⟨v, a.1, a.2⟩]
  kvs : (s.node (some v)).kvs = putAll (kvsInit st.hashSize st.noDupKeys)
    ((s.answers.take (s.handled v)).flatMap Prod.snd)

/-- A `KVS_FENCE` message is one of a round that its stepd has sent, with the pairs of its branch. -/
structure MsgOk (st : Step n) (s : Net n) (m : FenceMsg n) : Prop where
  dest : m.dest = st.tree.parent m.fromNodeid
  numChildren : m.numChildren = st.numChildren (some m.fromNodeid) + 1
  pos : 1 ≤ m.seq
  sent : m.seq < s.round (some m.fromNodeid)
  pairs : (m.pairs : Multiset Pair) = branchPuts st s.puts m.fromNodeid m.seq

/-- The invariant, where the nodes in `hot` may have to send. -/
structure Inv (st : Step n) (hot : Set (Option (Fin n))) (s : Net n) : Prop where
  alive : s.killed = false
  srun : s.round none = s.answers.length + 1
  node : ∀ x, NodeOk st s x
  incomplete : ∀ x, x ∉ hot → Incomplete st x (fencedTasks st s.fenced (s.round x) x)
    (handledKids st x (s.node x))
  stepd : ∀ v, StepdOk st s v
  msg : ∀ m ∈ s.fences, MsgOk st s m
  once : ∀ v r, 1 ≤ r → r < s.round (some v) →
    s.fences.countP (fun m => m.fromNodeid = v ∧ m.seq = r) = 1
  answers : ∀ i a, s.answers[i]? = some a →
    a.1 = i + 1 ∧ (a.2 : Multiset Pair) = ∑ w, putsOf s.puts w (i + 1)
  puts : ∀ e ∈ s.puts, e.task < st.ltasks e.node ∧ 1 ≤ e.round ∧ e.round ≤ s.handled e.node + 1
  delivered : ∀ i ∈ s.delivered, ∃ m, s.fences[i]? = some m ∧
    m.seq ≤ (s.node m.dest).childrenKvsSeq m.fromNodeid

variable {hot : Set (Option (Fin n))}

/-- A stepd that waits for the response is one round ahead. -/
theorem StepdOk.fenced_iff (h : StepdOk st s v) {t : Nat} (ht : t < st.ltasks v) :
    s.round (some v) ≤ s.fenced v t ↔
      (s.node (some v)).waitingKvsResp = false ∧ s.blocked v t = true := by
  have hphase := h.phase
  have hfenced := h.fenced t ht
  have hblocked := h.blocked
  cases hw : (s.node (some v)).waitingKvsResp with
  | true =>
    rw [hw] at hphase
    have hb := hblocked hw t ht
    rw [hb] at hfenced
    simp at hphase hfenced ⊢
    omega
  | false =>
    rw [hw] at hphase
    cases hb : s.blocked v t with
    | true =>
      rw [hb] at hfenced
      simp at hphase hfenced ⊢
      omega
    | false =>
      rw [hb] at hfenced
      simp at hphase hfenced ⊢
      omega

/-- All rounds below a node are at least its own. -/
theorem Inv.round_le_of_branch (h : Inv st hot s) {c w : Fin n} (hw : w ∈ st.tree.branch c) :
    s.round (some c) ≤ s.round (some w) := by
  rcases Finset.mem_insert.mp hw with rfl | hw
  · exact le_rfl
  · apply below_of_children (P := fun w => s.round (some c) ≤ s.round (some w)) _ _ w hw
    · intro w u hu hle
      exact hle.trans ((h.stepd w).above u hu)
    · intro w hw
      exact (h.stepd w).above c hw

/-- A stepd has sent at most the round of the node above it. -/
theorem Inv.round_le (h : Inv st hot s) (v : Fin n) (x : Option (Fin n)) :
    s.round (some v) ≤ s.round x + 1 := by
  have hphase := (h.stepd v).phase
  have hle := (h.stepd v).handled_le
  have htoNat := Bool.toNat_le (s.node (some v)).waitingKvsResp
  cases x with
  | none =>
    have hsrun := h.srun
    omega
  | some u =>
    have hgt := (h.stepd u).round_gt
    omega

/-- After a stepd has sent a round, its tasks have fenced in it. -/
theorem StepdOk.fenced_of_lt (h : StepdOk st s v) {r : Nat} (hr : r < s.round (some v)) {t : Nat}
    (ht : t < st.ltasks v) : r ≤ s.fenced v t := by
  have hphase := h.phase
  have hfenced := h.fenced t ht
  cases hw : (s.node (some v)).waitingKvsResp with
  | true =>
    rw [h.blocked hw t ht] at hfenced
    rw [hw] at hphase
    simp at hphase hfenced
    omega
  | false =>
    rw [hw] at hphase
    simp at hphase
    omega

/-- A child whose message was handled is in a later round. -/
theorem NodeOk.round_lt (h : NodeOk st s x) {c : Fin n} (hc : c ∈ handledKids st x (s.node x)) :
    s.round x < s.round (some c) := by
  obtain ⟨hparent, hkid⟩ := Finset.mem_filter.mp hc
  rcases h.kid c (mem_children.mp hparent) with hok | hok
  · exact hok.2
  · rw [hkid, Net.round] at hok
    omega

/-! ## Frame rules -/

@[simp]
theorem put_node_self (s : Net n) (x : Option (Fin n)) (nd : Node n) : (s.put x nd).node x = nd :=
  Function.update_self _ _ _

theorem put_node_of_ne {y : Option (Fin n)} (h : y ≠ x) (nd : Node n) : (s.put x nd).node y = s.node y :=
  Function.update_of_ne h _ _

/-- What a node counts is kept when only rounds of other nodes grow. -/
theorem NodeOk.congr (h : NodeOk st s x) (hnode : s'.node x = s.node x)
    (hown : ownPuts s'.puts (s.round x) x = ownPuts s.puts (s.round x) x)
    (hbranch : ∀ c, s.round x < s.round (some c) →
      branchPuts st s'.puts c (s.round x) = branchPuts st s.puts c (s.round x))
    (hfenced : fencedTasks st s'.fenced (s.round x) x = fencedTasks st s.fenced (s.round x) x)
    (hround : ∀ c, st.tree.parent c = x → s.round (some c) ≤ s'.round (some c)) : NodeOk st s' x := by
  have hr : s'.round x = s.round x := by rw [Net.round, hnode, Net.round]
  refine ⟨fun c hc => ?_, ?_, ?_, ?_, ?_⟩
  · rw [hnode, hr]
    exact (h.kid c hc).imp_left fun hkid => ⟨hkid.1, Nat.lt_of_lt_of_le hkid.2 (hround c hc)⟩
  · rw [hnode, hr]
    exact h.seq
  · rw [hnode]
    exact h.fits
  · rw [hnode, hr, hown, h.pairs]
    congr 1
    exact sum_congr rfl fun c hc => (hbranch c (h.round_lt hc)).symm
  · rw [hnode, hr, hfenced]
    exact h.counts

/-- Where a stepd is does not depend on what other stepds do. -/
theorem StepdOk.congr (h : StepdOk st s v)
    (hround : s'.round (some v) = s.round (some v))
    (hwaiting : (s'.node (some v)).waitingKvsResp = (s.node (some v)).waitingKvsResp)
    (hkvs : (s'.node (some v)).kvs = (s.node (some v)).kvs) (hhandled : s'.handled v = s.handled v)
    (hanswers : s'.answers = s.answers)
    (hresps : s'.resps.filter (fun m => m.dest = v) = s.resps.filter fun m => m.dest = v)
    (hfenced : s'.fenced v = s.fenced v) (hblocked : s'.blocked v = s.blocked v)
    (habove : ∀ u, st.tree.parent v = some u → s'.round (some u) ≤ s.round (some v)) :
    StepdOk st s' v := by
  refine ⟨?_, ?_, ?_, ?_, ?_, ?_, ?_, ?_⟩
  · rw [hround, hhandled, hwaiting]
    exact h.phase
  · rw [hhandled, hanswers]
    exact h.handled_le
  · rw [hround, hanswers]
    exact h.round_gt
  · rw [hround]
    exact habove
  · rw [hfenced, hhandled, hblocked]
    exact h.fenced
  · rw [hwaiting, hblocked]
    exact h.blocked
  · rw [hresps, hanswers, hhandled]
    exact h.resps
  · rw [hkvs, hanswers, hhandled]
    exact h.kvs

theorem MsgOk.congr {m : FenceMsg n} (h : MsgOk st s m)
    (hpairs : branchPuts st s'.puts m.fromNodeid m.seq = branchPuts st s.puts m.fromNodeid m.seq)
    (hround : s.round (some m.fromNodeid) ≤ s'.round (some m.fromNodeid)) : MsgOk st s' m :=
  ⟨h.dest, h.numChildren, h.pos, Nat.lt_of_lt_of_le h.sent hround, h.pairs.trans hpairs.symm⟩

/-- What was delivered stays handled. -/
theorem Inv.delivered_mono (h : Inv st hot s) (hdelivered : s'.delivered = s.delivered)
    (hfences : ∀ (i : Nat) m, s.fences[i]? = some m → s'.fences[i]? = some m)
    (hkids : ∀ y c, (s.node y).childrenKvsSeq c ≤ (s'.node y).childrenKvsSeq c) :
    ∀ i ∈ s'.delivered, ∃ m, s'.fences[i]? = some m ∧
      m.seq ≤ (s'.node m.dest).childrenKvsSeq m.fromNodeid := by
  intro i hi
  rw [hdelivered] at hi
  obtain ⟨m, hm, hle⟩ := h.delivered i hi
  exact ⟨m, hfences i m hm, hle.trans (hkids _ _)⟩

theorem tempKvsInit_fits (st : Step n) (x : Option (Fin n)) (seq : Nat) :
    (tempKvsInit (st.header x) seq).cnt ≤ (tempKvsInit (st.header x) seq).size := by
  have hle : st.header x ≤ 2048 := by
    cases x with
    | none => exact Nat.le_of_ble_eq_true rfl
    | some v =>
      have hlt := st.thisNode_lt v
      rw [Step.header, strSize]
      omega
  have hnot : ¬ st.header x > tempKvsSizeInc := Nat.not_lt.mpr hle
  rw [tempKvsInit, if_neg hnot]
  exact hle

/-- Nothing has happened yet. -/
theorem inv_init (st : Step n) : Inv st ∅ (Net.init st) := by
  have hround : ∀ x, (Net.init st).round x = 1 := fun x => rfl
  have hnone : ∀ x, handledKids st x ((Net.init st).node x) = ∅ := by
    intro x
    apply filter_false_of_mem
    intro c _
    exact Nat.zero_ne_one
  have htasks : ∀ x, fencedTasks st (Net.init st).fenced 1 x = ∅ := by
    intro x
    cases x with
    | none => rfl
    | some v => exact filter_false_of_mem fun t _ => by simp [Net.init]
  refine ⟨rfl, rfl, fun x => ⟨fun c _ => Or.inr rfl, rfl, ?_, ?_, ?_⟩, fun x _ => Or.inl ⟨htasks x, hnone x⟩,
    fun v => ⟨rfl, le_rfl, Nat.zero_lt_one, fun _ _ => le_rfl, fun _ _ => rfl, ?_, rfl, rfl⟩, ?_, ?_, ?_,
    ?_, ?_⟩
  · exact tempKvsInit_fits st x 1
  · rw [hnone]
    cases x <;> rfl
  · rw [hnone, hround, htasks]
    exact ⟨fun _ _ => ⟨rfl, rfl⟩, fun h => by simp at h⟩
  · intro hw
    cases hw
  · intro m hm
    cases hm
  · intro v r hr hlt
    rw [hround] at hlt
    omega
  · intro i a ha
    cases ha
  · intro e he
    cases he
  · intro i hi
    cases hi

end Slurm.Pmi2
