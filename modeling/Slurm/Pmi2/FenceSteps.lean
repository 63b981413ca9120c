import Slurm.Lib.Run
import Slurm.Pmi2.FenceInvariant

/-!
# The steps of a fence

* `Inv.complete`: what is known of a node that has to send.
* `Inv.send_stepd`, `Inv.send_srun`: a node sends, `Inv.sendIfComplete` if it has to.
* `Local.inv`: what a step of one node has to show that begins no round.
* `Inv.put`, `Inv.fence`, `Inv.fenceMsg`, `Inv.fenceResp`: one lemma for each handler.
-/

namespace Slurm.Pmi2

open Lib.Forest Lib.InFlight List

variable {n : Nat} {st : Step n} {hot : Set (Option (Fin n))} {s s' : Net n} {x : Option (Fin n)}
  {v : Fin n}

variable {c : Fin n} {t r i : Nat} {fenced : Fin n → Nat → Nat} {m : FenceMsg n}

theorem handledKids_sub (x : Option (Fin n)) (nd : Node n) : handledKids st x nd ⊆ st.tree.children x :=
  Finset.filter_subset _ _

/-! ## Sending -/

/-- A node that has to send: all its tasks have fenced and it has handled all its children. -/
structure Complete (st : Step n) (s : Net n) (x : Option (Fin n)) : Prop where
  tasks : fencedTasks st s.fenced (s.round x) x = Finset.range (st.tasks x)
  kids : handledKids st x (s.node x) = st.tree.children x

theorem Complete.kid (h : Complete st s x) (hc : st.tree.parent c = x) :
    (s.node x).childrenKvsSeq c = s.round x := by
  have hmem : c ∈ handledKids st x (s.node x) := by
    rw [h.kids, mem_children]
    exact hc
  exact (Finset.mem_filter.mp hmem).2

theorem Complete.task (h : Complete st s (some v)) (ht : t < st.ltasks v) :
    s.round (some v) ≤ s.fenced v t := by
  have hmem : t ∈ fencedTasks st s.fenced (s.round (some v)) (some v) := by
    rw [h.tasks]
    exact Finset.mem_range.mpr ht
  exact (Finset.mem_filter.mp hmem).2

/-- The children of a node that has to send are in later rounds. -/
theorem Complete.round_lt (h : Complete st s x) (hnode : NodeOk st s x)
    (hc : st.tree.parent c = x) : s.round x < s.round (some c) := by
  have hkid := h.kid hc
  rcases hnode.kid c hc with hok | hok
  · exact hok.2
  · omega

/-- A stepd that has to send does not wait for a response, and all its tasks do. -/
theorem Complete.waiting (h : Complete st s (some v)) (hstepd : StepdOk st s v) :
    (s.node (some v)).waitingKvsResp = false ∧ ∀ t < st.ltasks v, s.blocked v t = true := by
  have hall : ∀ t < st.ltasks v, (s.node (some v)).waitingKvsResp = false ∧ s.blocked v t = true :=
    fun t ht => (hstepd.fenced_iff ht).mp (h.task ht)
  exact ⟨(hall 0 (st.ltasks_pos v)).1, fun t ht => (hall t ht).2⟩

theorem Complete.pairs (h : Complete st s x) (hnode : NodeOk st s x) :
    ((s.node x).temp.pairs : Multiset Pair) = ownPuts s.puts (s.round x) x +
      ∑ w ∈ st.tree.below x, putsOf s.puts w (s.round x) := by
  rw [hnode.pairs, h.kids, sum_below]
  rfl

/-- Nothing is fenced or handled in a new round. -/
theorem fencedTasks_new (hstepd : ∀ w, x = some w → StepdOk st s w ∧ s.handled w + 1 < r) :
    fencedTasks st s.fenced r x = ∅ := by
  cases x with
  | none => rfl
  | some w =>
    obtain ⟨hok, hlt⟩ := hstepd w rfl
    apply Finset.filter_false_of_mem
    intro t ht
    have hfenced := hok.fenced t (Finset.mem_range.mp ht)
    have htoNat := Bool.toNat_le (s.blocked w t)
    omega

/-- A node after `temp_kvs_send`. -/
theorem nodeOk_sent (hcomplete : Complete st s x) {nd : Node n}
    (hs' : s'.node x = nd) (hseq : nd.kvsSeq = s.round x + 1)
    (htemp : nd.temp = tempKvsInit (st.header x) (s.round x + 1))
    (hkids : nd.childrenKvsSeq = (s.node x).childrenKvsSeq) (htasks : nd.tasksToWait = 0)
    (hchildren : nd.childrenToWait = 0) (hown : ownPuts s'.puts (s.round x + 1) x = 0)
    (hfenced : fencedTasks st s'.fenced (s.round x + 1) x = ∅) :
    NodeOk st s' x ∧ handledKids st x nd = ∅ := by
  have hr : s'.round x = s.round x + 1 := by rw [Net.round, hs', hseq]
  have hnone : handledKids st x nd = ∅ := by
    apply Finset.filter_false_of_mem
    intro c hc
    rw [hkids, hseq, hcomplete.kid (mem_children.mp hc)]
    omega
  refine ⟨⟨fun c hc => Or.inr ?_, ?_, ?_, ?_, ?_⟩, hnone⟩
  · rw [hs', hkids, hcomplete.kid hc, hr]
  · rw [hs', htemp, hr]
    rfl
  · rw [hs', htemp]
    exact tempKvsInit_fits st x _
  · rw [hs', hr, hown, hnone, htemp]
    rfl
  · rw [hs', hr, hnone, hfenced]
    exact ⟨fun _ _ => ⟨htasks, hchildren⟩, fun h => by simp at h⟩

/-- No pair is put for a round that no task is in. -/
theorem putsOf_eq_zero {puts : List (Put n)} {w : Fin n}
    (h : ∀ e ∈ puts, e.node = w → e.round < r) : putsOf puts w r = 0 := by
  rw [putsOf, List.filter_eq_nil_iff.mpr]
  · rfl
  · intro e he
    by_cases hw : e.node = w
    · have hlt := h e he hw
      simp [hw]
      omega
    · simp [hw]

/-- The variables of a stepd that has sent. -/
def Node.sent (st : Step n) (v : Fin n) (nd : Node n) : Node n :=
  { nd with
    kvsSeq := nd.kvsSeq + 1
    temp := tempKvsInit (st.header (some v)) (nd.kvsSeq + 1)
    tasksToWait := 0
    childrenToWait := 0
    waitingKvsResp := true }

/-- What a stepd sends. -/
def sentMsg (st : Step n) (s : Net n) (v : Fin n) : FenceMsg n :=
  ⟨st.tree.parent v, v, st.numChildren (some v) + 1, (s.node (some v)).temp.seq,
    (s.node (some v)).temp.pairs⟩

theorem sendIfComplete_stepd (hzero : (s.node (some v)).childrenToWait = 0 ∧
    (s.node (some v)).tasksToWait = 0) : sendIfComplete st s (some v) =
      { s.put (some v) ((s.node (some v)).sent st v) with fences := s.fences ++ [sentMsg st s v] } := by
  rw [sendIfComplete, if_pos hzero]
  simp only [tempKvsSend, Net.put, Function.update_self, Function.update_idem]
  rfl

/-- A stepd sends. -/
theorem Inv.send_stepd (h : Inv st {some v} s) (hcomplete : Complete st s (some v)) :
    Inv st ∅ { s.put (some v) ((s.node (some v)).sent st v) with
      fences := s.fences ++ [sentMsg st s v] } := by
  have hnode := h.node (some v)
  have hstepd := h.stepd v
  obtain ⟨hwait, hblocked⟩ := hcomplete.waiting hstepd
  have hphase := hstepd.phase
  rw [hwait] at hphase
  have hhandled : s.handled v + 1 = s.round (some v) := by simpa using hphase.symm
  generalize hs' : ({ s.put (some v) ((s.node (some v)).sent st v) with
    fences := s.fences ++ [sentMsg st s v] } : Net n) = s'
  have hfences : s'.fences = s.fences ++ [sentMsg st s v] := by rw [← hs']
  have hself : s'.node (some v) = (s.node (some v)).sent st v := by
    rw [← hs']
    exact Function.update_self _ _ _
  have hother : ∀ y, y ≠ some v → s'.node y = s.node y := by
    rw [← hs']
    exact fun y hy => Function.update_of_ne hy _ _
  have hrself : s'.round (some v) = s.round (some v) + 1 := by rw [Net.round, hself]; rfl
  have hrother : ∀ y, y ≠ some v → s'.round y = s.round y := fun y hy => by rw [Net.round, hother y hy]; rfl
  have hrle : ∀ y, s.round y ≤ s'.round y := by
    intro y
    by_cases hy : y = some v
    · rw [hy, hrself]
      exact Nat.le_succ _
    · exact (hrother y hy).ge
  obtain ⟨hputs, hfencedEq, hblockedEq, hhandledEq, hrespsEq, hanswersEq, hdeliveredEq, halive⟩ :
      s'.puts = s.puts ∧ s'.fenced = s.fenced ∧ s'.blocked = s.blocked ∧ s'.handled = s.handled ∧
        s'.resps = s.resps ∧ s'.answers = s.answers ∧ s'.delivered = s.delivered ∧
        s'.killed = s.killed := by
    rw [← hs']
    exact ⟨rfl, rfl, rfl, rfl, rfl, rfl, rfl, rfl⟩
  have hnew : fencedTasks st s'.fenced (s.round (some v) + 1) (some v) = ∅ := by
    rw [hfencedEq]
    apply fencedTasks_new
    intro w hw
    obtain rfl := Option.some.inj hw
    exact ⟨hstepd, by omega⟩
  have hown : ownPuts s'.puts (s.round (some v) + 1) (some v) = 0 := by
    rw [hputs]
    apply putsOf_eq_zero
    intro e he hev
    have hle := (h.puts e he).2.2
    rw [hev] at hle
    omega
  obtain ⟨hok, hkids⟩ := nodeOk_sent hcomplete hself rfl rfl rfl rfl rfl hown hnew
  refine ⟨halive.trans h.alive, ?_, fun y => ?_, fun y _ => ?_, fun w => ?_, fun m hm => ?_,
    fun w r hr hlt => ?_, ?_, ?_, ?_⟩
  · rw [hrother none (by simp), hanswersEq]
    exact h.srun
  · by_cases hy : y = some v
    · rw [hy]
      exact hok
    · exact (h.node y).congr (hother y hy) (by rw [hputs]) (fun c _ => by rw [hputs]) (by rw [hfencedEq])
        fun c _ => hrle (some c)
  · by_cases hy : y = some v
    · rw [hy, hself, hrself]
      exact Or.inl ⟨hnew, hkids⟩
    · rw [hother y hy, hrother y hy, hfencedEq]
      exact h.incomplete y hy
  · by_cases hw : w = v
    · rw [hw]
      refine ⟨?_, ?_, ?_, fun u hu => ?_, ?_, fun _ => ?_, ?_, ?_⟩
      · rw [hrself, hself, hhandledEq, ← hhandled]
        rfl
      · rw [hhandledEq, hanswersEq]
        exact hstepd.handled_le
      · rw [hrself, hanswersEq]
        exact Nat.lt_succ_of_lt hstepd.round_gt
      · by_cases huv : u = v
        · rw [huv]
        · rw [hrother (some u) fun heq => huv (Option.some.inj heq), hrself]
          exact Nat.le_succ_of_le (hstepd.above u hu)
      · rw [hfencedEq, hhandledEq, hblockedEq]
        exact hstepd.fenced
      · rw [hblockedEq]
        exact hblocked
      · rw [hrespsEq, hanswersEq, hhandledEq]
        exact hstepd.resps
      · rw [hself, hanswersEq, hhandledEq]
        exact hstepd.kvs
    · have hne : some w ≠ some v := fun heq => hw (Option.some.inj heq)
      refine (h.stepd w).congr (hrother _ hne) (by rw [hother _ hne]) (by rw [hother _ hne])
        (by rw [hhandledEq]) hanswersEq (by rw [hrespsEq]) (by rw [hfencedEq]) (by rw [hblockedEq]) fun u hu => ?_
      by_cases huv : u = v
      · rw [huv, hrself]
        exact hcomplete.round_lt hnode (hu.trans (congrArg some huv))
      · rw [hrother (some u) fun heq => huv (Option.some.inj heq)]
        exact (h.stepd w).above u hu
  · rw [hfences, mem_append, mem_singleton] at hm
    rcases hm with hm | rfl
    · exact (h.msg m hm).congr (by rw [hputs]) (hrle _)
    · refine ⟨rfl, rfl, ?_, ?_, ?_⟩
      · show 1 ≤ (s.node (some v)).temp.seq
        rw [hnode.seq, ← hhandled]
        exact Nat.le_add_left 1 _
      · show (s.node (some v)).temp.seq < s'.round (some v)
        rw [hnode.seq, hrself]
        exact Nat.lt_succ_self _
      · show ((s.node (some v)).temp.pairs : Multiset Pair) =
          branchPuts st s'.puts v (s.node (some v)).temp.seq
        rw [hcomplete.pairs hnode, hputs, hnode.seq, branchPuts, sum_branch]
        rfl
  · rw [hfences, countP_append, countP_singleton]
    have hseq : (sentMsg st s v).seq = s.round (some v) := hnode.seq
    have hfrom : (sentMsg st s v).fromNodeid = v := rfl
    rw [hseq, hfrom]
    by_cases hw : w = v
    · rw [hw] at hlt ⊢
      rw [hrself] at hlt
      by_cases hrr : r = s.round (some v)
      · have hzero : s.fences.countP (fun m => m.fromNodeid = v ∧ m.seq = r) = 0 := by
          rw [countP_eq_zero]
          intro m hm hmv
          have hmv' := of_decide_eq_true hmv
          have hlt' := (h.msg m hm).sent
          rw [hmv'.1, hmv'.2, hrr] at hlt'
          exact Nat.lt_irrefl _ hlt'
        rw [hzero]
        simp [hrr]
      · rw [h.once v r hr (by omega)]
        simp [Ne.symm hrr]
    · rw [hrother (some w) fun heq => hw (Option.some.inj heq)] at hlt
      rw [h.once w r hr hlt]
      simp [Ne.symm hw]
  · rw [hanswersEq, hputs]
    exact h.answers
  · rw [hputs, hhandledEq]
    exact h.puts
  · apply h.delivered_mono hdeliveredEq
    · intro i m hm
      rw [hfences]
      exact (getElem?_append_left (List.getElem?_eq_some_iff.mp hm).1).trans hm
    · intro y c
      by_cases hy : y = some v
      · rw [hy, hself]
        exact le_rfl
      · rw [hother y hy]

/-- The variables of `srun` after an answer. -/
def Node.answered (st : Step n) (nd : Node n) : Node n :=
  { nd with
    kvsSeq := nd.kvsSeq + 1
    temp := tempKvsInit (st.header none) (nd.kvsSeq + 1)
    tasksToWait := 0
    childrenToWait := 0 }

/-- `srun` has answered. -/
def Net.answer (st : Step n) (s : Net n) : Net n :=
  let temp := (s.node none).temp
  { s.put none ((s.node none).answered st) with
    resps := s.resps ++ (List.finRange n).map fun v => ⟨v, temp.seq, temp.pairs⟩
    answers := s.answers ++ [(temp.seq, temp.pairs)] }

theorem sendIfComplete_srun (hzero : (s.node none).childrenToWait = 0 ∧ (s.node none).tasksToWait = 0) :
    sendIfComplete st s none = s.answer st := by
  rw [sendIfComplete, if_pos hzero]
  rfl

theorem filter_finRange (v : Fin n) (seq : Nat) (pairs : List Pair) :
    ((List.finRange n).map fun w => (⟨w, seq, pairs⟩ : RespMsg n)).filter (fun m => m.dest = v) =
      [⟨v, seq, pairs⟩] := by
  rw [filter_map]
  have hfilter : (List.finRange n).filter ((fun m : RespMsg n => decide (m.dest = v)) ∘
      fun w => (⟨w, seq, pairs⟩ : RespMsg n)) = [v] := by
    simp only [Function.comp_def]
    rw [List.filter_eq, count_eq_one_of_mem (nodup_finRange n) (mem_finRange v)]
    rfl
  rw [hfilter]
  rfl

/-- `srun` answers. -/
theorem Inv.send_srun (h : Inv st {none} s) (hcomplete : Complete st s none) :
    Inv st ∅ (s.answer st) := by
  have hnode := h.node none
  have hsrun := h.srun
  have hafter : ∀ v, s.answers.length + 1 < s.round (some v) := by
    intro v
    have hall := below_of_children (F := st.tree) (x := none)
      (P := fun v => s.answers.length + 1 < s.round (some v))
      (fun v u hu hlt => Nat.lt_of_lt_of_le hlt ((h.stepd v).above u hu))
      (fun c hc => hsrun ▸ hcomplete.round_lt hnode hc)
    apply hall
    rw [below_none]
    exact Finset.mem_univ v
  have hhandled : ∀ v, s.handled v = s.answers.length := by
    intro v
    have hlt := hafter v
    have hphase := (h.stepd v).phase
    have hle := (h.stepd v).handled_le
    have htoNat := Bool.toNat_le (s.node (some v)).waitingKvsResp
    omega
  generalize hs' : s.answer st = s'
  have hself : s'.node none = (s.node none).answered st := by
    rw [← hs']
    exact put_node_self s none _
  have hother : ∀ v, s'.node (some v) = s.node (some v) := by
    rw [← hs']
    exact fun v => put_node_of_ne (Option.some_ne_none v) ((s.node none).answered st)
  have hrself : s'.round none = s.round none + 1 := by rw [Net.round, hself]; rfl
  have hrother : ∀ v, s'.round (some v) = s.round (some v) := fun v => by rw [Net.round, hother v]; rfl
  have hanswers : s'.answers = s.answers ++ [((s.node none).temp.seq, (s.node none).temp.pairs)] := by
    rw [← hs']
    rfl
  have hlength : s'.answers.length = s.answers.length + 1 := by
    rw [hanswers, length_append]
    rfl
  have hresps : s'.resps = s.resps ++ (List.finRange n).map fun v =>
      ⟨v, (s.node none).temp.seq, (s.node none).temp.pairs⟩ := by
    rw [← hs']
    rfl
  obtain ⟨hfences, hputs, hfencedEq, hblockedEq, hhandledEq, hdeliveredEq, halive⟩ :
      s'.fences = s.fences ∧ s'.puts = s.puts ∧ s'.fenced = s.fenced ∧ s'.blocked = s.blocked ∧
        s'.handled = s.handled ∧ s'.delivered = s.delivered ∧ s'.killed = s.killed := by
    rw [← hs']
    exact ⟨rfl, rfl, rfl, rfl, rfl, rfl, rfl⟩
  obtain ⟨hok, hkids⟩ := nodeOk_sent hcomplete hself rfl rfl rfl rfl rfl rfl rfl
  refine ⟨halive.trans h.alive, ?_, fun y => ?_, fun y _ => ?_, fun v => ?_, fun m hm => ?_,
    fun v r hr hlt => ?_, fun i a ha => ?_, ?_, ?_⟩
  · rw [hrself, hsrun, hlength]
  · cases y with
    | none => exact hok
    | some v =>
      exact (h.node (some v)).congr (hother v) (by rw [hputs]) (fun c _ => by rw [hputs])
        (by rw [hfencedEq]) fun c _ => (hrother c).ge
  · cases y with
    | none =>
      rw [hself]
      exact Or.inl ⟨rfl, hkids⟩
    | some v =>
      rw [hother v, hrother v, hfencedEq]
      exact h.incomplete (some v) (by simp)
  · have hstepd := h.stepd v
    refine ⟨?_, ?_, ?_, fun u hu => ?_, ?_, ?_, ?_, ?_⟩
    · rw [hrother, hother, hhandledEq]
      exact hstepd.phase
    · rw [hhandledEq, hlength]
      exact Nat.le_succ_of_le hstepd.handled_le
    · rw [hrother, hlength]
      exact hafter v
    · rw [hrother, hrother]
      exact hstepd.above u hu
    · rw [hfencedEq, hhandledEq, hblockedEq]
      exact hstepd.fenced
    · rw [hother, hblockedEq]
      exact hstepd.blocked
    · have hold : s.resps.filter (fun m => m.dest = v) = [] := by
        rw [hstepd.resps, hhandled, getElem?_length]
      rw [hresps, filter_append, hold, filter_finRange, hhandledEq, hhandled, hanswers,
        getElem?_concat_length]
      rfl
    · rw [hother, hhandledEq, hanswers, take_append_of_le_length hstepd.handled_le]
      exact hstepd.kvs
  · rw [hfences] at hm
    exact (h.msg m hm).congr (by rw [hputs]) (hrother _).ge
  · rw [hrother] at hlt
    rw [hfences]
    exact h.once v r hr hlt
  · rw [hputs]
    rw [hanswers] at ha
    by_cases hi : i < s.answers.length
    · rw [getElem?_append_left hi] at ha
      exact h.answers i a ha
    · have hlt := (List.getElem?_eq_some_iff.mp ha).1
      rw [length_append, length_singleton] at hlt
      have hi' : i = s.answers.length := by omega
      rw [hi', getElem?_concat_length] at ha
      obtain rfl := Option.some.inj ha
      rw [hi']
      refine ⟨hnode.seq.trans hsrun, ?_⟩
      rw [hcomplete.pairs hnode, below_none, hsrun]
      exact zero_add _
  · rw [hputs, hhandledEq]
    exact h.puts
  · apply h.delivered_mono hdeliveredEq
    · intro i m hm
      rw [hfences]
      exact hm
    · intro y c
      cases y with
      | none =>
        rw [hself]
        exact le_rfl
      | some u => rw [hother]

/-- A node sends if it has to. -/
theorem Inv.sendIfComplete (h : Inv st {x} s) (hany : fencedTasks st s.fenced (s.round x) x ≠ ∅ ∨
    handledKids st x (s.node x) ≠ ∅) : Inv st ∅ (sendIfComplete st s x) := by
  have htasks : fencedTasks st s.fenced (s.round x) x ⊆ Finset.range (st.tasks x) := fencedTasks_sub _ _ _
  have hkids : handledKids st x (s.node x) ⊆ st.tree.children x := handledKids_sub _ _
  by_cases hzero : (s.node x).childrenToWait = 0 ∧ (s.node x).tasksToWait = 0
  · obtain ⟨hall, hall'⟩ := (h.node x).counts.complete htasks hkids hany hzero
    cases x with
    | none =>
      rw [sendIfComplete_srun hzero]
      exact h.send_srun ⟨hall, hall'⟩
    | some v =>
      rw [sendIfComplete_stepd hzero]
      exact h.send_stepd ⟨hall, hall'⟩
  · rw [Pmi2.sendIfComplete, if_neg hzero]
    refine { h with incomplete := fun y _ => ?_ }
    by_cases hy : y = x
    · rw [hy]
      exact (h.node x).counts.incomplete htasks hkids hzero
    · exact h.incomplete y hy

/-! ## Steps of one node -/

/-- A step of the node `x` that begins no round and sends nothing. -/
structure Local (x : Option (Fin n)) (s s' : Net n) : Prop where
  killed : s'.killed = s.killed
  fences : s'.fences = s.fences
  answers : s'.answers = s.answers
  delivered : s'.delivered = s.delivered
  other : ∀ y, y ≠ x → s'.node y = s.node y
  seq : (s'.node x).kvsSeq = (s.node x).kvsSeq
  kids : ∀ c, (s.node x).childrenKvsSeq c ≤ (s'.node x).childrenKvsSeq c
  stepd : ∀ w, some w ≠ x → s'.handled w = s.handled w ∧
    s'.resps.filter (fun m => m.dest = w) = s.resps.filter (fun m => m.dest = w) ∧
    s'.fenced w = s.fenced w ∧ s'.blocked w = s.blocked w
  puts : ∀ w r, r < s.round (some w) ∨ some w ≠ x → putsOf s'.puts w r = putsOf s.puts w r

theorem Local.round_eq (h : Local x s s') (y : Option (Fin n)) : s'.round y = s.round y := by
  by_cases hy : y = x
  · rw [hy]
    exact h.seq
  · rw [Net.round, h.other y hy]
    rfl

theorem Local.branchPuts_eq (hl : Local x s s') (h : Inv st hot s) (hr : r < s.round (some c)) :
    branchPuts st s'.puts c r = branchPuts st s.puts c r := by
  apply Finset.sum_congr rfl
  intro w hw
  exact hl.puts w r (Or.inl (Nat.lt_of_lt_of_le hr (h.round_le_of_branch hw)))

/-- What the node itself counts when it has handled no message. -/
theorem Local.nodeOk (hl : Local x s s') (h : Inv st hot s)
    (hkids : (s'.node x).childrenKvsSeq = (s.node x).childrenKvsSeq)
    (hseq : (s'.node x).temp.seq = (s.node x).temp.seq)
    (hfits : (s'.node x).temp.cnt ≤ (s'.node x).temp.size)
    (hpairs : ((s'.node x).temp.pairs : Multiset Pair) = ownPuts s'.puts (s.round x) x +
      ∑ c ∈ handledKids st x (s.node x), branchPuts st s.puts c (s.round x))
    (hcounts : Counts st x (s'.node x) (fencedTasks st s'.fenced (s.round x) x)
      (handledKids st x (s.node x))) :
    NodeOk st s' x ∧ handledKids st x (s'.node x) = handledKids st x (s.node x) := by
  have hhandled : handledKids st x (s'.node x) = handledKids st x (s.node x) := by
    rw [handledKids, handledKids, hkids, hl.seq]
  have hr := hl.round_eq x
  refine ⟨⟨fun c hc => ?_, ?_, hfits, ?_, ?_⟩, hhandled⟩
  · rw [hkids, hr, hl.round_eq]
    exact (h.node x).kid c hc
  · rw [hseq, hr]
    exact (h.node x).seq
  · rw [hr, hhandled, hpairs]
    congr 1
    exact Finset.sum_congr rfl fun c hc => (hl.branchPuts_eq h ((h.node x).round_lt hc)).symm
  · rw [hr, hhandled]
    exact hcounts

/-- Where a stepd is when only its buffer and its counters have changed. -/
theorem Local.stepdOk (hl : Local x s s') (h : Inv st hot s)
    (hwaiting : (s'.node (some v)).waitingKvsResp = (s.node (some v)).waitingKvsResp)
    (hkvs : (s'.node (some v)).kvs = (s.node (some v)).kvs)
    (hown : s'.handled v = s.handled v ∧
      s'.resps.filter (fun m => m.dest = v) = s.resps.filter (fun m => m.dest = v) ∧
      s'.fenced v = s.fenced v ∧ s'.blocked v = s.blocked v) : StepdOk st s' v := by
  obtain ⟨hhandled, hresps, hfenced, hblocked⟩ := hown
  refine (h.stepd v).congr (hl.round_eq _) hwaiting hkvs hhandled hl.answers hresps hfenced hblocked
    fun u hu => ?_
  rw [hl.round_eq]
  exact (h.stepd v).above u hu

/-- What a step of one node has to show. -/
theorem Local.inv (hl : Local x s s') (h : Inv st ∅ s) (hnode : NodeOk st s' x)
    (hincomplete : x ∉ hot → Incomplete st x (fencedTasks st s'.fenced (s.round x) x)
      (handledKids st x (s'.node x)))
    (hstepd : ∀ v, some v = x → StepdOk st s' v)
    (hputs : ∀ e ∈ s'.puts, e.task < st.ltasks e.node ∧ 1 ≤ e.round ∧ e.round ≤ s'.handled e.node + 1) :
    Inv st hot s' := by
  have hfenced : ∀ y, y ≠ x →
      fencedTasks st s'.fenced (s.round y) y = fencedTasks st s.fenced (s.round y) y := by
    intro y hy
    cases y with
    | none => rfl
    | some w => rw [fencedTasks, fencedTasks, (hl.stepd w hy).2.2.1]
  refine ⟨hl.killed.trans h.alive, ?_, fun y => ?_, fun y hhot => ?_, fun w => ?_, fun m hm => ?_,
    fun w r hr hlt => ?_, fun i a ha => ?_, hputs, ?_⟩
  · rw [hl.round_eq, hl.answers]
    exact h.srun
  · by_cases hy : y = x
    · rw [hy]
      exact hnode
    · apply (h.node y).congr (hl.other y hy)
      · cases y with
        | none => rfl
        | some w => exact hl.puts w _ (Or.inr hy)
      · exact fun c hc => hl.branchPuts_eq h hc
      · exact hfenced y hy
      · exact fun c _ => (hl.round_eq (some c)).ge
  · by_cases hy : y = x
    · rw [hy, hl.round_eq]
      exact hincomplete (hy ▸ hhot)
    · rw [hl.round_eq, hl.other y hy, hfenced y hy]
      exact h.incomplete y (Set.notMem_empty _)
  · by_cases hw : some w = x
    · exact hstepd w hw
    · have hnode := hl.other _ hw
      exact hl.stepdOk h (by rw [hnode]) (by rw [hnode]) (hl.stepd w hw)
  · rw [hl.fences] at hm
    exact (h.msg m hm).congr (hl.branchPuts_eq h (h.msg m hm).sent) (hl.round_eq _).ge
  · rw [hl.round_eq] at hlt
    rw [hl.fences]
    exact h.once w r hr hlt
  · rw [hl.answers] at ha
    have hok := h.answers i a ha
    refine ⟨hok.1, hok.2.trans (Finset.sum_congr rfl fun w _ => (hl.puts w _ (Or.inl ?_)).symm)⟩
    have hi := (List.getElem?_eq_some_iff.mp ha).1
    have hgt := (h.stepd w).round_gt
    omega
  · apply h.delivered_mono hl.delivered
    · intro i m hm
      rw [hl.fences]
      exact hm
    · intro y c
      by_cases hy : y = x
      · rw [hy]
        exact hl.kids c
      · rw [hl.other y hy]

/-! ## Puts -/

theorem putsOf_concat (puts : List (Put n)) (e : Put n) (w : Fin n) (r : Nat) :
    putsOf (puts ++ [e]) w r = putsOf puts w r + if e.node = w ∧ e.round = r then {e.pair} else 0 := by
  rw [putsOf, putsOf, filter_append, map_append, ← Multiset.coe_add]
  congr 1
  by_cases he : e.node = w ∧ e.round = r
  · simp [he]
  · simp [he]

theorem putsOf_concat_of_ne (puts : List (Put n)) {e : Put n} {w : Fin n}
    (h : e.node = w → e.round ≠ r) : putsOf (puts ++ [e]) w r = putsOf puts w r := by
  rw [putsOf_concat, if_neg fun he => h he.1 he.2, add_zero]

/-- A task that does not wait is in the round of its stepd. -/
theorem StepdOk.of_not_blocked (h : StepdOk st s v) (ht : t < st.ltasks v)
    (hblocked : s.blocked v t = false) : (s.node (some v)).waitingKvsResp = false ∧
      s.fenced v t + 1 = s.round (some v) ∧ s.handled v + 1 = s.round (some v) := by
  have hwait : (s.node (some v)).waitingKvsResp = false := by
    rw [← Bool.not_eq_true]
    intro hw
    rw [h.blocked hw t ht] at hblocked
    cases hblocked
  have hphase := h.phase
  have hfenced := h.fenced t ht
  rw [hwait] at hphase
  rw [hblocked] at hfenced
  simp at hphase hfenced
  exact ⟨hwait, by omega, by omega⟩

/-- A pair goes into the buffer of the round that its task is in. -/
theorem Inv.put (h : Inv st ∅ s) (ht : t < st.ltasks v) (hblocked : s.blocked v t = false)
    {p : Pair} (hp : packedSize p ≤ 2048) : ∃ s', handleKvsPut s v t p = some s' ∧ Inv st ∅ s' := by
  have hnode := h.node (some v)
  obtain ⟨temp, hadd, hseq, hpairs, hfits⟩ := tempKvsAdd_eq hnode.fits hp
  obtain ⟨-, hround, hhandled⟩ := (h.stepd v).of_not_blocked ht hblocked
  refine ⟨{ s.put (some v) { s.node (some v) with temp } with
    puts := s.puts ++ [⟨v, t, s.fenced v t + 1, p⟩] }, by simp only [handleKvsPut, hadd]; rfl, ?_⟩
  generalize hs' : ({ s.put (some v) { s.node (some v) with temp } with
    puts := s.puts ++ [⟨v, t, s.fenced v t + 1, p⟩] } : Net n) = s'
  have hself : s'.node (some v) = { s.node (some v) with temp } := by
    rw [← hs']
    exact put_node_self s (some v) _
  have hputs : s'.puts = s.puts ++ [⟨v, t, s.fenced v t + 1, p⟩] := by rw [← hs']
  have hfenced : s'.fenced = s.fenced := by rw [← hs']; rfl
  have hhandledEq : s'.handled = s.handled := by rw [← hs']; rfl
  have hl : Local (some v) s s' := by
    refine ⟨?_, ?_, ?_, ?_, ?_, by rw [hself], fun c => by rw [hself], ?_, fun w r hr => ?_⟩
    iterate 4 rw [← hs']; rfl
    · rw [← hs']
      exact fun y hy => put_node_of_ne hy _
    · rw [← hs']
      exact fun w _ => ⟨rfl, rfl, rfl, rfl⟩
    -- No message and no buffer of another node is for this round of the stepd.
    · rw [hputs]
      apply putsOf_concat_of_ne
      rintro rfl
      rcases hr with hr | hr
      · exact hround.trans_ne hr.ne'
      · exact absurd rfl hr
  obtain ⟨hok, hkids⟩ := hl.nodeOk h (by rw [hself]) (by rw [hself]; exact hseq)
    (by rw [hself]; exact hfits)
    (by
      rw [hself, hputs]
      show (temp.pairs : Multiset Pair) = putsOf _ v _ + _
      rw [hpairs, ← Multiset.coe_add, hnode.pairs, putsOf_concat, if_pos ⟨rfl, hround⟩]
      exact add_right_comm _ _ _)
    (by
      rw [hself, hfenced]
      exact ⟨hnode.counts.idle, hnode.counts.armed⟩)
  apply hl.inv h hok
  · intro hnot
    rw [hkids, hfenced]
    exact h.incomplete (some v) hnot
  · intro w hw
    obtain rfl := Option.some.inj hw
    exact hl.stepdOk h (by rw [hself]) (by rw [hself]) (by rw [← hs']; exact ⟨rfl, rfl, rfl, rfl⟩)
  · intro e he
    rw [hputs, mem_append, mem_singleton] at he
    rw [hhandledEq]
    rcases he with he | rfl
    · exact h.puts e he
    · refine ⟨ht, Nat.le_add_left 1 _, ?_⟩
      show s.fenced v t + 1 ≤ s.handled v + 1
      rw [hround, hhandled]

/-! ## Fences of tasks -/

theorem arm_eq (x : Option (Fin n)) (nd : Node n) : nd.arm st x =
    { nd with
      tasksToWait := (nd.arm st x).tasksToWait, childrenToWait := (nd.arm st x).childrenToWait } := by
  rw [Node.arm]
  split <;> rfl

/-- A stepd has counted a fence of a task. -/
def Net.fence (st : Step n) (s : Net n) (v : Fin n) (t : Nat) : Net n :=
  let nd := Node.arm st (some v) (s.node (some v))
  { s.put (some v) { nd with tasksToWait := nd.tasksToWait - 1 } with
    fenced := Function.update s.fenced v (Function.update (s.fenced v) t (s.fenced v t + 1))
    blocked := Function.update s.blocked v (Function.update (s.blocked v) t true) }

theorem handleKvsFence_eq (s : Net n) (v : Fin n) (t : Nat) :
    handleKvsFence st s v t = sendIfComplete st (s.fence st v t) (some v) := rfl

/-- One more task has fenced. -/
theorem fencedTasks_insert (ht : t < st.ltasks v) (hr : fenced v t + 1 = r) :
    fencedTasks st (Function.update fenced v (Function.update (fenced v) t (fenced v t + 1))) r (some v) =
      insert t (fencedTasks st fenced r (some v)) ∧ t ∉ fencedTasks st fenced r (some v) := by
  constructor
  · ext t'
    by_cases htt : t' = t
    · simp [fencedTasks, htt, ht, hr]
    · simp [fencedTasks, htt]
  · intro hmem
    have hle := (Finset.mem_filter.mp hmem).2
    omega

/-- A task fences. -/
theorem Inv.fence (h : Inv st ∅ s) (ht : t < st.ltasks v) (hblocked : s.blocked v t = false) :
    Inv st ∅ (handleKvsFence st s v t) := by
  have hnode := h.node (some v)
  have hstepd := h.stepd v
  obtain ⟨hwait, hround, hhandled⟩ := hstepd.of_not_blocked ht hblocked
  obtain ⟨htasks, hnew⟩ := fencedTasks_insert ht hround
  obtain ⟨harm, harm'⟩ := hnode.counts.arm (fencedTasks_sub _ _ _) (handledKids_sub _ _)
    (h.incomplete (some v) (Set.notMem_empty _))
  rw [handleKvsFence_eq]
  generalize hs' : s.fence st v t = s'
  have hself : s'.node (some v) = { s.node (some v) with
      tasksToWait := ((s.node (some v)).arm st (some v)).tasksToWait - 1
      childrenToWait := ((s.node (some v)).arm st (some v)).childrenToWait } := by
    rw [← hs']
    show (Net.put s (some v) _).node (some v) = _
    rw [put_node_self, arm_eq]
  have hfencedEq : s'.fenced =
      Function.update s.fenced v (Function.update (s.fenced v) t (s.fenced v t + 1)) := by
    rw [← hs']
    rfl
  have hblockedEq : s'.blocked = Function.update s.blocked v (Function.update (s.blocked v) t true) := by
    rw [← hs']
    rfl
  obtain ⟨hputs, hhandledEq, hrespsEq⟩ :
      s'.puts = s.puts ∧ s'.handled = s.handled ∧ s'.resps = s.resps := by
    rw [← hs']
    exact ⟨rfl, rfl, rfl⟩
  have hl : Local (some v) s s' := by
    refine ⟨?_, ?_, ?_, ?_, ?_, by rw [hself], fun c => by rw [hself], fun w hw => ?_,
      fun w r _ => by rw [hputs]⟩
    iterate 4 rw [← hs']; rfl
    · rw [← hs']
      exact fun y hy => put_node_of_ne hy _
    · have hne : w ≠ v := fun heq => hw (congrArg some heq)
      rw [hhandledEq, hrespsEq, hfencedEq, hblockedEq, Function.update_of_ne hne,
        Function.update_of_ne hne]
      exact ⟨rfl, rfl, rfl, rfl⟩
  rw [← hfencedEq] at htasks
  obtain ⟨hok, hkids⟩ := hl.nodeOk h (by rw [hself]) (by rw [hself]) (by rw [hself]; exact hnode.fits)
    (by rw [hself, hputs]; exact hnode.pairs)
    (by
      rw [htasks, hself]
      refine ⟨fun hempty => absurd hempty (Finset.insert_ne_empty _ _), fun _ => ⟨?_, harm'⟩⟩
      rw [Finset.card_insert_of_notMem hnew]
      dsimp only
      omega)
  have hinv : Inv st {some v} s' := by
    apply hl.inv h hok
    · exact fun hnot => absurd rfl hnot
    · intro w hw
      obtain rfl := Option.some.inj hw
      have hr := hl.round_eq
      refine ⟨?_, ?_, ?_, fun u hu => ?_, fun t' ht' => ?_, fun hw' => ?_, ?_, ?_⟩
      · rw [hr, hself, hhandledEq]
        exact hstepd.phase
      · rw [hhandledEq, hl.answers]
        exact hstepd.handled_le
      · rw [hr, hl.answers]
        exact hstepd.round_gt
      · rw [hr, hr]
        exact hstepd.above u hu
      · rw [hfencedEq, hblockedEq, hhandledEq, Function.update_self, Function.update_self]
        by_cases htt : t' = t
        · rw [htt, Function.update_self, Function.update_self, hround, ← hhandled]
          rfl
        · rw [Function.update_of_ne htt, Function.update_of_ne htt]
          exact hstepd.fenced t' ht'
      · rw [hself, hwait] at hw'
        cases hw'
      · rw [hrespsEq, hl.answers, hhandledEq]
        exact hstepd.resps
      · rw [hself, hl.answers, hhandledEq]
        exact hstepd.kvs
    · rw [hputs, hhandledEq]
      exact h.puts
  apply hinv.sendIfComplete
  left
  rw [hl.round_eq, htasks]
  exact Finset.insert_ne_empty _ _

/-! ## Messages from below -/

theorem sendIfComplete_keeps (s : Net n) (x y : Option (Fin n)) (hm : s.fences[i]? = some m) :
    (sendIfComplete st s x).fences[i]? = some m ∧
      ((sendIfComplete st s x).node y).childrenKvsSeq = (s.node y).childrenKvsSeq := by
  have hi := (List.getElem?_eq_some_iff.mp hm).1
  by_cases hzero : (s.node x).childrenToWait = 0 ∧ (s.node x).tasksToWait = 0
  · cases x with
    | none =>
      rw [sendIfComplete_srun hzero]
      refine ⟨hm, ?_⟩
      by_cases hy : y = none
      · rw [hy]
        have hself := congrArg Node.childrenKvsSeq (put_node_self s none ((s.node none).answered st))
        exact hself
      · exact congrArg Node.childrenKvsSeq (put_node_of_ne hy ((s.node none).answered st))
    | some v =>
      rw [sendIfComplete_stepd hzero]
      refine ⟨(getElem?_append_left hi).trans hm, ?_⟩
      by_cases hy : y = some v
      · rw [hy]
        have hself := congrArg Node.childrenKvsSeq
          (put_node_self s (some v) ((s.node (some v)).sent st v))
        exact hself
      · exact congrArg Node.childrenKvsSeq (put_node_of_ne hy ((s.node (some v)).sent st v))
  · rw [sendIfComplete, if_neg hzero]
    exact ⟨hm, rfl⟩

/-- A message was delivered and is handled, now or before. -/
theorem Inv.deliver (h : Inv st hot s) (hm : s.fences[i]? = some m)
    (hle : m.seq ≤ (s.node m.dest).childrenKvsSeq m.fromNodeid) :
    Inv st hot { s with delivered := s.delivered ++ [i] } := by
  refine ⟨h.alive, h.srun, fun y => ?_, h.incomplete, fun w => ?_, fun m hm => ?_, h.once, h.answers,
    h.puts, fun j hj => ?_⟩
  · exact (h.node y).congr rfl rfl (fun _ _ => rfl) rfl fun _ _ => le_rfl
  · exact (h.stepd w).congr rfl rfl rfl rfl rfl rfl rfl rfl (h.stepd w).above
  · exact (h.msg m hm).congr rfl le_rfl
  · rcases List.mem_append.mp hj with hj | hj
    · exact h.delivered j hj
    · rw [List.mem_singleton.mp hj]
      exact ⟨m, hm, hle⟩

/-- A node has counted the message of a child. -/
def Node.merge (st : Step n) (x : Option (Fin n)) (m : FenceMsg n) (temp : TempKvs) (nd : Node n) :
    Node n :=
  let nd := { nd with childrenKvsSeq := Function.update nd.childrenKvsSeq m.fromNodeid m.seq }
  let nd := Node.arm st x nd
  { nd with childrenToWait := nd.childrenToWait - m.numChildren, temp }

theorem handleFenceMsg_eq (hseq : m.seq = (s.node m.dest).kvsSeq)
    (hnew : m.seq ≠ (s.node m.dest).childrenKvsSeq m.fromNodeid) {temp : TempKvs}
    (htemp : tempKvsMerge (s.node m.dest).temp m.pairs = some temp) : handleFenceMsg st s m =
      some (Pmi2.sendIfComplete st (s.put m.dest ((s.node m.dest).merge st m.dest m temp)) m.dest) := by
  have harm : (Node.arm st m.dest { s.node m.dest with
      childrenKvsSeq := Function.update (s.node m.dest).childrenKvsSeq m.fromNodeid m.seq }).temp =
        (s.node m.dest).temp := by
    rw [arm_eq]
  simp only [handleFenceMsg, if_neg (not_not.mpr hseq), if_neg hnew, harm, htemp]
  rfl

/-- The message of one more child is handled. -/
theorem handledKids_insert {nd nd' : Node n} (hc : st.tree.parent c = x)
    (hseq : nd'.kvsSeq = nd.kvsSeq)
    (hkids : nd'.childrenKvsSeq = Function.update nd.childrenKvsSeq c nd.kvsSeq) :
    handledKids st x nd' = insert c (handledKids st x nd) := by
  ext c'
  by_cases hcc : c' = c
  · simp [handledKids, hcc, hc, hseq, hkids]
  · simp [handledKids, hseq, hkids, hcc]

/-- The message of a child is counted. -/
theorem Inv.merge (h : Inv st ∅ s) (hmsg : MsgOk st s m) (hseq : m.seq = s.round m.dest)
    (hnew : m.seq ≠ (s.node m.dest).childrenKvsSeq m.fromNodeid) {temp : TempKvs}
    (htempSeq : temp.seq = (s.node m.dest).temp.seq) (hfits : temp.cnt ≤ temp.size)
    (hpairs : temp.pairs = (s.node m.dest).temp.pairs ++ m.pairs) :
    Inv st {m.dest} (s.put m.dest ((s.node m.dest).merge st m.dest m temp)) ∧
      m.fromNodeid ∈ handledKids st m.dest ((s.node m.dest).merge st m.dest m temp) := by
  have hnode := h.node m.dest
  have hparent := hmsg.dest.symm
  have hkid : (s.node m.dest).childrenKvsSeq m.fromNodeid + 1 = s.round m.dest := by
    rcases hnode.kid m.fromNodeid hparent with hok | hok
    · exact absurd (hseq.trans hok.1.symm) hnew
    · exact hok
  have hcounts : Counts st m.dest { s.node m.dest with
      childrenKvsSeq := Function.update (s.node m.dest).childrenKvsSeq m.fromNodeid m.seq }
      (fencedTasks st s.fenced (s.round m.dest) m.dest) (handledKids st m.dest (s.node m.dest)) :=
    ⟨hnode.counts.idle, hnode.counts.armed⟩
  obtain ⟨harm, harm'⟩ := hcounts.arm (fencedTasks_sub _ _ _) (handledKids_sub _ _)
    (h.incomplete m.dest (Set.notMem_empty _))
  generalize hnd : (s.node m.dest).merge st m.dest m temp = nd
  have hndEq : nd = { s.node m.dest with
      tasksToWait := (Node.arm st m.dest { s.node m.dest with
        childrenKvsSeq := Function.update (s.node m.dest).childrenKvsSeq m.fromNodeid m.seq }).tasksToWait
      childrenToWait := (Node.arm st m.dest { s.node m.dest with
        childrenKvsSeq := Function.update (s.node m.dest).childrenKvsSeq m.fromNodeid m.seq }).childrenToWait
          - m.numChildren
      childrenKvsSeq := Function.update (s.node m.dest).childrenKvsSeq m.fromNodeid m.seq
      temp } := by
    rw [← hnd, Node.merge]
    dsimp only
    rw [arm_eq]
  have hkvsSeq : nd.kvsSeq = s.round m.dest := by
    rw [hndEq]
    rfl
  have hchildren : nd.childrenKvsSeq =
      Function.update (s.node m.dest).childrenKvsSeq m.fromNodeid (s.round m.dest) := by
    rw [hndEq, ← hseq]
  have hinsert : handledKids st m.dest nd =
      insert m.fromNodeid (handledKids st m.dest (s.node m.dest)) :=
    handledKids_insert hparent hkvsSeq hchildren
  have hnot : m.fromNodeid ∉ handledKids st m.dest (s.node m.dest) := by
    intro hmem
    exact hnew (hseq.trans (Finset.mem_filter.mp hmem).2.symm)
  generalize hs' : s.put m.dest nd = s'
  have hself : s'.node m.dest = nd := by
    rw [← hs']
    exact put_node_self s m.dest nd
  have hrest : s'.puts = s.puts ∧ s'.fenced = s.fenced ∧ s'.blocked = s.blocked ∧
      s'.handled = s.handled ∧ s'.resps = s.resps := by
    rw [← hs']
    exact ⟨rfl, rfl, rfl, rfl, rfl⟩
  obtain ⟨hputs, hfencedEq, hblockedEq, hhandledEq, hrespsEq⟩ := hrest
  have hl : Local m.dest s s' := by
    refine ⟨?_, ?_, ?_, ?_, ?_, by rw [hself]; exact hkvsSeq, fun c => ?_, fun w _ => ?_,
      fun w r _ => by rw [hputs]⟩
    iterate 4 rw [← hs']; rfl
    · rw [← hs']
      exact fun y hy => put_node_of_ne hy nd
    · rw [hself, hchildren]
      by_cases hc : c = m.fromNodeid
      · rw [hc, Function.update_self]
        omega
      · rw [Function.update_of_ne hc]
    · rw [hhandledEq, hrespsEq, hfencedEq, hblockedEq]
      exact ⟨rfl, rfl, rfl, rfl⟩
  have hr := hl.round_eq
  refine ⟨hl.inv h ⟨fun c hc => ?_, ?_, ?_, ?_, ?_⟩ (fun hnot => absurd rfl hnot) (fun w hw => ?_) ?_,
    hinsert ▸ Finset.mem_insert_self _ _⟩
  · rw [hr, hr, hself, hchildren]
    by_cases hcm : c = m.fromNodeid
    · rw [hcm, Function.update_self, ← hseq]
      exact Or.inl ⟨rfl, hmsg.sent⟩
    · rw [Function.update_of_ne hcm]
      exact hnode.kid c hc
  · rw [hr, hself, hndEq]
    exact htempSeq.trans hnode.seq
  · rw [hself, hndEq]
    exact hfits
  · rw [hr, hself, hputs, hinsert, Finset.sum_insert hnot]
    have htemp : nd.temp = temp := by rw [hndEq]
    rw [htemp, hpairs, ← Multiset.coe_add, hnode.pairs, hmsg.pairs, hseq]
    abel
  · rw [hr, hself, hinsert, hfencedEq]
    refine ⟨fun _ hempty => absurd hempty (Finset.insert_ne_empty _ _), fun _ => ?_⟩
    have hoff : offspring st (insert m.fromNodeid (handledKids st m.dest (s.node m.dest))) =
        st.numChildren (some m.fromNodeid) + 1 +
          offspring st (handledKids st m.dest (s.node m.dest)) := Finset.sum_insert hnot
    rw [hoff, hndEq]
    dsimp only
    rw [harm, harm', hmsg.numChildren]
    refine ⟨rfl, ?_⟩
    push_cast
    omega
  · rw [← hw] at hself
    apply hl.stepdOk h
    · rw [hself, hndEq, ← hw]
    · rw [hself, hndEq, ← hw]
    · rw [hhandledEq, hrespsEq, hfencedEq, hblockedEq]
      exact ⟨rfl, rfl, rfl, rfl⟩
  · rw [hputs, hhandledEq]
    exact h.puts

/-- A message is handled at its first delivery and dropped at all others. -/
theorem Inv.fenceMsg (h : Inv st ∅ s) (hm : s.fences[i]? = some m) :
    ∃ s', handleFenceMsg st s m = some s' ∧ Inv st ∅ { s' with delivered := s'.delivered ++ [i] } := by
  have hmsg := h.msg m (mem_of_getElem? hm)
  have hkid := (h.node m.dest).kid m.fromNodeid hmsg.dest.symm
  by_cases hseq : m.seq = s.round m.dest
  · by_cases hnew : m.seq = (s.node m.dest).childrenKvsSeq m.fromNodeid
    · refine ⟨s, ?_, h.deliver hm hnew.le⟩
      have hseq' : ¬ m.seq ≠ (s.node m.dest).kvsSeq := not_not.mpr hseq
      rw [handleFenceMsg, if_neg hseq', if_pos hnew]
    · obtain ⟨temp, htemp, htempSeq, hpairs, hfits⟩ := tempKvsMerge_eq (h.node m.dest).fits m.pairs
      refine ⟨_, handleFenceMsg_eq hseq hnew htemp, ?_⟩
      obtain ⟨hinv, hmem⟩ := h.merge hmsg hseq hnew htempSeq hfits hpairs
      have hm' : (s.put m.dest ((s.node m.dest).merge st m.dest m temp)).fences[i]? = some m := hm
      obtain ⟨hkept, hkept'⟩ := sendIfComplete_keeps _ m.dest m.dest hm'
      apply (hinv.sendIfComplete _).deliver hkept
      · rw [hkept', put_node_self]
        have hhandled := (Finset.mem_filter.mp hmem).2
        rw [hhandled, Node.merge]
        dsimp only
        rw [arm_eq]
        exact hseq.le
      · right
        rw [put_node_self]
        exact Finset.ne_empty_of_mem hmem
  · refine ⟨s, ?_, h.deliver hm ?_⟩
    · have hseq' : m.seq ≠ (s.node m.dest).kvsSeq := hseq
      rw [handleFenceMsg, if_pos hseq']
    · have hle := h.round_le m.fromNodeid m.dest
      have hsent := hmsg.sent
      omega

/-! ## Responses -/

/-- A response that was not delivered is the answer that its stepd waits for. -/
theorem Inv.pending (h : Inv st hot s) {m : RespMsg n} (hm : s.resps[i]? = some m) :
    s.answers[s.handled m.dest]? = some (m.seq, m.pairs) ∧ m.seq = s.handled m.dest + 1 ∧
      s.round (some m.dest) = s.handled m.dest + 2 ∧ s.answers.length = s.handled m.dest + 1 ∧
      (s.node (some m.dest)).waitingKvsResp = true ∧
      (s.resps.eraseIdx i).filter (fun m' => m'.dest = m.dest) = [] := by
  have hstepd := h.stepd m.dest
  have hresps := hstepd.resps
  cases ha : s.answers[s.handled m.dest]? with
  | none =>
    rw [ha] at hresps
    have hmem : m ∈ s.resps.filter fun m' => m'.dest = m.dest :=
      List.mem_filter.mpr ⟨mem_of_getElem? hm, decide_eq_true rfl⟩
    rw [hresps] at hmem
    cases hmem
  | some a =>
    rw [ha] at hresps
    obtain ⟨hmEq, hnil⟩ := filter_eraseIdx_self hm (decide_eq_true rfl) hresps
    have hseq : m.seq = s.handled m.dest + 1 := by
      rw [← (h.answers _ a ha).1]
      exact (congrArg RespMsg.seq hmEq).symm
    have hpairs : m.pairs = a.2 := (congrArg RespMsg.pairs hmEq).symm
    have hlt := (List.getElem?_eq_some_iff.mp ha).1
    have hgt := hstepd.round_gt
    have hphase := hstepd.phase
    have hwait : (s.node (some m.dest)).waitingKvsResp = true := by
      rw [← Bool.not_eq_false]
      intro hw
      rw [hw] at hphase
      simp at hphase
      omega
    rw [hwait] at hphase
    simp at hphase
    refine ⟨?_, hseq, by omega, by omega, hwait, hnil⟩
    rw [hpairs, hseq, ← (h.answers _ a ha).1]

/-- A stepd has handled a response. -/
def Net.respond (s : Net n) (i : Nat) (m : RespMsg n) : Net n :=
  let nd := s.node (some m.dest)
  { s.put (some m.dest) { nd with waitingKvsResp := false, kvs := putAll nd.kvs m.pairs } with
    resps := s.resps.eraseIdx i
    blocked := Function.update s.blocked m.dest fun _ => false
    handled := Function.update s.handled m.dest (s.handled m.dest + 1) }

theorem handleFenceResp_eq {m : RespMsg n} (hseq : m.seq + 1 = s.round (some m.dest))
    (hwait : (s.node (some m.dest)).waitingKvsResp = true) :
    handleFenceResp { s with resps := s.resps.eraseIdx i } m = s.respond i m := by
  have hseq' : ¬ m.seq + 2 = (s.node (some m.dest)).kvsSeq := by
    rw [Net.round] at hseq
    omega
  have hseq'' : ¬ m.seq + 1 ≠ (s.node (some m.dest)).kvsSeq := not_not.mpr hseq
  have hwait' : ¬ (s.node (some m.dest)).waitingKvsResp = false := by
    rw [hwait]
    exact Bool.noConfusion
  simp only [handleFenceResp, if_neg hseq', if_neg hseq'', if_neg hwait']
  rfl

/-- A stepd handles a response. -/
theorem Inv.fenceResp (h : Inv st ∅ s) {m : RespMsg n} (hm : s.resps[i]? = some m) :
    Inv st ∅ (handleFenceResp { s with resps := s.resps.eraseIdx i } m) := by
  obtain ⟨hanswer, hseq, hround, hlength, hwait, hnil⟩ := h.pending hm
  have hstepd := h.stepd m.dest
  rw [handleFenceResp_eq (by omega) hwait]
  generalize hs' : s.respond i m = s'
  have hself : s'.node (some m.dest) = { s.node (some m.dest) with
      waitingKvsResp := false, kvs := putAll (s.node (some m.dest)).kvs m.pairs } := by
    rw [← hs']
    exact put_node_self s (some m.dest) _
  have hblockedEq : s'.blocked = Function.update s.blocked m.dest fun _ => false := by rw [← hs']; rfl
  have hhandledEq : s'.handled = Function.update s.handled m.dest (s.handled m.dest + 1) := by
    rw [← hs']
    rfl
  obtain ⟨hrespsEq, hfencedEq, hputs⟩ :
      s'.resps = s.resps.eraseIdx i ∧ s'.fenced = s.fenced ∧ s'.puts = s.puts := by
    rw [← hs']
    exact ⟨rfl, rfl, rfl⟩
  have hl : Local (some m.dest) s s' := by
    refine ⟨?_, ?_, ?_, ?_, ?_, by rw [hself], fun c => by rw [hself], fun w hw => ?_,
      fun w r _ => by rw [hputs]⟩
    iterate 4 rw [← hs']; rfl
    · rw [← hs']
      exact fun y hy => put_node_of_ne hy _
    · have hne : w ≠ m.dest := fun heq => hw (congrArg some heq)
      have hdest : m.dest ≠ w := Ne.symm hne
      rw [hhandledEq, hrespsEq, hfencedEq, hblockedEq, Function.update_of_ne hne,
        Function.update_of_ne hne, filter_eraseIdx_other hm (decide_eq_false hdest)]
      exact ⟨rfl, rfl, rfl, rfl⟩
  have hnode := h.node (some m.dest)
  obtain ⟨hok, hkids⟩ := hl.nodeOk h (by rw [hself]) (by rw [hself]) (by rw [hself]; exact hnode.fits)
    (by rw [hself, hputs]; exact hnode.pairs)
    (by rw [hself, hfencedEq]; exact ⟨hnode.counts.idle, hnode.counts.armed⟩)
  have hr := hl.round_eq
  apply hl.inv h hok
  · intro hnot
    rw [hkids, hfencedEq]
    exact h.incomplete _ hnot
  · intro w hw
    obtain rfl := Option.some.inj hw
    refine ⟨?_, ?_, ?_, fun u hu => ?_, fun t ht => ?_, fun hw' => ?_, ?_, ?_⟩
    · rw [hr, hself, hhandledEq, Function.update_self, hround]
      rfl
    · rw [hhandledEq, hl.answers, Function.update_self, hlength]
    · rw [hr, hl.answers]
      exact hstepd.round_gt
    · rw [hr, hr]
      exact hstepd.above u hu
    · rw [hfencedEq, hblockedEq, hhandledEq, Function.update_self, Function.update_self,
        hstepd.fenced t ht, hstepd.blocked hwait t ht]
      rfl
    · rw [hself] at hw'
      cases hw'
    · rw [hrespsEq, hl.answers, hhandledEq, Function.update_self, hnil,
        getElem?_eq_none hlength.le]
    · rw [hself, hl.answers, hhandledEq, Function.update_self, take_add_one, hanswer,
        flatMap_append, Option.toList_some, flatMap_singleton]
      dsimp only
      rw [hstepd.kvs]
      exact List.foldl_append.symm
  · intro e he
    rw [hputs] at he
    obtain ⟨htask, hpos, hle⟩ := h.puts e he
    refine ⟨htask, hpos, hle.trans ?_⟩
    rw [hhandledEq]
    by_cases hd : e.node = m.dest
    · rw [hd, Function.update_self]
      omega
    · rw [Function.update_of_ne hd]

end Slurm.Pmi2
