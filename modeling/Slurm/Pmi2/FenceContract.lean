import Slurm.Pmi2.FenceSteps

/-!
# Every fence ends with all pairs at all nodes

* `FenceContract`: what is promised in every state of a run.
* `Allowed`: a task puts pairs and fences again only after the response to its last fence.
* `Inv.fenceContract`: the promise follows from the invariant.
* `fenceContract_always`: every state of every run.
-/

namespace Slurm.Pmi2

open Lib.Forest Lib.Run List

variable {n : Nat} {st : Step n} {hot : Set (Option (Fin n))} {s s' : Net n} {v : Fin n}
variable {r : Nat}

/-! ## The contract -/

/-- The stepd has forwarded the round. -/
def Forwarded (s : Net n) (v : Fin n) (r : Nat) : Prop := ∃ m ∈ s.fences, m.fromNodeid = v ∧ m.seq = r

/-- The message of a stepd for a round was delivered. -/
def Delivered (s : Net n) (v : Fin n) (r : Nat) : Prop :=
  ∃ i ∈ s.delivered, ∃ m, s.fences[i]? = some m ∧ m.fromNodeid = v ∧ m.seq = r

/-- The pairs that all tasks put before their fence of a round. -/
def roundPairs (puts : List (Put n)) (r : Nat) : List Pair :=
  (puts.filter fun e => e.round = r).map Put.pair

/-- What is promised of the state after a run. -/
structure FenceContract (st : Step n) (s : Net n) : Prop where
  alive : s.killed = false
  put_fits : ∀ v t p, t < st.ltasks v → packedSize p ≤ 2048 → (handleKvsPut s v t p).isSome = true
  merge_fits : ∀ m ∈ s.fences, (handleFenceMsg st s m).isSome = true
  -- Each stepd forwards a round once, after its tasks and its offspring, and as soon as it can.
  forwards_once : ∀ v r, s.fences.countP (fun m => m.fromNodeid = v ∧ m.seq = r) ≤ 1
  tasks_first : ∀ v r, Forwarded s v r → ∀ w ∈ st.tree.branch v, ∀ t < st.ltasks w, r ≤ s.fenced w t
  offspring_first : ∀ v r, Forwarded s v r → ∀ w ∈ st.tree.below (some v), Forwarded s w r
  forwards : ∀ v r, 1 ≤ r → (∀ t < st.ltasks v, r ≤ s.fenced v t) →
    (∀ c, st.tree.parent c = some v → Delivered s c r) → Forwarded s v r
  -- `srun` answers a round once, with the pairs of the round, after all stepds forwarded it.
  answers_seq : s.answers.map Prod.fst = List.range' 1 s.answers.length
  answers_last : ∀ r, 1 ≤ r → r ≤ s.answers.length → ∀ v, Forwarded s v r
  answers_pairs : ∀ i (a : Nat × List Pair), s.answers[i]? = some a → a.2.Perm (roundPairs s.puts (i + 1))
  answers : ∀ r, (st.tree.children none).Nonempty →
    (∀ c, st.tree.parent c = none → Delivered s c r) → r ≤ s.answers.length
  -- A node has handled a response for each answer but those that are under way.
  responds : ∀ v, s.handled v < s.answers.length → ∃ m ∈ s.resps, m.dest = v
  -- It finds what was put up to the last round that it handled.
  finds : (s.puts.map fun e => e.pair.1).Nodup → ∀ v, ∀ e ∈ s.puts, e.round ≤ s.handled v →
    kvsGet (s.node (some v)).kvs e.pair.1 = some e.pair.2
  finds_only : (s.puts.map fun e => e.pair.1).Nodup → ∀ v key,
    (∀ e ∈ s.puts, e.round ≤ s.handled v → e.pair.1 ≠ key) → kvsGet (s.node (some v)).kvs key = none

/-! ## What was forwarded -/

theorem Inv.forwarded_iff (h : Inv st hot s) : Forwarded s v r ↔ 1 ≤ r ∧ r < s.round (some v) := by
  constructor
  · rintro ⟨m, hm, hv, hr⟩
    have hmsg := h.msg m hm
    have hpos := hmsg.pos
    have hsent := hmsg.sent
    rw [hr] at hpos hsent
    rw [hv] at hsent
    exact ⟨hpos, hsent⟩
  · rintro ⟨hpos, hlt⟩
    have hone := h.once v r hpos hlt
    have hsome : 0 < s.fences.countP fun m => decide (m.fromNodeid = v ∧ m.seq = r) := by omega
    obtain ⟨m, hm, hmv⟩ := List.countP_pos_iff.mp hsome
    exact ⟨m, hm, of_decide_eq_true hmv⟩

theorem Inv.forwards_once (h : Inv st hot s) (v : Fin n) (r : Nat) :
    s.fences.countP (fun m => m.fromNodeid = v ∧ m.seq = r) ≤ 1 := by
  by_cases hr : 1 ≤ r ∧ r < s.round (some v)
  · exact (h.once v r hr.1 hr.2).le
  · have hzero : s.fences.countP (fun m => m.fromNodeid = v ∧ m.seq = r) = 0 := by
      rw [countP_eq_zero]
      intro m hm hmv
      exact hr (h.forwarded_iff.mp ⟨m, hm, of_decide_eq_true hmv⟩)
    rw [hzero]
    exact Nat.zero_le 1

/-- A delivered message of the round of a node was handled. -/
theorem Inv.handled_of_delivered (h : Inv st hot s) {x : Option (Fin n)} {c : Fin n}
    (hc : st.tree.parent c = x) (hr : s.round x ≤ r) (hdelivered : Delivered s c r) :
    r = s.round x ∧ c ∈ handledKids st x (s.node x) := by
  obtain ⟨i, hi, m, hm, rfl, rfl⟩ := hdelivered
  obtain ⟨m', hm', hle⟩ := h.delivered i hi
  rw [hm] at hm'
  rw [← Option.some.inj hm', (h.msg m (mem_of_getElem? hm)).dest, hc] at hle
  rcases (h.node x).kid m.fromNodeid hc with hkid | hkid
  · exact ⟨by omega, Finset.mem_filter.mpr ⟨mem_children.mpr hc, hkid.1⟩⟩
  · omega

/-- A node that has all it waits for in a round has sent it. -/
theorem Inv.sent (h : Inv st ∅ s) {x : Option (Fin n)}
    (htasks : fencedTasks st s.fenced r x = Finset.range (st.tasks x))
    (hany : 0 < st.tasks x ∨ (st.tree.children x).Nonempty)
    (hle : fencedTasks st s.fenced r x ≠ ∅ → r ≤ s.round x)
    (hkids : ∀ c, st.tree.parent c = x → Delivered s c r) : r < s.round x := by
  by_contra hnot
  have hr : s.round x ≤ r := Nat.le_of_not_lt hnot
  have hround : r = s.round x := by
    rcases hany with hpos | ⟨c, hc⟩
    · refine le_antisymm (hle ?_) hr
      rw [htasks]
      exact Finset.nonempty_iff_ne_empty.mp (Finset.nonempty_range_iff.mpr hpos.ne')
    · exact (h.handled_of_delivered (mem_children.mp hc) hr (hkids c (mem_children.mp hc))).1
  have hall : handledKids st x (s.node x) = st.tree.children x := by
    apply Finset.Subset.antisymm (handledKids_sub _ _)
    intro c hc
    exact (h.handled_of_delivered (mem_children.mp hc) hr (hkids c (mem_children.mp hc))).2
  have hincomplete := h.incomplete x (Set.notMem_empty _)
  rw [← hround, htasks, hall, Incomplete, offspring_children, Finset.card_range] at hincomplete
  rcases hincomplete with ⟨hno, hno'⟩ | hlt | hlt
  · rcases hany with hpos | hne
    · exact absurd (Finset.range_eq_empty_iff.mp hno) hpos.ne'
    · exact hne.ne_empty hno'
  · exact Nat.lt_irrefl _ hlt
  · exact Nat.lt_irrefl _ hlt

theorem Inv.forwards (h : Inv st ∅ s) (htasks : ∀ t < st.ltasks v, r ≤ s.fenced v t)
    (hkids : ∀ c, st.tree.parent c = some v → Delivered s c r) : r < s.round (some v) := by
  have hpos : 0 < st.tasks (some v) := st.ltasks_pos v
  apply h.sent _ (Or.inl hpos) _ hkids
  · exact Finset.filter_true_of_mem fun t ht => htasks t (Finset.mem_range.mp ht)
  · intro _
    have hstepd := h.stepd v
    have hle := htasks 0 (st.ltasks_pos v)
    rw [hstepd.fenced 0 (st.ltasks_pos v)] at hle
    have htoNat := Bool.toNat_le (s.blocked v 0)
    have hphase := hstepd.phase
    omega

theorem Inv.answered (h : Inv st ∅ s) (hne : (st.tree.children none).Nonempty)
    (hkids : ∀ c, st.tree.parent c = none → Delivered s c r) : r ≤ s.answers.length := by
  have hlt : r < s.round none := h.sent rfl (Or.inr hne) (fun hno => absurd rfl hno) hkids
  rw [h.srun] at hlt
  omega

/-! ## Pairs of all tasks -/

theorem sum_putsOf (puts : List (Put n)) (r : Nat) :
    ∑ w, putsOf puts w r = (roundPairs puts r : Multiset Pair) := by
  induction puts with
  | nil => exact Finset.sum_eq_zero fun w _ => rfl
  | cons e puts ih =>
    have hcons : ∀ w, putsOf (e :: puts) w r =
        (if w = e.node then (if e.round = r then {e.pair} else 0) else 0) + putsOf puts w r := by
      intro w
      rw [putsOf, putsOf, filter_cons]
      by_cases hw : w = e.node
      · by_cases hr : e.round = r <;> simp [hw, hr]
      · simp [hw, Ne.symm hw]
    simp only [hcons, Finset.sum_add_distrib, Finset.sum_ite_eq', Finset.mem_univ, if_true, ih]
    rw [roundPairs, roundPairs, filter_cons]
    by_cases hr : e.round = r <;> simp [hr]

/-- The pairs of the first rounds. -/
def pairsUpTo (puts : List (Put n)) (k : Nat) : List Pair :=
  (puts.filter fun e => e.round ≤ k).map Put.pair

theorem pairsUpTo_succ (puts : List (Put n)) (k : Nat) :
    (pairsUpTo puts (k + 1)).Perm (pairsUpTo puts k ++ roundPairs puts (k + 1)) := by
  rw [pairsUpTo, pairsUpTo, roundPairs, ← map_append]
  apply List.Perm.map
  induction puts with
  | nil => exact List.Perm.refl _
  | cons e puts ih =>
    rcases Nat.lt_trichotomy e.round (k + 1) with hlt | heq | hgt
    · have hle : e.round ≤ k := Nat.le_of_lt_succ hlt
      simpa [filter_cons, hle, hlt.le, hlt.ne] using ih
    · have hnot : ¬ e.round ≤ k := by omega
      simp only [filter_cons, heq, le_refl, decide_true, if_true]
      rw [heq] at hnot
      simp only [hnot, decide_false, Bool.false_eq_true, if_false]
      exact (ih.cons e).trans List.perm_middle.symm
    · have hnot : ¬ e.round ≤ k := by omega
      have hnot' : ¬ e.round ≤ k + 1 := by omega
      simpa [filter_cons, hnot, hnot', hgt.ne'] using ih

theorem Inv.answers_pairs (h : Inv st hot s) {i : Nat} {a : Nat × List Pair}
    (ha : s.answers[i]? = some a) : a.2.Perm (roundPairs s.puts (i + 1)) := by
  apply Multiset.coe_eq_coe.mp
  rw [← sum_putsOf]
  exact (h.answers i a ha).2

/-- All answers of the first rounds. -/
theorem Inv.answers_upTo (h : Inv st hot s) {k : Nat} (hk : k ≤ s.answers.length) :
    ((s.answers.take k).flatMap Prod.snd).Perm (pairsUpTo s.puts k) := by
  induction k with
  | zero =>
    have hnone : s.puts.filter (fun e => e.round ≤ 0) = [] := by
      rw [filter_eq_nil_iff]
      intro e he hle
      have hpos := (h.puts e he).2.1
      have hzero := of_decide_eq_true hle
      omega
    rw [pairsUpTo, hnone]
    exact List.Perm.refl _
  | succ k ih =>
    have hget : s.answers[k]? = some s.answers[k] := getElem?_eq_getElem hk
    rw [take_add_one, hget, flatMap_append, Option.toList_some, flatMap_singleton]
    exact ((ih (Nat.le_of_succ_le hk)).append (h.answers_pairs hget)).trans (pairsUpTo_succ s.puts k).symm

theorem mem_pairsUpTo {puts : List (Put n)} {k : Nat} {p : Pair} :
    p ∈ pairsUpTo puts k ↔ ∃ e ∈ puts, e.round ≤ k ∧ e.pair = p := by
  simp [pairsUpTo, and_assoc]

/-- The table of a node holds the pairs of the rounds that it handled. -/
theorem Inv.stores (h : Inv st hot s) (hnodup : (s.puts.map fun e => e.pair.1).Nodup) (v : Fin n) :
    ∃ pairs, Stores (s.node (some v)).kvs pairs ∧ (pairs.map Prod.fst).Nodup ∧
      pairs.Perm (pairsUpTo s.puts (s.handled v)) := by
  have hperm := h.answers_upTo (h.stepd v).handled_le
  have hkeys : ((s.answers.take (s.handled v)).flatMap Prod.snd |>.map Prod.fst).Nodup := by
    rw [(hperm.map Prod.fst).nodup_iff, pairsUpTo, map_map]
    exact hnodup.sublist (List.filter_sublist.map _)
  refine ⟨_, ?_, hkeys, hperm⟩
  rw [(h.stepd v).kvs]
  exact (stores_init st.hashSize st.noDupKeys).putAll hkeys

/-! ## All promises -/

theorem Inv.fenceContract (h : Inv st ∅ s) : FenceContract st s where
  alive := h.alive
  put_fits v t p _ hp := by
    obtain ⟨temp, hadd, -⟩ := tempKvsAdd_eq (h.node (some v)).fits hp
    simp only [handleKvsPut, hadd]
    rfl
  merge_fits m hm := by
    obtain ⟨i, hi⟩ := mem_iff_getElem?.mp hm
    obtain ⟨s', hs', -⟩ := h.fenceMsg hi
    rw [hs']
    rfl
  forwards_once := h.forwards_once
  tasks_first v r hr w hw t ht := by
    have hlt := (h.forwarded_iff.mp hr).2
    exact (h.stepd w).fenced_of_lt (Nat.lt_of_lt_of_le hlt (h.round_le_of_branch hw)) ht
  offspring_first v r hr w hw := by
    obtain ⟨hpos, hlt⟩ := h.forwarded_iff.mp hr
    have hle := h.round_le_of_branch (Finset.mem_insert_of_mem hw)
    exact h.forwarded_iff.mpr ⟨hpos, Nat.lt_of_lt_of_le hlt hle⟩
  forwards v r hpos htasks hkids := h.forwarded_iff.mpr ⟨hpos, h.forwards htasks hkids⟩
  answers_seq := by
    apply ext_getElem
    · simp
    · intro i hi hi'
      rw [length_map] at hi
      have hget := (h.answers i _ (getElem?_eq_getElem hi)).1
      simp [hget, Nat.add_comm]
  answers_last r hpos hle v := by
    have hgt := (h.stepd v).round_gt
    exact h.forwarded_iff.mpr ⟨hpos, by omega⟩
  answers_pairs i a := h.answers_pairs
  answers r hne hkids := h.answered hne hkids
  responds v hlt := by
    have hresps := (h.stepd v).resps
    rw [getElem?_eq_getElem hlt] at hresps
    have hmem : (⟨v, s.answers[s.handled v].1, s.answers[s.handled v].2⟩ : RespMsg n) ∈
        s.resps.filter fun m => m.dest = v := hresps ▸ mem_singleton_self _
    exact ⟨_, (List.mem_filter.mp hmem).1, rfl⟩
  finds hnodup v e he hle := by
    obtain ⟨pairs, hstores, hkeys, hperm⟩ := h.stores hnodup v
    exact hstores.get_eq_some hkeys (hperm.mem_iff.mpr (mem_pairsUpTo.mpr ⟨e, he, hle, rfl⟩))
  finds_only hnodup v key hkey := by
    obtain ⟨pairs, hstores, -, hperm⟩ := h.stores hnodup v
    apply hstores.get_eq_none
    intro hmem
    obtain ⟨p, hp, hpkey⟩ := List.mem_map.mp hmem
    obtain ⟨e, he, hle, hpair⟩ := mem_pairsUpTo.mp (hperm.mem_iff.mp hp)
    exact hkey e he hle (hpair ▸ hpkey)

/-! ## Runs -/

/-- A task puts or fences only when it does not wait for a response. -/
def Allowed (st : Step n) (s : Net n) : Action n → Prop
  | .put v t p => t < st.ltasks v ∧ s.blocked v t = false ∧ packedSize p ≤ 2048
  | .fence v t => t < st.ltasks v ∧ s.blocked v t = false
  | .deliver _ => True
  | .respond _ => True

instance (st : Step n) (s : Net n) : DecidablePred (Allowed st s)
  | .put v t p => inferInstanceAs (Decidable (t < st.ltasks v ∧ s.blocked v t = false ∧ packedSize p ≤ 2048))
  | .fence v t => inferInstanceAs (Decidable (t < st.ltasks v ∧ s.blocked v t = false))
  | .deliver _ => inferInstanceAs (Decidable True)
  | .respond _ => inferInstanceAs (Decidable True)

/-- One step of a run. -/
theorem Inv.exec (h : Inv st ∅ s) {a : Action n} (hallowed : Allowed st s a)
    (hexec : exec st s a = some s') : Inv st ∅ s' := by
  cases a with
  | put v t p =>
    obtain ⟨ht, hblocked, hp⟩ := hallowed
    obtain ⟨s₁, hs₁, hinv⟩ := h.put ht hblocked hp
    rw [Pmi2.exec, hs₁, Option.bind_some] at hexec
    split at hexec
    · exact Option.some.inj hexec ▸ hinv
    · cases hexec
  | fence v t =>
    rw [Pmi2.exec] at hexec
    split at hexec
    · exact Option.some.inj hexec ▸ h.fence hallowed.1 hallowed.2
    · cases hexec
  | deliver i =>
    rw [Pmi2.exec, Option.bind_eq_some_iff] at hexec
    obtain ⟨m, hm, hexec⟩ := hexec
    obtain ⟨s₁, hs₁, hinv⟩ := h.fenceMsg hm
    rw [hs₁, Option.bind_some] at hexec
    split at hexec
    · exact Option.some.inj hexec ▸ hinv
    · cases hexec
  | respond i =>
    rw [Pmi2.exec, Option.map_eq_some_iff] at hexec
    obtain ⟨m, hm, rfl⟩ := hexec
    exact h.fenceResp hm

/-- In every state of every run in which tasks put pairs and fence again only after the response, what
is promised holds. -/
theorem fenceContract_always (st : Step n) {as : List (Action n)}
    (hallowed : Guarded (exec st) (Allowed st) (Net.init st) as) :
    Always (exec st) (FenceContract st) (Net.init st) as :=
  (always_of_guarded (fun _ _ _ hinv hguard hexec => hinv.exec hguard hexec) (inv_init st) hallowed).imp
    fun _ hinv => hinv.fenceContract

/-! ## One stepd with two tasks -/

/-- A step of one stepd. -/
def twoTasks : Step 1 where
  tree := ⟨fun _ => none, fun _ => 0, fun _ _ h => absurd h (by simp)⟩
  thisNode _ := []
  thisNode_lt _ := Nat.zero_lt_succ _
  ltasks _ := 2
  ltasks_pos _ := Nat.zero_lt_succ _
  noDupKeys := false

/-- A pair is put, both tasks fence, and the response arrives. -/
theorem fenceContract_twoTasks : Always (exec twoTasks) (FenceContract twoTasks) (Net.init twoTasks)
    [.put 0 1 ([1#8], [2#8]), .fence 0 0, .fence 0 1, .deliver 0, .deliver 0, .respond 0] :=
  fenceContract_always twoTasks (by decide +kernel)

/-- A task puts at any time, and fences again only after the response. -/
def PutsAnyTime (st : Step n) (s : Net n) : Action n → Prop
  | .put v t p => t < st.ltasks v ∧ packedSize p ≤ 2048
  | .fence v t => t < st.ltasks v ∧ s.blocked v t = false
  | .deliver _ => True
  | .respond _ => True

instance (st : Step n) (s : Net n) : DecidablePred (PutsAnyTime st s)
  | .put v t p => inferInstanceAs (Decidable (t < st.ltasks v ∧ packedSize p ≤ 2048))
  | .fence v t => inferInstanceAs (Decidable (t < st.ltasks v ∧ s.blocked v t = false))
  | .deliver _ => inferInstanceAs (Decidable True)
  | .respond _ => inferInstanceAs (Decidable True)

/-- A task fences, and puts a pair before the other task fences. -/
def latePut : List (Action 1) :=
  [.fence 0 0, .put 0 0 ([1#8], [2#8]), .fence 0 1, .deliver 0]

/-- The pair that is put after the fence is in the answer. -/
theorem fenceContract_latePut : ¬ ∀ as, Guarded (exec twoTasks) (PutsAnyTime twoTasks) (Net.init twoTasks) as →
    Always (exec twoTasks) (FenceContract twoTasks) (Net.init twoTasks) as := by
  intro h
  have halways := h latePut (by decide +kernel)
  have hanswers : (run (exec twoTasks) (Net.init twoTasks) latePut).map (fun s => s.answers) =
      some [(1, [([1#8], [2#8])])] := by
    decide +kernel
  have hputs : (run (exec twoTasks) (Net.init twoTasks) latePut).map (fun s => roundPairs s.puts 1) =
      some [] := by
    decide +kernel
  obtain ⟨s, hs, hsAnswers⟩ := Option.map_eq_some_iff.mp hanswers
  rw [hs] at hputs
  have hperm := (halways.run hs).answers_pairs 0 (1, [([1#8], [2#8])]) (by rw [hsAnswers]; rfl)
  have hnone : roundPairs s.puts (0 + 1) = [] := Option.some.inj hputs
  rw [hnone] at hperm
  exact List.cons_ne_nil _ _ hperm.eq_nil

end Slurm.Pmi2
