import Slurm.Xahash.Updates

/-!
# Runs of the hash table (`common/xahash.c`)

`xahashContract`: the table is a finite map in every run, whatever the client's functions do,
as long as they compare and hash classes of keys.

* `walk_spec`: a walk sees the entries that are set, in order, until it is ended, and leaves
  every entry where it is.
* `freeTable_spec`: every entry of the table is freed once.
-/

namespace Slurm.Xahash

open Lib.Buckets Lib.Run List

variable {κ β σ α χ : Type} [DecidableEq χ] {p : Client κ β σ χ} {t : Table β σ}
  {chain chain' : List (Fentry β)}

/-! ## Walks -/

/-- What a walk leaves of an entry: where it is, whether it is set, and its class. -/
def shape (p : Client κ β σ χ) (fe : Fentry β) : Nat × Bool × χ := (fe.addr, fe.set, p.classOf fe)

/-- What a walk of `chain` does: the entries that are set are seen in order, until it ends. -/
structure Walked (p : Client κ β σ χ) (chain chain' : List (Fentry β)) (w w' : Walk β σ α) :
    Prop where
  shape_eq : chain'.map (shape p) = chain.map (shape p)
  seen_eq : ∃ pre, pre <+: liveOf chain ∧ w'.seen = w.seen ++ pre ∧
    w'.count = w.count + BitVec.ofNat 32 pre.length ∧
    (w'.ended = none → w.ended = none ∧ pre = liveOf chain)
  ended_eq : w.ended.isSome → w'.seen = w.seen ∧ w'.count = w.count ∧ w'.ended = w.ended

theorem Walked.trans {chain₁ chain₁' chain₂ chain₂' : List (Fentry β)} {w w₁ w₂ : Walk β σ α}
    (h₁ : Walked p chain₁ chain₁' w w₁) (h₂ : Walked p chain₂ chain₂' w₁ w₂) :
    Walked p (chain₁ ++ chain₂) (chain₁' ++ chain₂') w w₂ where
  shape_eq := by
    rw [map_append, map_append, h₁.shape_eq, h₂.shape_eq]
  seen_eq := by
    obtain ⟨pre₁, hpre₁, hseen₁, hcount₁, hend₁⟩ := h₁.seen_eq
    obtain ⟨pre₂, hpre₂, hseen₂, hcount₂, hend₂⟩ := h₂.seen_eq
    have happend : liveOf (chain₁ ++ chain₂) = liveOf chain₁ ++ liveOf chain₂ :=
      filter_append _ _
    rw [happend]
    cases hended : w₁.ended with
    | none =>
      obtain ⟨-, rfl⟩ := hend₁ hended
      refine ⟨liveOf chain₁ ++ pre₂, (prefix_append_right_inj _).mpr hpre₂, ?_, ?_,
        fun h => ?_⟩
      · rw [hseen₂, hseen₁, append_assoc]
      · rw [hcount₂, hcount₁, length_append, BitVec.ofNat_add, BitVec.add_assoc]
      · rw [(hend₂ h).2]
        exact ⟨(hend₁ hended).1, rfl⟩
    | some rc =>
      obtain ⟨hsame, hcount, hrc⟩ := h₂.ended_eq (by rw [hended]; rfl)
      refine ⟨pre₁, hpre₁.trans (prefix_append _ _), ?_, ?_, fun h => ?_⟩
      · rw [hsame, hseen₁]
      · rw [hcount, hcount₁]
      · rw [hrc, hended] at h
        cases h
  ended_eq := by
    intro h
    obtain ⟨hseen, hcount, hended⟩ := h₁.ended_eq h
    obtain ⟨hseen', hcount', hended'⟩ := h₂.ended_eq (by rw [hended]; exact h)
    exact ⟨hseen'.trans hseen, hcount'.trans hcount, hended'.trans hended⟩

/-- Nothing is seen. -/
theorem Walked.same {w : Walk β σ α} (h : w.ended = none → liveOf chain = []) :
    Walked p chain chain w w where
  shape_eq := rfl
  seen_eq := by
    refine ⟨[], nil_prefix, (append_nil _).symm, ?_, fun hended => ?_⟩
    · exact (BitVec.add_zero _).symm
    · exact ⟨hended, (h hended).symm⟩
  ended_eq := fun _ => ⟨rfl, rfl, rfl⟩

theorem walkFentry_spec (visitor : Visitor p α) (w : Walk β σ α) (fe : Fentry β) :
    Walked p [fe] [(walkFentry visitor.call w fe).1] w (walkFentry visitor.call w fe).2 := by
  unfold walkFentry
  by_cases hended : w.ended.isSome = true
  · rw [if_pos (Or.inl hended)]
    refine Walked.same fun h => ?_
    rw [h] at hended
    cases hended
  · have hnone : w.ended = none := by simpa using hended
    by_cases hset : fe.set = true
    · have hskip : ¬ (w.ended.isSome = true ∨ fe.set = false) := by
        simp [hnone, hset]
      have hlive : liveOf [fe] = [fe] := filter_cons_of_pos hset
      rw [if_neg hskip]
      refine ⟨?_, ⟨[fe], ?_, rfl, rfl, fun _ => ⟨hnone, hlive.symm⟩⟩, fun h => absurd h hended⟩
      · show [(fe.addr, fe.set, _)] = [(fe.addr, fe.set, _)]
        rw [Client.classOf, Client.classOf, visitor.keeps]
      · rw [hlive]
    · have hfalse : fe.set = false := by simpa using hset
      rw [if_pos (Or.inr hfalse)]
      exact Walked.same fun _ => filter_cons_of_neg hset

theorem walkChain_spec (visitor : Visitor p α) (w : Walk β σ α) (chain : List (Fentry β)) :
    Walked p chain (walkChain visitor.call w chain).1 w (walkChain visitor.call w chain).2 := by
  induction chain generalizing w with
  | nil => exact Walked.same fun _ => rfl
  | cons fe rest ih => exact (walkFentry_spec visitor w fe).trans (ih _)

/-- A walk of the table sees the entries that are set, in order, until it is ended. -/
theorem walkSlots_spec (visitor : Visitor p α) (w : Walk β σ α) (slots : List (List (Fentry β))) :
    let r := walkSlots visitor.call w slots
    Walked p slots.flatten r.1.flatten w r.2 ∧
      r.1.map (List.map (shape p)) = slots.map (List.map (shape p)) := by
  induction slots generalizing w with
  | nil => exact ⟨Walked.same fun _ => rfl, rfl⟩
  | cons chain slots ih =>
    have hchain := walkChain_spec visitor w chain
    obtain ⟨hslots, hshape⟩ := ih (walkChain visitor.call w chain).2
    refine ⟨hchain.trans hslots, ?_⟩
    show List.map (shape p) _ :: List.map (List.map (shape p)) _ = _
    rw [hchain.shape_eq, hshape, map_cons]

/-- A walk that is never told to end does not end. -/
theorem walkSlots_cont {callback : ForeachFunc β σ α}
    (hcont : ∀ b s a, (callback b s a).1 = .cont) (w : Walk β σ α) (hw : w.ended = none)
    (slots : List (List (Fentry β))) : (walkSlots callback w slots).2.ended = none := by
  have hentry : ∀ (w : Walk β σ α) fe, w.ended = none →
      (walkFentry callback w fe).2.ended = none := by
    intro w fe hw
    unfold walkFentry
    split
    · exact hw
    · exact if_pos (hcont _ _ _)
  have hchain : ∀ (w : Walk β σ α) chain, w.ended = none →
      (walkChain callback w chain).2.ended = none := by
    intro w chain hw
    induction chain generalizing w with
    | nil => exact hw
    | cons fe rest ih => exact ih _ (hentry w fe hw)
  induction slots generalizing w with
  | nil => exact hw
  | cons chain slots ih => exact ih _ (hchain w chain hw)

/-! ## What a walk keeps -/

theorem liveOf_shape (h : chain'.map (shape p) = chain.map (shape p)) :
    (liveOf chain').map (shape p) = (liveOf chain).map (shape p) := by
  have hlive : ∀ l : List (Fentry β),
      (liveOf l).map (shape p) = (l.map (shape p)).filter fun s => s.2.1 := by
    intro l
    rw [filter_map]
    rfl
  rw [hlive, hlive, h]

theorem addrs_shape (h : chain'.map (shape p) = chain.map (shape p)) :
    chain'.map Fentry.addr = chain.map Fentry.addr := by
  have haddr := congrArg (List.map Prod.fst) h
  rw [map_map, map_map] at haddr
  exact haddr

theorem classes_shape (h : chain'.map (shape p) = chain.map (shape p)) :
    chain'.map p.classOf = chain.map p.classOf := by
  have hclass := congrArg (List.map fun s : Nat × Bool × χ => s.2.2) h
  rw [map_map, map_map] at hclass
  exact hclass

theorem ChainOk.of_shape (h : ChainOk chain) (hshape : chain'.map (shape p) = chain.map (shape p)) :
    ChainOk chain' := by
  obtain ⟨head, rest, rfl, hrest⟩ := h
  cases chain' with
  | nil => cases hshape
  | cons head' rest' =>
    rw [map_cons, map_cons] at hshape
    refine ⟨head', rest', rfl, fun fe hfe => ?_⟩
    have hmem := mem_map_of_mem (f := shape p) hfe
    rw [(List.cons.inj hshape).2] at hmem
    obtain ⟨x, hx, heq⟩ := List.mem_map.mp hmem
    have hset : x.set = fe.set := congrArg (fun s => s.2.1) heq
    rw [← hset]
    exact hrest x hx

/-- A search for a class finds the same place. -/
theorem find?_shape (h : chain'.map (shape p) = chain.map (shape p)) (c : χ) :
    (chain'.find? fun fe => decide (p.classOf fe = c)).map Fentry.addr =
      (chain.find? fun fe => decide (p.classOf fe = c)).map Fentry.addr := by
  have hfind : ∀ l : List (Fentry β), (l.find? fun fe => decide (p.classOf fe = c)).map Fentry.addr =
      ((l.map (shape p)).find? fun s => decide (s.2.2 = c)).map Prod.fst := by
    intro l
    rw [find?_map, Option.map_map]
    rfl
  rw [hfind, hfind, h]

theorem foreach_spec (h : Inv p t) (visitor : Visitor p α) (arg : α) :
    Inv p (foreachEntry t visitor.call arg).2.1 ∧
      ForeachHolds p t visitor (foreachEntry t visitor.call arg) := by
  let w : Walk β σ α := { state := t.state, arg := arg, count := 0, seen := [], ended := none }
  obtain ⟨hwalked, hshape⟩ := walkSlots_spec visitor w t.slots
  let slots := (walkSlots visitor.call w t.slots).1
  have hshape : slots.map (List.map (shape p)) = t.slots.map (List.map (shape p)) := hshape
  have hflat : slots.flatten.map (shape p) = t.slots.flatten.map (shape p) := by
    rw [map_flatten, map_flatten, hshape]
  have hlength : slots.length = t.slots.length := by
    have hlen := congrArg List.length hshape
    rw [length_map, length_map] at hlen
    exact hlen
  have hchain : ∀ (i : Nat) (chain' : List (Fentry β)), slots[i]? = some chain' →
      ∃ chain, t.slots[i]? = some chain ∧ chain'.map (shape p) = chain.map (shape p) := by
    intro i chain' hi
    have hget : (slots.map (List.map (shape p)))[i]? = some (chain'.map (shape p)) := by
      rw [getElem?_map, hi]
      rfl
    rw [hshape, getElem?_map] at hget
    obtain ⟨chain, hchain, heq⟩ := Option.map_eq_some_iff.mp hget
    exact ⟨chain, hchain, heq.symm⟩
  have hlive : ∀ s : List (List (Fentry β)), (s.map liveOf).flatten = liveOf s.flatten := by
    intro s
    rw [liveOf, filter_flatten]
    rfl
  have hliveShape : (live { t with slots := slots }).map (shape p) = (live t).map (shape p) := by
    show ((slots.map liveOf).flatten).map (shape p) = ((t.slots.map liveOf).flatten).map (shape p)
    rw [hlive, hlive]
    exact liveOf_shape hflat
  have hinv : Inv p (foreachEntry t visitor.call arg).2.1 := {
    length := hlength.trans h.length
    chainOk := by
      intro chain' hmem
      obtain ⟨i, hi⟩ := mem_iff_getElem?.mp hmem
      obtain ⟨chain, hget, heq⟩ := hchain i chain' hi
      exact (h.chainOk chain (mem_of_getElem? hget)).of_shape heq
    placed := by
      refine h.placed.of_map_cls ?_
      show (slots.map liveOf).map (List.map p.classOf) = (t.slots.map liveOf).map (List.map p.classOf)
      refine ext_getElem? fun i => ?_
      rw [map_map, map_map, getElem?_map, getElem?_map]
      cases hi : slots[i]? with
      | none =>
        have hnone : t.slots[i]? = none := by
          rw [List.getElem?_eq_none_iff] at hi ⊢
          omega
        rw [hnone]
      | some chain' =>
        obtain ⟨chain, hget, heq⟩ := hchain i chain' hi
        rw [hget]
        exact congrArg some (classes_shape (liveOf_shape heq))
    addrs := by
      show (slots.flatten.map Fentry.addr).Nodup
      rw [addrs_shape hflat]
      exact h.addrs
    lt_fresh := by
      intro fe hfe
      have hmem := mem_map_of_mem (f := Fentry.addr) hfe
      change fe.addr ∈ slots.flatten.map Fentry.addr at hmem
      rw [addrs_shape hflat] at hmem
      obtain ⟨x, hx, heq⟩ := List.mem_map.mp hmem
      show fe.addr < t.fresh
      rw [← heq]
      exact h.lt_fresh x hx }
  obtain ⟨pre, hpre, hseen, hcount, hend⟩ := hwalked.seen_eq
  rw [← hlive] at hpre hend
  have hcount : (foreachEntry t visitor.call arg).2.2.count = BitVec.ofNat 32 pre.length :=
    hcount.trans (BitVec.zero_add _)
  have hseen : (foreachEntry t visitor.call arg).2.2.seen = pre := hseen
  refine ⟨hinv, ?_, ?_, ?_, ?_, ?_, ?_⟩
  · rw [hseen]
    have haddrs := ((live_sublist t).map Fentry.addr).nodup h.addrs
    exact haddrs.sublist (hpre.sublist.map _)
  · rw [hseen]
    exact hpre
  · intro hended
    rw [hseen]
    exact (hend hended).2
  · intro hcont
    exact walkSlots_cont hcont w rfl t.slots
  · rw [hseen, ← hcount]
    rfl
  · intro c
    exact find?_shape hliveShape c

/-! ## The end of the table -/

/-- The call for one entry. -/
theorem callOnFree_calls (p : Client κ β σ χ) (fe : Fentry β) (state : σ) :
    (callOnFree p.funcs fe state).2 = if fe.set then freeCalls p fe else [] := by
  unfold callOnFree freeCalls
  cases p.funcs.onFreeFunc with
  | none => simp
  | some onFree => cases fe.set <;> rfl

theorem freeFentries_calls (p : Client κ β σ χ) (chain : List (Fentry β)) (state : σ) :
    (freeFentries p.funcs chain state).2 = (liveOf chain).flatMap (freeCalls p) := by
  induction chain generalizing state with
  | nil => rfl
  | cons fe rest ih =>
    show (callOnFree p.funcs fe state).2 ++ (freeFentries p.funcs rest _).2 = _
    rw [callOnFree_calls, ih]
    by_cases hset : fe.set = true
    · have hlive : liveOf (fe :: rest) = fe :: liveOf rest := filter_cons_of_pos hset
      rw [if_pos hset, hlive, flatMap_cons]
    · have hlive : liveOf (fe :: rest) = liveOf rest := filter_cons_of_neg hset
      rw [if_neg hset, hlive, nil_append]

/-- Every entry of the table is freed once. -/
theorem freeTable_spec (p : Client κ β σ χ) (t : Table β σ) :
    (freeTable p.funcs t).Perm ((live t).flatMap (freeCalls p)) := by
  unfold freeTable live
  generalize t.state = state
  induction t.slots generalizing state with
  | nil => exact List.Perm.refl _
  | cons chain slots ih =>
    show (_ ++ _ : List (Call κ β)).Perm _
    rw [map_cons, flatten_cons, flatMap_append]
    refine List.Perm.append ?_ (ih _)
    rw [freeFentries_calls]
    have hperm : (chain.tail ++ chain.head?.toList).Perm chain := by
      cases chain with
      | nil => exact List.Perm.refl _
      | cons head rest => exact perm_append_singleton head rest
    exact (hperm.filter _).flatMap_right _

/-! ## Runs -/

/-- A new table has no entry. -/
theorem live_newTable (p : Client κ β σ χ) : live (newTable p) = [] := by
  unfold live newTable newFixedTable
  rw [map_map, flatten_eq_nil_iff]
  intro l hl
  obtain ⟨i, -, rfl⟩ := List.mem_map.mp hl
  rfl

theorem inv_newTable (p : Client κ β σ χ) : Inv p (newTable p) := by
  have hflat : (newTable p).slots.flatten = (List.range p.size).map (initFentry p.funcs) := by
    show ((List.range p.size).map fun i => [initFentry p.funcs i]).flatten = _
    generalize List.range p.size = l
    induction l with
    | nil => rfl
    | cons i l ih => rw [map_cons, flatten_cons, ih]; rfl
  have haddrs : (newTable p).slots.flatten.map Fentry.addr = List.range p.size := by
    rw [hflat, map_map]
    exact map_id _
  exact {
    length := by
      show ((List.range p.size).map _).length = p.size
      rw [length_map, length_range]
    chainOk := by
      intro chain hchain
      obtain ⟨i, -, rfl⟩ := List.mem_map.mp hchain
      exact ⟨_, [], rfl, fun fe hfe => absurd hfe not_mem_nil⟩
    placed := by
      have hnil : ∀ (i : Nat) (b : List (Fentry β)),
          ((newTable p).slots.map liveOf)[i]? = some b → b = [] := by
        intro i b hb
        exact List.flatten_eq_nil_iff.mp (live_newTable p) b (mem_of_getElem? hb)
      constructor
      · intro i b hb fe hfe
        rw [hnil i b hb] at hfe
        exact absurd hfe not_mem_nil
      · intro i b hb
        rw [hnil i b hb]
        exact nodup_nil
    addrs := by
      rw [haddrs]
      exact nodup_range
    lt_fresh := by
      intro fe hfe
      have hmem := mem_map_of_mem (f := Fentry.addr) hfe
      rw [haddrs] at hmem
      exact List.mem_range.mp hmem }

/-- One operation keeps the invariant and does what it must. -/
theorem step_spec (h : Inv p t) (op : Op p α) {t' : Table β σ} (hexec : exec p t op = some t') :
    Inv p t' ∧ StepHolds p t op := by
  cases op with
  | insert key =>
    rw [← Option.some_inj.mp hexec]
    exact insert_spec h key
  | find key =>
    rw [← Option.some_inj.mp hexec]
    exact ⟨h, findEntry_eq h key⟩
  | free key =>
    rw [← Option.some_inj.mp hexec]
    exact free_spec h key
  | foreach visitor arg =>
    rw [← Option.some_inj.mp hexec]
    exact foreach_spec h visitor arg

theorem Inv.stateHolds (h : Inv p t) : StateHolds p t where
  chains := by
    intro chain hchain
    obtain ⟨i, hi⟩ := mem_iff_getElem?.mp hchain
    exact (h.live_chain hi).2
  nodup := h.nodup
  free := freeTable_spec p t

/-- The hash table is a finite map, in every run. -/
theorem xahashContract (p : Client κ β σ χ) (ops : List (Op p α)) : XahashContract p ops := by
  have hrun : Always (exec p) (StateHolds p) (newTable p) ops ∧
      EachStep (exec p) (fun t op _ => StepHolds p t op) (newTable p) ops := by
    have hP : ∀ t : Table β σ, Inv p t → StateHolds p t := fun t h => h.stateHolds
    have hstep : ∀ (t : Table β σ) (op : Op p α) t', Inv p t → exec p t op = some t' →
        Inv p t' ∧ StepHolds p t op := fun t op t' h hexec => step_spec h op hexec
    exact always_eachStep_of_inv hP hstep (inv_newTable p) ops
  refine ⟨fun c => ?_, hrun.1, hrun.2⟩
  rw [toMap, live_newTable]
  rfl

/-- A client that keeps numbers by their last digit. -/
def digitClient : Client Nat Nat Unit Nat where
  funcs :=
    { hashFunc := fun key _ => BitVec.ofNat 32 (key % 10)
      matchFunc := fun b key _ => decide (b % 10 = key % 10)
      onInsertFunc := some fun _ key state => (key, state)
      onFreeFunc := none
      memory := fun _ => 0 }
  keyClass := (· % 10)
  entryClass := (· % 10)
  hashOf := BitVec.ofNat 32
  onInsert := fun _ key state => (key, state)
  match_eq := fun _ _ _ => rfl
  hash_eq := fun _ _ => rfl
  onInsert_eq := rfl
  insert_class := fun _ _ _ => rfl
  state := ()
  size := 2
  size_pos := Nat.le_add_left 1 1

-- 24 and 6 share a chain; after 24 was freed from its head, 48 takes its place.
example :
    let t₁ := (insertEntry digitClient.funcs (newTable digitClient) 24).table
    let t₂ := (insertEntry digitClient.funcs t₁ 6).table
    let t₃ := (freeEntry digitClient.funcs t₂ 4).table
    (insertEntry digitClient.funcs t₃ 48).ret = some 0 ∧
      (findEntry digitClient.funcs t₃ 16).map Fentry.blob = some 6 := by
  decide

end Slurm.Xahash
