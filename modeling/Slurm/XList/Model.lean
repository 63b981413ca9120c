import Slurm.Lib.Linked

/-!
# Lists with iterators (`common/list.c`)

A node is a number other than 0, and 0 is `NULL`.  The `next` field of a node is named by
the node, and `head` of the list is named 0: `next 0` is `l->head`, and a pointer to such a
field, as `tail` and the `prev` of an iterator are, is the number of the node, or 0 for
`&l->head`.  Unused nodes are linked by the same fields from `freeNodes` on.

`nodeCreate` and `nodeDestroy` are `_list_node_create` and `_list_node_destroy`, which
also move the iterators.  Each iterator is moved for itself, so that their order in the
list does not matter: they are kept by their names.  Locks are left out.
-/

namespace Slurm.XList

/-- `list_itr_t` -/
structure Itr where
  /-- The next node to be iterated. -/
  pos : Nat
  /-- The field `next` of the node before the last one that was returned. -/
  prev : Nat

/-- `list_t`, with elements of `δ`. -/
structure ListT (δ : Type) where
  count : Nat
  next : Nat → Nat
  data : Nat → Option δ
  tail : Nat
  itrs : Nat → Option Itr
  freeNodes : Nat
  nodeAllocations : Nat
  /-- How many nodes there are. -/
  allocated : Nat

variable {δ : Type}

/-- `list_create`, with as many nodes as are in a page. -/
def listCreate (δ : Type) (nodesInPage : Nat) : ListT δ where
  count := 0
  next := fun a => if 1 ≤ a ∧ a < nodesInPage then a + 1 else 0
  data := fun _ => none
  tail := 0
  itrs := fun _ => none
  freeNodes := 1
  nodeAllocations := 0
  allocated := nodesInPage

/-! ## Nodes -/

/-- More nodes, where there is none that is not used.  The first one of them only links
the allocations. -/
def moreNodes (nodesInPage : Nat) (l : ListT δ) : ListT δ :=
  if l.freeNodes ≠ 0 then l
  else
    let ln := l.allocated + 1
    { l with
      next := fun a =>
        if a = ln then l.nodeAllocations
        else if ln < a ∧ a < l.allocated + nodesInPage then a + 1
        else if a = l.allocated + nodesInPage then 0
        else l.next a
      nodeAllocations := ln
      freeNodes := ln + 1
      allocated := l.allocated + nodesInPage }

/-- An iterator after node `p` was put at `pp`. -/
def Itr.created (pp p next : Nat) (i : Itr) : Itr :=
  if i.prev = pp then { i with prev := p }
  else if i.pos = next then { i with pos := p }
  else i

/-- `_list_node_create` -/
def nodeCreate (nodesInPage : Nat) (l : ListT δ) (pp : Nat) (x : δ) : ListT δ :=
  let l := moreNodes nodesInPage l
  let p := l.freeNodes
  let follow := l.next pp
  { l with
    freeNodes := l.next p
    data := Function.update l.data p (some x)
    next := Function.update (Function.update l.next p follow) pp p
    tail := if follow = 0 then p else l.tail
    count := l.count + 1
    itrs := fun i => (l.itrs i).map (Itr.created pp p follow) }

/-- An iterator after node `p` was taken from `pp`. -/
def Itr.destroyed (pp p next : Nat) (i : Itr) : Itr :=
  if i.pos = p then { pos := next, prev := pp }
  else if i.prev = p then { i with prev := pp }
  else i

/-- `_list_node_destroy`: the data of the node, and the list. -/
def nodeDestroy (l : ListT δ) (pp : Nat) : Option δ × ListT δ :=
  let p := l.next pp
  if p = 0 then (none, l)
  else
    let follow := l.next p
    (l.data p,
      { l with
        next := Function.update (Function.update l.next pp follow) p l.freeNodes
        tail := if follow = 0 then pp else l.tail
        count := l.count - 1
        itrs := fun i => (l.itrs i).map (Itr.destroyed pp p follow)
        freeNodes := p })

/-! ## Operations on the list -/

/-- `list_append` -/
def listAppend (nodesInPage : Nat) (l : ListT δ) (x : δ) : ListT δ :=
  nodeCreate nodesInPage l l.tail x

/-- `list_push` -/
def listPush (nodesInPage : Nat) (l : ListT δ) (x : δ) : ListT δ :=
  nodeCreate nodesInPage l 0 x

/-- `list_pop` -/
def listPop (l : ListT δ) : Option δ × ListT δ := nodeDestroy l 0

/-- The loop of `list_delete_first` from `pp` on, with at most `k` nodes left. -/
def deleteFirstLoop (f : δ → Int) (l : ListT δ) : Nat → Nat → Int × ListT δ
  | 0, _ => (0, l)
  | k + 1, pp =>
    if l.next pp = 0 then (0, l)
    else
      match l.data (l.next pp) with
      | none => (0, l)
      | some x =>
        if 0 < f x then (1, (nodeDestroy l pp).2)
        else if f x < 0 then (-1, l)
        else deleteFirstLoop f l k (l.next pp)

/-- `list_delete_first` -/
def listDeleteFirst (f : δ → Int) (l : ListT δ) : Int × ListT δ :=
  deleteFirstLoop f l (l.count + 1) 0

/-- `list_delete_ptr`, which looks for the pointer itself. -/
def listDeletePtr [DecidableEq δ] (key : δ) (l : ListT δ) : Int × ListT δ :=
  deleteFirstLoop (fun x => if x = key then 1 else 0) l (l.count + 1) 0

/-! ## Operations on iterators -/

/-- The iterator is set. -/
def setItr (l : ListT δ) (i : Nat) (itr : Itr) : ListT δ :=
  { l with itrs := Function.update l.itrs i (some itr) }

/-- `list_iterator_create` and `list_iterator_reset`: the iterator is at the head. -/
def iteratorReset (l : ListT δ) (i : Nat) : ListT δ := setItr l i { pos := l.next 0, prev := 0 }

/-- `_list_next_locked`: the data, where the end is not reached, and the iterator. -/
def nextLocked (l : ListT δ) (i : Itr) : Option δ × Itr :=
  let p := i.pos
  (if p ≠ 0 then l.data p else none,
    { pos := if p ≠ 0 then l.next p else p
      prev := if l.next i.prev ≠ p then l.next i.prev else i.prev })

/-- `list_next` -/
def listNext (l : ListT δ) (i : Nat) (itr : Itr) : Option δ × ListT δ :=
  ((nextLocked l itr).1, setItr l i (nextLocked l itr).2)

/-- `list_insert` -/
def listInsert (nodesInPage : Nat) (l : ListT δ) (itr : Itr) (x : δ) : ListT δ :=
  nodeCreate nodesInPage l itr.prev x

/-- `list_remove` -/
def listRemove (l : ListT δ) (itr : Itr) : Option δ × ListT δ :=
  if l.next itr.prev ≠ itr.pos then nodeDestroy l itr.prev else (none, l)

/-! ## Runs -/

/-- A call. -/
inductive Cmd (δ : Type) where
  | append (x : δ)
  | push (x : δ)
  | pop
  | deleteFirst (f : δ → Int)
  | deletePtr (key : δ)
  | create (i : Nat)
  | reset (i : Nat)
  | next (i : Nat)
  | insert (i : Nat) (x : δ)
  | remove (i : Nat)

variable [DecidableEq δ]

/-- The list after a call, where the iterator exists, or does not yet when it is
created. -/
def exec (nodesInPage : Nat) (l : ListT δ) : Cmd δ → Option (ListT δ)
  | .append x => some (listAppend nodesInPage l x)
  | .push x => some (listPush nodesInPage l x)
  | .pop => some (listPop l).2
  | .deleteFirst f => some (listDeleteFirst f l).2
  | .deletePtr key => some (listDeletePtr key l).2
  | .create i => if (l.itrs i).isSome then none else some (iteratorReset l i)
  | .reset i => if (l.itrs i).isSome then some (iteratorReset l i) else none
  | .next i => (l.itrs i).map fun itr => (listNext l i itr).2
  | .insert i x => (l.itrs i).map fun itr => listInsert nodesInPage l itr x
  | .remove i => (l.itrs i).map fun itr => (listRemove l itr).2

end Slurm.XList

/-!
## The nodes of a list

`Wf l nodes free` says that the list `l` consists of `nodes`, in this order, and that
`free` are the nodes that are not used.

* `moreNodes_wf`: there is an unused node then, and nothing else changes.
* `nodeCreate_wf` and `nodeDestroy_wf`: a node is put between two parts of the list, and a
  node is taken from between them.
* `deleteFirst_spec`: what `list_delete_first` finds and does.
-/

namespace Slurm.XList

open Lib.Linked List

variable {δ : Type} {n : Nat} {l : ListT δ}
variable {ns free A B : List Nat}

/-- The list consists of `nodes`, and `free` are not used. -/
structure Wf (l : ListT δ) (nodes free : List Nat) : Prop where
  linked : LinkedTo l.next (0 :: nodes) 0
  linked_free : LinkedTo l.next free 0
  freeNodes_eq : l.freeNodes = free.headD 0
  nodup : (0 :: (nodes ++ free)).Nodup
  le_allocated : ∀ a ∈ nodes ++ free, a ≤ l.allocated
  count_eq : l.count = nodes.length
  tail_eq : l.tail = nodes.getLastD 0
  data_isSome : ∀ a ∈ nodes, (l.data a).isSome

/-- The nodes of the list, from its head on. -/
def nodes (l : ListT δ) : List Nat := indices l.next l.count (l.next 0)

theorem Wf.nodes_eq (h : Wf l ns free) : nodes l = ns := by
  rw [nodes, h.count_eq, indices_eq h.linked]

theorem Wf.ne_zero (h : Wf l ns free) {a : Nat} (ha : a ∈ ns ++ free) : a ≠ 0 := by
  rintro rfl
  exact (List.nodup_cons.mp h.nodup).1 ha

theorem Wf.nodup_nodes (h : Wf l ns free) : (0 :: ns).Nodup := by
  refine List.Nodup.sublist ?_ h.nodup
  exact (sublist_append_left ns free).cons_cons 0

/-- The iterators are no part of it. -/
theorem Wf.setItr (h : Wf l ns free) (i : Nat) (itr : Itr) : Wf (setItr l i itr) ns free :=
  ⟨h.linked, h.linked_free, h.freeNodes_eq, h.nodup, h.le_allocated, h.count_eq, h.tail_eq,
    h.data_isSome⟩

/-- What a pointer into the list points to. -/
theorem Wf.next_eq {A B free : List Nat} (h : Wf l (A ++ B) free) :
    l.next (A.getLastD 0) = B.headD 0 :=
  h.linked.next_getLastD

theorem Wf.next_node {p : Nat} (h : Wf l (A ++ p :: B) free) : l.next p = B.headD 0 := by
  have hp := h.linked
  rw [← cons_append] at hp
  exact hp.next_eq

theorem listCreate_wf (hn : 1 ≤ n) : Wf (listCreate δ n) [] (List.range' 1 n) where
  linked := ⟨rfl, trivial⟩
  linked_free := by
    refine linkedTo_range' (fun i hi hlt => ?_) fun _ => ?_
    · exact if_pos ⟨hi, by omega⟩
    · exact if_neg (by omega)
  freeNodes_eq := by
    obtain ⟨k, rfl⟩ : ∃ k, n = k + 1 := ⟨n - 1, by omega⟩
    rfl
  nodup := by
    refine List.nodup_cons.mpr ⟨fun h => ?_, nodup_range'⟩
    have := List.mem_range'_1.mp h
    omega
  le_allocated := by
    intro a ha
    have := List.mem_range'_1.mp ha
    show a ≤ n
    omega
  count_eq := rfl
  tail_eq := rfl
  data_isSome := by
    intro a ha
    cases ha

/-! ## More nodes -/

/-- What stays when there are more nodes. -/
theorem moreNodes_keeps (n : Nat) (l : ListT δ) :
    (moreNodes n l).data = l.data ∧ (moreNodes n l).itrs = l.itrs := by
  unfold moreNodes
  split <;> exact ⟨rfl, rfl⟩

theorem moreNodes_wf (hn : 2 ≤ n) (h : Wf l ns free) :
    ∃ c free', Wf (moreNodes n l) ns (c :: free') ∧ c ∉ ns := by
  cases free with
  | cons c free =>
    have hc : c ∈ ns ++ c :: free := mem_append_right _ mem_cons_self
    have hne : l.freeNodes ≠ 0 := by
      rw [h.freeNodes_eq]
      exact h.ne_zero hc
    refine ⟨c, free, ?_, fun hmem => ?_⟩
    · rw [moreNodes, if_pos hne]
      exact h
    · have hnodup := (List.nodup_cons.mp h.nodup).2
      exact disjoint_of_nodup_append hnodup hmem mem_cons_self
  | nil =>
    have hzero : ¬ l.freeNodes ≠ 0 := by
      rw [h.freeNodes_eq]
      exact fun hne => hne rfl
    have hle : ∀ a ∈ ns, a ≤ l.allocated := fun a ha =>
      h.le_allocated a (mem_append_left _ ha)
    have hkeep : ∀ a ∈ 0 :: ns, (moreNodes n l).next a = l.next a := by
      intro a ha
      have ha' : a ≤ l.allocated := by
        rcases List.mem_cons.mp ha with rfl | ha
        · exact Nat.zero_le _
        · exact hle a ha
      rw [moreNodes, if_neg hzero]
      show (if _ then _ else if _ then _ else if _ then _ else _) = _
      rw [if_neg (by omega), if_neg (by omega), if_neg (by omega)]
    have hfree : LinkedTo (moreNodes n l).next (List.range' (l.allocated + 2) (n - 1)) 0 := by
      rw [moreNodes, if_neg hzero]
      refine linkedTo_range' (fun i hi hlt => ?_) fun _ => ?_
      · show (if _ then _ else if _ then _ else if _ then _ else _) = _
        rw [if_neg (by omega), if_pos ⟨by omega, by omega⟩]
      · show (if _ then _ else if _ then _ else if _ then _ else _) = _
        rw [if_neg (by omega), if_neg (by omega), if_pos (by omega)]
    obtain ⟨k, hk⟩ : ∃ k, n - 1 = k + 1 := ⟨n - 2, by omega⟩
    have hrange : List.range' (l.allocated + 2) (n - 1) =
        (l.allocated + 2) :: List.range' (l.allocated + 3) k := by
      rw [hk, range'_succ]
    have hbound : ∀ a ∈ List.range' (l.allocated + 2) (n - 1),
        l.allocated < a ∧ a ≤ l.allocated + n := by
      intro a ha
      have := List.mem_range'_1.mp ha
      omega
    refine ⟨l.allocated + 2, List.range' (l.allocated + 3) k, ?_, fun hmem => ?_⟩
    · rw [← hrange]
      exact {
        linked := (linkedTo_congr hkeep 0).mpr h.linked
        linked_free := hfree
        freeNodes_eq := by
          rw [hrange, moreNodes, if_neg hzero]
          rfl
        nodup := by
          rw [← cons_append]
          refine List.nodup_append.mpr ⟨h.nodup_nodes, nodup_range', ?_⟩
          intro a ha b hb hab
          have hb' := hbound b hb
          rcases List.mem_cons.mp ha with rfl | ha
          · omega
          · have := hle a ha
            omega
        le_allocated := by
          intro a ha
          rw [moreNodes, if_neg hzero]
          show a ≤ l.allocated + n
          rcases List.mem_append.mp ha with ha | ha
          · have := hle a ha
            omega
          · exact (hbound a ha).2
        count_eq := by
          rw [moreNodes, if_neg hzero]
          exact h.count_eq
        tail_eq := by
          rw [moreNodes, if_neg hzero]
          exact h.tail_eq
        data_isSome := by
          rw [(moreNodes_keeps n l).1]
          exact h.data_isSome }
    · have := hle _ hmem
      omega

/-! ## A node more and a node less -/

/-- A node is put between `A` and `B`. -/
theorem nodeCreate_wf (hn : 2 ≤ n) (h : Wf l (A ++ B) free) (x : δ) :
    ∃ c free', (moreNodes n l).freeNodes = c ∧ c ∉ A ++ B ∧
      Wf (nodeCreate n l (A.getLastD 0) x) (A ++ c :: B) free' ∧
      (nodeCreate n l (A.getLastD 0) x).data = Function.update l.data c (some x) ∧
      (nodeCreate n l (A.getLastD 0) x).itrs =
        fun i => (l.itrs i).map (Itr.created (A.getLastD 0) c (B.headD 0)) := by
  obtain ⟨c, free', hmore, hc⟩ := moreNodes_wf hn h
  have hfirst : (moreNodes n l).freeNodes = c := hmore.freeNodes_eq
  have hfollow : (moreNodes n l).next (A.getLastD 0) = B.headD 0 := hmore.next_eq
  have hc0 : c ≠ 0 := hmore.ne_zero (mem_append_right _ mem_cons_self)
  have hcmem : c ∉ 0 :: (A ++ B) := fun hmem => (List.mem_cons.mp hmem).elim hc0 hc
  have hperm : (A ++ c :: B ++ free').Perm (A ++ B ++ c :: free') := by
    rw [append_assoc, append_assoc]
    exact List.perm_middle.symm.append_left A
  have hdata : (nodeCreate n l (A.getLastD 0) x).data = Function.update l.data c (some x) := by
    show Function.update _ _ _ = _
    rw [(moreNodes_keeps n l).1, hfirst]
  have hnext : (nodeCreate n l (A.getLastD 0) x).next =
      Function.update (Function.update (moreNodes n l).next c
        ((moreNodes n l).next (A.getLastD 0))) (A.getLastD 0) c := by
    show Function.update (Function.update _ _ _) _ _ = _
    rw [hfirst]
  have hnodup := (List.Perm.nodup_iff (hperm.cons 0)).mpr hmore.nodup
  refine ⟨c, free', hfirst, hc, ?_, hdata, ?_⟩
  · exact {
      linked := by
        rw [hnext]
        exact linkedTo_put hmore.linked hmore.nodup_nodes hcmem
      linked_free := by
        have hfree := (List.nodup_cons.mp (List.nodup_append.mp
          (List.nodup_cons.mp hmore.nodup).2).2.1).1
        have hlast : A.getLastD 0 ∉ free' := by
          have hmid := getLastD_notMem (by rwa [append_assoc] at hnodup)
          exact fun hmem => hmid (mem_append_right _ hmem)
        rw [hnext, linkedTo_update hlast, linkedTo_update hfree]
        exact hmore.linked_free.2
      freeNodes_eq := by
        show (moreNodes n l).next (moreNodes n l).freeNodes = _
        rw [hfirst, hmore.linked_free.1]
      nodup := hnodup
      le_allocated := fun a ha => hmore.le_allocated a (hperm.mem_iff.mp ha)
      count_eq := by
        show (moreNodes n l).count + 1 = _
        rw [hmore.count_eq, length_append, length_append, length_cons]
        omega
      tail_eq := by
        show (if (moreNodes n l).next (A.getLastD 0) = 0 then _ else (moreNodes n l).tail) = _
        rw [hfollow, hfirst]
        cases B with
        | nil => rw [headD_nil, if_pos rfl, getLastD_concat]
        | cons b B =>
          have hb : b ≠ 0 := hmore.ne_zero
            (mem_append_left _ (mem_append_right _ mem_cons_self))
          rw [headD_cons, if_neg hb, hmore.tail_eq]
          rw [getLastD_append_cons, getLastD_append_cons, getLastD_cons]
      data_isSome := by
        intro a ha
        rw [hdata]
        by_cases hac : a = c
        · rw [hac, Function.update_self]
          rfl
        · rw [Function.update_of_ne hac]
          refine h.data_isSome a ?_
          simp only [mem_append, mem_cons] at ha ⊢
          tauto }
  · show (fun i => ((moreNodes n l).itrs i).map _) = _
    rw [(moreNodes_keeps n l).2, hfollow, hfirst]

/-- The node between `A` and `B` is taken. -/
theorem nodeDestroy_wf {p : Nat} (h : Wf l (A ++ p :: B) free) :
    (nodeDestroy l (A.getLastD 0)).1 = l.data p ∧
      Wf (nodeDestroy l (A.getLastD 0)).2 (A ++ B) (p :: free) ∧
      (nodeDestroy l (A.getLastD 0)).2.data = l.data ∧
      (nodeDestroy l (A.getLastD 0)).2.itrs =
        fun i => (l.itrs i).map (Itr.destroyed (A.getLastD 0) p (B.headD 0)) := by
  have hp : l.next (A.getLastD 0) = p := h.next_eq
  have hp0 : p ≠ 0 :=
    h.ne_zero (mem_append_left _ (mem_append_right _ mem_cons_self))
  have hfollow : l.next p = B.headD 0 := h.next_node
  have hperm : (A ++ B ++ p :: free).Perm (A ++ p :: B ++ free) := by
    rw [append_assoc, append_assoc]
    exact List.perm_middle.append_left A
  have hnodup := (List.Perm.nodup_iff (hperm.cons 0)).mpr h.nodup
  rw [nodeDestroy, hp, if_neg hp0, hfollow]
  refine ⟨rfl, ?_, rfl, rfl⟩
  exact {
    linked := by
      have hmem : p ∉ 0 :: (A ++ B) := by
        have hn := hnodup
        rw [← cons_append] at hn
        exact fun hmem => (List.nodup_append.mp hn).2.2 p hmem p mem_cons_self rfl
      have htake := linkedTo_take h.linked h.nodup_nodes
      rw [hfollow] at htake
      exact (linkedTo_update hmem _ 0).mpr htake
    linked_free := by
      have hfree : p ∉ free := by
        have hn := hnodup
        rw [← cons_append] at hn
        exact (List.nodup_cons.mp (List.nodup_append.mp hn).2.1).1
      have hlast : A.getLastD 0 ∉ free := by
        have hmid := getLastD_notMem (by
          have hn := h.nodup
          rwa [append_assoc] at hn)
        exact fun hmem => hmid (mem_append_right _ hmem)
      refine ⟨?_, (linkedTo_update hfree _ 0).mpr ((linkedTo_update hlast _ 0).mpr h.linked_free)⟩
      exact (Function.update_self _ _ _).trans h.freeNodes_eq
    freeNodes_eq := rfl
    nodup := hnodup
    le_allocated := fun a ha => h.le_allocated a (hperm.mem_iff.mp ha)
    count_eq := by
      show l.count - 1 = _
      rw [h.count_eq, length_append, length_append, length_cons]
      omega
    tail_eq := by
      show (if B.headD 0 = 0 then A.getLastD 0 else l.tail) = _
      cases B with
      | nil => rw [headD_nil, if_pos rfl, append_nil]
      | cons b B =>
        have hb : b ≠ 0 := h.ne_zero (mem_append_left _
          (mem_append_right _ (mem_cons_of_mem _ mem_cons_self)))
        rw [headD_cons, if_neg hb, h.tail_eq]
        rw [getLastD_append_cons, getLastD_append_cons, getLastD_cons]
    data_isSome := by
      intro a ha
      refine h.data_isSome a ?_
      simp only [mem_append, mem_cons] at ha ⊢
      tauto }

/-- There is no node to take at the end of the list. -/
theorem nodeDestroy_end (h : Wf l A free) : nodeDestroy l (A.getLastD 0) = (none, l) := by
  have hp : l.next (A.getLastD 0) = 0 := by
    rw [← append_nil A] at h
    exact h.next_eq
  rw [nodeDestroy, if_pos hp]

/-! ## The first node that is found -/

/-- The loop of `list_delete_first`, which comes to a decision at the first node where `f`
is not 0. -/
theorem deleteFirstLoop_spec (f : δ → Int) {free : List Nat} {k : Nat} {A B : List Nat}
    (h : Wf l (A ++ B) free) (hk : B.length < k) :
    (deleteFirstLoop f l k (A.getLastD 0) = (0, l) ∧
      ∀ a ∈ B, ∃ x, l.data a = some x ∧ f x = 0) ∨
    ∃ C p D x, B = C ++ p :: D ∧ (∀ a ∈ C, ∃ x, l.data a = some x ∧ f x = 0) ∧
      l.data p = some x ∧
      (0 < f x ∧ deleteFirstLoop f l k (A.getLastD 0) =
          (1, (nodeDestroy l ((A ++ C).getLastD 0)).2) ∨
        f x < 0 ∧ deleteFirstLoop f l k (A.getLastD 0) = (-1, l)) := by
  induction k generalizing A B with
  | zero => exact absurd hk (Nat.not_lt_zero _)
  | succ k ih =>
    have hnext := h.next_eq
    cases B with
    | nil =>
      left
      have hnil : l.next (A.getLastD 0) = 0 := hnext
      rw [deleteFirstLoop, if_pos hnil]
      exact ⟨rfl, fun a ha => absurd ha not_mem_nil⟩
    | cons p B =>
      have hp : l.next (A.getLastD 0) = p := hnext
      have hp0 : p ≠ 0 :=
        h.ne_zero (mem_append_left _ (mem_append_right _ mem_cons_self))
      obtain ⟨x, hx⟩ := Option.isSome_iff_exists.mp
        (h.data_isSome p (mem_append_right _ mem_cons_self))
      rw [deleteFirstLoop, hp, if_neg hp0, hx]
      simp only
      rcases lt_trichotomy (f x) 0 with hf | hf | hf
      · right
        refine ⟨[], p, B, x, rfl, fun a ha => absurd ha not_mem_nil, hx, Or.inr ⟨hf, ?_⟩⟩
        rw [if_neg (by omega), if_pos hf]
      · have h' : Wf l ((A ++ [p]) ++ B) free := by
          rwa [append_assoc]
        have ih := ih h' (by
          rw [length_cons] at hk
          omega)
        rw [getLastD_concat] at ih
        rw [if_neg (by omega), if_neg (by omega)]
        rcases ih with ⟨heq, hall⟩ | ⟨C, q, D, y, rfl, hC, hy, hcase⟩
        · left
          refine ⟨heq, fun a ha => ?_⟩
          rcases List.mem_cons.mp ha with rfl | ha
          · exact ⟨x, hx, hf⟩
          · exact hall a ha
        · right
          refine ⟨p :: C, q, D, y, rfl, fun a ha => ?_, hy, ?_⟩
          · rcases List.mem_cons.mp ha with rfl | ha
            · exact ⟨x, hx, hf⟩
            · exact hC a ha
          · rw [append_assoc] at hcase
            exact hcase
      · right
        refine ⟨[], p, B, x, rfl, fun a ha => absurd ha not_mem_nil, hx, Or.inl ⟨hf, ?_⟩⟩
        rw [if_pos hf, append_nil]

/-- The list is as before, or a node less. -/
theorem deleteFirst_cases (f : δ → Int) (h : Wf l ns free) :
    (deleteFirstLoop f l (l.count + 1) 0).2 = l ∨
      ∃ A p B, ns = A ++ p :: B ∧
        (deleteFirstLoop f l (l.count + 1) 0).2 = (nodeDestroy l (A.getLastD 0)).2 := by
  have hk : ns.length < l.count + 1 := by
    rw [h.count_eq]
    exact Nat.lt_succ_self _
  rcases @deleteFirstLoop_spec _ _ f _ _ [] _ h hk with
    ⟨heq, -⟩ | ⟨C, p, D, x, rfl, -, -, ⟨-, heq⟩ | ⟨-, heq⟩⟩
  · left
    exact congrArg Prod.snd heq
  · right
    exact ⟨C, p, D, rfl, congrArg Prod.snd heq⟩
  · left
    exact congrArg Prod.snd heq

end Slurm.XList
