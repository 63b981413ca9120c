import Slurm.XList.Model

/-!
# Where an iterator stands

An iterator divides the nodes of its list in three: the nodes before, the node that
`list_remove` takes, when there is one, and the nodes that are still to come.  `At` says
which they are.

* `created_at` and `destroyed_at`: what becomes of the three when a node is put somewhere
  into the list, or taken from somewhere.
* `next_at`: what `list_next` does.
* `remove_eq`: what `list_remove` takes.
-/

namespace Slurm.XList

open Lib.Linked List Option

variable {δ : Type} {n : Nat} {l : ListT δ}
variable {p : Nat} {free : List Nat}

/-- The iterator stands between `before` with `rem` and `post`, and `rem` is the node that
`list_remove` would take. -/
structure At (itr : Itr) (before : List Nat) (rem : Option Nat) (post : List Nat) : Prop where
  pos_eq : itr.pos = post.headD 0
  prev_eq : itr.prev = before.getLastD 0

/-- The node `c` was put somewhere into the nodes, or somewhere else. -/
def Put (c : Nat) (ns ns' : List Nat) : Prop :=
  ns' = ns ∨ ∃ U V, ns = U ++ V ∧ ns' = U ++ c :: V

variable {itr : Itr} {before post A B : List Nat} {rem : Option Nat}

/-- A node `c` is put between `A` and `B`.  The iterator still takes the same node, if any. -/
theorem created_at {c : Nat} (h : At itr before rem post)
    (hns : before ++ rem.toList ++ post = A ++ B) (hnodup : (0 :: (A ++ B)).Nodup) :
    ∃ before' post', At (itr.created (A.getLastD 0) c (B.headD 0)) before' rem post' ∧
      before' ++ rem.toList ++ post' = A ++ c :: B ∧
      Put c (before ++ rem.toList) (before' ++ rem.toList) := by
  have hns' : A ++ B = before ++ (rem.toList ++ post) := by
    rw [← hns, append_assoc]
  unfold Itr.created
  split
  · -- The place is the one `prev` points to.
    rename_i hprev
    rw [h.prev_eq] at hprev
    obtain ⟨rfl, rfl⟩ := split_of_getLastD hnodup hns' hprev.symm
    refine ⟨A ++ [c], post, ⟨h.pos_eq, List.getLastD_concat.symm⟩, ?_, Or.inr ⟨A, rem.toList, rfl, ?_⟩⟩
    · simp only [append_assoc, cons_append, nil_append]
    · rw [append_assoc, singleton_append]
  rename_i hprev
  split
  · -- The place is before the next node.
    rename_i hpos
    rw [h.pos_eq] at hpos
    obtain ⟨rfl, rfl⟩ := split_of_headD hnodup hns.symm hpos.symm
    exact ⟨before, c :: B, ⟨rfl, h.prev_eq⟩, rfl, Or.inl rfl⟩
  · rename_i hpos
    have hA : A ≠ before := by
      rintro rfl
      exact hprev h.prev_eq
    have hB : B ≠ post := by
      rintro rfl
      exact hpos h.pos_eq
    rcases List.append_eq_append_iff.mp hns' with ⟨m, rfl, rfl⟩ | ⟨m, rfl, hm⟩
    · -- The place is before the iterator.
      cases m with
      | nil => exact absurd (append_nil A).symm hA
      | cons z m =>
        refine ⟨A ++ c :: z :: m, post, ⟨h.pos_eq, ?_⟩, ?_, Or.inr ⟨A, z :: m ++ rem.toList, ?_, ?_⟩⟩
        · rw [h.prev_eq, getLastD_append_cons, getLastD_append_cons, getLastD_cons]
        · simp only [append_assoc, cons_append]
        · rw [append_assoc]
        · simp only [append_assoc, cons_append]
    · rcases List.append_eq_append_iff.mp hm with ⟨m₂, rfl, rfl⟩ | ⟨m₂, hrem, rfl⟩
      · -- The place is after the iterator.
        cases m₂ with
        | nil => exact absurd rfl hB
        | cons z m₂ =>
          refine ⟨before, z :: m₂ ++ c :: B, ⟨h.pos_eq, h.prev_eq⟩, ?_, Or.inl rfl⟩
          simp only [append_assoc]
      · -- Between `rem` and what is on one of its sides.
        cases m with
        | nil => exact absurd (append_nil before) hA
        | cons z m =>
          cases m₂ with
          | nil => exact absurd rfl hB
          | cons y m₂ =>
            have hlen := congrArg List.length hrem
            have hle := length_toList_le (o := rem)
            simp only [length_append, length_cons] at hlen
            omega

theorem filter_ne_self {X : List Nat} (hp : p ∉ X) : X.filter (· ≠ p) = X := by
  refine List.filter_eq_self.mpr fun a ha => decide_eq_true ?_
  rintro rfl
  exact hp ha

theorem filter_ne_middle {U V : List Nat} (hnodup : (U ++ p :: V).Nodup) :
    (U ++ p :: V).filter (· ≠ p) = U ++ V := by
  have hU : p ∉ U := fun hmem => (List.nodup_append.mp hnodup).2.2 p hmem p mem_cons_self rfl
  have hV : p ∉ V := (List.nodup_cons.mp (List.nodup_append.mp hnodup).2.1).1
  rw [filter_append, filter_ne_self hU, filter_cons_of_neg (by simp), filter_ne_self hV]

/-- The node `p` is taken from between `A` and `B`.  When it is the next node of the iterator,
`list_remove` takes nothing from then on. -/
theorem destroyed_at (h : At itr before rem post) (hns : before ++ rem.toList ++ post = A ++ p :: B)
    (hnodup : (0 :: (A ++ p :: B)).Nodup) :
    ∃ before' post', At (itr.destroyed (A.getLastD 0) p (B.headD 0)) before'
        (if itr.pos = p then none else rem.filter (· ≠ p)) post' ∧
      before' ++ (if itr.pos = p then none else rem.filter (· ≠ p)).toList ++ post' = A ++ B ∧
      before' ++ (if itr.pos = p then none else rem.filter (· ≠ p)).toList =
        (before ++ rem.toList).filter (· ≠ p) := by
  have hns' : A ++ p :: B = before ++ (rem.toList ++ post) := by
    rw [← hns, append_assoc]
  have hall := (List.nodup_cons.mp hnodup).2
  unfold Itr.destroyed
  by_cases hpos : itr.pos = p
  · -- `p` is the next node.
    rw [if_pos hpos, if_pos hpos]
    rw [h.pos_eq] at hpos
    obtain ⟨rfl, rfl⟩ := split_of_headD hnodup hns.symm hpos.symm
    refine ⟨before ++ rem.toList, B, ⟨rfl, rfl⟩, ?_, ?_⟩
    · rw [toList_none, append_nil]
    · rw [toList_none, append_nil, filter_ne_self]
      exact fun hmem => (List.nodup_append.mp hall).2.2 p hmem p mem_cons_self rfl
  rw [if_neg hpos, if_neg hpos]
  have hfilter : p ∉ rem.toList → rem.filter (· ≠ p) = rem := by
    intro hmem
    cases rem with
    | none => rfl
    | some a =>
      have ha : a ≠ p := fun heq => hmem (heq ▸ mem_singleton_self a)
      exact if_pos (decide_eq_true ha)
  by_cases hprev : itr.prev = p
  · -- `p` is the node with the field that `prev` points to.
    rw [if_pos hprev]
    rw [h.prev_eq] at hprev
    have hmid : A ++ [p] ++ B = before ++ (rem.toList ++ post) := by
      rw [← hns', append_assoc]
      rfl
    have hsplit := @split_of_getLastD _ _ _ _ 0 (by rwa [append_assoc]) hmid
      (by rw [getLastD_concat, hprev])
    obtain ⟨rfl, rfl⟩ := hsplit
    have hp : p ∉ rem.toList := fun hmem =>
      (List.nodup_cons.mp (List.nodup_append.mp hall).2.1).1 (mem_append_left _ hmem)
    rw [hfilter hp]
    refine ⟨A, post, ⟨h.pos_eq, rfl⟩, append_assoc _ _ _, ?_⟩
    rw [append_assoc, singleton_append, filter_ne_middle]
    exact hall.sublist ((sublist_append_left (p :: rem.toList) post).append_left A)
  rw [if_neg hprev]
  have hmem : p ∈ before ∨ p ∈ rem.toList ∨ p ∈ post := by
    have hmem : p ∈ A ++ p :: B := mem_append_right _ mem_cons_self
    rw [hns', mem_append, mem_append] at hmem
    exact hmem
  rcases hmem with hmem | hmem | hmem
  · -- `p` is before the iterator.
    obtain ⟨U, V, rfl⟩ := append_of_mem hmem
    have hmid : A ++ p :: B = U ++ p :: (V ++ (rem.toList ++ post)) := by
      rw [hns', append_assoc, cons_append]
    obtain ⟨rfl, heq⟩ := split_of_headD hnodup hmid rfl
    obtain rfl : B = V ++ (rem.toList ++ post) := tail_eq_of_cons_eq heq
    have hp : p ∉ rem.toList := fun hmem => (List.nodup_cons.mp (List.nodup_append.mp hall).2.1).1
      (mem_append_right _ (mem_append_left _ hmem))
    rw [hfilter hp]
    refine ⟨A ++ V, post, ⟨h.pos_eq, ?_⟩, ?_, ?_⟩
    · rw [h.prev_eq, getLastD_append_cons] at hprev ⊢
      cases V with
      | nil => exact absurd rfl hprev
      | cons z V => rw [getLastD_append_cons, getLastD_cons]
    · simp only [append_assoc]
    · rw [append_assoc, append_assoc, cons_append, filter_ne_middle]
      refine hall.sublist (List.Sublist.append_left (List.Sublist.cons_cons p ?_) A)
      rw [← append_assoc]
      exact sublist_append_left _ post
  · -- `p` is the node that `list_remove` would take.
    obtain rfl : rem = some p := Option.mem_toList.mp hmem
    have hmid : A ++ p :: B = before ++ p :: post := hns'
    obtain ⟨rfl, heq⟩ := split_of_headD hnodup hmid rfl
    obtain rfl : B = post := tail_eq_of_cons_eq heq
    have hnone : (some p).filter (· ≠ p) = none := if_neg (by simp)
    rw [hnone]
    refine ⟨A, B, ⟨h.pos_eq, h.prev_eq⟩, ?_, ?_⟩
    · rw [toList_none, append_nil]
    · rw [toList_none, toList_some, filter_ne_middle]
      exact hall.sublist ((nil_sublist B).cons_cons p |>.append_left A)
  · -- `p` is still to come.
    obtain ⟨U, V, rfl⟩ := append_of_mem hmem
    have hmid : A ++ p :: B = before ++ rem.toList ++ U ++ p :: V := by
      rw [hns', append_assoc, append_assoc]
    obtain ⟨rfl, heq⟩ := split_of_headD hnodup hmid rfl
    obtain rfl : B = V := tail_eq_of_cons_eq heq
    have hp : p ∉ before ++ rem.toList := fun hmem => (List.nodup_append.mp hall).2.2 p
      (mem_append_left _ hmem) p mem_cons_self rfl
    rw [hfilter fun hmem => hp (mem_append_right _ hmem)]
    refine ⟨before, U ++ B, ⟨?_, h.prev_eq⟩, (append_assoc _ _ _).symm, (filter_ne_self hp).symm⟩
    rw [h.pos_eq] at hpos ⊢
    cases U with
    | nil => exact absurd rfl hpos
    | cons z U => rfl

/-! ## Calls with an iterator -/

/-- At the head. -/
theorem reset_at {ns : List Nat} (h : Wf l ns free) :
    At { pos := l.next 0, prev := 0 } [] none ns where
  pos_eq := h.linked.1
  prev_eq := rfl

theorem pos_ne_zero_iff (h : Wf l (before ++ rem.toList ++ post) free)
    (hat : At itr before rem post) : itr.pos ≠ 0 ↔ post ≠ [] := by
  rw [hat.pos_eq]
  cases post with
  | nil => exact iff_of_false (fun hne => hne rfl) fun hne => hne rfl
  | cons p post =>
    refine iff_of_true ?_ (cons_ne_nil p post)
    exact h.ne_zero (mem_append_left _ (mem_append_right _ mem_cons_self))

/-- `prev` points to the node before the next one, or to the one before that. -/
theorem next_prev (h : Wf l (before ++ rem.toList ++ post) free) (hat : At itr before rem post) :
    l.next itr.prev = rem.getD itr.pos := by
  rw [append_assoc] at h
  rw [hat.prev_eq, h.next_eq, hat.pos_eq]
  cases rem with
  | none => rfl
  | some a => rfl

theorem rem_ne_pos {a : Nat} (h : Wf l (before ++ [a] ++ post) free)
    (hat : At itr before (some a) post) : a ≠ itr.pos := by
  have ha : a ∈ before ++ [a] := mem_append_right _ (mem_singleton_self a)
  have hnodup := (List.nodup_cons.mp h.nodup_nodes).2
  rw [hat.pos_eq]
  cases post with
  | nil => exact h.ne_zero (mem_append_left _ (mem_append_left _ ha))
  | cons p post => exact (List.nodup_append.mp hnodup).2.2 a ha p mem_cons_self

/-- `prev` after `list_next`. -/
theorem nextLocked_prev (h : Wf l (before ++ rem.toList ++ post) free)
    (hat : At itr before rem post) :
    (nextLocked l itr).2.prev = (before ++ rem.toList).getLastD 0 := by
  show (if l.next itr.prev ≠ itr.pos then l.next itr.prev else itr.prev) = _
  rw [next_prev h hat]
  cases rem with
  | none =>
    rw [if_neg (fun hne => hne rfl), hat.prev_eq, toList_none, append_nil]
  | some a =>
    rw [getD_some, if_pos (rem_ne_pos h hat), toList_some, getLastD_concat]

/-- `list_next` at the end of the list. -/
theorem next_end (h : Wf l (before ++ rem.toList ++ []) free) (hat : At itr before rem []) :
    (nextLocked l itr).1 = none ∧ At (nextLocked l itr).2 (before ++ rem.toList) none [] := by
  have hpos : ¬ itr.pos ≠ 0 := fun hne => (pos_ne_zero_iff h hat).mp hne rfl
  refine ⟨if_neg hpos, ?_, nextLocked_prev h hat⟩
  show (if itr.pos ≠ 0 then l.next itr.pos else itr.pos) = 0
  rw [if_neg hpos]
  exact hat.pos_eq

/-- `list_next` before a node. -/
theorem next_at (h : Wf l (before ++ rem.toList ++ p :: post) free)
    (hat : At itr before rem (p :: post)) :
    itr.pos = p ∧ (nextLocked l itr).1 = l.data p ∧
      At (nextLocked l itr).2 (before ++ rem.toList) (some p) post := by
  have hpos : itr.pos = p := hat.pos_eq
  have hne : itr.pos ≠ 0 := (pos_ne_zero_iff h hat).mpr (cons_ne_nil p post)
  refine ⟨hpos, ?_, ?_, nextLocked_prev h hat⟩
  · show (if itr.pos ≠ 0 then l.data itr.pos else none) = _
    rw [if_pos hne, hpos]
  · show (if itr.pos ≠ 0 then l.next itr.pos else itr.pos) = _
    rw [if_pos hne, hpos]
    exact h.next_node

/-- `list_remove` takes `rem`, or nothing. -/
theorem remove_eq (h : Wf l (before ++ rem.toList ++ post) free) (hat : At itr before rem post) :
    listRemove l itr =
      if rem.isSome then nodeDestroy l (before.getLastD 0) else (none, l) := by
  unfold listRemove
  rw [next_prev h hat, hat.prev_eq]
  cases rem with
  | none => exact if_neg fun hne => hne rfl
  | some a => exact if_pos (rem_ne_pos h hat)

end Slurm.XList
