import Slurm.XList.Iterators
import Slurm.Lib.Run

/-!
# Iterators and changes of their list

`listContract_iff` says when the iterators of a list survive the changes of the list: in
every run the list stays well formed and every iterator returns what stays in the list,
once and in order.  `list_remove` takes the element that `list_next` returned last exactly
when the element that the iterator would return next was not taken since: taking that one
moves `prev` of the iterator past the element that was returned.

A run is watched with a clock.  Each element has the time at which it was put into the
list for its name, so that an element is not taken for a later one in the same node.

* `Added.inv` and `Taken.inv`: what every state of a run has is kept by what every state of a run has.
* `next_holds` and `remove_holds_iff`: the two obligations, for one step.
-/

namespace Slurm.XList

open Lib.Linked Lib.Run List

variable {δ : Type}
variable {b i : Nat}

/-! ## Watched runs -/

/-- What was seen of an iterator since it was created or reset. -/
structure Seen (δ : Type) where
  /-- When it was created or reset. -/
  start : Nat
  /-- The elements that were returned. -/
  returned : List Nat
  /-- `NULL` was returned. -/
  ended : Bool
  /-- What the last `list_next` returned: the element, and its data. -/
  last : Option (Nat × δ)
  /-- The element that is returned next, or was to be, was taken since the last `list_next`. -/
  nextGone : Bool

/-- A list, with the names of the elements in its nodes, and what was seen of its iterators. -/
structure Watched (δ : Type) where
  list : ListT δ
  birth : Nat → Nat
  clock : Nat
  seen : Nat → Option (Seen δ)

/-- The elements of the list, in order. -/
def Watched.items (w : Watched δ) : List Nat := (nodes w.list).map w.birth

/-- A list at its creation. -/
def watched₀ (δ : Type) (n : Nat) : Watched δ :=
  { list := listCreate δ n, birth := fun _ => 0, clock := 0, seen := fun _ => none }

/-- An iterator that was just created or reset. -/
def Seen.fresh (clock : Nat) : Seen δ :=
  { start := clock, returned := [], ended := false, last := none, nextGone := false }

/-- The iterator after `list_next` returned an element with its data, or `NULL`. -/
def Seen.next (s : Seen δ) : Option (Nat × δ) → Seen δ
  | none => { s with ended := true, last := none, nextGone := false }
  | some (b, x) =>
    { s with returned := s.returned ++ [b], last := some (b, x), nextGone := false }

/-- What `list_next` returns: the element, and its data. -/
def nextReturns (w : Watched δ) (itr : Itr) : Option (Nat × δ) :=
  (nextLocked w.list itr).1.map fun x => (w.birth itr.pos, x)

/-- The next element of the iterator is not among `items`. -/
def nextTaken (w : Watched δ) (items : List Nat) (itr : Itr) : Bool :=
  decide (itr.pos ≠ 0) && !items.contains (w.birth itr.pos)

/-- What is seen of iterator `j` when the list is changed, and has `items` then. -/
def seenAfter (w : Watched δ) (items : List Nat) (j : Nat) : Option (Seen δ) :=
  (w.seen j).map fun s =>
    { s with nextGone := s.nextGone || (w.list.itrs j).any (nextTaken w items) }

/-- After a call that puts an element into the list. -/
def Watched.added (n : Nat) (w : Watched δ) (l : ListT δ) : Watched δ :=
  let birth := Function.update w.birth (moreNodes n w.list).freeNodes w.clock
  { list := l, birth := birth, clock := w.clock + 1, seen := seenAfter w ((nodes l).map birth) }

/-- After a call that may take an element from the list. -/
def Watched.taken (w : Watched δ) (l : ListT δ) : Watched δ :=
  { w with list := l, seen := seenAfter w ((nodes l).map w.birth) }

/-- After a call that sets iterator `i`. -/
def Watched.moved (w : Watched δ) (i : Nat) (l : ListT δ) (s : Option (Seen δ)) : Watched δ :=
  { w with list := l, seen := Function.update w.seen i s }

/-! ## The contract -/

/-- The list is a sequence of nodes that ends at the tail, apart from the unused nodes, and
its count is their number. -/
def WellFormed (l : ListT δ) : Prop := ∃ free, Wf l (nodes l) free

/-- At the end of the list, all that was in it since the iterator was created or reset was
returned, once and in order. -/
def ReturnedAll (w : Watched δ) (i : Nat) : Prop :=
  ∀ s itr, w.seen i = some s → w.list.itrs i = some itr → s.ended = false →
    (listNext w.list i itr).1 = none →
      w.items.filter (· < s.start) =
        s.returned.filter fun b => decide (b < s.start) && w.items.contains b

/-- The element that was returned last, when it is still in the list, is taken and returned. -/
def RemovesLast (w : Watched δ) (i : Nat) (w' : Watched δ) : Prop :=
  ∀ s itr b x, w.seen i = some s → w.list.itrs i = some itr → s.last = some (b, x) →
    b ∈ w.items → (listRemove w.list itr).1 = some x ∧ w'.items = w.items.erase b

/-- What each call must do. -/
def StepHolds (w : Watched δ) (c : Cmd δ) (w' : Watched δ) : Prop :=
  match c with
  | .next i => ReturnedAll w i
  | .remove i => RemovesLast w i w'
  | _ => True

/-- When the contract is met: `list_remove` is called while the element that was returned
last is in the list only when the next one was not taken. -/
def NextStays (w : Watched δ) (c : Cmd δ) : Prop :=
  match c with
  | .remove i => ∀ s b x, w.seen i = some s → s.last = some (b, x) → b ∈ w.items → s.nextGone = false
  | _ => True

/-! ## The invariant -/

/-- What was seen of an iterator, and where it stands. -/
structure SeenInv (w : Watched δ) (itr : Itr) (s : Seen δ) (before : List Nat) (rem : Option Nat)
    (post : List Nat) : Prop where
  stands : At itr before rem post
  start_le : s.start ≤ w.clock
  returned_lt : ∀ b ∈ s.returned, b < w.clock
  removable : ∀ a, rem = some a →
    ∃ x, s.last = some (w.birth a, x) ∧ w.list.data a = some x ∧ s.nextGone = false
  last_lt : ∀ b x, s.last = some (b, x) → b < w.clock
  gone : rem = none → ∀ b x, s.last = some (b, x) → b ∈ w.items → s.nextGone = true
  returned_eq : s.ended = false →
    ((before ++ rem.toList).map w.birth).filter (· < s.start) =
      s.returned.filter fun b => decide (b < s.start) && w.items.contains b

/-- What every state of a run has. -/
structure Inv (w : Watched δ) : Prop where
  wf : WellFormed w.list
  nodup : w.items.Nodup
  lt_clock : ∀ b ∈ w.items, b < w.clock
  seen : ∀ i, (w.list.itrs i = none ∧ w.seen i = none) ∨
    ∃ itr s before rem post, w.list.itrs i = some itr ∧ w.seen i = some s ∧
      nodes w.list = before ++ rem.toList ++ post ∧ SeenInv w itr s before rem post

theorem inv_watched₀ {n : Nat} (hn : 2 ≤ n) : Inv (watched₀ δ n) where
  wf := ⟨_, listCreate_wf (by omega)⟩
  nodup := nodup_nil
  lt_clock := fun b hb => absurd hb not_mem_nil
  seen := fun i => Or.inl ⟨rfl, rfl⟩

variable {w : Watched δ}

/-- Each element is in one node. -/
theorem Inv.birth_inj (hw : Inv w) {a : Nat} (ha : a ∈ nodes w.list) (hb : b ∈ nodes w.list)
    (hab : w.birth a = w.birth b) : a = b :=
  inj_on_of_nodup_map hw.nodup ha hb hab

theorem nextTaken_eq_false {items : List Nat} {itr : Itr} {before post : List Nat} {rem : Option Nat}
    (hat : At itr before rem post) (h : ∀ p ∈ post.head?, w.birth p ∈ items) :
    nextTaken w items itr = false := by
  rw [nextTaken, hat.pos_eq]
  cases post with
  | nil => rfl
  | cons p post =>
    have hp : items.contains (w.birth p) = true := List.contains_iff_mem.mpr (h p rfl)
    rw [headD_cons, hp]
    exact Bool.and_false _

/-! ## An element more -/

/-- An element is put into node `c`, between `A` and `B`. -/
structure Added (w w' : Watched δ) (A B : List Nat) (c : Nat) : Prop where
  nodes_eq : nodes w.list = A ++ B
  wf : WellFormed w'.list
  nodes_eq' : nodes w'.list = A ++ c :: B
  nodup : (0 :: (A ++ B)).Nodup
  notMem : c ∉ A ++ B
  birth_eq : w'.birth = Function.update w.birth c w.clock
  clock_eq : w'.clock = w.clock + 1
  data_eq : ∀ a, a ≠ c → w'.list.data a = w.list.data a
  itrs_eq : ∀ i, w'.list.itrs i = (w.list.itrs i).map (Itr.created (A.getLastD 0) c (B.headD 0))
  seen_eq : ∀ i, w'.seen i = seenAfter w w'.items i

theorem added_spec {n : Nat} (hn : 2 ≤ n) (hw : WellFormed w.list) {A B : List Nat}
    (hns : nodes w.list = A ++ B) (x : δ) :
    ∃ c, Added w (w.added n (nodeCreate n w.list (A.getLastD 0) x)) A B c := by
  obtain ⟨free, hwf⟩ := hw
  rw [hns] at hwf
  obtain ⟨c, free', hfirst, hc, hcreated, hdata, hitrs⟩ := nodeCreate_wf hn hwf x
  refine ⟨c, ?_⟩
  exact {
    nodes_eq := hns
    wf := by
      refine ⟨free', ?_⟩
      show Wf _ (nodes (nodeCreate n w.list (A.getLastD 0) x)) free'
      rw [hcreated.nodes_eq]
      exact hcreated
    nodes_eq' := hcreated.nodes_eq
    nodup := hwf.nodup_nodes
    notMem := hc
    birth_eq := by
      show Function.update w.birth (moreNodes n w.list).freeNodes w.clock = _
      rw [hfirst]
    clock_eq := rfl
    data_eq := by
      intro a ha
      show (nodeCreate n w.list (A.getLastD 0) x).data a = _
      rw [hdata, Function.update_of_ne ha]
    itrs_eq := fun i => congrFun hitrs i
    seen_eq := fun i => rfl }

namespace Added

variable {w' : Watched δ} {A B : List Nat} {c : Nat}

theorem birth_old (h : Added w w' A B c) {a : Nat} (ha : a ∈ A ++ B) : w'.birth a = w.birth a := by
  have hac : a ≠ c := by
    rintro rfl
    exact h.notMem ha
  rw [h.birth_eq, Function.update_of_ne hac]

theorem birth_new (h : Added w w' A B c) : w'.birth c = w.clock := by
  rw [h.birth_eq, Function.update_self]

theorem items_eq (h : Added w w' A B c) :
    w'.items = A.map w.birth ++ w.clock :: B.map w.birth := by
  rw [Watched.items, h.nodes_eq', map_append, map_cons, h.birth_new,
    map_congr_left fun a ha => h.birth_old (mem_append_left _ ha),
    map_congr_left fun a ha => h.birth_old (mem_append_right _ ha)]

theorem items_perm (h : Added w w' A B c) : w'.items.Perm (w.clock :: w.items) := by
  rw [h.items_eq, Watched.items, h.nodes_eq, map_append]
  exact perm_middle

/-- An element that was there before. -/
theorem mem_items (h : Added w w' A B c) (hb : b < w.clock) : b ∈ w'.items ↔ b ∈ w.items := by
  rw [h.items_perm.mem_iff, mem_cons]
  exact or_iff_right (Nat.ne_of_lt hb)

/-- The elements from before `start` are the same. -/
theorem filter_eq (h : Added w w' A B c) {ns ns' : List Nat} (hput : Put c ns ns')
    (hns : ∀ a ∈ ns, a ∈ A ++ B) {start : Nat} (hstart : start ≤ w.clock) :
    (ns'.map w'.birth).filter (· < start) = (ns.map w.birth).filter (· < start) := by
  have hold : ∀ m : List Nat, (∀ a ∈ m, a ∈ A ++ B) → m.map w'.birth = m.map w.birth :=
    fun m hm => map_congr_left fun a ha => h.birth_old (hm a ha)
  have hnew : ¬ decide (w'.birth c < start) = true := by
    rw [h.birth_new, decide_eq_true_iff]
    exact Nat.not_lt.mpr hstart
  rcases hput with rfl | ⟨U, V, rfl, rfl⟩
  · rw [hold ns' hns]
  · rw [map_append, map_append, map_cons,
      hold U fun a ha => hns a (mem_append_left _ ha),
      hold V fun a ha => hns a (mem_append_right _ ha),
      filter_append, filter_append, filter_cons, if_neg hnew]

/-- What was seen of an iterator still says where it stands. -/
theorem seenInv (h : Added w w' A B c) {itr : Itr} {s : Seen δ} {before post : List Nat}
    {rem : Option Nat} (hparts : before ++ rem.toList ++ post = A ++ B)
    (hs : SeenInv w itr s before rem post) :
    ∃ before' post', nodes w'.list = before' ++ rem.toList ++ post' ∧
      SeenInv w' (itr.created (A.getLastD 0) c (B.headD 0)) s before' rem post' := by
  obtain ⟨before', post', hat, hparts', hput⟩ :=
    @created_at _ _ _ _ _ _ c hs.stands hparts h.nodup
  refine ⟨before', post', h.nodes_eq'.trans hparts'.symm, ?_⟩
  have hmem : ∀ a ∈ before ++ rem.toList, a ∈ A ++ B := by
    intro a ha
    rw [← hparts]
    exact mem_append_left _ ha
  have hclock : w.clock ≤ w'.clock := by
    rw [h.clock_eq]
    exact Nat.le_succ _
  exact {
    stands := hat
    start_le := hs.start_le.trans hclock
    returned_lt := fun b hb => (hs.returned_lt b hb).trans_le hclock
    last_lt := fun b x hx => (hs.last_lt b x hx).trans_le hclock
    removable := by
      rintro a rfl
      obtain ⟨x, hlast, hx, hgone⟩ := hs.removable a rfl
      have ha := hmem a (mem_append_right _ (mem_singleton_self a))
      have hac : a ≠ c := by
        rintro rfl
        exact h.notMem ha
      refine ⟨x, ?_, ?_, hgone⟩
      · rw [h.birth_old ha]
        exact hlast
      · rw [h.data_eq a hac]
        exact hx
    gone := by
      intro hrem b x hlast hb
      exact hs.gone hrem b x hlast ((h.mem_items (hs.last_lt b x hlast)).mp hb)
    returned_eq := by
      intro hended
      rw [h.filter_eq hput hmem hs.start_le, hs.returned_eq hended]
      refine filter_congr fun b hb => ?_
      rw [Bool.eq_iff_iff, Bool.and_eq_true, Bool.and_eq_true, contains_iff_mem,
        contains_iff_mem, h.mem_items (hs.returned_lt b hb)] }

theorem inv (h : Added w w' A B c) (hw : Inv w) : Inv w' where
  wf := h.wf
  nodup := by
    rw [h.items_perm.nodup_iff]
    exact List.nodup_cons.mpr ⟨fun hmem => Nat.lt_irrefl _ (hw.lt_clock _ hmem), hw.nodup⟩
  lt_clock := by
    intro b hb
    rw [h.clock_eq]
    rcases List.mem_cons.mp (h.items_perm.mem_iff.mp hb) with rfl | hb
    · exact Nat.lt_succ_self _
    · exact Nat.lt_succ_of_lt (hw.lt_clock b hb)
  seen := by
    intro i
    rw [h.itrs_eq, h.seen_eq, seenAfter]
    rcases hw.seen i with ⟨hi, hs⟩ | ⟨itr, s, before, rem, post, hi, hs, hparts, hinv⟩
    · left
      rw [hi, hs]
      exact ⟨rfl, rfl⟩
    · right
      have hnext : nextTaken w w'.items itr = false := by
        refine nextTaken_eq_false hinv.stands fun p hp => ?_
        have hmem : w.birth p ∈ w.items := by
          refine mem_map_of_mem ?_
          rw [hparts]
          exact mem_append_right _ (mem_of_mem_head? hp)
        exact (h.mem_items (hw.lt_clock _ hmem)).mpr hmem
      obtain ⟨before', post', hparts', hinv'⟩ := h.seenInv (hparts.symm.trans h.nodes_eq) hinv
      refine ⟨_, s, before', rem, post', ?_, ?_, hparts', hinv'⟩
      · rw [hi, Option.map_some]
      · rw [hs, hi, Option.map_some, Option.any_some, hnext, Bool.or_false]

end Added

/-! ## An element less -/

/-- The element in node `p`, between `A` and `B`, is taken. -/
structure Taken (w w' : Watched δ) (A B : List Nat) (p : Nat) : Prop where
  nodes_eq : nodes w.list = A ++ p :: B
  wf : WellFormed w'.list
  nodes_eq' : nodes w'.list = A ++ B
  nodup : (0 :: (A ++ p :: B)).Nodup
  birth_eq : w'.birth = w.birth
  clock_eq : w'.clock = w.clock
  data_eq : w'.list.data = w.list.data
  itrs_eq : ∀ i, w'.list.itrs i = (w.list.itrs i).map (Itr.destroyed (A.getLastD 0) p (B.headD 0))
  seen_eq : ∀ i, w'.seen i = seenAfter w w'.items i

theorem taken_spec (hw : WellFormed w.list) {A B : List Nat} {p : Nat}
    (hns : nodes w.list = A ++ p :: B) :
    (nodeDestroy w.list (A.getLastD 0)).1 = w.list.data p ∧
      Taken w (w.taken (nodeDestroy w.list (A.getLastD 0)).2) A B p := by
  obtain ⟨free, hwf⟩ := hw
  rw [hns] at hwf
  obtain ⟨hresult, hdestroyed, hdata, hitrs⟩ := nodeDestroy_wf hwf
  refine ⟨hresult, ?_⟩
  exact {
    nodes_eq := hns
    wf := by
      refine ⟨p :: free, ?_⟩
      show Wf _ (nodes (nodeDestroy w.list (A.getLastD 0)).2) _
      rw [hdestroyed.nodes_eq]
      exact hdestroyed
    nodes_eq' := hdestroyed.nodes_eq
    nodup := hwf.nodup_nodes
    birth_eq := rfl
    clock_eq := rfl
    data_eq := hdata
    itrs_eq := fun i => congrFun hitrs i
    seen_eq := fun i => rfl }

namespace Taken

variable {w' : Watched δ} {A B : List Nat} {p : Nat}

/-- Without node `p`, and without the element in it. -/
theorem map_filter (h : Taken w w' A B p) (hw : Inv w) {ns : List Nat}
    (hns : ∀ a ∈ ns, a ∈ nodes w.list) :
    (ns.filter (· ≠ p)).map w'.birth = (ns.map w.birth).filter (· ≠ w.birth p) := by
  have hp : p ∈ nodes w.list := by
    rw [h.nodes_eq]
    exact mem_append_right _ mem_cons_self
  rw [h.birth_eq, filter_map]
  congr 1
  refine filter_congr fun a ha => ?_
  rw [Function.comp_apply, decide_eq_decide]
  exact ⟨fun hne heq => hne (hw.birth_inj (hns a ha) hp heq), fun hne heq => hne (congrArg _ heq)⟩

theorem items_eq (h : Taken w w' A B p) (hw : Inv w) :
    w'.items = w.items.filter (· ≠ w.birth p) := by
  rw [Watched.items, h.nodes_eq', ← filter_ne_middle (List.nodup_cons.mp h.nodup).2, ← h.nodes_eq,
    h.map_filter hw fun a ha => ha]
  rfl

theorem mem_items (h : Taken w w' A B p) (hw : Inv w) :
    b ∈ w'.items ↔ b ∈ w.items ∧ b ≠ w.birth p := by
  rw [h.items_eq hw, mem_filter, decide_eq_true_iff]

theorem items_eq_erase (h : Taken w w' A B p) (hw : Inv w) :
    w'.items = w.items.erase (w.birth p) := by
  rw [h.items_eq hw, hw.nodup.erase_eq_filter]
  refine filter_congr fun b _ => ?_
  rw [Bool.eq_iff_iff, decide_eq_true_iff, bne_iff_ne]

/-- What was seen of an iterator, with the change, says where it stands. -/
theorem seenInv (h : Taken w w' A B p) (hw : Inv w) {itr : Itr} {s : Seen δ} {before post : List Nat}
    {rem : Option Nat} (hparts : nodes w.list = before ++ rem.toList ++ post)
    (hs : SeenInv w itr s before rem post) :
    ∃ before' rem' post', nodes w'.list = before' ++ rem'.toList ++ post' ∧
      SeenInv w' (itr.destroyed (A.getLastD 0) p (B.headD 0))
        { s with nextGone := s.nextGone || nextTaken w w'.items itr } before' rem' post' := by
  obtain ⟨before', post', hat, hparts', hbefore⟩ :=
    destroyed_at hs.stands (hparts.symm.trans h.nodes_eq) h.nodup
  refine ⟨before', _, post', h.nodes_eq'.trans hparts'.symm, ?_⟩
  have hmem : ∀ a ∈ before ++ rem.toList, a ∈ nodes w.list := by
    intro a ha
    rw [hparts]
    exact mem_append_left _ ha
  have hpos : itr.pos = p → nextTaken w w'.items itr = true := by
    rintro rfl
    have hp : itr.pos ≠ 0 := by
      intro hzero
      have hzero' : (0 : Nat) ∈ A ++ itr.pos :: B := by
        rw [hzero]
        exact mem_append_right _ mem_cons_self
      exact (List.nodup_cons.mp h.nodup).1 hzero'
    have hnot : w'.items.contains (w.birth itr.pos) = false := by
      rw [← Bool.not_eq_true, contains_iff_mem, h.mem_items hw]
      exact fun hb => hb.2 rfl
    rw [nextTaken, decide_eq_true hp, hnot]
    rfl
  have hother : itr.pos ≠ p → nextTaken w w'.items itr = false := by
    intro hne
    refine nextTaken_eq_false hs.stands fun q hq => (h.mem_items hw).mpr ?_
    have hq' : itr.pos = q := by
      rw [hs.stands.pos_eq, headD_eq_head?_getD, hq, Option.getD_some]
    have hqmem : q ∈ nodes w.list := by
      rw [hparts]
      exact mem_append_right _ (mem_of_mem_head? hq)
    have hpmem : p ∈ nodes w.list := by
      rw [h.nodes_eq]
      exact mem_append_right _ mem_cons_self
    refine ⟨mem_map_of_mem hqmem, fun heq => hne ?_⟩
    rw [hq']
    exact hw.birth_inj hqmem hpmem heq
  exact {
    stands := hat
    start_le := by
      rw [h.clock_eq]
      exact hs.start_le
    returned_lt := by
      rw [h.clock_eq]
      exact hs.returned_lt
    last_lt := by
      rw [h.clock_eq]
      exact hs.last_lt
    removable := by
      intro a ha
      split at ha
      · cases ha
      · rename_i hne
        obtain ⟨hrem, -⟩ := Option.filter_eq_some_iff.mp ha
        obtain ⟨x, hlast, hx, hgone⟩ := hs.removable a hrem
        rw [h.birth_eq, h.data_eq]
        refine ⟨x, hlast, hx, ?_⟩
        rw [hgone, hother hne]
        rfl
    gone := by
      intro hrem b x hlast hb
      split at hrem
      · rename_i heq
        rw [hpos heq]
        exact Bool.or_true _
      · obtain ⟨hb, hne⟩ := (h.mem_items hw).mp hb
        cases rem with
        | none =>
          show (s.nextGone || _) = true
          rw [hs.gone rfl b x hlast hb, Bool.true_or]
        | some a =>
          obtain ⟨y, hlast', -, -⟩ := hs.removable a rfl
          have hab : w.birth a = b := by
            have heq := hlast'.symm.trans hlast
            exact congrArg Prod.fst (Option.some.inj heq)
          have hap : a = p := by
            by_contra hap
            rw [Option.filter_some, if_pos (decide_eq_true hap)] at hrem
            cases hrem
          exact absurd (hab.symm.trans (congrArg _ hap)) hne
    returned_eq := by
      intro hended
      rw [hbefore, h.map_filter hw hmem, filter_comm, hs.returned_eq hended, filter_filter]
      refine filter_congr fun b _ => ?_
      rw [Bool.eq_iff_iff]
      simp only [Bool.and_eq_true, decide_eq_true_iff, contains_iff_mem, h.mem_items hw]
      tauto }

theorem inv (h : Taken w w' A B p) (hw : Inv w) : Inv w' where
  wf := h.wf
  nodup := by
    rw [h.items_eq hw]
    exact hw.nodup.filter _
  lt_clock := by
    intro b hb
    rw [h.clock_eq]
    exact hw.lt_clock b ((h.mem_items hw).mp hb).1
  seen := by
    intro i
    rw [h.itrs_eq, h.seen_eq, seenAfter]
    rcases hw.seen i with ⟨hi, hs⟩ | ⟨itr, s, before, rem, post, hi, hs, hparts, hinv⟩
    · left
      rw [hi, hs]
      exact ⟨rfl, rfl⟩
    · right
      obtain ⟨before', rem', post', hparts', hinv'⟩ := h.seenInv hw hparts hinv
      refine ⟨_, _, before', rem', post', ?_, ?_, hparts', hinv'⟩
      · rw [hi, Option.map_some]
      · rw [hs, hi, Option.map_some, Option.any_some]

end Taken

/-! ## Calls that change no element -/

/-- The list is as before. -/
theorem taken_self (hw : Inv w) : w.taken w.list = w := by
  have hseen : seenAfter w w.items = w.seen := by
    funext i
    rw [seenAfter]
    rcases hw.seen i with ⟨hi, hs⟩ | ⟨itr, s, before, rem, post, hi, hs, hparts, hinv⟩
    · rw [hs, Option.map_none]
    · have hnext : nextTaken w w.items itr = false := by
        refine nextTaken_eq_false hinv.stands fun q hq => mem_map_of_mem ?_
        rw [hparts]
        exact mem_append_right _ (mem_of_mem_head? hq)
      rw [hs, hi, Option.map_some, Option.any_some, hnext, Bool.or_false]
  show { w with seen := seenAfter w w.items } = w
  rw [hseen]

/-- An iterator is set, to where it stands by what is seen of it. -/
theorem inv_moved (hw : Inv w) (i : Nat) {itr : Itr} {s : Seen δ} {before post : List Nat}
    {rem : Option Nat} (hparts : nodes w.list = before ++ rem.toList ++ post)
    (hs : SeenInv w itr s before rem post) : Inv (w.moved i (setItr w.list i itr) (some s)) where
  wf := by
    obtain ⟨free, hwf⟩ := hw.wf
    exact ⟨free, hwf.setItr i itr⟩
  nodup := hw.nodup
  lt_clock := hw.lt_clock
  seen := by
    intro j
    by_cases hj : j = i
    · subst hj
      right
      refine ⟨itr, s, before, rem, post, Function.update_self _ _ _, Function.update_self _ _ _,
        hparts, ?_⟩
      exact ⟨hs.stands, hs.start_le, hs.returned_lt, hs.removable, hs.last_lt, hs.gone,
        hs.returned_eq⟩
    · show (Function.update w.list.itrs i _ j = none ∧ Function.update w.seen i _ j = none) ∨
        ∃ itr s before rem post, Function.update w.list.itrs i _ j = some itr ∧
          Function.update w.seen i _ j = some s ∧ nodes w.list = _ ∧ _
      rw [Function.update_of_ne hj, Function.update_of_ne hj]
      rcases hw.seen j with h | ⟨itr, s, before, rem, post, hi, hs, hparts, h⟩
      · exact Or.inl h
      · exact Or.inr ⟨itr, s, before, rem, post, hi, hs, hparts, ⟨h.stands, h.start_le,
          h.returned_lt, h.removable, h.last_lt, h.gone, h.returned_eq⟩⟩

theorem Seen.fresh_inv (hw : Inv w) :
    SeenInv w { pos := w.list.next 0, prev := 0 } (Seen.fresh w.clock) [] none (nodes w.list) where
  stands := by
    obtain ⟨free, hwf⟩ := hw.wf
    exact reset_at hwf
  start_le := le_rfl
  returned_lt := fun b hb => absurd hb not_mem_nil
  removable := fun a ha => absurd ha.symm (Option.some_ne_none a)
  last_lt := fun b x hlast => absurd hlast.symm (Option.some_ne_none _)
  gone := fun _ b x hlast => absurd hlast.symm (Option.some_ne_none _)
  returned_eq := fun _ => rfl

section Next

variable {itr : Itr} {s : Seen δ} {before post : List Nat} {rem : Option Nat}

/-- `list_next` at the end of the list: everything was returned. -/
theorem next_inv_end (hw : Inv w) (hparts : nodes w.list = before ++ rem.toList ++ [])
    (hs : SeenInv w itr s before rem []) :
    nextReturns w itr = none ∧
      SeenInv w (nextLocked w.list itr).2 (s.next none) (before ++ rem.toList) none [] := by
  obtain ⟨free, hwf⟩ := hw.wf
  rw [hparts] at hwf
  obtain ⟨hnone, hat⟩ := next_end hwf hs.stands
  refine ⟨by rw [nextReturns, hnone]; rfl, ?_⟩
  exact {
    stands := hat
    start_le := hs.start_le
    returned_lt := hs.returned_lt
    removable := fun a ha => absurd ha.symm (Option.some_ne_none a)
    last_lt := fun b x hlast => absurd hlast.symm (Option.some_ne_none _)
    gone := fun _ b x hlast => absurd hlast.symm (Option.some_ne_none _)
    returned_eq := fun hended => absurd hended Bool.noConfusion }

/-- `list_next` returns the next element. -/
theorem next_inv_at {p : Nat} (hw : Inv w) (hparts : nodes w.list = before ++ rem.toList ++ p :: post)
    (hs : SeenInv w itr s before rem (p :: post)) :
    ∃ x, nextReturns w itr = some (w.birth p, x) ∧
      SeenInv w (nextLocked w.list itr).2 (s.next (some (w.birth p, x))) (before ++ rem.toList)
        (some p) post := by
  obtain ⟨free, hwf⟩ := hw.wf
  have hp : p ∈ nodes w.list := by
    rw [hparts]
    exact mem_append_right _ mem_cons_self
  have hb : w.birth p ∈ w.items := mem_map_of_mem hp
  obtain ⟨x, hx⟩ := Option.isSome_iff_exists.mp (hwf.data_isSome p hp)
  rw [hparts] at hwf
  obtain ⟨hpos, hdata, hat⟩ := next_at hwf hs.stands
  refine ⟨x, ?_, ?_⟩
  · rw [nextReturns, hdata, hx, hpos]
    rfl
  · exact {
      stands := hat
      start_le := hs.start_le
      returned_lt := by
        intro b hb'
        rcases List.mem_append.mp hb' with hb' | hb'
        · exact hs.returned_lt b hb'
        · rw [List.mem_singleton.mp hb']
          exact hw.lt_clock _ hb
      removable := by
        intro a ha
        cases ha
        exact ⟨x, rfl, hx, rfl⟩
      last_lt := by
        intro b y hlast
        cases hlast
        exact hw.lt_clock _ hb
      gone := fun hnone => nomatch hnone
      returned_eq := by
        intro hended
        have heq := hs.returned_eq hended
        show ((before ++ rem.toList ++ [p]).map w.birth).filter (· < s.start) =
          (s.returned ++ [w.birth p]).filter fun b => decide (b < s.start) && w.items.contains b
        rw [map_append, filter_append, heq, filter_append,
          map_singleton]
        congr 1
        refine filter_congr fun b hb' => ?_
        rw [List.mem_singleton.mp hb', List.contains_iff_mem.mpr hb, Bool.and_true] }

end Next

/-! ## The invariant, call by call -/

/-- The iterator of a call, with what is seen of it. -/
theorem Inv.seen_some (hw : Inv w) {itr : Itr} (hi : w.list.itrs i = some itr) :
    ∃ s before rem post, w.seen i = some s ∧ nodes w.list = before ++ rem.toList ++ post ∧
      SeenInv w itr s before rem post := by
  rcases hw.seen i with ⟨hnone, -⟩ | ⟨itr', s, before, rem, post, hi', hs, hparts, h⟩
  · rw [hi] at hnone
    cases hnone
  · rw [hi] at hi'
    obtain rfl := Option.some.inj hi'
    exact ⟨s, before, rem, post, hs, hparts, h⟩

theorem inv_deleteFirst (hw : Inv w) (f : δ → Int) :
    Inv (w.taken (deleteFirstLoop f w.list (w.list.count + 1) 0).2) := by
  obtain ⟨free, hwf⟩ := hw.wf
  rcases deleteFirst_cases f hwf with hsame | ⟨A, p, B, hns, hdestroy⟩
  · rw [hsame, taken_self hw]
    exact hw
  · rw [hdestroy]
    exact (taken_spec hw.wf hns).2.inv hw

theorem inv_pop (hw : Inv w) : Inv (w.taken (nodeDestroy w.list 0).2) := by
  obtain ⟨free, hwf⟩ := hw.wf
  cases hns : nodes w.list with
  | nil =>
    rw [hns] at hwf
    have hend : nodeDestroy w.list 0 = (none, w.list) := nodeDestroy_end hwf
    rw [hend, taken_self hw]
    exact hw
  | cons p B => exact (@taken_spec _ _ hw.wf [] B p hns).2.inv hw

theorem inv_next (hw : Inv w) {itr : Itr} (hi : w.list.itrs i = some itr) :
    Inv (w.moved i (listNext w.list i itr).2
      ((w.seen i).map fun s => s.next ((w.list.itrs i).bind (nextReturns w)))) := by
  obtain ⟨s, before, rem, post, hs, hparts, h⟩ := hw.seen_some hi
  rw [hs, hi, Option.map_some, Option.bind_some]
  cases post with
  | nil =>
    obtain ⟨hnone, h'⟩ := next_inv_end hw hparts h
    rw [hnone]
    refine inv_moved hw i ?_ h'
    rw [hparts, Option.toList_none, append_nil, append_nil]
  | cons p post =>
    obtain ⟨x, hsome, h'⟩ := next_inv_at hw hparts h
    rw [hsome]
    refine inv_moved hw i ?_ h'
    rw [hparts, Option.toList_some, append_assoc _ [p], singleton_append]

/-- What `list_remove` does. -/
theorem remove_spec (hw : Inv w) {itr : Itr} {s : Seen δ} {before post : List Nat}
    {rem : Option Nat} (hparts : nodes w.list = before ++ rem.toList ++ post)
    (h : SeenInv w itr s before rem post) :
    (rem = none ∧ (listRemove w.list itr).1 = none ∧ (listRemove w.list itr).2 = w.list) ∨
      ∃ a, rem = some a ∧ (listRemove w.list itr).1 = w.list.data a ∧
        Taken w (w.taken (listRemove w.list itr).2) before post a := by
  obtain ⟨free, hwf⟩ := hw.wf
  rw [hparts] at hwf
  rw [remove_eq hwf h.stands]
  cases rem with
  | none => exact Or.inl ⟨rfl, rfl, rfl⟩
  | some a =>
    right
    rw [Option.toList_some, append_assoc, singleton_append] at hparts
    obtain ⟨hdata, htaken⟩ := taken_spec hw.wf hparts
    exact ⟨a, rfl, hdata, htaken⟩

theorem inv_remove (hw : Inv w) {itr : Itr} (hi : w.list.itrs i = some itr) :
    Inv (w.taken (listRemove w.list itr).2) := by
  obtain ⟨s, before, rem, post, -, hparts, h⟩ := hw.seen_some hi
  rcases remove_spec hw hparts h with ⟨-, -, hsame⟩ | ⟨a, -, -, htaken⟩
  · rw [hsame, taken_self hw]
    exact hw
  · exact htaken.inv hw

/-- `list_next` returned everything when it comes to the end. -/
theorem next_holds (hw : Inv w) (i : Nat) : ReturnedAll w i := by
  intro s itr hs hi hended hnone
  obtain ⟨s', before, rem, post, hs', hparts, h⟩ := hw.seen_some hi
  obtain rfl := Option.some.inj (hs.symm.trans hs')
  cases post with
  | nil =>
    rw [append_nil] at hparts
    rw [← h.returned_eq hended, Watched.items, hparts]
  | cons p post =>
    obtain ⟨x, hsome, -⟩ := next_inv_at hw hparts h
    have hnone' : nextReturns w itr = none := by
      rw [nextReturns]
      exact Option.map_eq_none_iff.mpr hnone
    rw [hnone'] at hsome
    cases hsome

/-! ## Runs -/

section

variable [DecidableEq δ]

/-- One call, and what is seen of it. -/
def watch (n : Nat) (w : Watched δ) (c : Cmd δ) : Option (Watched δ) :=
  (exec n w.list c).map fun l =>
    match c with
    | .append _ | .push _ | .insert _ _ => w.added n l
    | .pop | .deleteFirst _ | .deletePtr _ | .remove _ => w.taken l
    | .create i | .reset i => w.moved i l (some (Seen.fresh w.clock))
    | .next i =>
      w.moved i l ((w.seen i).map fun s => s.next ((w.list.itrs i).bind (nextReturns w)))

/-- The contract of a run from the creation of the list. -/
def ListContract (δ : Type) [DecidableEq δ] (n : Nat) (cs : List (Cmd δ)) : Prop :=
  Always (watch n) (fun w : Watched δ => WellFormed w.list) (watched₀ δ n) cs ∧
    EachStep (watch n) StepHolds (watched₀ δ n) cs

variable {n : Nat} {w' : Watched δ}

/-- Every call keeps the invariant. -/
theorem step_inv (hn : 2 ≤ n) (hw : Inv w) {c : Cmd δ} (h : watch n w c = some w') : Inv w' := by
  rw [watch, Option.map_eq_some_iff] at h
  obtain ⟨l, hl, rfl⟩ := h
  cases c with
  | append x =>
    obtain rfl := Option.some.inj hl
    obtain ⟨free, hwf⟩ := hw.wf
    have htail : w.list.tail = (nodes w.list).getLastD 0 := hwf.tail_eq
    obtain ⟨c, hadded⟩ := added_spec hn hw.wf (append_nil (nodes w.list)).symm x
    rw [← htail] at hadded
    exact hadded.inv hw
  | push x =>
    obtain rfl := Option.some.inj hl
    obtain ⟨c, hadded⟩ := @added_spec _ _ _ hn hw.wf [] _ rfl x
    exact hadded.inv hw
  | pop =>
    obtain rfl := Option.some.inj hl
    exact inv_pop hw
  | deleteFirst f =>
    obtain rfl := Option.some.inj hl
    exact inv_deleteFirst hw f
  | deletePtr key =>
    obtain rfl := Option.some.inj hl
    exact inv_deleteFirst hw _
  | create i =>
    rw [exec] at hl
    split at hl
    · cases hl
    · obtain rfl := Option.some.inj hl
      exact inv_moved hw i rfl (Seen.fresh_inv hw)
  | reset i =>
    rw [exec] at hl
    split at hl
    · obtain rfl := Option.some.inj hl
      exact inv_moved hw i rfl (Seen.fresh_inv hw)
    · cases hl
  | next i =>
    obtain ⟨itr, hi, rfl⟩ := Option.map_eq_some_iff.mp hl
    exact inv_next hw hi
  | insert i x =>
    obtain ⟨itr, hi, rfl⟩ := Option.map_eq_some_iff.mp hl
    obtain ⟨s, before, rem, post, -, hparts, hs⟩ := hw.seen_some hi
    rw [append_assoc] at hparts
    obtain ⟨c, hadded⟩ := added_spec hn hw.wf hparts x
    rw [← hs.stands.prev_eq] at hadded
    exact hadded.inv hw
  | remove i =>
    obtain ⟨itr, hi, rfl⟩ := Option.map_eq_some_iff.mp hl
    exact inv_remove hw hi

/-- `list_remove` takes the last element exactly when the next one was not taken. -/
theorem remove_holds_iff (hw : Inv w) (h : watch n w (.remove i) = some w') :
    RemovesLast w i w' ↔ NextStays w (.remove i) := by
  rw [watch, Option.map_eq_some_iff] at h
  obtain ⟨l, hl, rfl⟩ := h
  obtain ⟨itr, hi, rfl⟩ := Option.map_eq_some_iff.mp hl
  obtain ⟨s, before, rem, post, hs, hparts, hinv⟩ := hw.seen_some hi
  rcases remove_spec hw hparts hinv with
    ⟨rfl, hnone, -⟩ | ⟨a, rfl, hdata, htaken⟩
  · have hgone := hinv.gone rfl
    constructor
    · intro hremoves s' b x hs' hlast hb
      obtain rfl := Option.some.inj (hs.symm.trans hs')
      have hsome := (hremoves s itr b x hs hi hlast hb).1
      rw [hnone] at hsome
      cases hsome
    · intro hstays s' itr' b x hs' hi' hlast hb
      obtain rfl := Option.some.inj (hs.symm.trans hs')
      have hfalse := hstays s b x hs hlast hb
      rw [hgone b x hlast hb] at hfalse
      cases hfalse
  · obtain ⟨x, hlast, hx, hgone⟩ := hinv.removable a rfl
    refine iff_of_true ?_ ?_
    · intro s' itr' b y hs' hi' hlast' hb
      obtain rfl := Option.some.inj (hs.symm.trans hs')
      obtain rfl := Option.some.inj (hi.symm.trans hi')
      have heq := Option.some.inj (hlast.symm.trans hlast')
      obtain ⟨rfl, rfl⟩ := Prod.mk.inj heq
      exact ⟨hdata.trans hx, htaken.items_eq_erase hw⟩
    · intro s' b y hs' hlast' hb
      obtain rfl := Option.some.inj (hs.symm.trans hs')
      exact hgone

theorem step_holds_iff (hw : Inv w) {c : Cmd δ} (h : watch n w c = some w') :
    StepHolds w c w' ↔ NextStays w c := by
  cases c with
  | next i => exact iff_of_true (next_holds hw i) trivial
  | remove i => exact remove_holds_iff hw h
  | _ => exact Iff.rfl

/-- A run meets the contract exactly when `list_remove` is called for an element that is
still in the list only while the next element of the iterator was not taken. -/
theorem listContract_iff (hn : 2 ≤ n) (cs : List (Cmd δ)) :
    ListContract δ n cs ↔ Guarded (watch n) NextStays (watched₀ δ n) cs := by
  refine always_eachStep_iff (fun w (hw : Inv w) => hw.wf) (fun w c w' hw h => ?_) (inv_watched₀ hn)
  have hinv := step_inv hn hw h
  refine ⟨fun _ => hinv, ?_⟩
  rw [and_iff_right hinv.wf]
  exact step_holds_iff hw h

end

/-- An iterator returns the first of two elements, which is then removed. -/
theorem listContract_witness :
    ListContract Nat 246 [.append 10, .append 11, .create 0, .next 0, .remove 0] := by
  refine (listContract_iff (by decide) _).mpr fun w₁ h₁ => ⟨trivial, fun w₂ h₂ => ⟨trivial,
    fun w₃ h₃ => ⟨trivial, fun w₄ h₄ => ⟨trivial, fun w₅ h₅ => ⟨?_, trivial⟩⟩⟩⟩⟩
  obtain rfl := Option.some.inj h₁
  obtain rfl := Option.some.inj h₂
  obtain rfl := Option.some.inj h₃
  obtain rfl := Option.some.inj h₄
  intro s b x hs _ _
  obtain rfl := Option.some.inj hs
  rfl

/-- An iterator returns the first of two elements, the second one is taken, and then
`list_remove` does not take the first. -/
theorem listContract_fails :
    ¬ ListContract Nat 246
      [.append 10, .append 11, .create 0, .next 0, .deletePtr 11, .remove 0] := by
  rintro ⟨-, hsteps⟩
  obtain ⟨-, h⟩ := hsteps _ rfl
  obtain ⟨-, h⟩ := h _ rfl
  obtain ⟨-, h⟩ := h _ rfl
  obtain ⟨-, h⟩ := h _ rfl
  obtain ⟨-, h⟩ := h _ rfl
  obtain ⟨h, -⟩ := h _ rfl
  have hnone := (h _ _ 0 10 rfl rfl rfl (by decide)).1
  cases hnone

end Slurm.XList
