import Slurm.XList.Contract

/-!
# Transfers between two lists (`common/list.c`)

The loops of `list_transfer_max`, `list_transfer_match` and `list_transfer_unique` take
nodes out of one list and put their data at the end of another, whose nodes are its own.

* `append_elems`, `destroy_elems`: one element more at the end, and one element less.
* `transferMaxLoop_spec`, `transferMatchLoop_spec`, `transferUniqueLoop_spec`: what each
  loop moves, and what it leaves behind.

A loop has as many turns as the list it takes from has elements, and one more to see its
end.  `none` is a loop that ran out of turns, or a node without data.
-/

namespace Slurm.XList

open List

variable {δ : Type} {n : Nat} {l : ListT δ}
variable {ns free : List Nat}

/-- The elements of the list, in order. -/
def elems (l : ListT δ) : List δ := (nodes l).filterMap l.data

/-- What a transfer returns, and the two lists after it. -/
structure Transfer (δ : Type) where
  returned : Nat
  dest : ListT δ
  src : ListT δ

/-! ## The loops -/

/-- The loop of `list_transfer_max`, with `count` moved so far. -/
def transferMaxLoop (n max : Nat) : Nat → ListT δ → ListT δ → Nat → Option (Transfer δ)
  | 0, _, _, _ => none
  | k + 1, l, sub, count =>
    if max = 0 ∨ count ≤ max then
      match nodeDestroy sub 0 with
      | (none, sub') => some { returned := count, dest := l, src := sub' }
      | (some v, sub') => transferMaxLoop n max k (listAppend n l v) sub' (count + 1)
    else some { returned := count, dest := l, src := sub }

/-- `list_transfer_max` -/
def listTransferMax (n : Nat) (l sub : ListT δ) (max : Nat) : Option (Transfer δ) :=
  transferMaxLoop n max (sub.count + 1) l sub 0

/-- The loop of `list_transfer_match` from `pp` on, with `count` moved so far. -/
def transferMatchLoop (n : Nat) (f : δ → Bool) :
    Nat → ListT δ → ListT δ → Nat → Nat → Option (Transfer δ)
  | 0, _, _, _, _ => none
  | k + 1, l, sub, pp, count =>
    if l.next pp = 0 then some { returned := count, dest := sub, src := l }
    else
      match l.data (l.next pp) with
      | none => none
      | some x =>
        if f x then
          match nodeDestroy l pp with
          | (none, _) => none
          | (some v, l') => transferMatchLoop n f k l' (listAppend n sub v) pp (count + 1)
        else transferMatchLoop n f k l sub (l.next pp) count

/-- `list_transfer_match`, which moves from `l` to `sub`. -/
def listTransferMatch (n : Nat) (l sub : ListT δ) (f : δ → Bool) : Option (Transfer δ) :=
  transferMatchLoop n f (l.count + 1) l sub 0 0

/-- The loop of `_list_find_first_locked` from node `p` on. -/
def findFirstLoop (f : δ → Bool) (l : ListT δ) : Nat → Nat → Option (Option δ)
  | 0, _ => none
  | k + 1, p =>
    if p = 0 then some none
    else
      match l.data p with
      | none => none
      | some x => if f x then some (some x) else findFirstLoop f l k (l.next p)

/-- `_list_find_first_locked` -/
def listFindFirstLocked (l : ListT δ) (f : δ → Bool) : Option (Option δ) :=
  findFirstLoop f l (l.count + 1) (l.next 0)

/-- The loop of `list_transfer_unique` from `pp` on, with `count` moved so far. -/
def transferUniqueLoop (n : Nat) (f : δ → δ → Bool) :
    Nat → ListT δ → ListT δ → Nat → Nat → Option (Transfer δ)
  | 0, _, _, _, _ => none
  | k + 1, l, sub, pp, count =>
    if sub.next pp = 0 then some { returned := count, dest := l, src := sub }
    else
      match sub.data (sub.next pp) with
      | none => none
      | some v =>
        match listFindFirstLocked l (f · v) with
        | none => none
        | some none =>
          transferUniqueLoop n f k (listAppend n l v) (nodeDestroy sub pp).2 pp (count + 1)
        | some (some _) => transferUniqueLoop n f k l sub (sub.next pp) count

/-- `list_transfer_unique` -/
def listTransferUnique (n : Nat) (l : ListT δ) (f : δ → δ → Bool) (sub : ListT δ) :
    Option (Transfer δ) :=
  transferUniqueLoop n f (sub.count + 1) l sub 0 0

/-! ## Elements -/

theorem Wf.elems_eq (h : Wf l ns free) : elems l = ns.filterMap l.data := by
  rw [elems, h.nodes_eq]

theorem Wf.wellFormed (h : Wf l ns free) : WellFormed l := by
  refine ⟨free, ?_⟩
  rw [h.nodes_eq]
  exact h

/-- Every node has its element. -/
theorem Wf.length_elems (h : Wf l ns free) : (elems l).length = ns.length := by
  rw [h.elems_eq]
  exact List.filterMap_length_eq_length.mpr h.data_isSome

theorem WellFormed.length_elems (h : WellFormed l) : (elems l).length = l.count := by
  obtain ⟨free, h⟩ := h
  rw [h.length_elems, h.count_eq]

/-- The node that a pointer into the list points to, and its data. -/
theorem Wf.at_node {A B : List Nat} {p : Nat} (h : Wf l (A ++ p :: B) free) :
    l.next (A.getLastD 0) = p ∧ p ≠ 0 ∧ ∃ x, l.data p = some x := by
  have hmem : p ∈ A ++ p :: B := mem_append_right _ mem_cons_self
  refine ⟨h.next_eq, h.ne_zero (mem_append_left _ hmem), ?_⟩
  exact Option.isSome_iff_exists.mp (h.data_isSome p hmem)

/-- An element more at the end. -/
theorem append_elems (hn : 2 ≤ n) (h : WellFormed l) (x : δ) :
    WellFormed (listAppend n l x) ∧ elems (listAppend n l x) = elems l ++ [x] := by
  obtain ⟨free, h⟩ := h
  have h' : Wf l (nodes l ++ []) free := by
    rw [append_nil]
    exact h
  obtain ⟨c, free', -, hc, hwf, hdata, -⟩ := nodeCreate_wf hn h' x
  rw [append_nil] at hc
  rw [← h.tail_eq] at hwf hdata
  refine ⟨hwf.wellFormed, ?_⟩
  have hold : (nodes l).filterMap (nodeCreate n l l.tail x).data = (nodes l).filterMap l.data := by
    refine filterMap_congr fun a ha => ?_
    have hac : a ≠ c := fun hac => hc (hac ▸ ha)
    rw [hdata, Function.update_of_ne hac]
  have hnew : (nodeCreate n l l.tail x).data c = some x := by
    rw [hdata, Function.update_self]
  show elems (nodeCreate n l l.tail x) = _
  rw [hwf.elems_eq, filterMap_append, hold, filterMap_cons_some hnew]
  rfl

/-- The node between `A` and `B` is taken, and the others keep their elements. -/
theorem destroy_elems {A B free : List Nat} {p : Nat} (h : Wf l (A ++ p :: B) free) :
    ∃ l' x, nodeDestroy l (A.getLastD 0) = (some x, l') ∧ l.data p = some x ∧
      l'.data = l.data ∧ Wf l' (A ++ B) (p :: free) := by
  obtain ⟨hdata, hwf, hsame, -⟩ := nodeDestroy_wf h
  obtain ⟨-, -, x, hx⟩ := h.at_node
  exact ⟨_, x, Prod.ext (hdata.trans hx) rfl, hx, hsame, hwf⟩

/-! ## What the loops move -/

/-- What a loop did: `moved` of the elements it took from are at the end of the other list,
and `left` are where they were. -/
structure Moved (dest src : List δ) (count : Nat) (moved left : List δ) (r : Transfer δ) :
    Prop where
  wf_dest : WellFormed r.dest
  wf_src : WellFormed r.src
  dest_eq : elems r.dest = dest ++ moved
  src_eq : elems r.src = src ++ left
  returned_eq : r.returned = count + moved.length

/-- One element was moved before. -/
theorem Moved.cons {dest src : List δ} {count : Nat} {x : δ} {moved left : List δ}
    {r : Transfer δ} (h : Moved (dest ++ [x]) src (count + 1) moved left r) :
    Moved dest src count (x :: moved) left r where
  wf_dest := h.wf_dest
  wf_src := h.wf_src
  dest_eq := by simp [h.dest_eq]
  src_eq := h.src_eq
  returned_eq := by
    rw [h.returned_eq, length_cons]
    omega

/-- One element was left before. -/
theorem Moved.skip {dest src : List δ} {count : Nat} {x : δ} {moved left : List δ}
    {r : Transfer δ} (h : Moved dest (src ++ [x]) count moved left r) :
    Moved dest src count moved (x :: left) r where
  wf_dest := h.wf_dest
  wf_src := h.wf_src
  dest_eq := h.dest_eq
  src_eq := by simp [h.src_eq]
  returned_eq := h.returned_eq

/-- Nothing more is moved. -/
theorem Moved.done {dest src : ListT δ} (hdest : WellFormed dest) {A B free : List Nat}
    (hsrc : Wf src (A ++ B) free) (count : Nat) :
    Moved (elems dest) (A.filterMap src.data) count [] (B.filterMap src.data)
      { returned := count, dest := dest, src := src } where
  wf_dest := hdest
  wf_src := hsrc.wellFormed
  dest_eq := (append_nil _).symm
  src_eq := by rw [hsrc.elems_eq, filterMap_append]
  returned_eq := rfl

/-- How many more the loop of `list_transfer_max` moves. -/
def stillMoved (max count len : Nat) : Nat := if max = 0 then len else max + 1 - count

theorem transferMaxLoop_spec (hn : 2 ≤ n) (max : Nat) {k : Nat} {sub : ListT δ} (hl : WellFormed l)
    {B : List Nat} (h : Wf sub B free) (hk : B.length < k) (count : Nat) :
    ∃ r, transferMaxLoop n max k l sub count = some r ∧
      Moved (elems l) [] count ((elems sub).take (stillMoved max count B.length))
        ((elems sub).drop (stillMoved max count B.length)) r := by
  induction k generalizing l sub B free count with
  | zero => exact absurd hk (Nat.not_lt_zero _)
  | succ k ih =>
    have hdone : Moved (elems l) [] count [] (elems sub)
        { returned := count, dest := l, src := sub } := by
      rw [h.elems_eq]
      exact @Moved.done _ _ _ hl [] _ _ h count
    rw [transferMaxLoop]
    by_cases hgo : max = 0 ∨ count ≤ max
    · rw [if_pos hgo]
      cases B with
      | nil =>
        have hend : nodeDestroy sub 0 = (none, sub) := nodeDestroy_end h
        have hnil : elems sub = [] := h.elems_eq
        rw [hend, hnil, take_nil, drop_nil]
        rw [hnil] at hdone
        exact ⟨_, rfl, hdone⟩
      | cons p B =>
        obtain ⟨sub', x, hdestroy, hx, hsame, hwf⟩ := @destroy_elems _ _ [] _ _ _ h
        have hdestroy : nodeDestroy sub 0 = (some x, sub') := hdestroy
        have hwf : Wf sub' B (p :: free) := hwf
        have hsub : elems sub = x :: elems sub' := by
          rw [h.elems_eq, hwf.elems_eq, hsame, filterMap_cons_some hx]
        have hmore : stillMoved max count (p :: B).length =
            stillMoved max (count + 1) B.length + 1 := by
          unfold stillMoved
          rw [length_cons]
          split <;> omega
        obtain ⟨hl', happend⟩ := append_elems hn hl x
        rw [length_cons] at hk
        obtain ⟨r, hr, hmoved⟩ := ih hl' hwf (by omega) (count + 1)
        rw [happend] at hmoved
        rw [hdestroy, hsub, hmore, take_succ_cons, drop_succ_cons]
        exact ⟨r, hr, hmoved.cons⟩
    · have hzero : stillMoved max count B.length = 0 := by
        unfold stillMoved
        rw [if_neg (by omega)]
        omega
      rw [if_neg hgo, hzero, take_zero, drop_zero]
      exact ⟨_, rfl, hdone⟩

theorem transferMatchLoop_spec (hn : 2 ≤ n) (f : δ → Bool) {k : Nat} {l sub : ListT δ}
    (hsub : WellFormed sub) {A B free : List Nat} (h : Wf l (A ++ B) free) (hk : B.length < k)
    (count : Nat) :
    ∃ r, transferMatchLoop n f k l sub (A.getLastD 0) count = some r ∧
      Moved (elems sub) (A.filterMap l.data) count ((B.filterMap l.data).filter f)
        ((B.filterMap l.data).filter fun x => !f x) r := by
  induction k generalizing l sub A B free count with
  | zero => exact absurd hk (Nat.not_lt_zero _)
  | succ k ih =>
    rw [transferMatchLoop]
    cases B with
    | nil =>
      have hend : l.next (A.getLastD 0) = 0 := h.next_eq
      rw [if_pos hend]
      exact ⟨_, rfl, Moved.done hsub h count⟩
    | cons p B =>
      obtain ⟨hp, hp0, x, hx⟩ := h.at_node
      rw [length_cons] at hk
      rw [hp, if_neg hp0, hx, filterMap_cons_some hx]
      simp only
      by_cases hf : f x = true
      · obtain ⟨l', y, hdestroy, hy, hsame, hwf⟩ := destroy_elems h
        have hxy : y = x := Option.some_inj.mp (hy.symm.trans hx)
        obtain ⟨hsub', happend⟩ := append_elems hn hsub x
        obtain ⟨r, hr, hmoved⟩ := ih hsub' hwf (by omega) (count + 1)
        rw [happend, hsame] at hmoved
        rw [if_pos hf, hdestroy, hxy, filter_cons_of_pos hf,
          filter_cons_of_neg (by simp [hf])]
        exact ⟨r, hr, hmoved.cons⟩
      · have h' : Wf l ((A ++ [p]) ++ B) free := by
          rw [append_assoc]
          exact h
        obtain ⟨r, hr, hmoved⟩ := ih hsub h' (by omega) count
        rw [getLastD_concat] at hr
        rw [filterMap_append, filterMap_cons_some hx] at hmoved
        rw [if_neg hf, filter_cons_of_neg hf, filter_cons_of_pos (by simp [hf])]
        exact ⟨r, hr, hmoved.skip⟩

/-- The search sees every element, in order. -/
theorem findFirstLoop_spec (f : δ → Bool) {k : Nat} {A B free : List Nat} (h : Wf l (A ++ B) free)
    (hk : B.length < k) :
    findFirstLoop f l k (B.headD 0) = some ((B.filterMap l.data).find? f) := by
  induction k generalizing A B with
  | zero => exact absurd hk (Nat.not_lt_zero _)
  | succ k ih =>
    rw [findFirstLoop]
    cases B with
    | nil => rfl
    | cons p B =>
      obtain ⟨-, hp0, x, hx⟩ := h.at_node
      have hnext : l.next p = B.headD 0 := h.next_node
      rw [length_cons] at hk
      rw [headD_cons, if_neg hp0, hx, hnext, filterMap_cons_some hx]
      simp only
      by_cases hf : f x = true
      · rw [if_pos hf, find?_cons_of_pos hf]
      · have h' : Wf l ((A ++ [p]) ++ B) free := by
          rw [append_assoc]
          exact h
        rw [if_neg hf, find?_cons_of_neg hf]
        exact ih h' (by omega)

theorem findFirst_spec (h : WellFormed l) (f : δ → Bool) :
    listFindFirstLocked l f = some ((elems l).find? f) := by
  obtain ⟨free, h⟩ := h
  have hhead : l.next 0 = (nodes l).headD 0 := @Wf.next_eq _ _ [] _ _ h
  rw [listFindFirstLocked, hhead]
  exact @findFirstLoop_spec _ _ f _ [] _ _ h (by rw [h.count_eq]; exact Nat.lt_succ_self _)

/-- `moved` of the elements `sub` are not found by `f` in `l`, to whose end they are put one
after the other, and `left` are found. -/
inductive MovesNew (f : δ → δ → Bool) : List δ → List δ → List δ → List δ → Prop
  | nil (l : List δ) : MovesNew f l [] [] []
  | move {l sub moved left : List δ} {v : δ} (hnew : ∀ x ∈ l, f x v = false)
      (h : MovesNew f (l ++ [v]) sub moved left) : MovesNew f l (v :: sub) (v :: moved) left
  | leave {l sub moved left : List δ} {v : δ} (hold : ∃ x ∈ l, f x v = true)
      (h : MovesNew f l sub moved left) : MovesNew f l (v :: sub) moved (v :: left)

theorem transferUniqueLoop_spec (hn : 2 ≤ n) (f : δ → δ → Bool) {k : Nat} {l sub : ListT δ}
    (hl : WellFormed l) {A B free : List Nat} (h : Wf sub (A ++ B) free) (hk : B.length < k)
    (count : Nat) :
    ∃ r moved left, transferUniqueLoop n f k l sub (A.getLastD 0) count = some r ∧
      MovesNew f (elems l) (B.filterMap sub.data) moved left ∧
      Moved (elems l) (A.filterMap sub.data) count moved left r := by
  induction k generalizing l sub A B free count with
  | zero => exact absurd hk (Nat.not_lt_zero _)
  | succ k ih =>
    rw [transferUniqueLoop]
    cases B with
    | nil =>
      have hend : sub.next (A.getLastD 0) = 0 := h.next_eq
      rw [if_pos hend]
      exact ⟨_, _, _, rfl, MovesNew.nil _, Moved.done hl h count⟩
    | cons p B =>
      obtain ⟨hp, hp0, v, hv⟩ := h.at_node
      rw [length_cons] at hk
      rw [hp, if_neg hp0, hv, filterMap_cons_some hv]
      simp only [findFirst_spec hl]
      cases hfind : (elems l).find? (f · v) with
      | none =>
        have hnew : ∀ x ∈ elems l, f x v = false := by simpa using hfind
        obtain ⟨sub', y, hdestroy, -, hsame, hwf⟩ := destroy_elems h
        obtain ⟨hl', happend⟩ := append_elems hn hl v
        obtain ⟨r, moved, left, hr, hnews, hmoved⟩ := ih hl' hwf (by omega) (count + 1)
        rw [happend] at hnews hmoved
        rw [hsame] at hnews hmoved
        rw [hdestroy]
        exact ⟨r, v :: moved, left, hr, hnews.move hnew, hmoved.cons⟩
      | some x =>
        have hx : f x v = true := @find?_some _ (f · v) _ _ hfind
        have hold : ∃ x ∈ elems l, f x v = true := ⟨x, mem_of_find?_eq_some hfind, hx⟩
        have h' : Wf sub ((A ++ [p]) ++ B) free := by
          rw [append_assoc]
          exact h
        obtain ⟨r, moved, left, hr, hnews, hmoved⟩ := ih hl h' (by omega) count
        rw [getLastD_concat] at hr
        rw [filterMap_append, filterMap_cons_some hv] at hmoved
        exact ⟨r, moved, v :: left, hr, hnews.leave hold, hmoved.skip⟩

end Slurm.XList

/-!
## Transfers conserve elements (`common/list.c`)

`transferContract_iff` says when the three transfers between two lists do what `list.h` says
of them: always, apart from `list_transfer_max` with a bound.  Its loop goes on while
`n <= max`, and so moves one element more than `max` from a list that has more.

* `Conserves.of_moved`: what a transfer conserves follows from what its loop moved.
* `movesNew_perm`: an element is moved or left by `list_transfer_unique`, never both.
-/

namespace Slurm.XList

open List

variable {δ : Type}

/-- Two lists, and how many nodes are allocated at once. -/
structure Lists (δ : Type) where
  nodesInPage : Nat
  l : ListT δ
  sub : ListT δ
  two_le : 2 ≤ nodesInPage
  wf_l : WellFormed l
  wf_sub : WellFormed sub

/-! ## The contract -/

/-- `moved` are moved from `src` to the end of `dest`, and `left` stay. -/
structure Conserves (dest src : ListT δ) (moved left : List δ) (r : Transfer δ) : Prop where
  dest_eq : elems r.dest = elems dest ++ moved
  src_eq : elems r.src = left
  moved_order : moved.Sublist (elems src)
  left_order : left.Sublist (elems src)
  returned_eq : r.returned = moved.length
  dest_count : r.dest.count = (elems r.dest).length
  src_count : r.src.count = (elems r.src).length
  perm : (elems r.dest ++ elems r.src).Perm (elems dest ++ elems src)

/-- How many elements `list_transfer_max` is to move from a list of `len`. -/
def wanted (max len : Nat) : Nat := if max = 0 then len else min max len

/-- What the three transfers must do with `max`, and the match functions `f` and `g`. -/
structure TransferContract (i : Lists δ) (max : Nat) (f : δ → Bool) (g : δ → δ → Bool) : Prop where
  transfer_max : ∃ r, listTransferMax i.nodesInPage i.l i.sub max = some r ∧
    Conserves i.l i.sub ((elems i.sub).take (wanted max i.sub.count))
      ((elems i.sub).drop (wanted max i.sub.count)) r
  transfer_match : ∃ r, listTransferMatch i.nodesInPage i.l i.sub f = some r ∧
    Conserves i.sub i.l ((elems i.l).filter f) ((elems i.l).filter fun x => !f x) r
  transfer_unique : ∃ r moved left, listTransferUnique i.nodesInPage i.l g i.sub = some r ∧
    MovesNew g (elems i.l) (elems i.sub) moved left ∧ Conserves i.l i.sub moved left r

/-! ## What is conserved -/

theorem Conserves.of_moved {dest src : ListT δ} {moved left : List δ} {r : Transfer δ}
    (h : Moved (elems dest) [] 0 moved left r) (hmoved : moved.Sublist (elems src))
    (hleft : left.Sublist (elems src)) (hperm : (moved ++ left).Perm (elems src)) :
    Conserves dest src moved left r where
  dest_eq := h.dest_eq
  src_eq := h.src_eq
  moved_order := hmoved
  left_order := hleft
  returned_eq := by
    rw [h.returned_eq, Nat.zero_add]
  dest_count := h.wf_dest.length_elems.symm
  src_count := h.wf_src.length_elems.symm
  perm := by
    rw [h.dest_eq, h.src_eq, nil_append, append_assoc]
    exact hperm.append_left (elems dest)

variable {f : δ → δ → Bool} {l sub moved left : List δ}

theorem movesNew_perm (h : MovesNew f l sub moved left) : (moved ++ left).Perm sub := by
  induction h with
  | nil => exact List.Perm.refl _
  | move _ _ ih => exact ih.cons _
  | leave _ _ ih => exact List.perm_middle.trans (ih.cons _)

theorem movesNew_order (h : MovesNew f l sub moved left) :
    moved.Sublist sub ∧ left.Sublist sub := by
  induction h with
  | nil => exact ⟨List.Sublist.refl _, List.Sublist.refl _⟩
  | move _ _ ih => exact ⟨ih.1.cons_cons _, ih.2.cons _⟩
  | leave _ _ ih => exact ⟨ih.1.cons _, ih.2.cons_cons _⟩

/-! ## The three transfers -/

variable (i : Lists δ)

/-- What `list_transfer_max` does. -/
theorem listTransferMax_spec (max : Nat) :
    ∃ r, listTransferMax i.nodesInPage i.l i.sub max = some r ∧
      Moved (elems i.l) [] 0 ((elems i.sub).take (stillMoved max 0 i.sub.count))
        ((elems i.sub).drop (stillMoved max 0 i.sub.count)) r := by
  obtain ⟨free, h⟩ := i.wf_sub
  have hlt : (nodes i.sub).length < i.sub.count + 1 := by
    rw [h.count_eq]
    exact Nat.lt_succ_self _
  have hspec := transferMaxLoop_spec i.two_le max i.wf_l h hlt 0
  rw [← h.count_eq] at hspec
  exact hspec

theorem listTransferMatch_conserves (f : δ → Bool) :
    ∃ r, listTransferMatch i.nodesInPage i.l i.sub f = some r ∧
      Conserves i.sub i.l ((elems i.l).filter f) ((elems i.l).filter fun x => !f x) r := by
  obtain ⟨free, h⟩ := i.wf_l
  have hlt : (nodes i.l).length < i.l.count + 1 := by
    rw [h.count_eq]
    exact Nat.lt_succ_self _
  obtain ⟨r, hr, hmoved⟩ := @transferMatchLoop_spec _ _ i.two_le f _ _ _ i.wf_sub [] _ _ h hlt 0
  refine ⟨r, hr, Conserves.of_moved hmoved filter_sublist filter_sublist ?_⟩
  exact filter_append_perm f (elems i.l)

theorem listTransferUnique_conserves (g : δ → δ → Bool) :
    ∃ r moved left, listTransferUnique i.nodesInPage i.l g i.sub = some r ∧
      MovesNew g (elems i.l) (elems i.sub) moved left ∧ Conserves i.l i.sub moved left r := by
  obtain ⟨free, h⟩ := i.wf_sub
  have hlt : (nodes i.sub).length < i.sub.count + 1 := by
    rw [h.count_eq]
    exact Nat.lt_succ_self _
  obtain ⟨r, moved, left, hr, hnews, hmoved⟩ :=
    @transferUniqueLoop_spec _ _ i.two_le g _ _ _ i.wf_l [] _ _ h hlt 0
  have horder := movesNew_order hnews
  exact ⟨r, moved, left, hr, hnews,
    Conserves.of_moved hmoved horder.1 horder.2 (movesNew_perm hnews)⟩

/-- The transfers do what they must exactly when there is no bound, or no more elements than
it allows. -/
theorem transferContract_iff (max : Nat) (f : δ → Bool) (g : δ → δ → Bool) :
    TransferContract i max f g ↔ max = 0 ∨ i.sub.count ≤ max := by
  obtain ⟨r, hr, hmoved⟩ := listTransferMax_spec i max
  have hlen := i.wf_sub.length_elems
  constructor
  · intro h
    obtain ⟨r', hr', hconserves⟩ := h.transfer_max
    have hreturned : r.returned = ((elems i.sub).take (wanted max i.sub.count)).length := by
      rw [hr, Option.some_inj] at hr'
      rw [hr']
      exact hconserves.returned_eq
    rw [hmoved.returned_eq, List.length_take, List.length_take, hlen] at hreturned
    unfold stillMoved wanted at hreturned
    split at hreturned <;> omega
  · intro h
    have hsame : stillMoved max 0 i.sub.count = wanted max i.sub.count ∨
        i.sub.count ≤ stillMoved max 0 i.sub.count ∧ wanted max i.sub.count = i.sub.count := by
      unfold stillMoved wanted
      split <;> omega
    have hsplit : ∀ k, i.sub.count ≤ k →
        (elems i.sub).take k = elems i.sub ∧ (elems i.sub).drop k = [] := by
      intro k hk
      exact ⟨List.take_of_length_le (by omega), List.drop_of_length_le (by omega)⟩
    have hmoved' : Moved (elems i.l) [] 0 ((elems i.sub).take (wanted max i.sub.count))
        ((elems i.sub).drop (wanted max i.sub.count)) r := by
      rcases hsame with hsame | ⟨hle, hsame⟩
      · rw [← hsame]
        exact hmoved
      · rw [(hsplit _ hle).1, (hsplit _ hle).2] at hmoved
        rw [(hsplit _ hsame.ge).1, (hsplit _ hsame.ge).2]
        exact hmoved
    refine ⟨⟨r, hr, Conserves.of_moved hmoved' (List.take_sublist _ _) (List.drop_sublist _ _) ?_⟩,
      listTransferMatch_conserves i f, listTransferUnique_conserves i g⟩
    rw [List.take_append_drop]

/-- An empty list, and one with two elements. -/
def twoAndNone : Lists Nat where
  nodesInPage := 246
  l := listCreate Nat 246
  sub := listAppend 246 (listAppend 246 (listCreate Nat 246) 7) 8
  two_le := by omega
  wf_l := (listCreate_wf (by omega)).wellFormed
  wf_sub := (append_elems (by omega)
    (append_elems (by omega) (listCreate_wf (by omega)).wellFormed 7).1 8).1

/-- Both of two elements are moved where one is asked for. -/
theorem transferContract_fails :
    ¬ TransferContract twoAndNone 1 (fun _ => false) (fun _ _ => false) := by
  intro h
  obtain ⟨r, hr, hconserves⟩ := h.transfer_max
  have htwo : (listTransferMax 246 twoAndNone.l twoAndNone.sub 1).map (·.returned) = some 2 := by
    decide
  have hlen : (elems twoAndNone.sub).length = 2 := by decide
  have hcount : twoAndNone.sub.count = 2 := rfl
  have hreturned : r.returned = 2 := by
    rw [show listTransferMax 246 twoAndNone.l twoAndNone.sub 1 = some r from hr] at htwo
    exact Option.some_inj.mp htwo
  have hone := hconserves.returned_eq
  rw [hreturned, List.length_take, hlen, hcount] at hone
  exact absurd hone (by decide)

end Slurm.XList
