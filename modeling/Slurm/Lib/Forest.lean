import Mathlib

/-!
# Trees of nodes below a root

`parent v` is the node above `v`, or `none` where this is the root, which is not a node.  A depth that
grows on the way down rules cycles out.

* `Rooted.ancestors`, `Rooted.below`, `Rooted.children`: what is above and below a node or the root.
* `below_eq`: what is below is each child with what is below it; `pairwise_branches` says that these
  do not overlap, and `sum_below` adds something up along them.
* `below_none`: everything is below the root.
* `below_of_children`: from a node to what is below it.
-/

namespace Lib.Forest

open Finset

/-- The way up from each node. -/
structure Rooted (V : Type) where
  parent : V → Option V
  depth : V → Nat
  depth_lt : ∀ v u, parent v = some u → depth u < depth v

variable {V : Type} (F : Rooted V)

/-- The first `fuel + 1` of what is above a node. -/
def Rooted.climb : Nat → V → List (Option V)
  | 0, v => [F.parent v]
  | fuel + 1, v =>
    F.parent v ::
      match F.parent v with
      | none => []
      | some u => climb fuel u

/-- All that is above a node, up to the root. -/
def Rooted.ancestors (v : V) : List (Option V) := F.climb (F.depth v) v

variable {F} {v w u c c' : V} {x : Option V}

theorem climb_of_le {fuel fuel' : Nat} (h : F.depth v ≤ fuel) (h' : F.depth v ≤ fuel') :
    F.climb fuel v = F.climb fuel' v := by
  induction fuel generalizing v fuel' with
  | zero =>
    have hnone : F.parent v = none := by
      cases hp : F.parent v with
      | none => rfl
      | some u =>
        have hlt := F.depth_lt v u hp
        omega
    cases fuel' with
    | zero => rfl
    | succ fuel' => simp [Rooted.climb, hnone]
  | succ fuel ih =>
    cases fuel' with
    | zero =>
      have hnone : F.parent v = none := by
        cases hp : F.parent v with
        | none => rfl
        | some u =>
          have hlt := F.depth_lt v u hp
          omega
      simp [Rooted.climb, hnone]
    | succ fuel' =>
      rw [Rooted.climb, Rooted.climb]
      cases hp : F.parent v with
      | none => rfl
      | some u =>
        have hlt := F.depth_lt v u hp
        have hrest : F.climb fuel u = F.climb fuel' u := ih (by omega) (by omega)
        dsimp only
        rw [hrest]

theorem ancestors_eq (v : V) : F.ancestors v =
    F.parent v :: match F.parent v with
      | none => []
      | some u => F.ancestors u := by
  rw [Rooted.ancestors]
  cases hp : F.parent v with
  | none => cases hd : F.depth v <;> simp [Rooted.climb, hp]
  | some u =>
    have hlt := F.depth_lt v u hp
    obtain ⟨d, hd⟩ : ∃ d, F.depth v = d + 1 := ⟨F.depth v - 1, by omega⟩
    have hrest : F.climb d u = F.climb (F.depth u) u := climb_of_le (by omega) le_rfl
    rw [hd, Rooted.climb, hp]
    dsimp only
    rw [hrest]
    rfl

theorem mem_ancestors : x ∈ F.ancestors v ↔
    x = F.parent v ∨ ∃ u, F.parent v = some u ∧ x ∈ F.ancestors u := by
  rw [ancestors_eq, List.mem_cons]
  cases F.parent v with
  | none => simp
  | some u => simp

theorem none_mem_ancestors (v : V) : none ∈ F.ancestors v := by
  generalize hd : F.depth v = d
  induction d using Nat.strong_induction_on generalizing v with
  | _ d ih =>
    rw [mem_ancestors]
    cases hp : F.parent v with
    | none => exact Or.inl rfl
    | some u =>
      have hlt := F.depth_lt v u hp
      exact Or.inr ⟨u, rfl, ih (F.depth u) (by omega) u rfl⟩

theorem depth_lt_of_mem (h : some u ∈ F.ancestors v) : F.depth u < F.depth v := by
  generalize hd : F.depth v = d
  induction d using Nat.strong_induction_on generalizing v with
  | _ d ih =>
    rcases mem_ancestors.mp h with hp | ⟨w, hp, hmem⟩
    · rw [← hd]
      exact F.depth_lt v u hp.symm
    · have hlt := F.depth_lt v w hp
      have hrest := ih (F.depth w) (by omega) hmem rfl
      omega

/-! ## What is below -/

variable [Fintype V] [DecidableEq V] (F)

/-- All nodes below a node or the root. -/
def Rooted.below (x : Option V) : Finset V := Finset.univ.filter fun v => x ∈ F.ancestors v

/-- The nodes right below a node or the root. -/
def Rooted.children (x : Option V) : Finset V := Finset.univ.filter fun v => F.parent v = x

/-- A node with all nodes below it. -/
def Rooted.branch (c : V) : Finset V := insert c (F.below (some c))

variable {F}

theorem mem_below : v ∈ F.below x ↔ x ∈ F.ancestors v := by simp [Rooted.below]

@[simp]
theorem mem_children : v ∈ F.children x ↔ F.parent v = x := by simp [Rooted.children]

theorem mem_branch : v ∈ F.branch c ↔ v = c ∨ some c ∈ F.ancestors v := by
  rw [Rooted.branch, mem_insert, mem_below]

theorem below_none : F.below none = Finset.univ :=
  filter_true_of_mem fun v _ => none_mem_ancestors v

theorem self_notMem_below (v : V) : v ∉ F.below (some v) :=
  fun h => Nat.lt_irrefl _ (depth_lt_of_mem (mem_below.mp h))

/-- What is below are the children with what is below them. -/
theorem below_eq (x : Option V) : F.below x = (F.children x).biUnion F.branch := by
  ext v
  rw [mem_below, mem_biUnion]
  simp only [mem_children, mem_branch]
  generalize hd : F.depth v = d
  induction d using Nat.strong_induction_on generalizing v with
  | _ d ih =>
    rw [mem_ancestors]
    constructor
    · rintro (rfl | ⟨u, hp, hmem⟩)
      · exact ⟨v, rfl, Or.inl rfl⟩
      · have hlt := F.depth_lt v u hp
        obtain ⟨c, hc, hbranch⟩ := (ih (F.depth u) (by omega) u rfl).mp hmem
        refine ⟨c, hc, Or.inr (mem_ancestors.mpr ?_)⟩
        rcases hbranch with rfl | hmem'
        · exact Or.inl hp.symm
        · exact Or.inr ⟨u, hp, hmem'⟩
    · rintro ⟨c, hc, rfl | hmem⟩
      · exact Or.inl hc.symm
      · right
        rcases mem_ancestors.mp hmem with hp | ⟨u, hp, hmem'⟩
        · exact ⟨c, hp.symm, mem_ancestors.mpr (Or.inl hc.symm)⟩
        · have hlt := F.depth_lt v u hp
          exact ⟨u, hp, (ih (F.depth u) (by omega) u rfl).mpr ⟨c, hc, Or.inr hmem'⟩⟩

/-- A node is in the branch of one child only. -/
theorem branch_unique (hc : F.parent c = x) (hc' : F.parent c' = x) (h : v ∈ F.branch c)
    (h' : v ∈ F.branch c') : c = c' := by
  have hnot : ∀ {c c' : V}, F.parent c = x → F.parent c' = x → some c' ∉ F.ancestors c := by
    intro c c' hc hc' hmem
    rcases mem_ancestors.mp hmem with hp | ⟨u, hp, hmem'⟩
    · have hlt := F.depth_lt c' c' (hc'.trans (hc.symm.trans hp.symm))
      omega
    · have hlt := F.depth_lt c' u (hc'.trans (hc.symm.trans hp))
      have hlt' := depth_lt_of_mem hmem'
      omega
  generalize hd : F.depth v = d
  induction d using Nat.strong_induction_on generalizing v with
  | _ d ih =>
    rcases mem_branch.mp h with rfl | hmem
    · rcases mem_branch.mp h' with rfl | hmem'
      · rfl
      · exact absurd hmem' (hnot hc hc')
    · rcases mem_branch.mp h' with rfl | hmem'
      · exact absurd hmem (hnot hc' hc)
      · rcases mem_ancestors.mp hmem with hp | ⟨u, hp, hu⟩
        · rcases mem_ancestors.mp hmem' with hp' | ⟨u, hp', hu⟩
          · exact Option.some.inj (hp.trans hp'.symm)
          · rw [← hp] at hp'
            obtain rfl := Option.some.inj hp'
            exact absurd hu (hnot hc hc')
        · have hlt := F.depth_lt v u hp
          refine ih (F.depth u) (by omega) (mem_branch.mpr (Or.inr hu)) (mem_branch.mpr ?_) rfl
          rcases mem_ancestors.mp hmem' with hp' | ⟨u', hp', hu'⟩
          · exact Or.inl (Option.some.inj (hp.symm.trans hp'.symm))
          · rw [hp] at hp'
            obtain rfl := Option.some.inj hp'
            exact Or.inr hu'

theorem pairwise_branches (x : Option V) : (F.children x : Set V).PairwiseDisjoint F.branch := by
  intro c hc c' hc' hne
  rw [Function.onFun, Finset.disjoint_left]
  intro v hv hv'
  rw [mem_coe, mem_children] at hc hc'
  exact hne (branch_unique hc hc' hv hv')

/-- Something is added up child by child. -/
theorem sum_below {M : Type} [AddCommMonoid M] (f : V → M) (x : Option V) :
    ∑ v ∈ F.below x, f v = ∑ c ∈ F.children x, ∑ v ∈ F.branch c, f v := by
  rw [below_eq, sum_biUnion (pairwise_branches x)]

theorem sum_branch {M : Type} [AddCommMonoid M] (f : V → M) (c : V) :
    ∑ v ∈ F.branch c, f v = f c + ∑ v ∈ F.below (some c), f v :=
  sum_insert (self_notMem_below c)

theorem card_below (x : Option V) :
    (F.below x).card = ∑ c ∈ F.children x, ((F.below (some c)).card + 1) := by
  rw [card_eq_sum_ones, sum_below]
  apply sum_congr rfl
  intro c _
  rw [sum_branch, card_eq_sum_ones, Nat.add_comm]

/-- What passes on from a node to its children holds below it. -/
theorem below_of_children {P : V → Prop} (hstep : ∀ v u, F.parent v = some u → P u → P v)
    (hx : ∀ c, F.parent c = x → P c) : ∀ v ∈ F.below x, P v := by
  intro v hv
  rw [mem_below] at hv
  generalize hd : F.depth v = d
  induction d using Nat.strong_induction_on generalizing v with
  | _ d ih =>
    rcases mem_ancestors.mp hv with hp | ⟨u, hp, hmem⟩
    · exact hx v hp.symm
    · have hlt := F.depth_lt v u hp
      exact hstep v u hp (ih (F.depth u) (by omega) u hmem rfl)

end Lib.Forest
