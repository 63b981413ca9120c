import Mathlib

/-!
# Complete trees in preorder

The nodes of the complete tree of width `w` and height `h` are the numbers below `full w h`, the root
first and then the trees of its branches one after another.

* `parent_eq_iff`: the children of a node.
* `transGen_parent_iff`: the nodes below a node are those that follow it, as many as its own tree has.
-/

namespace Lib.FullTree

open Nat

variable {q r : Nat}

/-- How many nodes there are. -/
def full (w : Nat) : Nat → Nat
  | 0 => 1
  | h + 1 => 1 + w * full w h

/-- The parent of a node other than the root, and the height of the node. -/
def up (w : Nat) : Nat → Nat → Nat × Nat
  | 0, _ => (0, 0)
  | h + 1, x =>
    if (x - 1) % full w h = 0 then (0, h)
    else (1 + (x - 1) / full w h * full w h + (up w h ((x - 1) % full w h)).1,
      (up w h ((x - 1) % full w h)).2)

/-- The parent of a node other than the root. -/
def parent (w h x : Nat) : Nat := (up w h x).1

/-- The height of the tree below a node. -/
def height (w h x : Nat) : Nat := if x = 0 then h else (up w h x).2

variable {w h x j y : Nat}

theorem full_pos (w h : Nat) : 0 < full w h := by
  cases h with
  | zero => exact Nat.one_pos
  | succ h => exact Nat.add_pos_left Nat.one_pos _

theorem full_succ (w h : Nat) : full w (h + 1) = 1 + w * full w h := rfl

theorem full_lt_succ (hw : 0 < w) (h : Nat) : full w h < full w (h + 1) := by
  have hle := Nat.mul_le_mul_right (full w h) hw
  rw [Nat.one_mul] at hle
  rw [full_succ]
  omega

theorem full_mono (hw : 0 < w) {h' : Nat} (hle : h ≤ h') : full w h ≤ full w h' :=
  monotone_nat_of_le_succ (fun h => (full_lt_succ hw h).le) hle

theorem full_one (h : Nat) : full 1 h = h + 1 := by
  induction h with
  | zero => rfl
  | succ h ih =>
    rw [full_succ, ih]
    omega

/-- The nodes of one more level. -/
theorem full_add_pow (w h : Nat) : full w (h + 1) = full w h + w ^ (h + 1) := by
  induction h with
  | zero => rw [full_succ, full, Nat.zero_add, Nat.pow_one, Nat.mul_one]
  | succ h ih =>
    have hrest : w * full w (h + 1) = w * full w h + w ^ (h + 1 + 1) := by
      rw [ih, Nat.mul_add, ← Nat.pow_succ']
    rw [full_succ, hrest, full_succ]
    omega

/-- A tree has more nodes than it is high. -/
theorem lt_full (hw : 0 < w) (h : Nat) : h < full w h := by
  induction h with
  | zero => exact Nat.one_pos
  | succ h ih => exact Nat.lt_of_le_of_lt ih (full_lt_succ hw h)

/-- The geometric series. -/
theorem full_mul (hw : 0 < w) (h : Nat) : full w h * (w - 1) + 1 = w ^ (h + 1) := by
  induction h with
  | zero =>
    rw [full, Nat.zero_add, Nat.pow_one]
    omega
  | succ h ih =>
    have hw' : w - 1 + 1 = w := Nat.sub_add_cancel hw
    calc full w (h + 1) * (w - 1) + 1 = w * (full w h * (w - 1)) + (w - 1 + 1) := by
          rw [full_succ, Nat.add_mul, Nat.one_mul, Nat.mul_assoc]
          omega
      _ = w * (full w h * (w - 1) + 1) := by rw [hw', mul_succ]
      _ = w ^ (h + 1 + 1) := by rw [ih, ← Nat.pow_succ']

/-! ## Branches -/

/-- The branch of a node and its place there. -/
theorem exists_branch (hpos : 0 < x) (hx : x < full w (h + 1)) :
    ∃ j y, j < w ∧ y < full w h ∧ x = 1 + j * full w h + y := by
  have hdiv := div_add_mod (x - 1) (full w h)
  rw [Nat.mul_comm] at hdiv
  refine ⟨(x - 1) / full w h, (x - 1) % full w h, ?_, mod_lt _ (full_pos w h), by omega⟩
  rw [full_succ] at hx
  apply Nat.div_lt_of_lt_mul
  rw [Nat.mul_comm]
  omega

theorem branch_div (hy : y < full w h) : (1 + j * full w h + y - 1) / full w h = j := by
  rw [show 1 + j * full w h + y - 1 = y + j * full w h by omega, add_mul_div_right _ _ (full_pos w h),
    div_eq_of_lt hy, Nat.zero_add]

theorem branch_mod (hy : y < full w h) : (1 + j * full w h + y - 1) % full w h = y := by
  rw [show 1 + j * full w h + y - 1 = y + j * full w h by omega, add_mul_mod_self_right,
    mod_eq_of_lt hy]

theorem branch_lt (hj : j < w) (hy : y < full w h) : 1 + j * full w h + y < full w (h + 1) := by
  have hle : (j + 1) * full w h ≤ w * full w h := Nat.mul_le_mul_right _ hj
  rw [succ_mul] at hle
  rw [full_succ]
  omega

theorem height_root (w h : Nat) : height w h 0 = h := if_pos rfl

theorem parent_branch_root (w h j : Nat) : parent w (h + 1) (1 + j * full w h + 0) = 0 := by
  rw [parent, up, branch_mod (full_pos w h), if_pos rfl]

theorem parent_branch (hpos : 0 < y) (hy : y < full w h) :
    parent w (h + 1) (1 + j * full w h + y) = 1 + j * full w h + parent w h y := by
  rw [parent, up, branch_mod hy, branch_div hy, if_neg (Nat.pos_iff_ne_zero.mp hpos), ← parent]

theorem height_branch (hy : y < full w h) : height w (h + 1) (1 + j * full w h + y) = height w h y := by
  rw [height, if_neg (by omega), up, branch_mod hy, height]
  split <;> rfl

theorem height_le (hx : x < full w h) : height w h x ≤ h := by
  induction h generalizing x with
  | zero =>
    rw [show x = 0 from Nat.lt_one_iff.mp hx, height_root]
  | succ h ih =>
    rcases Nat.eq_zero_or_pos x with rfl | hpos
    · rw [height_root]
    · obtain ⟨j, y, -, hy, rfl⟩ := exists_branch hpos hx
      rw [height_branch hy]
      exact le_succ_of_le (ih hy)

/-- The heights of a tree that is a path. -/
theorem height_one (hx : x < full 1 h) : height 1 h x = h - x := by
  induction h generalizing x with
  | zero =>
    rw [show x = 0 from Nat.lt_one_iff.mp hx, height_root]
  | succ h ih =>
    rcases Nat.eq_zero_or_pos x with rfl | hpos
    · exact height_root 1 _
    · obtain ⟨j, y, hj, hy, rfl⟩ := exists_branch hpos hx
      rw [height_branch hy, ih hy, Nat.lt_one_iff.mp hj]
      omega

/-- The tree of a node is within the tree. -/
theorem subtree_le (hx : x < full w h) : x + full w (height w h x) ≤ full w h := by
  induction h generalizing x with
  | zero =>
    rw [show x = 0 from Nat.lt_one_iff.mp hx, height_root, Nat.zero_add]
  | succ h ih =>
    rcases Nat.eq_zero_or_pos x with rfl | hpos
    · rw [height_root, Nat.zero_add]
    · obtain ⟨j, y, hj, hy, rfl⟩ := exists_branch hpos hx
      have hbranch := ih hy
      have hle : (j + 1) * full w h ≤ w * full w h := Nat.mul_le_mul_right _ hj
      rw [succ_mul] at hle
      rw [height_branch hy, full_succ]
      omega

theorem parent_lt (hpos : 0 < x) (hx : x < full w h) : parent w h x < x := by
  induction h generalizing x with
  | zero =>
    have := Nat.lt_one_iff.mp hx
    omega
  | succ h ih =>
    obtain ⟨j, y, -, hy, rfl⟩ := exists_branch hpos hx
    rcases Nat.eq_zero_or_pos y with rfl | hypos
    · rw [parent_branch_root]
      omega
    · rw [parent_branch hypos hy]
      have := ih hypos hy
      omega

/-- A node is one lower than its parent. -/
theorem height_parent (hpos : 0 < x) (hx : x < full w h) :
    height w h (parent w h x) = height w h x + 1 := by
  induction h generalizing x with
  | zero =>
    have := Nat.lt_one_iff.mp hx
    omega
  | succ h ih =>
    obtain ⟨j, y, -, hy, rfl⟩ := exists_branch hpos hx
    rw [height_branch hy]
    rcases Nat.eq_zero_or_pos y with rfl | hypos
    · rw [parent_branch_root, height_root, height_root]
    · rw [parent_branch hypos hy, height_branch ((parent_lt hypos hy).trans hy), ih hypos hy]

/-! ## Children -/

/-- A node is the parent of the roots of its branches. -/
theorem parent_child {k : Nat} (hx : x < full w h) (hk : height w h x = k + 1) (hj : j < w) :
    x + 1 + j * full w k < full w h ∧ parent w h (x + 1 + j * full w k) = x := by
  have hle := subtree_le hx
  have hbranch : (j + 1) * full w k ≤ w * full w k := Nat.mul_le_mul_right _ hj
  rw [succ_mul] at hbranch
  rw [hk, full_succ] at hle
  have hpos := full_pos w k
  refine ⟨by omega, ?_⟩
  induction h generalizing x with
  | zero =>
    rw [show x = 0 from Nat.lt_one_iff.mp hx, height_root] at hk
    cases hk
  | succ h ih =>
    rcases Nat.eq_zero_or_pos x with rfl | hxpos
    · rw [height_root] at hk
      rw [← Nat.succ.inj hk, Nat.zero_add]
      exact parent_branch_root w h j
    · obtain ⟨i, y, hi, hy, rfl⟩ := exists_branch hxpos hx
      rw [height_branch hy] at hk
      have hyle := subtree_le hy
      rw [hk, full_succ] at hyle
      have hplace : 1 + i * full w h + y + 1 + j * full w k = 1 + i * full w h + (y + 1 + j * full w k) := by
        omega
      rw [hplace, parent_branch (by omega) (by omega), ih hy hk hyle]

/-- The children of a node. -/
theorem parent_eq_iff (hpos : 0 < q) (hq : q < full w h) :
    parent w h q = r ↔
      r < full w h ∧ ∃ k j, height w h r = k + 1 ∧ j < w ∧ q = r + 1 + j * full w k := by
  constructor
  · induction h generalizing q r with
    | zero =>
      have := Nat.lt_one_iff.mp hq
      omega
    | succ h ih =>
      obtain ⟨j, y, hj, hy, rfl⟩ := exists_branch hpos hq
      rcases Nat.eq_zero_or_pos y with rfl | hypos
      · rw [parent_branch_root]
        rintro rfl
        exact ⟨full_pos w _, h, j, height_root w _, hj, by omega⟩
      · rw [parent_branch hypos hy]
        rintro rfl
        obtain ⟨hlt, k, i, hk, hi, hplace⟩ := ih hypos hy rfl
        exact ⟨branch_lt hj hlt, k, i, by rw [height_branch hlt, hk], hi, by omega⟩
  · rintro ⟨hr, k, j, hk, hj, rfl⟩
    exact (parent_child hr hk hj).2

/-! ## The nodes below a node -/

/-- `q` is a child of `r`. -/
def Child (w h q r : Nat) : Prop := 0 < q ∧ q < full w h ∧ parent w h q = r

/-- The tree of a child is within the tree of its parent. -/
theorem child_within (hchild : Child w h q r) :
    r < q ∧ q + full w (height w h q) ≤ r + full w (height w h r) := by
  obtain ⟨hpos, hq, hparent⟩ := hchild
  have hheight := height_parent hpos hq
  obtain ⟨-, k, j, hk, hj, hplace⟩ := (parent_eq_iff hpos hq).mp hparent
  rw [hparent, hk] at hheight
  have hbranch : (j + 1) * full w k ≤ w * full w k := Nat.mul_le_mul_right _ hj
  rw [succ_mul] at hbranch
  rw [hk, full_succ, ← Nat.succ.inj hheight]
  omega

theorem child_branch (hj : j < w) (hchild : Child w h q r) :
    Child w (h + 1) (1 + j * full w h + q) (1 + j * full w h + r) := by
  obtain ⟨hpos, hq, rfl⟩ := hchild
  exact ⟨by omega, branch_lt hj hq, parent_branch hpos hq⟩

/-- Every node is below the root. -/
theorem transGen_root (hpos : 0 < q) (hq : q < full w h) : Relation.TransGen (Child w h) q 0 := by
  induction q using Nat.strong_induction_on with
  | _ q ih =>
    have hlt := parent_lt hpos hq
    rcases Nat.eq_zero_or_pos (parent w h q) with hzero | hppos
    · exact .single ⟨hpos, hq, hzero⟩
    · exact .head ⟨hpos, hq, rfl⟩ (ih _ hlt hppos (hlt.trans hq))

/-- The nodes below a node are the ones after it in its own tree. -/
theorem transGen_child_iff (hq : q < full w h) (hr : r < full w h) :
    Relation.TransGen (Child w h) q r ↔ r < q ∧ q < r + full w (height w h r) := by
  constructor
  · intro hbelow
    have hwithin : r < q ∧ q + full w (height w h q) ≤ r + full w (height w h r) := by
      clear hq hr
      induction hbelow with
      | single hchild => exact child_within hchild
      | tail _ hchild ih =>
        have := child_within hchild
        omega
    have := full_pos w (height w h q)
    omega
  · rintro ⟨hlt, hin⟩
    induction h generalizing q r with
    | zero =>
      have := Nat.lt_one_iff.mp hq
      omega
    | succ h ih =>
      rcases Nat.eq_zero_or_pos r with rfl | hrpos
      · exact transGen_root hlt hq
      · obtain ⟨j, y, hj, hy, rfl⟩ := exists_branch (hrpos.trans hlt) hq
        obtain ⟨i, z, hi, hz, rfl⟩ := exists_branch hrpos hr
        rw [height_branch hz] at hin
        have hend := subtree_le hz
        have hsame : j = i := by
          have hle : i ≤ j := by
            by_contra hji
            have hmul : (j + 1) * full w h ≤ i * full w h := Nat.mul_le_mul_right _ (by omega)
            rw [succ_mul] at hmul
            omega
          have hge : j ≤ i := by
            by_contra hij
            have hmul : (i + 1) * full w h ≤ j * full w h := Nat.mul_le_mul_right _ (by omega)
            rw [succ_mul] at hmul
            omega
          omega
        subst hsame
        exact Relation.TransGen.lift (fun a => 1 + j * full w h + a) (fun _ _ => child_branch hj) _ _
          (ih hy hz (by omega) (by omega))

end Lib.FullTree
