import Slurm.Lib.Int32
import Slurm.Lib.FullTree

/-!
# The reverse tree (`common/reverse_tree.c`)

The nodes of a job are the ranks of a tree in preorder.  `reverse_tree_info` goes down from the root
of the smallest complete tree that has as many nodes, and `reverse_tree_direct_children` computes where
the branches of a node begin.  The numbers are of type `int`; an operation that overflows has
no result here.
-/

namespace Slurm.ReverseTree

open Lib.Int32

/-! ## Powers and sums -/

/-- `for (i = 1; i < power; i++) res *= num;` -/
def powLoop (num : Int) : Nat → Int → Option Int
  | 0, res => some res
  | k + 1, res => (checked (res * num)).bind (powLoop num k)

/-- `int_pow` -/
def intPow (num power : Int) : Option Int :=
  if power = 0 then some 1
  else if power = 1 then some num
  else powLoop num (power - 1).toNat num

/-- `geometric_series` -/
def geometricSeries (width depth : Int) : Option Int :=
  if width = 1 then checked (depth + 1)
  else
    (checked (depth + 1)).bind fun power =>
    (intPow width power).bind fun pow =>
    (checked (1 - pow)).bind fun above =>
    (checked (1 - width)).bind fun below =>
    some (above.tdiv below)

/-- The loop of `dep`, which adds at least one each time. -/
def depLoop (total width : Int) : Nat → Int → Int → Option Int
  | 0, _, _ => none
  | fuel + 1, i, x =>
    (checked (total - 1)).bind fun last =>
    if x < last then
      (intPow width i).bind fun pow =>
      (checked (x + pow)).bind fun x =>
      (checked (i + 1)).bind fun i =>
      depLoop total width fuel i x
    else checked (i - 1)

/-- `dep` -/
def dep (total width : Int) : Option Int := depLoop total width (total.toNat + 1) 1 0

/-! ## The way down -/

/-- What the loop over the branches of a node finds. -/
inductive Branch where
  | root
  | below (current : Int)
  | missing

/-- `for (i = 1; i <= width; i++)` of `search_tree`. -/
def searchLoop (id nextChildren : Int) : Nat → Int → Option Branch
  | 0, _ => some .missing
  | k + 1, current =>
    (checked (current + nextChildren)).bind fun last =>
    (checked (last + 1)).bind fun next =>
    if id = next then some .root
    else if id > current ∧ id < next then some (.below current)
    else searchLoop id nextChildren k next

/-- `search_tree`: `parent_id`, `next_max_children` and `depth`. -/
def searchTree (id width : Int) : Nat → Int → Int → Int → Option (Int × Int × Int)
  | 0, _, _, _ => none
  | fuel + 1, node, maxChildren, depth =>
    (checked (depth + 1)).bind fun depth =>
    (checked (node + 1)).bind fun current =>
    (checked (maxChildren.tdiv width - 1)).bind fun nextChildren =>
    if id = current then some (node, nextChildren, depth)
    else
      (searchLoop id nextChildren width.toNat current).bind fun branch =>
      match branch with
      | .root => some (node, nextChildren, depth)
      | .below current => searchTree id width fuel current nextChildren depth
      | .missing => some (-1, -1, depth)

/-- What `reverse_tree_info` returns. -/
structure Info where
  parent : Int
  numChildren : Int
  depth : Int
  maxDepth : Int

/-- `reverse_tree_info` -/
def reverseTreeInfo (rank numNodes width : Int) : Option Info :=
  if rank ≥ numNodes then some ⟨-1, -1, -1, -1⟩
  else if width > numNodes then some ⟨-1, 0, 0, 0⟩
  else
    (dep numNodes width).bind fun maxDepth =>
    if rank = 0 then (checked (numNodes - 1)).map fun c => ⟨-1, c, 0, maxDepth⟩
    else
      (geometricSeries width maxDepth).bind fun maxChildren =>
      (searchTree rank width numNodes.toNat 0 maxChildren 0).bind fun found =>
      (checked (rank + found.2.1)).bind fun last =>
      if last ≥ numNodes then
        (checked (numNodes - rank)).bind fun rest =>
        (checked (rest - 1)).map fun c => ⟨found.1, c, found.2.2, maxDepth⟩
      else some ⟨found.1, found.2.1, found.2.2, maxDepth⟩

/-! ## The children -/

/-- `for (i = 0; i < width && current < num_nodes; i++)` -/
def childLoop (numNodes childDistance : Int) : Nat → Int → Option (List Int)
  | 0, _ => some []
  | k + 1, current =>
    if current < numNodes then
      (checked (current + childDistance)).bind fun next =>
      (childLoop numNodes childDistance k next).map fun children => current :: children
    else some []

/-- `reverse_tree_direct_children` -/
def reverseTreeDirectChildren (rank numNodes width depth : Int) : Option (List Int) :=
  if width > numNodes then some []
  else
    (dep numNodes width).bind fun maxDepth =>
    (checked (maxDepth - depth)).bind fun subDepth =>
    if subDepth = 0 then some []
    else
      (geometricSeries width subDepth).bind fun maxRankChildren =>
      (checked (rank + 1)).bind fun current =>
      childLoop numNodes (maxRankChildren.tdiv width) width.toNat current

end Slurm.ReverseTree

/-!
## What the functions of the reverse tree compute

The ranks are the nodes of a complete tree in preorder.

* `intPow_eq`, `geometricSeries_eq`, `dep_eq`: powers, numbers of nodes and the height of the tree.
* `searchTree_eq`: the way down finds the parent and the height of a node.
* `childLoop_spec`: the places where branches begin.
-/

namespace Slurm.ReverseTree

open Lib.Int32 Lib.FullTree Option Nat

/-! ## Powers and sums -/

section Sums

variable {w n : Nat}

theorem powLoop_eq (hw : 0 < w) (a k : Nat) : powLoop w k ((w ^ a : Nat) : Int) =
    if k = 0 ∨ w ^ (a + k) < 2147483648 then some ((w ^ (a + k) : Nat) : Int) else none := by
  induction k generalizing a with
  | zero => rw [powLoop, if_pos (.inl rfl), Nat.add_zero]
  | succ k ih =>
    have hmul : ((w ^ a : Nat) : Int) * w = ((w ^ (a + 1) : Nat) : Int) := by
      push_cast
      rw [pow_succ]
    have hmono : w ^ (a + 1) ≤ w ^ (a + (k + 1)) := Nat.pow_le_pow_right hw (by omega)
    have hsum : a + 1 + k = a + (k + 1) := by omega
    rw [powLoop, hmul]
    by_cases hfits : w ^ (a + 1) < 2147483648
    · rw [checked_eq (by omega) (by omega), bind_some, ih, hsum]
      rcases Nat.eq_zero_or_pos k with rfl | hk
      · rw [if_pos (.inl rfl), if_pos (.inr hfits)]
      · have hiff : (k = 0 ∨ w ^ (a + (k + 1)) < 2147483648) ↔
            (k + 1 = 0 ∨ w ^ (a + (k + 1)) < 2147483648) := by omega
        exact if_congr hiff rfl rfl
    · rw [checked_overflow (by omega), bind_none, if_neg (by omega)]

/-- A power that fits. -/
theorem intPow_eq (hw : 0 < w) (hlt : w < 2147483648) (k : Nat) :
    intPow w k = if w ^ k < 2147483648 then some ((w ^ k : Nat) : Int) else none := by
  rw [intPow]
  rcases Nat.eq_zero_or_pos k with rfl | hk
  · rfl
  · rw [if_neg (by omega)]
    by_cases hone : k = 1
    · subst hone
      rw [Nat.pow_one, if_pos hlt]
      rfl
    · have hloop := powLoop_eq hw 1 (k - 1)
      rw [Nat.pow_one, Nat.add_sub_cancel' hk] at hloop
      have hto : ((k : Int) - 1).toNat = k - 1 := by omega
      rw [if_neg (by omega), hto, hloop]
      exact if_congr (or_iff_right (by omega)) rfl rfl

/-- The number of nodes of a tree. -/
theorem geometricSeries_eq (hw : 0 < w) {d : Nat} (hfull : full w d < 2147483648)
    (hpow : w ^ (d + 1) < 2147483648) : geometricSeries w d = some (full w d : Int) := by
  have hd := lt_full hw d
  have hcast : ((d : Int) + 1) = ((d + 1 : Nat) : Int) := by push_cast; rfl
  rw [geometricSeries, hcast, checked_eq (by omega) (by omega)]
  by_cases hone : w = 1
  · subst hone
    rw [if_pos cast_one, full_one]
  · have hlt : w < 2147483648 := by
      have hle : w ^ 1 ≤ w ^ (d + 1) := Nat.pow_le_pow_right hw (by omega)
      rw [Nat.pow_one] at hle
      omega
    have hsum : (1 : Int) - ((w ^ (d + 1) : Nat) : Int) = (1 - (w : Int)) * full w d := by
      rw [← full_mul hw d]
      push_cast [cast_sub hw]
      ring
    rw [if_neg (by omega), bind_some, intPow_eq hw hlt, if_pos hpow, bind_some,
      checked_eq (by omega) (by omega), bind_some, checked_eq (by omega) (by omega),
      bind_some, hsum, Int.mul_tdiv_cancel_left _ (by omega)]

theorem geometricSeries_overflow (hw : 1 < w) (hlt : w < 2147483648) {d : Nat}
    (hpow : 2147483648 ≤ w ^ (d + 1)) : geometricSeries w d = none := by
  have hcast : ((d : Int) + 1) = ((d + 1 : Nat) : Int) := by push_cast; rfl
  rw [geometricSeries, if_neg (by omega), hcast]
  by_cases hfits : ((d + 1 : Nat) : Int) < 2147483648
  · rw [checked_eq (by omega) hfits, bind_some, intPow_eq (by omega) hlt, if_neg (by omega)]
    rfl
  · rw [checked_overflow (by omega)]
    rfl

/-- The height of the smallest complete tree with as many nodes. -/
def IsHeight (w n D : Nat) : Prop := n ≤ full w D ∧ ∀ h, h < D → full w h < n

theorem exists_isHeight (hw : 0 < w) (n : Nat) : ∃ D, IsHeight w n D := by
  have hex : ∃ D, n ≤ full w D := ⟨n, (lt_full hw n).le⟩
  exact ⟨Nat.find hex, Nat.find_spec hex, fun h hlt => Nat.lt_of_not_ge (Nat.find_min hex hlt)⟩

theorem IsHeight.lt {D : Nat} (h : IsHeight w n D) (hw : 0 < w) (hn : 0 < n) : D < n := by
  rcases Nat.eq_zero_or_pos D with rfl | hpos
  · exact hn
  · have hfull := h.2 (D - 1) (by omega)
    have hlt := lt_full hw (D - 1)
    omega

/-- The loop from one level on ends at the height of the tree, unless the nodes of the tree cannot
be counted. -/
theorem depLoop_eq {D : Nat} (hD : IsHeight w n D) (hw : 0 < w) (hlt : w < 2147483648)
    (hn : 0 < n) (hn' : n < 2147483648) {fuel k : Nat} (hk : k ≤ D) (hfuel : D < k + fuel) :
    depLoop n w fuel ((k : Int) + 1) ((full w k : Int) - 1) = some (D : Int) ∨
      depLoop n w fuel ((k : Int) + 1) ((full w k : Int) - 1) = none ∧
        (2147483648 ≤ w ^ D ∨ 2147483648 < full w D) := by
  induction fuel generalizing k with
  | zero => omega
  | succ fuel ih =>
    have hDn := hD.lt hw hn
    rw [depLoop, checked_eq (by omega) (by omega), bind_some]
    split
    · rename_i hmore
      have hkD : k < D := by
        by_contra hge
        have heq : k = D := by omega
        have hle := hD.1
        rw [heq] at hmore
        omega
      have hcast : ((k : Int) + 1) = ((k + 1 : Nat) : Int) := by push_cast; rfl
      have hpowk : w ^ (k + 1) ≤ w ^ D := Nat.pow_le_pow_right hw hkD
      have hfullk := full_mono hw (show k + 1 ≤ D from hkD)
      rw [hcast, intPow_eq hw hlt]
      split
      · have hsum : (full w k : Int) - 1 + ((w ^ (k + 1) : Nat) : Int) = (full w (k + 1) : Int) - 1 := by
          rw [full_add_pow]
          push_cast
          ring
        rw [bind_some, hsum]
        by_cases hfull : full w (k + 1) ≤ 2147483648
        · rw [checked_eq (by omega) (by omega), bind_some, checked_eq (by omega) (by omega),
            bind_some]
          exact ih hkD (by omega)
        · rw [checked_overflow (by omega)]
          exact .inr ⟨rfl, .inr (by omega)⟩
      · exact .inr ⟨rfl, .inl (by omega)⟩
    · rename_i hdone
      have heq : k = D := by
        by_contra hne
        have hlt := hD.2 k (by omega)
        omega
      rw [heq, Int.add_sub_cancel, checked_eq (by omega) (by omega)]
      exact .inl rfl

theorem dep_cases {D : Nat} (hD : IsHeight w n D) (hw : 0 < w) (hlt : w < 2147483648) (hn : 0 < n)
    (hn' : n < 2147483648) :
    dep n w = some (D : Int) ∨ dep n w = none ∧ (2147483648 ≤ w ^ D ∨ 2147483648 < full w D) := by
  have hDn := hD.lt hw hn
  exact depLoop_eq hD hw hlt hn hn' (Nat.zero_le D) (by omega)

/-- The height of the tree. -/
theorem dep_eq {D : Nat} (hD : IsHeight w n D) (hw : 0 < w) (hlt : w < 2147483648) (hn : 0 < n)
    (hn' : n < 2147483648) (hpow : w ^ D < 2147483648) (hfull : full w D ≤ 2147483648) :
    dep n w = some (D : Int) := by
  rcases dep_cases hD hw hlt hn hn' with hd | ⟨-, hlarge⟩
  · exact hd
  · omega

end Sums

/-! ## The way down -/

section Down

variable {w h : Nat}

/-- What `next_max_children` has over the number of nodes below a branch: the division by the width is
one too large for a path. -/
def extra (w : Nat) : Nat := if w = 1 then 1 else 0

/-- `next_max_children` for the branches of a node. -/
def branchMax (w h : Nat) : Int := (full w h : Int) - 1 + extra w

theorem tdiv_full (hw : 0 < w) : ((full w (h + 1) : Nat) : Int).tdiv w = (full w h : Int) + extra w := by
  rw [← Int.ofNat_tdiv, full_succ, extra]
  split
  · rename_i hone
    rw [hone, Nat.div_one]
    push_cast
    ring
  · rw [add_mul_div_left _ _ hw, div_eq_of_lt (by omega)]
    push_cast
    ring

/-- `max_children` of the root, and of the nodes below it. -/
theorem tdiv_branchMax (hw : 0 < w) {m : Int} (hm : m = full w (h + 1) ∨ m = branchMax w (h + 1)) :
    m.tdiv w - 1 = branchMax w h := by
  have hroot : ((full w (h + 1) : Nat) : Int).tdiv w - 1 = branchMax w h := by
    rw [tdiv_full hw, branchMax]
    ring
  rcases hm with rfl | rfl
  · exact hroot
  · by_cases hone : w = 1
    · have hsame : branchMax w (h + 1) = ((full w (h + 1) : Nat) : Int) := by
        rw [branchMax, extra, if_pos hone]
        push_cast
        ring
      rw [hsame]
      exact hroot
    · have hmul : branchMax w (h + 1) = ((w * full w h : Nat) : Int) := by
        rw [branchMax, extra, if_neg hone, full_succ]
        push_cast
        ring
      rw [hmul, ← Int.ofNat_tdiv, Nat.mul_div_cancel_left _ hw, branchMax, extra, if_neg hone]
      push_cast
      ring

/-- The loop over the branches finds the one of a node: `s` is the distance between them. -/
theorem searchLoop_eq {s c current : Int} (hs : c + 1 = s) {j k : Nat} (hj : j < k) {y : Int} (hy : 0 ≤ y)
    (hys : y < s) (hne : j = 0 → 0 < y) (hcurrent : 0 ≤ current)
    (hbound : current + (j + 1) * s < 2147483648) :
    ∃ branch, searchLoop (current + j * s + y) c k current = some branch ∧
      (y = 0 → branch = .root) ∧ (0 < y → branch = .below (current + j * s)) := by
  induction j generalizing k current with
  | zero =>
    obtain ⟨k, rfl⟩ := exists_eq_succ_of_ne_zero (by omega : k ≠ 0)
    have hpos := hne rfl
    have hplace : current + ((0 : Nat) : Int) * s + y = current + y := by
      rw [cast_zero]
      ring
    have hplace' : current + ((0 : Nat) : Int) * s = current := by
      rw [cast_zero]
      ring
    rw [cast_zero, Int.zero_add, Int.one_mul] at hbound
    rw [hplace, hplace', searchLoop, checked_eq (by omega) (by omega), bind_some,
      checked_eq (by omega) (by omega), bind_some, if_neg (by omega), if_pos (by omega)]
    exact ⟨_, rfl, fun hzero => by omega, fun _ => rfl⟩
  | succ j ih =>
    obtain ⟨k, rfl⟩ := exists_eq_succ_of_ne_zero (by omega : k ≠ 0)
    have hmul : 0 ≤ (j : Int) * s := Int.mul_nonneg (Int.natCast_nonneg j) (by omega)
    have hend : current + ((j + 1 : Nat) + 1) * s = current + s + (j + 1) * s := by
      push_cast
      ring
    have hend' : current + s + ((j : Int) + 1) * s = current + s + j * s + s := by ring
    have hplace : current + ((j + 1 : Nat) : Int) * s = current + s + j * s := by
      push_cast
      ring
    have hnext : current + c + 1 = current + s := by omega
    rw [hend, hend'] at hbound
    rw [hplace, searchLoop, checked_eq (by omega) (by omega), bind_some, hnext,
      checked_eq (by omega) (by omega), bind_some]
    by_cases hfound : current + s + j * s + y = current + s
    · rw [if_pos hfound]
      exact ⟨_, rfl, fun _ => rfl, fun hpos => by omega⟩
    · rw [if_neg hfound, if_neg (by omega)]
      refine ih (by omega) (fun hzero => ?_) (by omega) (by rw [hend']; omega)
      rw [hzero, cast_zero, Int.zero_mul] at hfound
      omega

/-- The distance between branches, times the number of a branch. -/
theorem mul_distance {j : Nat} (hj : j < w) :
    (j : Int) * (full w h + extra w) = ((j * full w h : Nat) : Int) ∧
      ((j : Int) + 1) * (full w h + extra w) ≤ ((w * full w h : Nat) : Int) + extra w := by
  have hle : ((j + 1) * full w h : Nat) ≤ w * full w h := Nat.mul_le_mul_right _ hj
  have hcast : (((j + 1) * full w h : Nat) : Int) ≤ ((w * full w h : Nat) : Int) := by exact_mod_cast hle
  rw [extra]
  split
  · rename_i hone
    have hzero : j = 0 := by omega
    subst hzero
    push_cast at hcast ⊢
    constructor
    · ring
    · linarith
  · push_cast at hcast ⊢
    constructor
    · ring
    · linarith

/-- The way down from a node finds the parent and the height of a node of its tree. -/
theorem searchTree_eq (hw : 0 < w) {fuel node x d : Nat} {m : Int} (hfuel : h < fuel) (hpos : 0 < x)
    (hx : x < full w (h + 1)) (hm : m = full w (h + 1) ∨ m = branchMax w (h + 1))
    (hbound : node + full w (h + 1) + extra w < 2147483648) (hdepth : d + h + 1 < 2147483648) :
    searchTree (node + x : Nat) w fuel node m d =
      some (((node + parent w (h + 1) x : Nat) : Int), branchMax w (height w (h + 1) x),
        ((d + (h + 1 - height w (h + 1) x) : Nat) : Int)) := by
  induction fuel generalizing h node x d m with
  | zero => omega
  | succ fuel ih =>
    obtain ⟨j, y, hj, hy, rfl⟩ := exists_branch hpos hx
    obtain ⟨hplace, hend⟩ := mul_distance (h := h) hj
    have hfull := full_lt_succ hw h
    have hfullpos := full_pos w h
    have hmax : branchMax w h = (full w h : Int) - 1 + extra w := rfl
    have hsucc := full_succ w h
    rw [searchTree, checked_eq (by omega) (by omega), bind_some, checked_eq (by omega) (by omega),
      bind_some, tdiv_branchMax hw hm, checked_eq (by omega) (by omega), bind_some,
      height_branch hy]
    by_cases hfirst : 1 + j * full w h + y = 1
    · have hy0 : y = 0 := by omega
      have hj0 : j * full w h = 0 := by omega
      subst hy0
      rw [parent_branch_root, height_root, hj0, if_pos (by push_cast; ring)]
      congr 3
      omega
    · have hid : ((node + (1 + j * full w h + y) : Nat) : Int) =
          (node + 1 : Int) + j * (full w h + extra w) + y := by
        rw [hplace]
        push_cast
        ring
      rw [if_neg (by omega), Int.toNat_natCast, hid]
      obtain ⟨branch, hbranch, hroot, hbelow⟩ := @searchLoop_eq ((full w h : Int) + extra w) (branchMax w h)
        (node + 1) (by rw [hmax]; ring) j w hj y (by omega) (by omega) (fun hj0 => by
          rw [hj0, Nat.zero_mul] at hfirst
          omega) (by omega) (by omega)
      rw [hbranch, bind_some]
      rcases Nat.eq_zero_or_pos y with rfl | hypos
      · rw [hroot rfl, parent_branch_root, height_root]
        simp only [Nat.add_zero]
        congr 3
        omega
      · rw [hbelow (by omega), parent_branch hypos hy]
        have hheightpos : h ≠ 0 := by
          rintro rfl
          rw [full] at hy
          omega
        obtain ⟨h, rfl⟩ : ∃ h', h = h' + 1 := ⟨h - 1, by omega⟩
        have hnode : (node : Int) + 1 + j * (full w (h + 1) + extra w) =
            ((node + 1 + j * full w (h + 1) : Nat) : Int) := by
          rw [hplace]
          push_cast
          ring
        have hle : (j + 1) * full w (h + 1) ≤ w * full w (h + 1) := Nat.mul_le_mul_right _ hj
        rw [succ_mul] at hle
        have hheight := height_le hy
        have hrest := @ih h (node + 1 + j * full w (h + 1)) y (d + 1) (branchMax w (h + 1)) (by omega) hypos hy
          (.inr rfl) (by omega) (by omega)
        have hy' : (node : Int) + 1 + j * (full w (h + 1) + extra w) + y =
            ((node + 1 + j * full w (h + 1) + y : Nat) : Int) := by
          rw [hnode]
          push_cast
          ring
        have hparent : node + (1 + j * full w (h + 1) + parent w (h + 1) y) =
            node + 1 + j * full w (h + 1) + parent w (h + 1) y := by omega
        have hdepth' : d + (h + 1 + 1 - height w (h + 1) y) = d + 1 + (h + 1 - height w (h + 1) y) := by
          omega
        rw [hy', hparent, hdepth', ← hrest, ← hnode]
        rfl

/-- The places where the branches of a node begin, as far as there are nodes. -/
theorem childLoop_spec {n distance : Int} (hdistance : 0 < distance) {k : Nat} {current : Int}
    (hcurrent : 0 ≤ current) (hbound : current + k * distance < 2147483648) :
    ∃ children, childLoop n distance k current = some children ∧ children.Nodup ∧
      ∀ c, c ∈ children ↔ ∃ j : Nat, j < k ∧ c = current + j * distance ∧ c < n := by
  induction k generalizing current with
  | zero =>
    refine ⟨[], rfl, List.nodup_nil, fun c => iff_of_false List.not_mem_nil ?_⟩
    rintro ⟨j, hj, -⟩
    exact Nat.not_lt_zero j hj
  | succ k ih =>
    have hend : current + ((k + 1 : Nat) : Int) * distance = current + distance + k * distance := by
      push_cast
      ring
    have hmul (j : Nat) : 0 ≤ (j : Int) * distance := Int.mul_nonneg (Int.natCast_nonneg j) hdistance.le
    have hk := hmul k
    rw [hend] at hbound
    rw [childLoop]
    split
    · rename_i hlt
      obtain ⟨children, hloop, hnodup, hmem⟩ := ih (by omega) hbound
      rw [checked_eq (by omega) (by omega), bind_some, hloop]
      refine ⟨current :: children, rfl, List.nodup_cons.mpr ⟨fun hin => ?_, hnodup⟩, fun c => ?_⟩
      · obtain ⟨j, -, hc, -⟩ := (hmem current).mp hin
        have hj := hmul j
        omega
      · rw [List.mem_cons, hmem]
        constructor
        · rintro (rfl | ⟨j, hj, rfl, hcn⟩)
          · exact ⟨0, succ_pos k, by rw [cast_zero]; ring, hlt⟩
          · exact ⟨j + 1, succ_lt_succ hj, by push_cast; ring, hcn⟩
        · rintro ⟨j, hj, rfl, hcn⟩
          rcases Nat.eq_zero_or_pos j with rfl | hjpos
          · left
            rw [cast_zero]
            ring
          · have hcast : (j : Int) = ((j - 1 : Nat) : Int) + 1 := by omega
            refine .inr ⟨j - 1, by omega, ?_, hcn⟩
            rw [hcast]
            ring
    · rename_i hge
      refine ⟨[], rfl, List.nodup_nil, fun c => iff_of_false List.not_mem_nil ?_⟩
      rintro ⟨j, -, rfl, hcn⟩
      have hj := hmul j
      omega

end Down

end Slurm.ReverseTree
