import Slurm.ReverseTree.Model

/-!
# One tree from both ends

* `ReverseTreeContract`: parents, depths, numbers of nodes below a node and children agree.
* `reverseTreeContract_iff`: they do exactly where no power of the width overflows.
-/

namespace Slurm.ReverseTree

open Lib.Int32 Lib.FullTree Option Nat

/-! ## The contract -/

/-- `r` is the parent of `q`. -/
def ParentIs (n : Nat) (info : Nat → Info) (q r : Nat) : Prop := 0 < q ∧ q < n ∧ (info q).parent = (r : Int)

/-- What is computed for each rank is one tree. -/
structure IsTree (n w : Nat) (info : Nat → Info) : Prop where
  computed : ∀ r, r < n → reverseTreeInfo r n w = some (info r)
  parent : ∀ r, 0 < r → r < n → ∃ p, p < r ∧ ParentIs n info r p ∧ (info r).depth = (info p).depth + 1 ∧
    (info r).depth ≤ (info r).maxDepth
  root : (info 0).numChildren = (n : Int) - 1
  below : ∀ r, 0 < r → r < n →
    (info r).numChildren = ({q | Relation.TransGen (ParentIs n info) q r}.ncard : Int)
  children : ∀ r, r < n → ∃ children, reverseTreeDirectChildren r n w (info r).depth = some children ∧
    children.Nodup ∧ ∀ c, c ∈ children ↔ ∃ q : Nat, c = (q : Int) ∧ ParentIs n info q r

/-- What is promised of the tree of `n` nodes and width `w`. -/
def ReverseTreeContract (n w : Nat) : Prop := ∃ info, IsTree n w info

/-- No power of the width overflows: where a complete tree is too small, the power of the width that
comes after the one of the next level fits. -/
def Fits (n w : Nat) : Prop := n + 1 < 2147483648 ∧ ∀ h, full w h < n → w ^ (h + 2) < 2147483648

/-! ## What is computed -/

/-- The ranks are the first nodes of a tree that can be counted. -/
structure Counted (n w D : Nat) : Prop where
  width : 0 < w
  width_le : w ≤ n
  isHeight : IsHeight w n D
  fits : full w D + extra w < 2147483648
  pow : 0 < D → w ^ (D + 1) < 2147483648

section Computed

variable {n w D : Nat}

theorem extra_le (w : Nat) : extra w ≤ 1 := by
  rw [extra]
  split
  · exact Nat.le_refl 1
  · exact Nat.zero_le 1

theorem counted_of_fits (hw : 0 < w) (hle : w ≤ n) (hD : IsHeight w n D) (h : Fits n w) : Counted n w D where
  width := hw
  width_le := hle
  isHeight := hD
  fits := by
    rcases Nat.eq_zero_or_pos D with rfl | hpos
    · have := extra_le w
      rw [full]
      omega
    · have hpow := h.2 (D - 1) (hD.2 _ (by omega))
      rw [show D - 1 + 2 = D + 1 by omega, ← full_mul hw] at hpow
      rw [extra]
      split
      · rename_i hone
        subst hone
        have hlarge := h.1
        have hlast := hD.2 (D - 1) (by omega)
        have hfull : full 1 D = full 1 (D - 1) + 1 := by
          rw [full_one, full_one]
          omega
        omega
      · have hmul : full w D * 1 ≤ full w D * (w - 1) := Nat.mul_le_mul_left _ (by omega)
        omega
  pow hpos := by
    have hpow := h.2 (D - 1) (hD.2 _ (by omega))
    rwa [show D - 1 + 2 = D + 1 by omega] at hpow

theorem Counted.bounds (h : Counted n w D) : 0 < n ∧ n < 2147483648 ∧ w < 2147483648 := by
  have hw := h.width
  have hle := h.width_le
  have hD := h.isHeight.1
  have hfits := h.fits
  omega

theorem Counted.dep_eq (h : Counted n w D) : dep n w = some (D : Int) := by
  obtain ⟨hn, hn', hlt⟩ := h.bounds
  have hfits := h.fits
  have hpow : w ^ D < 2147483648 := by
    rcases Nat.eq_zero_or_pos D with rfl | hpos
    · rw [Nat.pow_zero]
      decide
    · exact (Nat.pow_le_pow_right h.width (le_succ D)).trans_lt (h.pow hpos)
  exact ReverseTree.dep_eq h.isHeight h.width hlt hn hn' hpow (by omega)

theorem Counted.series_eq (h : Counted n w D) {d : Nat} (hd : d ≤ D) (hpos : 0 < D) :
    geometricSeries w d = some (full w d : Int) := by
  have hfits := h.fits
  have hfull := full_mono h.width hd
  have hpow : w ^ (d + 1) ≤ w ^ (D + 1) := Nat.pow_le_pow_right h.width (by omega)
  exact geometricSeries_eq h.width (by omega) (hpow.trans_lt (h.pow hpos))

/-- What is computed for a rank. -/
def infoOf (n w D r : Nat) : Info where
  parent := if r = 0 then -1 else (parent w D r : Int)
  numChildren := ((min (full w (height w D r)) (n - r) : Nat) : Int) - 1
  depth := ((D - height w D r : Nat) : Int)
  maxDepth := D

theorem Counted.info_eq (h : Counted n w D) {r : Nat} (hr : r < n) : reverseTreeInfo r n w = some (infoOf n w D r) := by
  obtain ⟨hn, hn', hlt⟩ := h.bounds
  have hD := h.isHeight.1
  have hle := h.width_le
  have hfits := h.fits
  rw [reverseTreeInfo, if_neg (by omega), if_neg (by omega), h.dep_eq, bind_some, infoOf]
  rcases Nat.eq_zero_or_pos r with rfl | hpos
  · rw [if_pos cast_zero, checked_eq (by omega) (by omega), height_root, if_pos rfl, Nat.sub_self,
      Nat.sub_zero, Nat.min_eq_right hD]
    rfl
  · have hrD : r < full w D := hr.trans_le hD
    have hDpos : 0 < D := by
      by_contra hzero
      rw [show D = 0 by omega, full] at hrD
      omega
    have hDn := h.isHeight.lt h.width hn
    obtain ⟨k, rfl⟩ : ∃ k, D = k + 1 := ⟨D - 1, by omega⟩
    have hsearch := @searchTree_eq w k h.width n 0 r 0 (full w (k + 1)) (by omega) hpos hrD (.inl rfl)
      (by omega) (by omega)
    rw [Nat.zero_add, Nat.zero_add, Nat.zero_add] at hsearch
    have hsub := subtree_le hrD
    have hfull := full_pos w (height w (k + 1) r)
    have hextra := extra_le w
    have hmax : branchMax w (height w (k + 1) r) = (full w (height w (k + 1) r) : Int) - 1 + extra w := rfl
    have hpath : extra w = 0 ∨ n ≤ r + full w (height w (k + 1) r) := by
      rw [extra]
      split
      · rename_i hone
        subst hone
        right
        rw [full_one] at hD hrD
        rw [height_one (by rwa [full_one]), full_one]
        omega
      · exact .inl rfl
    rw [if_neg (by omega), h.series_eq (Nat.le_refl _) hDpos, bind_some, Int.toNat_natCast]
    rw [cast_zero] at hsearch
    rw [hsearch, bind_some]
    dsimp only
    have hr0 : ¬ r = 0 := by omega
    rw [checked_eq (by omega) (by omega), bind_some, if_neg hr0]
    split
    · rw [checked_eq (by omega) (by omega), bind_some, checked_eq (by omega) (by omega),
        Nat.min_eq_right (by omega), map_some, Int.natCast_sub hr.le]
    · rw [Nat.min_eq_left (by omega), hmax, show extra w = 0 by omega, cast_zero, Int.add_zero]

/-- The parents that are computed are those of the complete tree. -/
theorem Counted.parentIs_iff (h : Counted n w D) {q r : Nat} :
    ParentIs n (infoOf n w D) q r ↔ q < n ∧ Child w D q r := by
  have hD := h.isHeight.1
  rw [ParentIs, Child, infoOf]
  constructor
  · rintro ⟨hpos, hq, hparent⟩
    dsimp only at hparent
    rw [if_neg (by omega)] at hparent
    exact ⟨hq, hpos, by omega, by omega⟩
  · rintro ⟨hq, hpos, -, rfl⟩
    refine ⟨hpos, hq, ?_⟩
    dsimp only
    rw [if_neg (by omega)]

theorem Counted.transGen_iff (h : Counted n w D) {q r : Nat} (hr : r < n) :
    Relation.TransGen (ParentIs n (infoOf n w D)) q r ↔
      q < n ∧ r < q ∧ q < r + full w (height w D r) := by
  have hD := h.isHeight.1
  have hfirst (hbelow : Relation.TransGen (ParentIs n (infoOf n w D)) q r) : q < n := by
    induction hbelow using Relation.TransGen.head_induction_on with
    | single hparent => exact (h.parentIs_iff.mp hparent).1
    | head hparent => exact (h.parentIs_iff.mp hparent).1
  constructor
  · intro hbelow
    have hq := hfirst hbelow
    exact ⟨hq, (transGen_child_iff (by omega) (by omega)).mp
      (Relation.TransGen.mono (fun _ _ hparent => (h.parentIs_iff.mp hparent).2) _ _ hbelow)⟩
  · rintro ⟨hq, hin⟩
    have hbelow := (transGen_child_iff (by omega) (by omega)).mpr hin
    clear hin hfirst
    induction hbelow using Relation.TransGen.head_induction_on with
    | single hchild => exact .single (h.parentIs_iff.mpr ⟨hq, hchild⟩)
    | head hchild _ ih =>
      have hlt := (child_within hchild).1
      exact .head (h.parentIs_iff.mpr ⟨hq, hchild⟩) (ih (by omega))

/-- How many nodes there are below one. -/
theorem Counted.ncard_below (h : Counted n w D) {r : Nat} (hr : r < n) :
    {q | Relation.TransGen (ParentIs n (infoOf n w D)) q r}.ncard =
      min (full w (height w D r)) (n - r) - 1 := by
  have hset : {q | Relation.TransGen (ParentIs n (infoOf n w D)) q r} =
      ↑(Finset.Ico (r + 1) (r + min (full w (height w D r)) (n - r))) := by
    ext q
    rw [Finset.coe_Ico, Set.mem_Ico]
    show Relation.TransGen _ q r ↔ _
    rw [h.transGen_iff hr]
    omega
  rw [hset, Set.ncard_coe_finset, card_Ico]
  omega

/-- The children that are computed. -/
theorem Counted.children (h : Counted n w D) {r : Nat} (hr : r < n) :
    ∃ children, reverseTreeDirectChildren r n w (infoOf n w D r).depth = some children ∧
      children.Nodup ∧ ∀ c, c ∈ children ↔ ∃ q : Nat, c = (q : Int) ∧ ParentIs n (infoOf n w D) q r := by
  obtain ⟨hn, hn', hlt⟩ := h.bounds
  have hD := h.isHeight.1
  have hle := h.width_le
  have hfits := h.fits
  have hrD : r < full w D := hr.trans_le hD
  have hheight := height_le hrD
  have hDn := h.isHeight.lt h.width hn
  have hsub : (D : Int) - (infoOf n w D r).depth = (height w D r : Int) := by
    rw [infoOf]
    dsimp only
    omega
  rw [reverseTreeDirectChildren, if_neg (by omega), h.dep_eq, bind_some, hsub,
    checked_eq (by omega) (by omega), bind_some]
  cases hk : height w D r with
  | zero =>
    rw [if_pos cast_zero]
    refine ⟨[], rfl, List.nodup_nil, fun c => iff_of_false List.not_mem_nil ?_⟩
    rintro ⟨q, -, hparent⟩
    obtain ⟨hq, hpos, hqD, hparent⟩ := h.parentIs_iff.mp hparent
    obtain ⟨-, k, j, hk', -⟩ := (parent_eq_iff hpos hqD).mp hparent
    omega
  | succ k =>
    have htree := subtree_le hrD
    rw [hk] at htree
    have hdistance : ((full w (k + 1) : Nat) : Int).tdiv w = (full w k : Int) + extra w := tdiv_full h.width
    have hfull := full_pos w k
    have hlast := (mul_distance (w := w) (h := k) (j := w - 1) (by have := h.width; omega)).2
    have hcast : ((w - 1 : Nat) : Int) + 1 = w := by
      have := h.width
      omega
    have hsucc := full_succ w k
    rw [hcast] at hlast
    obtain ⟨children, hloop, hnodup, hmem⟩ := @childLoop_spec n ((full w k : Int) + extra w) (by omega) w
      ((r : Int) + 1) (by omega) (by omega)
    rw [if_neg (by omega), h.series_eq (by omega) (by omega), bind_some,
      checked_eq (by omega) (by omega), bind_some, hdistance, Int.toNat_natCast, hloop]
    refine ⟨children, rfl, hnodup, fun c => ?_⟩
    have hplace {j : Nat} (hj : j < w) :
        (r : Int) + 1 + j * (full w k + extra w) = ((r + 1 + j * full w k : Nat) : Int) := by
      rw [(mul_distance hj).1]
      push_cast
      ring
    rw [hmem]
    constructor
    · rintro ⟨j, hj, rfl, hcn⟩
      rw [hplace hj] at hcn ⊢
      refine ⟨_, rfl, h.parentIs_iff.mpr ⟨by omega, by omega, ?_⟩⟩
      exact parent_child hrD hk hj
    · rintro ⟨q, rfl, hparent⟩
      obtain ⟨hq, hpos, hqD, hparent⟩ := h.parentIs_iff.mp hparent
      obtain ⟨-, k', j, hk', hj, rfl⟩ := (parent_eq_iff hpos hqD).mp hparent
      obtain rfl : k' = k := by omega
      exact ⟨j, hj, (hplace hj).symm, by omega⟩

end Computed

/-! ## When the contract holds -/

section Iff

variable {n w : Nat}

theorem contract_of_fits (hw : 0 < w) (hle : w ≤ n) (hfits : Fits n w) : ReverseTreeContract n w := by
  obtain ⟨D, hD⟩ := exists_isHeight hw n
  have h := counted_of_fits hw hle hD hfits
  obtain ⟨hn, -, -⟩ := h.bounds
  refine ⟨infoOf n w D, fun r hr => h.info_eq hr, fun r hpos hr => ?_, ?_, fun r _ hr => ?_,
    fun r hr => h.children hr⟩
  · have hrD : r < full w D := hr.trans_le hD.1
    have hlt := parent_lt hpos hrD
    have hheight := height_parent hpos hrD
    have hparent := height_le (hlt.trans hrD)
    refine ⟨parent w D r, hlt, h.parentIs_iff.mpr ⟨hr, hpos, hrD, rfl⟩, ?_, ?_⟩
    · rw [infoOf, infoOf]
      dsimp only
      omega
    · rw [infoOf]
      dsimp only
      omega
  · rw [infoOf, height_root, Nat.sub_zero, Nat.min_eq_right hD.1]
  · have hfull := full_pos w (height w D r)
    rw [h.ncard_below hr, infoOf]
    dsimp only
    omega

/-- A power overflows: there is no parent for rank 1. -/
theorem info_overflow (hw : 0 < w) (hle : w ≤ n) (hn' : n < 2147483648) {k : Nat} (hk : full w k < n)
    (hpow : 2147483648 ≤ w ^ (k + 2)) : reverseTreeInfo (1 : Nat) n w = none := by
  obtain ⟨D, hD⟩ := exists_isHeight hw n
  have hkpos := full_pos w k
  have hkD : k < D := by
    by_contra hge
    have hmono := full_mono hw (show D ≤ k by omega)
    have hle := hD.1
    omega
  have hpowD : w ^ (k + 2) ≤ w ^ (D + 1) := Nat.pow_le_pow_right hw (by omega)
  have hw1 : 1 < w := by
    by_contra hone
    rw [show w = 1 by omega, Nat.one_pow] at hpow
    omega
  rw [reverseTreeInfo, if_neg (by omega), if_neg (by omega)]
  rcases dep_cases hD hw (by omega) (by omega) hn' with hdep | ⟨hdep, -⟩
  · rw [hdep, bind_some, if_neg (by decide), geometricSeries_overflow hw1 (by omega) (by omega)]
    rfl
  · rw [hdep]
    rfl

/-- The place after the children of a path of the most nodes that an `int` can count overflows. -/
theorem children_overflow (hn : n = 2147483647) : reverseTreeDirectChildren (0 : Nat) n (1 : Nat) 0 = none := by
  have hD : IsHeight 1 n (n - 1) := by
    refine ⟨?_, fun h hlt => ?_⟩
    · rw [full_one]
      omega
    · rw [full_one]
      omega
  have hdep : dep n (1 : Nat) = some ((n - 1 : Nat) : Int) := by
    apply ReverseTree.dep_eq hD Nat.one_pos (by decide) (by omega) (by omega)
    · rw [Nat.one_pow]
      decide
    · rw [full_one]
      omega
  rw [reverseTreeDirectChildren, if_neg (by omega), hdep, bind_some, Int.sub_zero,
    checked_eq (by omega) (by omega), bind_some, if_neg (by omega), geometricSeries,
    if_pos cast_one, checked_eq (by omega) (by omega), bind_some,
    checked_eq (by decide) (by decide), bind_some, cast_one, Int.tdiv_one]
  show childLoop n _ 1 _ = none
  rw [childLoop, if_pos (by omega), checked_overflow (by omega)]
  rfl

/-- The tree is one exactly where no power overflows. -/
theorem reverseTreeContract_iff (hw : 1 ≤ w) (hle : w ≤ n) (hn : n < 2147483648) :
    ReverseTreeContract n w ↔ Fits n w := by
  constructor
  · rintro ⟨info, hinfo⟩
    have hpow : ∀ h, full w h < n → w ^ (h + 2) < 2147483648 := by
      intro k hk
      by_contra hlarge
      have hcomputed := hinfo.computed 1 (by have := full_pos w k; omega)
      rw [info_overflow hw hle hn hk (by omega)] at hcomputed
      cases hcomputed
    refine ⟨?_, hpow⟩
    by_contra hlast
    by_cases hone : w = 1
    · subst hone
      have hdepth : (info 0).depth = 0 := by
        have hcomputed := hinfo.computed 0 (by omega)
        rw [reverseTreeInfo, if_neg (by omega), if_neg (by omega), Option.bind_eq_some_iff] at hcomputed
        obtain ⟨d, -, hcomputed⟩ := hcomputed
        rw [if_pos Nat.cast_zero, checked_eq (by omega) (by omega)] at hcomputed
        rw [← Option.some.inj hcomputed]
      obtain ⟨children, hchildren, -⟩ := hinfo.children 0 (by omega)
      rw [hdepth, children_overflow (by omega)] at hchildren
      cases hchildren
    · obtain ⟨D, hD⟩ := exists_isHeight hw n
      have hDpos : 0 < D := by
        by_contra hzero
        have hle := hD.1
        rw [show D = 0 by omega, full] at hle
        omega
      have hlt := hpow (D - 1) (hD.2 _ (by omega))
      rw [show D - 1 + 2 = D + 1 by omega, ← full_mul hw] at hlt
      have hmul : full w D * 1 ≤ full w D * (w - 1) := Nat.mul_le_mul_left _ (by omega)
      have hle := hD.1
      omega
  · exact contract_of_fits hw hle

end Iff

/-- A tree of 8192 nodes and width 5 has the height 6. -/
theorem reverseTreeContract_five : ReverseTreeContract 8192 5 := by
  apply (reverseTreeContract_iff (by decide) (by decide) (by decide)).mpr
  refine ⟨by decide, fun h hlt => ?_⟩
  have hsmall : h < 6 := by
    by_contra hge
    have hmono := full_mono (show 0 < 5 by decide) (show 6 ≤ h by omega)
    have hsix : full 5 6 = 19531 := rfl
    omega
  calc 5 ^ (h + 2) ≤ 5 ^ 7 := Nat.pow_le_pow_right (by decide) (by omega)
    _ < 2147483648 := by decide

/-- The square of the width is not an `int`. -/
theorem reverseTreeContract_fails : ¬ ReverseTreeContract 65536 65536 := by
  rintro ⟨info, hinfo⟩
  have hnone : reverseTreeInfo (1 : Nat) (65536 : Nat) (65536 : Nat) = none := by decide +kernel
  have hcomputed := hinfo.computed 1 (by decide)
  rw [hnone] at hcomputed
  cases hcomputed

end Slurm.ReverseTree
