import Slurm.CoreSync.BlockContract

/-!
# Combinations in lexicographic order

`combs m lo k` lists the increasing lists of `k` numbers from `lo` on and below `lo + m`.
-/

namespace Lib.Combinations

/-- The combinations of `k` of the `m` numbers from `lo` on. -/
def combs : Nat → Nat → Nat → List (List Nat)
  | _, _, 0 => [[]]
  | 0, _, _ + 1 => []
  | m + 1, lo, k + 1 => (combs m (lo + 1) k).map (lo :: ·) ++ combs m (lo + 1) (k + 1)

end Lib.Combinations

/-!
## `_gen_combs`

The search for the entry to increase goes below the first one at the last combination.
-/

namespace Slurm.CoreSync

open Lib.Combinations

/-- A call, with room for all combinations. -/
structure CombsRequest where
  n : Nat
  k : Nat
  pos : 1 ≤ k
  le : k ≤ n
  combList : List Int
  length_eq : combList.length = n.choose k * k

/-- What is promised: the run stays inside of `comb` and `comb_list` and ends with all combinations in
`comb_list`, and `comb_counts` has their number. -/
structure CombsContract (r : CombsRequest) : Prop where
  lists : ∃ fuel, genCombs fuel r.combList r.n r.k = .ok ((combs r.n 0 r.k).flatten.map Int.ofNat)
  counts : r.n ≤ 8 → (combCounts[r.n - 1]?.getD [])[r.k - 1]? = some (combs r.n 0 r.k).length

/-- No run stays inside. -/
theorem combsContract_never (r : CombsRequest) : ¬ CombsContract r := by
  intro h
  obtain ⟨fuel, hrun⟩ := h.lists
  exact genCombs_fault r.pos r.le fuel _ _ hrun

/-- The example in the comment of `_gen_combs`. -/
def twoOfFour : CombsRequest := ⟨4, 2, by decide, by decide, List.replicate 12 0, rfl⟩

theorem combsContract_fails : ¬ CombsContract twoOfFour := by
  intro h
  obtain ⟨fuel, hrun⟩ := h.lists
  exact genCombs_fault (by decide) (by decide) fuel _ _ hrun

end Slurm.CoreSync
