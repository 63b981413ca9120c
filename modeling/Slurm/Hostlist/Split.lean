import Slurm.Hostlist.Uniq
import Slurm.Lib.FullTree

/-!
# Splitting a list over the branches of a tree

`hostlist_split_treewidth` takes the hosts of a list one by one and pushes them on one list for each
branch; `_set_span` says how many hosts a branch gets.

* `setSpan`, `hostlistShift`, `hostlistPushHost`, `hostlistSplitTreewidth`: the code.
* `setSpan_spec`: the hosts of the branches, where the products fit in an `int`.
* `setSpan_overflow`: where they do not.
-/

namespace Slurm.Hostlist

open Lib.Decimal List Option Nat
open Lib.FullTree (full)

/-! ## The spans -/

/-- A product that fits in an `int`. -/
def intProduct (x : Nat) : Option Nat := if x < 2 ^ 31 then some x else none

/-- The loop of `_set_span`, which needs `total` rounds at most: the depth and the span.  It gives
nothing where a product overflows. -/
def spanLoop (treeWidth : Nat) : Nat → Nat → Nat → Nat → List Nat → Int → Option (Int × List Nat)
  | 0, _, _, _, _, _ => none
  | fuel + 1, branchCapacity, levelCapacity, total, span, depth =>
    if levelCapacity ≤ total then
      let span := span.map (· + branchCapacity)
      let total := total - levelCapacity
      if total = 0 then
        some (depth + 1, span)
      else
        (intProduct (branchCapacity * treeWidth)).bind fun branchCapacity =>
          (intProduct (levelCapacity * treeWidth)).bind fun levelCapacity =>
            spanLoop treeWidth fuel branchCapacity levelCapacity total span (depth + 1)
    else
      let branchCapacity := total / treeWidth
      (intProduct (branchCapacity * treeWidth)).map fun levelCapacity =>
        let span := span.map (· + branchCapacity)
        let total := total - levelCapacity
        (depth + 1, span.mapIdx fun i n => if i < total then n + 1 else n)

/-- `_set_span`: what is returned, and the span, which is not set for direct communication. -/
def setSpan (confTreeWidth : Nat) (total : Int) (treeWidth : Nat) : Option (Int × Option (List Nat)) :=
  if total < 1 then
    some (-1, none)
  else
    let treeWidth := if treeWidth = 0 then confTreeWidth else treeWidth
    if total ≤ treeWidth then
      some (1, none)
    else
      (spanLoop treeWidth total.toNat 1 treeWidth total.toNat (List.replicate treeWidth 0) 0).map
        fun (depth, span) => (depth, some span)

/-! ## Taking hosts from a list -/

/-- `hostrange_shift`: the name, which is cut where it does not fit in the buffer, and the range
after it. -/
def hostrangeShift (hr : HostRange) : Option (List Char) × HostRange :=
  if hr.singlehost then
    (some hr.hostPrefix, { hr with lo := hr.lo + 1 })
  else if hr.count > 0 then
    let size := hr.hostPrefix.length + hr.width + 16
    (some ((hr.hostPrefix ++ padded hr.width hr.lo.toNat).take (size - 1)), { hr with lo := hr.lo + 1 })
  else
    (none, hr)

/-- `hostlist_shift`: the name and the list after it.  It gives nothing where there is no range,
although hosts are counted. -/
def hostlistShift (hl : HostList) : Option (Option (List Char) × HostList) :=
  if 0 < hl.nhosts.toInt then
    match hl.hr with
    | [] => none
    | hr :: rest =>
      let (host, hr) := hostrangeShift hr
      some (host, ⟨if hr.empty then rest else hr :: rest, hl.nhosts - 1⟩)
  else
    some (none, hl)

/-! ## Pushing hosts on a list -/

/-- `hostlist_push_range`. -/
def hostlistPushRange (hl : HostList) (hr : HostRange) : HostList :=
  let ranges :=
    match hl.hr.getLast? with
    | none => [hr]
    | some tail =>
      if tail.hi = hr.lo - 1 ∧ hostrangePrefixCmp tail hr = 0 then
        match hostrangeWidthCombine tail hr with
        | some (tail, _) => hl.hr.dropLast ++ [{ tail with hi := hr.hi }]
        | none => hl.hr ++ [hr]
      else
        hl.hr ++ [hr]
  ⟨ranges, hl.nhosts + hr.count.setWidth 32⟩

/-- The range that `hostlist_push_host` makes of a name. -/
def nameRange (str : List Char) : HostRange :=
  let hn := hostnameCreateDims str
  match hn.suffix with
  | some suffix => ⟨hn.hostPrefix, hn.num, hn.num, str.length - suffix, false⟩
  | none => HostRange.createSingle str

/-- `hostlist_push_host`. -/
def hostlistPushHost (hl : HostList) (str : List Char) : HostList := hostlistPushRange hl (nameRange str)

def isSeparator (c : Char) : Bool := c == '\t' || c == ',' || c == ' ' || c == '\n'

/-- `hostlist_create` for a text without brackets, which is that of all host names: each token is
the name of one host. -/
def hostlistCreate (str : List Char) : Option HostList :=
  if '[' ∈ str then none
  else some (((str.splitOnP isSeparator).filter (· ≠ [])).foldl hostlistPushHost ⟨[], 0⟩)

/-! ## The split -/

/-- The loop over the further hosts of a branch. -/
def pushRest : Nat → HostList → HostList → Option (HostList × HostList)
  | 0, branch, hl => some (branch, hl)
  | n + 1, branch, hl =>
    (hostlistShift hl).bind fun (name, hl) => pushRest n (name.elim branch (hostlistPushHost branch)) hl

/-- The loop over the branches, for the hosts that each gets: the lists, and what is left. -/
def splitLoop : List Nat → HostList → Option (List HostList × HostList)
  | [], hl => some ([], hl)
  | size :: sizes, hl =>
    (hostlistShift hl).bind fun (name, hl) =>
      match name with
      | none => some ([], hl)
      | some name =>
        (hostlistCreate name).bind fun branch =>
          (pushRest (size - 1) branch hl).bind fun (branch, hl) =>
            (splitLoop sizes hl).map fun (branches, hl) => (branch :: branches, hl)

/-- `hostlist_split_treewidth`: what is returned, the lists and what is left of the list. -/
def hostlistSplitTreewidth (confTreeWidth : Nat) (hl : HostList) (treeWidth : Nat) :
    Option (Int × List HostList × HostList) :=
  let hostCount := hl.nhosts.toInt
  let treeWidth := if treeWidth = 0 then confTreeWidth else treeWidth
  (setSpan confTreeWidth hostCount treeWidth).bind fun (depth, span) =>
    if depth < 0 then
      some (-1, [], hl)
    else
      let treeWidth := if depth = 1 then hostCount.toNat % 2 ^ 16 else treeWidth
      (splitLoop (span.getD (List.replicate treeWidth 1)) hl).map fun (branches, hl) =>
        (depth, branches, hl)

/-! ## Levels that are filled -/

variable {w e j r c n N total : Nat}

/-- The hosts of a branch when as many levels are full. -/
def cells (w : Nat) : Nat → Nat
  | 0 => 0
  | j + 1 => full w j

theorem cells_succ (w j : Nat) : cells w (j + 1) = cells w j + w ^ j := by
  cases j with
  | zero => rfl
  | succ j => exact Lib.FullTree.full_add_pow w j

theorem mul_cells (w j : Nat) : w * cells w j + 1 = full w j := by
  cases j with
  | zero => rfl
  | succ j => exact Nat.add_comm _ _

/-- The first cells get one host of the remainder each. -/
theorem mapIdx_replicate (h : r ≤ w) :
    ((List.replicate w c).mapIdx fun i n => if i < r then n + 1 else n) =
      List.replicate r (c + 1) ++ List.replicate (w - r) c := by
  apply ext_getElem
  · simp only [length_mapIdx, length_append, length_replicate]
    omega
  · intro i hi hi'
    rw [getElem_mapIdx, getElem_replicate, getElem_append]
    simp only [length_replicate, getElem_replicate]
    split <;> rfl

/-- What is filled in of a number of hosts: as many levels as go, and a part of the next one. -/
structure Filled (w N : Nat) (span : List Nat) : Prop where
  length_eq : span.length = w
  sum_eq : span.sum = N
  levels : ∃ e, full w e ≤ N + 1 ∧ N + 1 < full w (e + 1) ∧
    ∀ n ∈ span, cells w e ≤ n ∧ n ≤ cells w (e + 1)

theorem filled_full (hw : 0 < w) (h : full w j = N + 1) : Filled w N (List.replicate w (cells w j)) := by
  have hcells := mul_cells w j
  refine ⟨length_replicate, ?_, j, by omega, ?_, fun n hn => ?_⟩
  · rw [sum_replicate, smul_eq_mul]
    omega
  · rw [← h]
    exact Lib.FullTree.full_lt_succ hw j
  · rw [eq_of_mem_replicate hn, cells_succ]
    omega

theorem filled_part (hw : 0 < w) (h : full w j ≤ N + 1) (h' : N + 1 < full w j + w ^ (j + 1)) {t : Nat}
    (ht : t = N + 1 - full w j) :
    Filled w N (List.replicate (t - t / w * w) (cells w j + t / w + 1) ++
      List.replicate (w - (t - t / w * w)) (cells w j + t / w)) := by
  have hcells := mul_cells w j
  have hmod : t - t / w * w = t % w := by
    have hdiv := div_add_mod' t w
    omega
  have hlt := mod_lt t hw
  have hpart : t / w < w ^ j := by
    rw [Nat.div_lt_iff_lt_mul hw, ← pow_succ]
    omega
  rw [hmod]
  refine ⟨?_, ?_, j, h, ?_, fun n hn => ?_⟩
  · rw [length_append, length_replicate, length_replicate]
    omega
  · have hsum : (t % w) * (cells w j + t / w + 1) + (w - t % w) * (cells w j + t / w)
        = w * cells w j + (t / w * w + t % w) := by
      obtain ⟨rest, hrest⟩ := Nat.exists_eq_add_of_lt hlt
      generalize t % w = m at *
      subst hrest
      rw [show m + rest + 1 - m = rest + 1 by omega]
      ring
    rw [List.sum_append, sum_replicate, sum_replicate, smul_eq_mul, smul_eq_mul, hsum,
      div_add_mod']
    omega
  · rw [Lib.FullTree.full_add_pow]
    exact h'
  · rw [cells_succ]
    generalize t / w = part at *
    rcases List.mem_append.mp hn with hn | hn
    · rw [eq_of_mem_replicate hn]
      omega
    · rw [eq_of_mem_replicate hn]
      omega

/-- The products of `_set_span` fit in an `int`: when there are hosts for more than `k + 1` levels,
the level after the next one has less than `2 ^ 31`. -/
def SpanFits (w N : Nat) : Prop := ∀ k, full w (k + 1) ≤ N → w ^ (k + 2) < 2 ^ 31

/-- The loop of `_set_span` from the level that it has come to. -/
theorem spanLoop_spec (hw : 0 < w) (hN : N < 2 ^ 31) {fuel : Nat} (hfuel : N + 1 - full w j ≤ fuel)
    (hj : full w j ≤ N) (depth : Int) :
    ((∀ k, j ≤ k → full w (k + 1) ≤ N → w ^ (k + 2) < 2 ^ 31) →
      ∃ depth' span, spanLoop w fuel (w ^ j) (w ^ (j + 1)) (N + 1 - full w j)
        (List.replicate w (cells w j)) depth = some (depth', span) ∧
          depth < depth' ∧ (full w (j + 1) ≤ N → depth + 1 < depth') ∧ Filled w N span) ∧
    (¬ (∀ k, j ≤ k → full w (k + 1) ≤ N → w ^ (k + 2) < 2 ^ 31) →
      spanLoop w fuel (w ^ j) (w ^ (j + 1)) (N + 1 - full w j)
        (List.replicate w (cells w j)) depth = none) := by
  induction fuel generalizing j depth with
  | zero => omega
  | succ fuel ih =>
    have hnext := Lib.FullTree.full_add_pow w j
    have hpow : 0 < w ^ (j + 1) := Nat.pow_pos hw
    rw [spanLoop]
    by_cases hlevel : w ^ (j + 1) ≤ N + 1 - full w j
    · rw [if_pos hlevel]
      dsimp only
      rw [map_replicate, ← cells_succ, Nat.sub_sub, ← hnext]
      by_cases hdone : N + 1 - full w (j + 1) = 0
      · rw [if_pos hdone]
        refine ⟨fun _ => ⟨_, _, rfl, by omega, by omega, filled_full hw (by omega)⟩, fun hnot => absurd ?_ hnot⟩
        intro k hk hfull
        have hmono := Lib.FullTree.full_mono hw (Nat.add_le_add_right hk 1)
        omega
      · rw [if_neg hdone]
        have hj' : full w (j + 1) ≤ N := by omega
        by_cases hfits : w ^ (j + 2) < 2 ^ 31
        · have hbranch : w ^ (j + 1) < 2 ^ 31 :=
            Nat.lt_of_le_of_lt (Nat.pow_le_pow_right hw (by omega)) hfits
          rw [← pow_succ, ← pow_succ, intProduct, if_pos hbranch, bind_some, intProduct,
            if_pos hfits, bind_some]
          obtain ⟨hsome, hnone⟩ := ih (by omega) hj' (depth + 1)
          refine ⟨fun hall => ?_, fun hnot => hnone fun hall => hnot ?_⟩
          · obtain ⟨depth', span, hspan, hlt, -, hfilled⟩ :=
              hsome fun k hk => hall k (le_of_succ_le hk)
            exact ⟨depth', span, hspan, by omega, fun _ => by omega, hfilled⟩
          · intro k hk hfull
            rcases Nat.eq_or_lt_of_le hk with rfl | hk
            · exact hfits
            · exact hall k hk hfull
        · refine ⟨fun hall => absurd (hall j (le_refl j) hj') hfits, fun _ => ?_⟩
          rw [← pow_succ, ← pow_succ, intProduct]
          split
          · rw [bind_some, intProduct, if_neg hfits, bind_none]
          · rw [bind_none]
    · rw [if_neg hlevel]
      dsimp only
      have hpart : (N + 1 - full w j) / w * w ≤ N + 1 - full w j := div_mul_le_self _ _
      have hrest : N + 1 - full w j - (N + 1 - full w j) / w * w ≤ w := by
        have hdiv := div_add_mod' (N + 1 - full w j) w
        have hlt := mod_lt (N + 1 - full w j) hw
        omega
      have hpos := Lib.FullTree.full_pos w j
      rw [intProduct, if_pos (by omega), map_some, map_replicate, mapIdx_replicate hrest]
      refine ⟨fun _ => ⟨_, _, rfl, by omega, by omega, ?_⟩, fun hnot => absurd ?_ hnot⟩
      · exact filled_part hw (by omega) (by omega) rfl
      · intro k hk hfull
        have hmono := Lib.FullTree.full_mono hw (Nat.add_le_add_right hk 1)
        omega

/-- What `_set_span` gives for more hosts than branches. -/
theorem setSpan_spec (conf : Nat) (hw : 0 < w) (hN : N < 2 ^ 31) (hlt : w < N) :
    (SpanFits w N → ∃ depth span, setSpan conf N w = some (depth, some span) ∧ 1 < depth ∧
      Filled w N span) ∧
    (¬ SpanFits w N → setSpan conf N w = none) := by
  have hloop := spanLoop_spec (j := 0) hw hN (Nat.le_refl _) (show full w 0 ≤ N by change 1 ≤ N; omega) 0
  have hall : (∀ k, 0 ≤ k → full w (k + 1) ≤ N → w ^ (k + 2) < 2 ^ 31) ↔ SpanFits w N :=
    forall_congr' fun k => by simp
  have hstart : N + 1 - full w 0 = N := Nat.add_sub_cancel N 1
  have hfull : full w (0 + 1) ≤ N := by
    rw [Lib.FullTree.full_add_pow, zero_add, pow_one]
    change 1 + w ≤ N
    omega
  rw [hall, hstart, pow_zero, zero_add, pow_one] at hloop
  have hspan : setSpan conf N w = (spanLoop w N 1 w N (List.replicate w 0) 0).map
      fun (depth, span) => (depth, some span) := by
    rw [setSpan, if_neg (by omega)]
    dsimp only
    rw [if_neg (show ¬ w = 0 by omega), if_neg (by omega), Int.toNat_natCast]
  rw [hspan]
  refine ⟨fun hfits => ?_, fun hnot => ?_⟩
  · obtain ⟨depth, span, hrun, -, hdepth, hfilled⟩ := hloop.1 hfits
    refine ⟨depth, span, ?_, hdepth hfull, hfilled⟩
    rw [show cells w 0 = 0 from rfl] at hrun
    rw [hrun, map_some]
  · have hrun := hloop.2 hnot
    rw [show cells w 0 = 0 from rfl] at hrun
    rw [hrun, map_none]

end Slurm.Hostlist
