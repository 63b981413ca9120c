import Slurm.PortMgr.Contract

/-!
# The port table of a step manager

`stepmgrContract_iff` says when `reserve_port_stepmgr_init` makes the table of the job's
ports, for ports that `resv_port_job_alloc` granted, with the array as granted or rebuilt
from its text.

The function takes the first and the last port of the array for the smallest and the
largest.  That is so for the rebuilt array, which is sorted, and for the granted one when
the round robin did not start over in the middle of the allocation.  The rebuilt array is
made of `cnt * cnt` bytes, which is too little for fewer than four ports.  And a table that
is there already is kept when it has the same first and last port.

* `granted_wraps`: a granted array is ascending, or its last port is below its first.
* `stepmgrLoop_spec`: the loop, for an ascending array.
* `rebuildPortArray_granted`: the array that is rebuilt from the text.
-/

namespace Slurm.PortMgr

open List Nat

variable {n : Nat}
variable {s : Ports n} {array : List Nat}

/-- What the text functions do with the numbers of some ports. -/
def HostlistOps.Faithful (ops : HostlistOps) : Prop :=
  ∀ ports : List Nat, ports ≠ [] → ports.Nodup → ports.length < 2 ^ 16 →
    (∀ p ∈ ports, 0 < p ∧ p < 2 ^ 31) →
      ops.create ("[" ++ ops.ranged (ports.map toString) ++ "]") =
        some ((ports.mergeSort (· ≤ ·)).map toString)

/-- The table has an entry for each of the ports, and for no others. -/
structure TableOf (s : Ports n) (ports : List Nat) : Prop where
  owned_iff : ∀ i, owned s.table i = true ↔ s.resvMin + i ∈ ports
  bounds : ∀ p ∈ ports, s.resvMin ≤ p ∧ p ≤ s.resvMax

/-- Where the array of the job comes from. -/
inductive Source where
  | granted
  | rebuilt

/-- The job, with its array or without. -/
def jobOf (ops : HostlistOps) (array : List Nat) : Source → JobPorts
  | .granted => grantedPorts ops array
  | .rebuilt => { grantedPorts ops array with resvPortArray := none }

/-- What `reserve_port_stepmgr_init` must do. -/
def StepmgrContract (ops : HostlistOps) (s : Ports n) (array : List Nat) (source : Source) : Prop :=
  ∃ s', reservePortStepmgrInit ops s (jobOf ops array source) = .ok s' ∧ TableOf s' array

/-- The table that is there has the same first and last port. -/
def SameBounds (s : Ports n) (array : List Nat) : Prop :=
  (s.resvMin ∈ array ∧ ∀ p ∈ array, s.resvMin ≤ p) ∧ s.resvMax ∈ array ∧ ∀ p ∈ array, p ≤ s.resvMax

/-- When the contract is met. -/
def StepmgrFits (s : Ports n) (array : List Nat) : Source → Prop
  | .granted => array.Pairwise (· < ·) ∧ (SameBounds s array → TableOf s array)
  | .rebuilt => 4 ≤ array.length ∧ (SameBounds s array → TableOf s array)

/-! ## Granted arrays -/

/-- Positions from `a` on, then positions before `a`: they ascend, or the last one is
below the first. -/
theorem ascends_or_wraps {l : List Nat} {a m : Nat}
    (h : l.Sublist (List.range' a m ++ List.range a)) :
    l.Pairwise (· < ·) ∨ ∃ x y, l.head? = some x ∧ l.getLast? = some y ∧ y < x := by
  obtain ⟨l₁, l₂, rfl, h₁, h₂⟩ := List.sublist_append_iff.mp h
  have hasc₁ : l₁.Pairwise (· < ·) := List.Pairwise.sublist h₁ pairwise_lt_range'
  have hasc₂ : l₂.Pairwise (· < ·) := List.Pairwise.sublist h₂ pairwise_lt_range
  cases l₁ with
  | nil => exact Or.inl hasc₂
  | cons x l₁ =>
    rcases eq_nil_or_concat l₂ with rfl | ⟨l₂, y, rfl⟩
    · exact Or.inl (by rwa [append_nil])
    · refine Or.inr ⟨x, y, rfl, ?_, ?_⟩
      · rw [concat_eq_append, ← append_assoc, getLast?_concat]
      · have hx := List.mem_range'_1.mp (h₁.subset mem_cons_self)
        have hy : y ∈ l₂.concat y := by
          rw [concat_eq_append]
          exact mem_append_right _ (mem_singleton_self y)
        have hlt := List.mem_range.mp (h₂.subset hy)
        omega

/-- What an allocation grants. -/
structure Granted (array : List Nat) : Prop where
  ne_nil : array ≠ []
  nodup : array.Nodup
  wraps : array.Pairwise (· < ·) ∨ ∃ x y, array.head? = some x ∧ array.getLast? = some y ∧ y < x

theorem granted_of_alloc {s' : Ports n} {cnt : Nat} {nodes : BitVec n} (hcnt : 0 < cnt)
    (h : resvPortAlloc s cnt nodes = (s', .success, some array)) :
    Granted array ∧ array.length = cnt ∧
      ∀ p ∈ array, ∃ i, p = s.resvMin + i ∧ owned s.table i = true := by
  obtain ⟨last, halloc⟩ := alloc_spec s hcnt nodes
  rw [h] at halloc
  split at halloc
  · rename_i hfree
    rw [Prod.mk.injEq, Prod.mk.injEq, Option.some.injEq] at halloc
    obtain ⟨-, -, rfl⟩ := halloc
    have hlen := length_taken s cnt nodes
    have hsub : (taken s cnt nodes).Sublist (positions s) :=
      (take_sublist _ _).trans filter_sublist
    have hpos : 0 < s.resvCnt := by
      have hle := freeCount_le s nodes
      omega
    rw [positions, nextPort, Lib.RoundRobin.iterate_next_full (Lib.RoundRobin.next_lt hpos _)] at hsub
    refine ⟨⟨fun hnil => ?_, ?_, ?_⟩, ?_, fun p hp => ?_⟩
    · rw [map_eq_nil_iff] at hnil
      rw [hnil, length_nil] at hlen
      omega
    · exact (taken_nodup s cnt nodes).map fun a b hab => Nat.add_right_cancel hab
    · rcases ascends_or_wraps hsub with hasc | ⟨x, y, hx, hy, hlt⟩
      · exact Or.inl (List.pairwise_map.mpr (hasc.imp fun hab => Nat.add_lt_add_right hab _))
      · refine Or.inr ⟨x + s.resvMin, y + s.resvMin, ?_, ?_, by omega⟩
        · rw [head?_map, hx]
          rfl
        · rw [getLast?_map, hy]
          rfl
    · rw [length_map, hlen, min_eq_left hfree]
    · obtain ⟨i, hi, rfl⟩ := List.mem_map.mp hp
      exact ⟨i, Nat.add_comm _ _, (isFree_iff.mp (isFree_of_mem_taken hi)).1⟩
  · rw [Prod.mk.injEq, Prod.mk.injEq] at halloc
    cases halloc.2.2

/-! ## The loop -/

theorem owned_cons_zero (e : Option (BitVec n)) (table : List (Option (BitVec n))) :
    owned (e :: table) 0 = e.isSome := rfl

theorem owned_cons_succ (e : Option (BitVec n)) (table : List (Option (BitVec n))) (x : Nat) :
    owned (e :: table) (x + 1) = owned table x := rfl

/-- The loop, when the ports that are left ascend and the last one is the last of the
entries that are left. -/
theorem stepmgrLoop_spec {array : List Nat} {resvMin k i j : Nat}
    (hasc : (array.drop j).Pairwise (· < ·))
    (hbounds : ∀ p ∈ array.drop j, i + resvMin ≤ p ∧ p < i + k + resvMin)
    (hlast : 0 < k → i + k - 1 + resvMin ∈ array.drop j) :
    ∃ table, stepmgrLoop n array resvMin k i j = some table ∧ table.length = k ∧
      ∀ x < k, owned table x = true ↔ i + x + resvMin ∈ array.drop j := by
  induction k generalizing i j with
  | zero => exact ⟨[], rfl, rfl, fun x hx => absurd hx (Nat.not_lt_zero x)⟩
  | succ k ih =>
    have hmem := hlast (succ_pos k)
    have htail : array.drop (j + 1) = (array.drop j).tail := List.tail_drop.symm
    cases hdrop : array.drop j with
    | nil =>
      rw [hdrop] at hmem
      exact absurd hmem not_mem_nil
    | cons port rest =>
      have hhead : array[j]? = some port := by rw [← head?_drop, hdrop, head?_cons]
      rw [hdrop] at hasc hbounds hmem htail
      rw [tail_cons] at htail
      have hport := hbounds port mem_cons_self
      have hafter : ∀ p ∈ rest, port < p := (List.pairwise_cons.mp hasc).1
      rw [stepmgrLoop, hhead]
      dsimp only
      by_cases heq : port = i + resvMin
      · have hrest : i + 1 + k - 1 + resvMin ∈ rest ∨ k = 0 := by
          rcases List.mem_cons.mp hmem with hmem | hmem
          · exact Or.inr (by omega)
          · exact Or.inl (by rwa [show i + 1 + k - 1 = i + (k + 1) - 1 by omega])
        obtain ⟨table, hloop, hlen, howned⟩ := @ih (i + 1) (j + 1)
          (htail ▸ (List.pairwise_cons.mp hasc).2)
          (fun p hp => by
            rw [htail] at hp
            have hlt := hafter p hp
            have hin := hbounds p (mem_cons_of_mem _ hp)
            omega)
          (fun hk => htail ▸ hrest.resolve_right hk.ne')
        rw [if_neg (not_not.mpr heq), hloop, Option.map_some]
        refine ⟨_, rfl, by rw [length_cons, hlen], fun x hx => ?_⟩
        cases x with
        | zero =>
          rw [owned_cons_zero]
          exact iff_of_true rfl (List.mem_cons.mpr (Or.inl heq.symm))
        | succ x =>
          have hne : i + (x + 1) + resvMin ≠ port := by omega
          rw [owned_cons_succ, howned x (by omega), htail, mem_cons, or_iff_right hne,
            show i + 1 + x = i + (x + 1) by omega]
      · obtain ⟨table, hloop, hlen, howned⟩ := @ih (i + 1) j (hdrop ▸ hasc)
          (fun p hp => by
            rw [hdrop] at hp
            have hin := hbounds p hp
            rcases List.mem_cons.mp hp with rfl | hp
            · omega
            · have hlt := hafter p hp
              omega)
          (fun _ => by
            rw [hdrop, show i + 1 + k - 1 = i + (k + 1) - 1 by omega]
            exact hmem)
        rw [if_pos heq, hloop, Option.map_some]
        refine ⟨_, rfl, by rw [length_cons, hlen], fun x hx => ?_⟩
        cases x with
        | zero =>
          rw [owned_cons_zero]
          refine iff_of_false Bool.noConfusion fun hin => ?_
          rcases List.mem_cons.mp hin with hin | hin
          · exact heq hin.symm
          · have hlt := hafter _ hin
            omega
        | succ x =>
          rw [owned_cons_succ, howned x (by omega), hdrop, show i + 1 + x = i + (x + 1) by omega]

/-- The first and the last port of an ascending array. -/
theorem first_last (hne : array ≠ []) (hasc : array.Pairwise (· < ·)) :
    ∃ pMin pMax, array[0]? = some pMin ∧ array[array.length - 1]? = some pMax ∧
      (pMin ∈ array ∧ ∀ p ∈ array, pMin ≤ p) ∧ pMax ∈ array ∧ ∀ p ∈ array, p ≤ pMax := by
  have hpos := List.length_pos_iff.mpr hne
  have hlast : array.length - 1 < array.length := by omega
  refine ⟨array[0], array[array.length - 1], getElem?_eq_getElem hpos,
    getElem?_eq_getElem hlast, ⟨getElem_mem hpos, fun p hp => ?_⟩,
    getElem_mem hlast, fun p hp => ?_⟩
  · obtain ⟨i, hi, rfl⟩ := List.mem_iff_getElem.mp hp
    rcases Nat.eq_zero_or_pos i with rfl | hipos
    · exact le_refl _
    · exact (List.pairwise_iff_getElem.mp hasc 0 i hpos hi hipos).le
  · obtain ⟨i, hi, rfl⟩ := List.mem_iff_getElem.mp hp
    rcases Nat.lt_or_ge i (array.length - 1) with hlt | hge
    · exact (List.pairwise_iff_getElem.mp hasc i _ hi hlast hlt).le
    · have hieq : i = array.length - 1 := by omega
      subst hieq
      exact le_refl _

/-- With an ascending array the table is that of its ports, unless one with the same
bounds is kept. -/
theorem stepmgrInit_ascending (s : Ports n) (hne : array ≠ []) (hasc : array.Pairwise (· < ·)) :
    (∃ s', stepmgrInit s array array.length = .ok s' ∧ TableOf s' array) ↔
      (SameBounds s array → TableOf s array) := by
  obtain ⟨pMin, pMax, hfirst, hlast, ⟨hmin, hmin'⟩, hmax, hmax'⟩ := first_last hne hasc
  have hle := hmin' pMax hmax
  rw [stepmgrInit, hfirst, hlast]
  dsimp only
  by_cases hsame : pMin = s.resvMin ∧ pMax = s.resvMax
  · obtain ⟨rfl, rfl⟩ := hsame
    rw [if_pos ⟨rfl, rfl⟩]
    have hbounds : SameBounds s array := ⟨⟨hmin, hmin'⟩, hmax, hmax'⟩
    constructor
    · rintro ⟨s', hs', htable⟩ _
      cases hs'
      exact htable
    · intro htable
      exact ⟨s, rfl, htable hbounds⟩
  · have hdiff : ¬ SameBounds s array := by
      rintro ⟨⟨hin, hlow⟩, hin', hhigh⟩
      exact hsame ⟨le_antisymm (hmin' _ hin) (hlow _ hmin), le_antisymm (hhigh _ hmax) (hmax' _ hin')⟩
    rw [if_neg hsame, if_neg (by omega)]
    have hdrop : array.drop 0 = array := drop_zero
    obtain ⟨table, hloop, hlen, howned⟩ := @stepmgrLoop_spec n array pMin (pMax + 1 - pMin) 0 0
      (hdrop.symm ▸ hasc)
      (fun p hp => by
        have h₁ := hmin' p (hdrop ▸ hp)
        have h₂ := hmax' p (hdrop ▸ hp)
        omega)
      (fun _ => by
        rw [hdrop, show 0 + (pMax + 1 - pMin) - 1 + pMin = pMax by omega]
        exact hmax)
    rw [hloop]
    refine iff_of_true ⟨_, rfl, fun i => ?_, fun p hp => ⟨hmin' p hp, hmax' p hp⟩⟩
      fun hbounds => absurd hbounds hdiff
    dsimp only
    by_cases hi : i < pMax + 1 - pMin
    · rw [howned i hi, hdrop, Nat.zero_add, Nat.add_comm]
    · have hnone : table[i]? = none := getElem?_eq_none (by omega)
      rw [owned, nodesAt, hnone]
      refine iff_of_false Bool.noConfusion fun hin => ?_
      have hhigh := hmax' _ hin
      omega

/-- An array whose last port is below its first makes no table of its ports. -/
theorem stepmgrInit_wrapped (s : Ports n) {array : List Nat} {x y : Nat} (hx : array.head? = some x)
    (hy : array.getLast? = some y) (hlt : y < x) :
    ¬ ∃ s', stepmgrInit s array array.length = .ok s' ∧ TableOf s' array := by
  rw [head?_eq_getElem?] at hx
  have hmem : y ∈ array := mem_of_getLast? hy
  rw [getLast?_eq_getElem?] at hy
  rintro ⟨s', hs', htable⟩
  have hbounds := htable.bounds
  rw [stepmgrInit, hx, hy] at hs'
  dsimp only at hs'
  split at hs'
  · rename_i hsame
    cases hs'
    have hlow := hbounds y hmem
    omega
  · split at hs'
    · cases hs'
    · split at hs'
      · cases hs'
      · cases hs'
        have hlow := (hbounds y hmem).1
        dsimp only at hlow
        omega

/-! ## Rebuilt arrays -/

/-- A decimal number is read back. -/
theorem atoi_toString (p : Nat) : atoi (toString p) = p := by
  have hdigits : ∀ c ∈ Nat.toDigits 10 p, c.isDigit = true := fun c hc =>
    isDigit_of_mem_toDigits (by decide) (by decide) hc
  have hlist : (toString p).toList = Nat.toDigits 10 p := toList_repr
  have htake : (Nat.toDigits 10 p).takeWhile Char.isDigit = Nat.toDigits 10 p :=
    List.takeWhile_eq_self_iff.mpr hdigits
  have hvalue : Nat.ofDigitChars 10 (Nat.toDigits 10 p) 0 = p := ofDigitChars_ten_toDigits
  cases hcs : Nat.toDigits 10 p with
  | nil => exact absurd hcs toDigits_ne_nil
  | cons c cs =>
    have hc : c.isDigit = true := hdigits c (hcs ▸ mem_cons_self)
    have hspace : ¬ c.isWhitespace = true := by
      intro hws
      simp only [Char.isWhitespace, Bool.or_eq_true, decide_eq_true_eq] at hws
      rcases hws with ((rfl | rfl) | rfl) | rfl <;> exact absurd hc (by decide)
    rw [hcs] at htake hvalue
    rw [atoi, hlist, hcs, dropWhile_cons_of_neg hspace]
    dsimp only
    split
    · rename_i heq
      rw [(List.cons.inj heq).1] at hc
      exact absurd hc (by decide)
    · rename_i heq
      rw [(List.cons.inj heq).1] at hc
      exact absurd hc (by decide)
    · rw [htake, hvalue]

/-- The ports of an array, in order. -/
def sorted (array : List Nat) : List Nat := array.mergeSort (· ≤ ·)

theorem sorted_perm (array : List Nat) : (sorted array).Perm array := mergeSort_perm _ _

theorem sorted_ascending (hnodup : array.Nodup) : (sorted array).Pairwise (· < ·) := by
  have hle : (sorted array).Pairwise fun a b => decide (a ≤ b) = true := by
    apply pairwise_mergeSort
    · intro a b c hab hbc
      rw [decide_eq_true_eq] at hab hbc ⊢
      exact hab.trans hbc
    · intro a b
      rw [Bool.or_eq_true, decide_eq_true_eq, decide_eq_true_eq]
      exact le_total a b
  have hne : (sorted array).Pairwise (· ≠ ·) := (sorted_perm array).nodup_iff.mpr hnodup
  exact hle.imp₂ (fun a b hab hne => lt_of_le_of_ne (of_decide_eq_true hab) hne) hne

/-- The array that is rebuilt is sorted, and it does not fit where there are fewer than
four ports. -/
theorem rebuildPortArray_granted {ops : HostlistOps} (hops : ops.Faithful) (hne : array ≠ [])
    (hnodup : array.Nodup) (hlen : array.length < 2 ^ 16)
    (hports : ∀ p ∈ array, 0 < p ∧ p < 2 ^ 31) :
    rebuildPortArray ops (ops.ranged (array.map toString)) array.length =
      if 4 ≤ array.length then .ok (sorted array) else .pastEnd := by
  have hread : ∀ l : List Nat, (∀ p ∈ l, 0 < p) →
      (l.map toString).filterMap (fun name =>
        if 0 < atoi name then some (atoi name).toNat else none) = l := by
    intro l hl
    induction l with
    | nil => rfl
    | cons p l ih =>
      have hp := hl p mem_cons_self
      have hpos : 0 < (p : Int) := Int.natCast_pos.mpr hp
      rw [map_cons, filterMap_cons, atoi_toString, if_pos hpos,
        ih fun q hq => hl q (mem_cons_of_mem _ hq), Int.toNat_natCast]
  have hsorted : ∀ p ∈ sorted array, 0 < p := fun p hp =>
    (hports p ((sorted_perm array).mem_iff.mp hp)).1
  have hlength : (sorted array).length = array.length := (sorted_perm array).length_eq
  rw [rebuildPortArray, hops array hne hnodup hlen hports]
  dsimp only
  rw [show array.mergeSort (fun a b => decide (a ≤ b)) = sorted array from rfl,
    hread (sorted array) hsorted, hlength]
  have hpos : 0 < array.length := List.length_pos_iff.mpr hne
  by_cases hfour : 4 ≤ array.length
  · have hfits : ¬ array.length * array.length < 4 * array.length :=
      not_lt.mpr (Nat.mul_le_mul_right _ hfour)
    have hsne : sorted array ≠ [] := fun hnil => by
      rw [hnil, length_nil] at hlength
      omega
    rw [if_neg hfits, if_neg hsne, if_pos hfour]
  · have hshort : array.length * array.length < 4 * array.length :=
      Nat.mul_lt_mul_of_pos_right (not_le.mp hfour) hpos
    rw [if_pos hshort, if_neg hfour]

/-! ## The contract -/

theorem tableOf_sorted : TableOf s (sorted array) ↔ TableOf s array := by
  have hmem : ∀ p, p ∈ sorted array ↔ p ∈ array := fun p => (sorted_perm array).mem_iff
  constructor
  · intro h
    exact ⟨fun i => (h.owned_iff i).trans (hmem _), fun p hp => h.bounds p ((hmem p).mpr hp)⟩
  · intro h
    exact ⟨fun i => (h.owned_iff i).trans (hmem _).symm, fun p hp => h.bounds p ((hmem p).mp hp)⟩

theorem sameBounds_sorted : SameBounds s (sorted array) ↔ SameBounds s array := by
  simp only [SameBounds, (sorted_perm array).mem_iff]

/-- The table of a step manager is that of the job's ports exactly when the condition is
met, for ports that were granted by `resv_port_job_alloc`. -/
theorem stepmgrContract_iff {ops : HostlistOps} (hops : ops.Faithful) {g g' : Ports n} {cnt : Nat}
    {nodes : BitVec n} {array : List Nat} (hwf : g.Wf) (hmin : 0 < g.resvMin)
    (hmax : g.resvMax < 2 ^ 31) (hcnt : 0 < cnt) (hcnt' : cnt < 2 ^ 16)
    (halloc : resvPortAlloc g cnt nodes = (g', .success, some array)) (s : Ports n)
    (source : Source) :
    StepmgrContract ops s array source ↔ StepmgrFits s array source := by
  obtain ⟨⟨hne, hnodup, hwraps⟩, hlen, hports⟩ := granted_of_alloc hcnt halloc
  cases source with
  | granted =>
    rw [StepmgrContract, StepmgrFits, jobOf, grantedPorts, reservePortStepmgrInit]
    dsimp only
    rcases hwraps with hasc | ⟨x, y, hx, hy, hlt⟩
    · rw [stepmgrInit_ascending s hne hasc]
      exact (and_iff_right hasc).symm
    · refine iff_of_false (stepmgrInit_wrapped s hx hy hlt) ?_
      rintro ⟨hasc, -⟩
      obtain ⟨pMin, pMax, hfirst, hlast, ⟨-, hlow⟩, hin, -⟩ := first_last hne hasc
      rw [List.head?_eq_getElem?, hfirst, Option.some.injEq] at hx
      have hmem : y ∈ array := List.mem_of_getLast? hy
      have hle := hlow y hmem
      omega
  | rebuilt =>
    have hrange : ∀ p ∈ array, 0 < p ∧ p < 2 ^ 31 := by
      intro p hp
      obtain ⟨i, rfl, howned⟩ := hports p hp
      have hi : i < g.resvCnt := by
        rw [← hwf.length]
        by_contra hge
        rw [owned, nodesAt, List.getElem?_eq_none (not_lt.mp hge)] at howned
        cases howned
      have hlast := hwf.max (by omega)
      omega
    rw [StepmgrContract, StepmgrFits, jobOf, grantedPorts, reservePortStepmgrInit]
    dsimp only
    rw [rebuildPortArray_granted hops hne hnodup (hlen ▸ hcnt') hrange]
    by_cases hfour : 4 ≤ array.length
    · rw [if_pos hfour, and_iff_right hfour]
      dsimp only
      have hsne : sorted array ≠ [] := by
        intro hnil
        have hlen' := (sorted_perm array).length_eq
        rw [hnil] at hlen'
        exact hne (List.length_eq_zero_iff.mp hlen'.symm)
      have hinit := stepmgrInit_ascending s hsne (sorted_ascending hnodup)
      simp only [tableOf_sorted, sameBounds_sorted] at hinit
      exact hinit
    · rw [if_neg hfour]
      refine iff_of_false ?_ fun hfits => hfour hfits.1
      rintro ⟨s', hs', -⟩
      cases hs'

/-! ## A text that names each port -/

/-- The numbers one by one, which is the text for ports of which no two are adjacent. -/
def namesOps : HostlistOps where
  ranged names :=
    String.ofList ([','].intercalate
      ((names.mergeSort fun a b => atoi a ≤ atoi b).map String.toList))
  create s := some (((s.toList.drop 1).dropLast.splitOn ',').map String.ofList)

theorem namesOps_faithful : namesOps.Faithful := by
  intro ports hne _ _ _
  have hsort : (ports.map toString).mergeSort (fun a b => atoi a ≤ atoi b) =
      (sorted ports).map toString := by
    refine (map_mergeSort fun a _ b _ => ?_).symm
    rw [atoi_toString, atoi_toString]
    exact decide_eq_decide.mpr Int.ofNat_le.symm
  have hdigits : ∀ cs ∈ ((sorted ports).map toString).map String.toList, ',' ∉ cs := by
    intro cs hcs
    rw [map_map] at hcs
    obtain ⟨p, -, rfl⟩ := List.mem_map.mp hcs
    intro hmem
    have hdigit : (',').isDigit = true :=
      isDigit_of_mem_toDigits (by decide) (by decide)
        (show ',' ∈ Nat.toDigits 10 p from toList_repr ▸ hmem)
    exact absurd hdigit (by decide)
  have hnames : ((sorted ports).map toString).map String.toList ≠ [] := by
    intro hnil
    have hlen := (sorted_perm ports).length_eq
    rw [map_map, map_eq_nil_iff] at hnil
    rw [hnil] at hlen
    exact hne (List.length_eq_zero_iff.mp hlen.symm)
  simp only [namesOps, hsort]
  rw [String.toList_append, String.toList_append,
    show ("[" : String).toList = ['['] from rfl, show ("]" : String).toList = [']'] from rfl,
    singleton_append, cons_append, drop_one, tail_cons, dropLast_concat,
    String.toList_ofList,
    splitOn_intercalate _ hdigits hnames, map_map, map_map]
  refine congrArg some (map_congr_left fun p _ => ?_)
  exact String.ofList_toList

/-- Three ports from 5001 on start over at 5000: 5000 is the last of the array, and below
the first. -/
theorem stepmgrContract_fails :
    (resvPortAlloc (reservePortConfig 1 5000 5002 0) 3 1).2 =
        (.success, some [5001, 5002, 5000]) ∧
      ¬ StepmgrContract namesOps (⟨[], 0, 0, 0, 0⟩ : Ports 1) [5001, 5002, 5000] .granted := by
  constructor
  · decide
  · rw [StepmgrContract, jobOf, grantedPorts, reservePortStepmgrInit]
    exact @stepmgrInit_wrapped 1 _ [5001, 5002, 5000] 5001 5000 rfl rfl (by decide)

/-- The table of ports 5000 to 5003, with 5002 in use. -/
def portsInUse : Ports 1 :=
  { reservePortConfig 1 5000 5003 0 with table := [some 0, some 0, some 1, some 0] }

theorem portsInUse_wf : portsInUse.Wf :=
  ⟨rfl, fun _ => rfl⟩

/-- Ports 5001 and 5003 are granted when 5002 is in use. -/
theorem stepmgrContract_iff_witness :
    StepmgrContract namesOps (⟨[], 0, 0, 0, 0⟩ : Ports 1) [5001, 5003] .granted ↔
      StepmgrFits (⟨[], 0, 0, 0, 0⟩ : Ports 1) [5001, 5003] .granted :=
  @stepmgrContract_iff 1 namesOps namesOps_faithful portsInUse
    (resvPortAlloc portsInUse 2 1).1 2 1 [5001, 5003] portsInUse_wf (by decide) (by decide)
    (by decide) (by decide) rfl _ .granted

end Slurm.PortMgr
