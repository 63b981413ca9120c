import Slurm.AcctPolicy.Model

/-!
# Usage records

`Counted conf jobs S R u` says that a usage record `u` is right for the submitted jobs `S` and the
running jobs `R` that are charged to it.  Each adjustment of a record for a job keeps it right
for the sets with the job or without it, as long as the counters do not overflow.

* `counted_addSubmit_iff`, `counted_remSubmit`: a job is submitted, or removed.
* `counted_begin_iff`, `counted_fini`, `counted_finiQos_iff`: a job starts, or ends.
-/

namespace Slurm.AcctPolicy

open Option Function Finset

variable {conf : Conf} {ι : Type} {jobs : ι → Job} {S R : Finset ι} {u : Usage} {i : ι}
variable {alloc : Alloc} {dec : Usage → Usage × Bool}

/-! ## What a record should hold -/

/-- What a job uses of a TRES. -/
def used (conf : Conf) (job : Job) (t : Nat) : Nat :=
  match job.alloc with
  | none => 0
  | some alloc => if counted conf alloc.tresAllocCnt t then (alloc.tresAllocCnt t).toNat else 0

/-- The nodes of a job. -/
def nodesOf (job : Job) : Finset Nat := (job.alloc.bind Alloc.nodeBitmap).getD ∅

/-- The running jobs on a node. -/
def onNode (jobs : ι → Job) (R : Finset ι) (n : Nat) : Finset ι :=
  R.filter fun i => n ∈ nodesOf (jobs i)

/-- The nodes of the running jobs. -/
def allNodes (jobs : ι → Job) (R : Finset ι) : Finset Nat := R.biUnion fun i => nodesOf (jobs i)

/-- The record of the submitted jobs `S` and the running jobs `R`. -/
structure Counted (conf : Conf) (jobs : ι → Job) (S R : Finset ι) (u : Usage) : Prop where
  submitJobs : u.submitJobs.toNat = S.card
  running : u.jobs.toNat = R.card
  tres : ∀ t, t ≠ tresArrayNode → (u.tres t).toNat = ∑ i ∈ R, used conf (jobs i) t
  nodes : (u.tres tresArrayNode).toNat = (allNodes jobs R).card
  nodeBitmap : u.nodeBitmap.getD ∅ = allNodes jobs R
  nodeJobCnt : ∀ n, (u.nodeJobCnt n).toNat = (onNode jobs R n).card

theorem mem_allNodes {n : Nat} : n ∈ allNodes jobs R ↔ ∃ i ∈ R, n ∈ nodesOf (jobs i) :=
  mem_biUnion

theorem allNodes_card_lt (jobs : ι → Job) (R : Finset ι) : (allNodes jobs R).card < 2 ^ 64 := by
  have hsub : allNodes jobs R ⊆ Finset.range (2 ^ 31) := by
    intro n hn
    obtain ⟨i, -, hi⟩ := mem_allNodes.mp hn
    unfold nodesOf at hi
    cases halloc : (jobs i).alloc.bind Alloc.nodeBitmap with
    | none =>
      rw [halloc] at hi
      exact absurd hi (notMem_empty n)
    | some bitmap =>
      rw [halloc] at hi
      obtain ⟨alloc, -, hbitmap⟩ := Option.bind_eq_some_iff.mp halloc
      exact Finset.mem_range.mpr (alloc.size bitmap hbitmap n hi)
  have hcard := card_le_card hsub
  rw [card_range] at hcard
  omega

theorem used_of_alloc (h : (jobs i).alloc = some alloc) (t : Nat) :
    used conf (jobs i) t =
      if counted conf alloc.tresAllocCnt t then (alloc.tresAllocCnt t).toNat else 0 := by
  rw [used, h]

theorem nodesOf_alloc (h : (jobs i).alloc = some alloc) :
    nodesOf (jobs i) = alloc.nodeBitmap.getD ∅ := by
  rw [nodesOf, h, bind_some]

/-- The records of jobs that are not charged do not matter. -/
theorem Counted.congr {jobs' : ι → Job} (h : Counted conf jobs S R u)
    (hjobs : ∀ i ∈ R, jobs' i = jobs i) : Counted conf jobs' S R u := by
  have hall : allNodes jobs' R = allNodes jobs R :=
    biUnion_congr rfl fun i hi => by rw [hjobs i hi]
  constructor
  · exact h.submitJobs
  · exact h.running
  · intro t ht
    rw [h.tres t ht]
    exact sum_congr rfl fun i hi => by rw [hjobs i hi]
  · rw [h.nodes, hall]
  · rw [h.nodeBitmap, hall]
  · intro n
    rw [h.nodeJobCnt n]
    exact congrArg Finset.card (filter_congr fun i hi => by rw [hjobs i hi])

/-! ## Adding nodes -/

theorem addNodes_nodeJobCnt (alloc : Alloc) (halloc : (jobs i).alloc = some alloc) (v : Usage)
    (n : Nat) :
    (addUsageNodeBitmap alloc.nodeBitmap v).nodeJobCnt n =
      if n ∈ nodesOf (jobs i) then v.nodeJobCnt n + 1 else v.nodeJobCnt n := by
  rw [nodesOf_alloc halloc]
  unfold addUsageNodeBitmap
  cases alloc.nodeBitmap with
  | none => rfl
  | some bitmap => rfl

theorem addNodes_tres (alloc : Alloc) (v : Usage) {t : Nat} (ht : t ≠ tresArrayNode) :
    (addUsageNodeBitmap alloc.nodeBitmap v).tres t = v.tres t := by
  unfold addUsageNodeBitmap
  cases alloc.nodeBitmap with
  | none => rfl
  | some bitmap => exact update_of_ne ht _ _

theorem addNodes_rest (alloc : Alloc) (v : Usage) :
    (addUsageNodeBitmap alloc.nodeBitmap v).submitJobs = v.submitJobs ∧
      (addUsageNodeBitmap alloc.nodeBitmap v).jobs = v.jobs := by
  unfold addUsageNodeBitmap
  cases alloc.nodeBitmap with
  | none => exact ⟨rfl, rfl⟩
  | some bitmap => exact ⟨rfl, rfl⟩

/-- A running job uses no more than all of them. -/
theorem cnt_le (h : Counted conf jobs S R u) (hi : i ∈ R) (halloc : (jobs i).alloc = some alloc)
    {t : Nat} (ht : counted conf alloc.tresAllocCnt t = true) :
    alloc.tresAllocCnt t ≤ u.tres t := by
  rw [BitVec.le_def]
  by_cases hnode : t = tresArrayNode
  · subst hnode
    rw [h.nodes, alloc.node_cnt, BitVec.toNat_ofNat]
    refine (Nat.mod_le _ _).trans (card_le_card fun n hn => ?_)
    exact mem_allNodes.mpr ⟨i, hi, (nodesOf_alloc halloc).symm ▸ hn⟩
  · rw [h.tres t hnode]
    have hle := single_le_sum (fun j _ => Nat.zero_le (used conf (jobs j) t)) hi
    rw [used_of_alloc halloc, if_pos ht] at hle
    exact hle

/-! ## Submitting and removing -/

variable [DecidableEq ι]

theorem counted_addSubmit_iff (h : Counted conf jobs S R u) (hi : i ∉ S) :
    Counted conf jobs (insert i S) R (addSubmitJobs u) ↔ S.card + 1 < 2 ^ 32 := by
  have hadd : (addSubmitJobs u).submitJobs.toNat = (S.card + 1) % 2 ^ 32 := by
    rw [← h.submitJobs]
    exact BitVec.toNat_add _ _
  have hcard := card_insert_of_notMem hi
  constructor
  · intro h'
    have hsubmit := h'.submitJobs
    rw [hadd, hcard] at hsubmit
    rw [← hsubmit]
    exact Nat.mod_lt _ (by norm_num)
  · intro hlt
    refine ⟨?_, h.running, h.tres, h.nodes, h.nodeBitmap, h.nodeJobCnt⟩
    rw [hadd, hcard, Nat.mod_eq_of_lt hlt]

theorem counted_remSubmit (h : Counted conf jobs S R u) (hi : i ∈ S) :
    (remSubmitJobs u).2 = false ∧ Counted conf jobs (S.erase i) R (remSubmitJobs u).1 := by
  have hpos : 1 ≤ u.submitJobs.toNat := by
    rw [h.submitJobs]
    exact Finset.card_pos.mpr ⟨i, hi⟩
  unfold remSubmitJobs
  rw [if_pos (by bv_omega)]
  refine ⟨rfl, ?_, h.running, h.tres, h.nodes, h.nodeBitmap, h.nodeJobCnt⟩
  have hcard := card_erase_of_mem hi
  have hsubmit := h.submitJobs
  show (u.submitJobs - 1).toNat = _
  bv_omega

/-! ## A job starts -/

/-- The counters have room for another running job. -/
def Room (conf : Conf) (jobs : ι → Job) (R : Finset ι) (i : ι) : Prop :=
  R.card + 1 < 2 ^ 32 ∧
    (∀ t, t ≠ tresArrayNode → used conf (jobs i) t ≠ 0 →
      ∑ j ∈ R, used conf (jobs j) t + used conf (jobs i) t < 2 ^ 64) ∧
    ∀ n ∈ nodesOf (jobs i), (onNode jobs R n).card + 1 < 2 ^ 16

theorem allNodes_insert : allNodes jobs (insert i R) = allNodes jobs R ∪ nodesOf (jobs i) := by
  rw [allNodes, biUnion_insert, union_comm]
  rfl

theorem onNode_insert (hi : i ∉ R) (n : Nat) :
    (onNode jobs (insert i R) n).card =
      if n ∈ nodesOf (jobs i) then (onNode jobs R n).card + 1 else (onNode jobs R n).card := by
  rw [onNode, filter_insert]
  split
  · refine card_insert_of_notMem fun hmem => hi ?_
    exact (Finset.mem_filter.mp hmem).1
  · rfl

/-- The nodes after a job was added. -/
theorem addNodes_eq (h : Counted conf jobs S R u) (halloc : (jobs i).alloc = some alloc) {v : Usage}
    (hbitmap : v.nodeBitmap = u.nodeBitmap) (hnode : v.tres tresArrayNode = u.tres tresArrayNode) :
    ((addUsageNodeBitmap alloc.nodeBitmap v).tres tresArrayNode).toNat =
        (allNodes jobs (insert i R)).card ∧
      (addUsageNodeBitmap alloc.nodeBitmap v).nodeBitmap.getD ∅ = allNodes jobs (insert i R) := by
  have hlt := allNodes_card_lt jobs (insert i R)
  rw [allNodes_insert, nodesOf_alloc halloc] at hlt ⊢
  unfold addUsageNodeBitmap
  cases hb : alloc.nodeBitmap with
  | none =>
    simp only [getD_none, union_empty]
    rw [hnode, hbitmap]
    exact ⟨h.nodes, h.nodeBitmap⟩
  | some bitmap =>
    rw [hb, getD_some] at hlt
    simp only [update_self, getD_some]
    rw [hbitmap, h.nodeBitmap, BitVec.toNat_ofNat]
    exact ⟨Nat.mod_eq_of_lt hlt, rfl⟩

/-- The record of an association after a job starts. -/
theorem counted_begin_iff (h : Counted conf jobs S R u) (hi : i ∉ R)
    (halloc : (jobs i).alloc = some alloc) :
    Counted conf jobs S (insert i R) (adjustAssoc conf .jobBegin (jobs i) u).1 ↔
      Room conf jobs R i := by
  have hcard := card_insert_of_notMem hi
  unfold adjustAssoc
  rw [halloc]
  simp only
  set v := addUsageNodeBitmap alloc.nodeBitmap { u with jobs := u.jobs + 1 } with hv
  set w := addTres (fun t => counted conf alloc.tresAllocCnt t && t ≠ tresArrayNode)
    alloc.tresAllocCnt v with hw
  have hrest := addNodes_rest alloc { u with jobs := u.jobs + 1 }
  rw [← hv] at hrest
  have hsubmit : w.submitJobs.toNat = S.card := by
    rw [← h.submitJobs]
    exact congrArg BitVec.toNat hrest.1
  have hjobs : w.jobs.toNat = (R.card + 1) % 2 ^ 32 := by
    rw [← h.running]
    exact (congrArg BitVec.toNat hrest.2).trans (BitVec.toNat_add _ _)
  have htres : ∀ t, t ≠ tresArrayNode →
      (w.tres t).toNat = if used conf (jobs i) t = 0 then ∑ j ∈ R, used conf (jobs j) t
        else (∑ j ∈ R, used conf (jobs j) t + used conf (jobs i) t) % 2 ^ 64 := by
    intro t ht
    rw [used_of_alloc halloc, ← h.tres t ht]
    have hvt : v.tres t = u.tres t := addNodes_tres alloc _ ht
    show (if counted conf alloc.tresAllocCnt t && decide (t ≠ tresArrayNode)
      then v.tres t + alloc.tresAllocCnt t else v.tres t).toNat = _
    rw [hvt]
    cases hcounted : counted conf alloc.tresAllocCnt t with
    | false => simp
    | true =>
      simp only [ht, ne_eq, not_false_eq_true, decide_true, Bool.and_true, if_true,
        BitVec.toNat_add]
      split
      · rename_i hzero
        rw [hzero, Nat.add_zero]
        exact Nat.mod_eq_of_lt (u.tres t).isLt
      · rfl
  have hnodes := addNodes_eq h halloc (v := { u with jobs := u.jobs + 1 }) rfl rfl
  rw [← hv] at hnodes
  have hwnode : w.tres tresArrayNode = v.tres tresArrayNode := by
    show (if counted conf alloc.tresAllocCnt tresArrayNode && decide (tresArrayNode ≠ tresArrayNode)
      then _ else v.tres tresArrayNode) = _
    simp
  have hcnt : ∀ n, (w.nodeJobCnt n).toNat =
      if n ∈ nodesOf (jobs i) then ((onNode jobs R n).card + 1) % 2 ^ 16
      else (onNode jobs R n).card := by
    intro n
    rw [← h.nodeJobCnt n]
    refine (congrArg BitVec.toNat (addNodes_nodeJobCnt alloc halloc _ n)).trans ?_
    split
    · exact BitVec.toNat_add _ _
    · rfl
  constructor
  · intro h'
    refine ⟨?_, fun t ht hused => ?_, fun n hn => ?_⟩
    · have hrun := h'.running
      rw [hjobs, hcard] at hrun
      rw [← hrun]
      exact Nat.mod_lt _ (by norm_num)
    · have hsum := h'.tres t ht
      rw [htres t ht, if_neg hused, sum_insert hi, Nat.add_comm (used conf (jobs i) t)] at hsum
      rw [← hsum]
      exact Nat.mod_lt _ (by norm_num)
    · have hnode := h'.nodeJobCnt n
      rw [hcnt n, onNode_insert hi, if_pos hn, if_pos hn] at hnode
      rw [← hnode]
      exact Nat.mod_lt _ (by norm_num)
  · rintro ⟨hrun, hsum, hnode⟩
    constructor
    · exact hsubmit
    · rw [hjobs, hcard, Nat.mod_eq_of_lt hrun]
    · intro t ht
      rw [htres t ht, sum_insert hi]
      split
      · rename_i hzero
        rw [hzero, Nat.zero_add]
      · rename_i hused
        rw [Nat.mod_eq_of_lt (hsum t ht hused), Nat.add_comm]
    · rw [hwnode, hnodes.1]
    · exact hnodes.2
    · intro n
      rw [hcnt n, onNode_insert hi]
      split
      · rename_i hn
        exact Nat.mod_eq_of_lt (hnode n hn)
      · rfl

/-- The node count of a job with no bitmap is 0. -/
theorem cnt_node_of_none (h : alloc.nodeBitmap = none) : alloc.tresAllocCnt tresArrayNode = 0 := by
  rw [alloc.node_cnt, h]
  rfl

/-- The order of the changes does not matter, nor does the count of the nodes, which the bitmap
overrides. -/
theorem adjustQosRecord_begin (decJobs : Usage → Usage × Bool) (job : Job) (u : Usage) :
    adjustQosRecord conf decJobs .jobBegin job u = adjustAssoc conf .jobBegin job u := by
  unfold adjustQosRecord adjustAssoc
  cases job.alloc with
  | none => rfl
  | some alloc =>
    unfold addUsageNodeBitmap addTres
    cases hb : alloc.nodeBitmap with
    | none =>
      simp only [hb, Prod.mk.injEq, and_true, Usage.mk.injEq, true_and]
      funext t
      by_cases ht : t = tresArrayNode
      · subst ht
        simp [cnt_node_of_none hb]
      · simp [ht]
    | some bitmap =>
      simp only [hb, Prod.mk.injEq, and_true, Usage.mk.injEq, true_and]
      funext t
      by_cases ht : t = tresArrayNode
      · subst ht
        simp
      · simp [ht]

/-! ## A job ends -/

theorem onNode_erase (n : Nat) :
    onNode jobs (R.erase i) n = (onNode jobs R n).erase i := filter_erase _ _ _

theorem mem_allNodes_erase {n : Nat} : n ∈ allNodes jobs (R.erase i) ↔
    n ∈ allNodes jobs R ∧ ¬ (n ∈ nodesOf (jobs i) ∧ (onNode jobs (R.erase i) n).card = 0) := by
  rw [mem_allNodes, mem_allNodes, card_eq_zero, onNode, filter_eq_empty_iff]
  constructor
  · rintro ⟨j, hj, hn⟩
    exact ⟨⟨j, mem_of_mem_erase hj, hn⟩, fun hnone => hnone.2 hj hn⟩
  · rintro ⟨⟨j, hj, hn⟩, hsome⟩
    by_cases hji : j = i
    · subst hji
      by_contra hnone
      exact hsome ⟨hn, fun k hk hkn => hnone ⟨k, hk, hkn⟩⟩
    · exact ⟨j, Finset.mem_erase.mpr ⟨hji, hj⟩, hn⟩

theorem rmNodes_eq (h : Counted conf jobs S R u) (hi : i ∈ R) (halloc : (jobs i).alloc = some alloc)
    {v : Usage} (hbitmap : v.nodeBitmap = u.nodeBitmap) (hcnt : v.nodeJobCnt = u.nodeJobCnt)
    (hnode : alloc.nodeBitmap = none →
      v.tres tresArrayNode = u.tres tresArrayNode) :
    (rmUsageNodeBitmap alloc.nodeBitmap v).2 = false ∧
      ((rmUsageNodeBitmap alloc.nodeBitmap v).1.tres tresArrayNode).toNat =
        (allNodes jobs (R.erase i)).card ∧
      (rmUsageNodeBitmap alloc.nodeBitmap v).1.nodeBitmap.getD ∅ = allNodes jobs (R.erase i) ∧
      ∀ n, ((rmUsageNodeBitmap alloc.nodeBitmap v).1.nodeJobCnt n).toNat =
        (onNode jobs (R.erase i) n).card := by
  have hnodes := nodesOf_alloc halloc
  cases hb : alloc.nodeBitmap with
  | none =>
    rw [hb, getD_none] at hnodes
    have hsame : ∀ n, onNode jobs (R.erase i) n = onNode jobs R n := by
      intro n
      rw [onNode_erase]
      refine erase_eq_of_notMem fun hmem => ?_
      rw [onNode, Finset.mem_filter, hnodes] at hmem
      exact notMem_empty n hmem.2
    have hall : allNodes jobs (R.erase i) = allNodes jobs R := by
      ext n
      rw [mem_allNodes_erase, hnodes]
      exact and_iff_left fun hn => notMem_empty n hn.1
    refine ⟨rfl, ?_, ?_, fun n => ?_⟩
    · rw [hall, ← h.nodes]
      exact congrArg BitVec.toNat (hnode hb)
    · rw [hall, ← h.nodeBitmap]
      exact congrArg (Option.getD · ∅) hbitmap
    · rw [hsame n, ← h.nodeJobCnt n]
      exact congrArg (fun cnt => (cnt n).toNat) hcnt
  | some bitmap =>
    rw [hb, getD_some] at hnodes
    have hpos : ∀ n ∈ bitmap, i ∈ onNode jobs R n := fun n hn =>
      Finset.mem_filter.mpr ⟨hi, hnodes ▸ hn⟩
    obtain ⟨grp, hgrp⟩ : ∃ grp, u.nodeBitmap = some grp := by
      rw [← ne_none_iff_exists']
      intro hnone
      obtain ⟨n, hn⟩ := alloc.nonempty bitmap hb
      have hmem : n ∈ allNodes jobs R := mem_allNodes.mpr ⟨i, hi, hnodes ▸ hn⟩
      rw [← h.nodeBitmap, hnone] at hmem
      exact notMem_empty n hmem
    have hgrpAll : grp = allNodes jobs R := by
      rw [← h.nodeBitmap, hgrp, getD_some]
    have hcntErase : ∀ n, (if n ∈ bitmap then u.nodeJobCnt n - 1 else u.nodeJobCnt n).toNat =
        (onNode jobs (R.erase i) n).card := by
      intro n
      rw [onNode_erase]
      have hn := h.nodeJobCnt n
      split
      · rename_i hmem
        have hcard := card_erase_of_mem (hpos n hmem)
        have hgt := Finset.card_pos.mpr ⟨i, hpos n hmem⟩
        bv_omega
      · rename_i hmem
        rw [erase_eq_of_notMem, hn]
        intro hin
        exact hmem (hnodes ▸ (Finset.mem_filter.mp hin).2)
    have hfilter : (grp.filter fun n => ¬ (n ∈ bitmap ∧
        (if n ∈ bitmap then u.nodeJobCnt n - 1 else u.nodeJobCnt n) = 0)) =
          allNodes jobs (R.erase i) := by
      ext n
      rw [Finset.mem_filter, mem_allNodes_erase, hgrpAll, hnodes, ← hcntErase n]
      refine and_congr_right fun _ => not_congr (and_congr_right fun _ => ?_)
      exact ⟨fun h0 => by rw [h0]; rfl, fun h0 => BitVec.eq_of_toNat_eq h0⟩
    unfold rmUsageNodeBitmap
    rw [hbitmap, hgrp]
    simp only [hcnt, hfilter, update_self, getD_some]
    refine ⟨?_, ?_, trivial, hcntErase⟩
    · rw [decide_eq_false_iff_not]
      rintro ⟨n, hn, h0⟩
      have hn' := h.nodeJobCnt n
      rw [h0] at hn'
      exact absurd hn' (Nat.ne_of_lt (Finset.card_pos.mpr ⟨i, hpos n hn⟩))
    · rw [BitVec.toNat_ofNat]
      exact Nat.mod_eq_of_lt (allNodes_card_lt _ _)

/-- What is left of a record after a job ends. -/
theorem counted_erase_iff (h : Counted conf jobs S R u) (hi : i ∈ R)
    (halloc : (jobs i).alloc = some alloc) {r : Usage} (hsubmit : r.submitJobs = u.submitJobs)
    (htres : ∀ t, t ≠ tresArrayNode → r.tres t =
      if counted conf alloc.tresAllocCnt t then u.tres t - alloc.tresAllocCnt t else u.tres t)
    (hnodes : (r.tres tresArrayNode).toNat = (allNodes jobs (R.erase i)).card ∧
      r.nodeBitmap.getD ∅ = allNodes jobs (R.erase i) ∧
      ∀ n, (r.nodeJobCnt n).toNat = (onNode jobs (R.erase i) n).card) :
    Counted conf jobs S (R.erase i) r ↔ r.jobs.toNat = (R.erase i).card := by
  refine ⟨fun h' => h'.running, fun hjobs => ?_⟩
  refine ⟨?_, hjobs, fun t ht => ?_, hnodes.1, hnodes.2.1, hnodes.2.2⟩
  · rw [hsubmit]
    exact h.submitJobs
  · have hsum := add_sum_erase R (fun j => used conf (jobs j) t) hi
    have hut := h.tres t ht
    rw [htres t ht]
    rw [used_of_alloc halloc] at hsum
    cases hcounted : counted conf alloc.tresAllocCnt t with
    | false =>
      simp only [hcounted, Bool.false_eq_true, if_false] at hsum ⊢
      omega
    | true =>
      have hle := cnt_le h hi halloc hcounted
      simp only [hcounted, if_true] at hsum ⊢
      bv_omega

theorem remTres_eq {tres : Nat → Bool} {cnt : Nat → BitVec 64} {v : Usage}
    (hle : ∀ t, tres t = true → cnt t ≤ v.tres t) :
    remTres conf tres cnt v =
      ({ v with tres := fun t => if tres t then v.tres t - cnt t else v.tres t }, false) := by
  unfold remTres
  refine Prod.ext ?_ ?_
  · simp only [Usage.mk.injEq, true_and, and_true]
    funext t
    split
    · rename_i ht
      rw [if_neg (BitVec.not_lt.mpr (hle t ht))]
    · rfl
  · simp only [decide_eq_false_iff_not]
    rintro ⟨t, -, ht, hgt⟩
    exact BitVec.not_lt.mpr (hle t ht) hgt

theorem rmNodes_rest (bitmap : Option (Finset Nat)) (v : Usage) :
    (rmUsageNodeBitmap bitmap v).1.submitJobs = v.submitJobs ∧
      (rmUsageNodeBitmap bitmap v).1.jobs = v.jobs ∧
      ∀ t, t ≠ tresArrayNode → (rmUsageNodeBitmap bitmap v).1.tres t = v.tres t := by
  unfold rmUsageNodeBitmap
  split
  · exact ⟨rfl, rfl, fun _ _ => rfl⟩
  split
  · exact ⟨rfl, rfl, fun _ _ => rfl⟩
  · exact ⟨rfl, rfl, fun t ht => update_of_ne ht _ _⟩

/-- The record of an association after a job ends, whose count of jobs `dec` makes. -/
theorem counted_finiAssoc (h : Counted conf jobs S R u) (hi : i ∈ R)
    (halloc : (jobs i).alloc = some alloc) {j : BitVec 32}
    (hdec : (dec u).1 = { u with jobs := j }) :
    let r := thenAlso dec (thenAlso (rmUsageNodeBitmap alloc.nodeBitmap)
      (remTres conf (fun t => counted conf alloc.tresAllocCnt t && t ≠ tresArrayNode)
        alloc.tresAllocCnt)) u
    r.2 = (dec u).2 ∧ (Counted conf jobs S (R.erase i) r.1 ↔ j.toNat = (R.erase i).card) := by
  obtain ⟨hflag, hnodes⟩ := rmNodes_eq h hi halloc (v := { u with jobs := j }) rfl rfl fun _ => rfl
  obtain ⟨hsubmit, hjobs, htres⟩ := rmNodes_rest alloc.nodeBitmap { u with jobs := j }
  have hrem := @remTres_eq conf (fun t => counted conf alloc.tresAllocCnt t && t ≠ tresArrayNode)
    alloc.tresAllocCnt (rmUsageNodeBitmap alloc.nodeBitmap { u with jobs := j }).1 (by
      intro t ht
      rw [Bool.and_eq_true, decide_eq_true_iff] at ht
      rw [htres t ht.2]
      exact cnt_le h hi halloc ht.1)
  simp only [thenAlso, hdec, hrem, hflag, Bool.or_false, true_and]
  refine (counted_erase_iff h hi halloc ?_ ?_ ?_).trans (by rw [hjobs])
  · exact hsubmit
  · intro t ht
    simp only [ht, ne_eq, not_false_eq_true, decide_true, Bool.and_true]
    rw [htres t ht]
  · refine ⟨?_, hnodes.2⟩
    simp only [ne_eq, not_true_eq_false, decide_false, Bool.and_false, Bool.false_eq_true, if_false]
    exact hnodes.1

/-- A record of a QOS after a job ends. -/
theorem counted_finiQos (h : Counted conf jobs S R u) (hi : i ∈ R)
    (halloc : (jobs i).alloc = some alloc) {j : BitVec 32}
    (hdec : (dec u).1 = { u with jobs := j }) :
    let r := thenAlso dec (thenAlso
      (remTres conf (counted conf alloc.tresAllocCnt) alloc.tresAllocCnt)
      (rmUsageNodeBitmap alloc.nodeBitmap)) u
    r.2 = (dec u).2 ∧ (Counted conf jobs S (R.erase i) r.1 ↔ j.toNat = (R.erase i).card) := by
  have hrem := @remTres_eq conf (counted conf alloc.tresAllocCnt) alloc.tresAllocCnt
    { u with jobs := j } fun t ht => cnt_le h hi halloc ht
  set v : Usage := { u with
    jobs := j
    tres := fun t =>
      if counted conf alloc.tresAllocCnt t then u.tres t - alloc.tresAllocCnt t else u.tres t } with hv
  obtain ⟨hflag, hnodes⟩ := rmNodes_eq h hi halloc (v := v) rfl rfl fun hnone => by
    show (if counted conf alloc.tresAllocCnt tresArrayNode
      then u.tres tresArrayNode - alloc.tresAllocCnt tresArrayNode else u.tres tresArrayNode) = _
    simp [cnt_node_of_none hnone]
  obtain ⟨hsubmit, hjobs, htres⟩ := rmNodes_rest alloc.nodeBitmap v
  simp only [thenAlso, hdec, hrem, hflag, Bool.or_false, true_and]
  rw [counted_erase_iff h hi halloc hsubmit (fun t ht => htres t ht) hnodes, hjobs]

/-! ## Any record -/

theorem adjust_addSubmit (job : Job) (k : Key) (u : Usage) :
    adjust conf .addSubmit job k u = (addSubmitJobs u, false) := by
  cases k with
  | qos => rfl
  | qosUser => rfl
  | qosAcct => rfl
  | assoc => rfl

theorem adjust_remSubmit (job : Job) (k : Key) (u : Usage) :
    adjust conf .remSubmit job k u = remSubmitJobs u := by
  cases k with
  | qos => rfl
  | qosUser => rfl
  | qosAcct => rfl
  | assoc => rfl

theorem adjust_begin (job : Job) (k : Key) (u : Usage) :
    adjust conf .jobBegin job k u = adjustAssoc conf .jobBegin job u := by
  cases k with
  | qos => exact adjustQosRecord_begin decQosJobs job u
  | qosUser => exact adjustQosRecord_begin decJobs job u
  | qosAcct => exact adjustQosRecord_begin decJobs job u
  | assoc => rfl

theorem adjust_begin_wrong (job : Job) (k : Key) (u : Usage) :
    (adjust conf .jobBegin job k u).2 = false := by
  rw [adjust_begin]
  unfold adjustAssoc
  cases job.alloc with
  | none => rfl
  | some alloc => rfl

/-- The usage of a QOS. -/
def Key.isQos : Key → Bool
  | .qos _ => true
  | _ => false

theorem decJobs_of_pos (h : u.jobs ≠ 0) : decJobs u = ({ u with jobs := u.jobs - 1 }, false) :=
  if_pos h

theorem decQosJobs_eq (u : Usage) :
    decQosJobs u =
      ({ u with jobs := if (u.jobs - 1).msb then 0 else u.jobs - 1 }, (u.jobs - 1).msb) := by
  unfold decQosJobs
  simp only
  split
  · rename_i hneg
    rw [hneg]
  · rename_i hneg
    rw [Bool.eq_false_iff.mpr hneg]

/-- A record after a job ends. -/
theorem adjust_fini_iff (h : Counted conf jobs S R u) (hi : i ∈ R)
    (halloc : (jobs i).alloc = some alloc) (k : Key) :
    ((adjust conf .jobFini (jobs i) k u).2 = false ∧
        Counted conf jobs S (R.erase i) (adjust conf .jobFini (jobs i) k u).1) ↔
      (k.isQos = true → R.card - 1 < 2 ^ 31) := by
  have hcard := card_erase_of_mem hi
  have hpos := Finset.card_pos.mpr ⟨i, hi⟩
  have hrun := h.running
  have hdec : (decJobs u).1 = { u with jobs := u.jobs - 1 } ∧ (decJobs u).2 = false := by
    rw [decJobs_of_pos (by bv_omega)]
    exact ⟨rfl, rfl⟩
  have hleft : (u.jobs - 1).toNat = (R.erase i).card := by bv_omega
  have hqosRecord : ((adjustQosRecord conf decJobs .jobFini (jobs i) u).2 = false ∧
      Counted conf jobs S (R.erase i) (adjustQosRecord conf decJobs .jobFini (jobs i) u).1) := by
    obtain ⟨hflag, hiff⟩ := counted_finiQos h hi halloc hdec.1
    unfold adjustQosRecord
    rw [halloc]
    exact ⟨hflag.trans hdec.2, hiff.mpr hleft⟩
  cases k with
  | qos q =>
    obtain ⟨hflag, hiff⟩ := counted_finiQos h hi halloc (congrArg Prod.fst (decQosJobs_eq u))
    show (adjustQosRecord conf decQosJobs .jobFini (jobs i) u).2 = false ∧
      Counted conf jobs S (R.erase i) (adjustQosRecord conf decQosJobs .jobFini (jobs i) u).1 ↔ _
    unfold adjustQosRecord
    rw [halloc]
    simp only [Key.isQos, true_imp_iff]
    rw [hflag, hiff, decQosJobs_eq, BitVec.msb_eq_decide, hleft, hcard]
    simp only [decide_eq_false_iff_not, decide_eq_true_eq]
    constructor
    · rintro ⟨hlt, -⟩
      omega
    · intro hlt
      refine ⟨by omega, ?_⟩
      rw [if_neg (by omega), hleft, hcard]
  | qosUser q user => exact iff_of_true hqosRecord nofun
  | qosAcct q acct => exact iff_of_true hqosRecord nofun
  | assoc a =>
    obtain ⟨hflag, hiff⟩ := counted_finiAssoc h hi halloc hdec.1
    refine iff_of_true ?_ nofun
    show (adjustAssoc conf .jobFini (jobs i) u).2 = false ∧
      Counted conf jobs S (R.erase i) (adjustAssoc conf .jobFini (jobs i) u).1
    unfold adjustAssoc
    rw [halloc]
    exact ⟨hflag.trans hdec.2, hiff.mpr hleft⟩

end Slurm.AcctPolicy
