import Slurm.Gang.Sockets

/-!
# What an active row holds

A job occupies cores or nodes, by the group type of its partition (`Occupies`): the cores that
it claims, all cores of the sockets of these, or its nodes.  `Joins` says when a job can join
others, and `Holds` that a row holds just the jobs that were added to it.

* `jobFitsInActiveRow_spec`: a job fits just when it can join those that the row holds.
* `addJobToActive_spec`: then the row holds it too.
-/

namespace Slurm.Gang

open Slurm.Bitstring List
open Slurm.ClusterCores
open Lib.Visit (select)

variable {S : Slurmctld}
variable {type : EntityType} {held : List JobRecord} {j : JobRecord} {x i : Nat} {row : ActiveRow}
    {cpus : List Nat}

/-! ## What a job occupies -/

/-- The CPUs that the job has on node `i`.  Its array has an element for each of its nodes. -/
def cpusAt (j : JobRecord) (i : Nat) : Nat :=
  if j.jobResrcs.nodeBitmap.bit i then
    (j.jobResrcs.cpus.getD []).getD (countRange j.jobResrcs.nodeBitmap.bit 0 i) 0
  else 0

/-- A job with an allocation: it has nodes, a core bit string for the cores of these, and an
array with the CPUs that it has on each of them. -/
structure Allocated (S : Slurmctld) (j : JobRecord) : Prop where
  nodes_size : j.jobResrcs.nodeBitmap.nbits = S.table.length
  nodes : ∀ i, i < S.table.length → j.jobResrcs.nodeBitmap.bit i = true → ∃ n, nodeRecord S i = some n
  some_node : ∃ i, i < j.jobResrcs.nodeBitmap.nbits ∧ j.jobResrcs.nodeBitmap.bit i = true
  cores : ∃ b, j.jobResrcs.coreBitmap = some b ∧ 0 < coreCnt S.table j.jobResrcs.nodeBitmap ∧
    coreCnt S.table j.jobResrcs.nodeBitmap ≤ b.nbits
  cpus : ∃ cpus, j.jobResrcs.cpus = some cpus ∧
    cpus.length = bitSetCount j.jobResrcs.nodeBitmap
  cpus_le : ∀ i n, nodeRecord S i = some n → cpusAt j i ≤ n.cpus

/-- The cores or nodes that a job occupies in a row of the group type. -/
def Occupies (S : Slurmctld) (type : EntityType) (j : JobRecord) (x : Nat) : Prop :=
  match type with
  | .core | .cpu2 => Claims S.table j.jobResrcs.toJobRes x
  | .socket => ∃ y, Claims S.table j.jobResrcs.toJobRes y ∧ SameSocket S x y
  | .node | .cpu => x < S.table.length ∧ j.jobResrcs.nodeBitmap.bit x = true

/-- Two jobs occupy the same. -/
def Overlap (S : Slurmctld) (type : EntityType) (j k : JobRecord) : Prop :=
  ∃ x, Occupies S type j x ∧ Occupies S type k x

/-- A job can join others when it overlaps with none of them.  By `GS_CPU` it can also when the
CPUs of its nodes are enough for all of them. -/
def Joins (S : Slurmctld) (type : EntityType) (held : List JobRecord) (j : JobRecord) : Prop :=
  (∀ k ∈ held, ¬ Overlap S type k j) ∨
    (type = .cpu ∧ getGrType S = .cpu ∧
      ∀ i n, nodeRecord S i = some n → j.jobResrcs.nodeBitmap.bit i = true →
        (held.map fun k => cpusAt k i).sum + cpusAt j i ≤ n.cpus)

/-- Two jobs conflict when one of them cannot join the other. -/
def Conflict (S : Slurmctld) (type : EntityType) (j k : JobRecord) : Prop :=
  ¬ (Joins S type [j] k ∧ Joins S type [k] j)

theorem joins_nil (type : EntityType) (j : JobRecord) : Joins S type [] j := Or.inl nofun

/-- Who can join many can join each of them. -/
theorem Joins.single {k : JobRecord} (h : Joins S type held j) (hk : k ∈ held) :
    Joins S type [k] j := by
  rcases h with hno | ⟨htype, hgr, hroom⟩
  · refine Or.inl fun k' hk' => ?_
    rw [List.mem_singleton.mp hk']
    exact hno k hk
  · refine Or.inr ⟨htype, hgr, fun i n hn hbit => ?_⟩
    have hall := hroom i n hn hbit
    have hle := single_le_sum (fun _ _ => Nat.zero_le _) (cpusAt k i)
      (mem_map_of_mem (f := fun k => cpusAt k i) hk)
    simp
    omega

theorem Joins.symm {k : JobRecord} (hj : Allocated S j) (h : Joins S type [j] k) :
    Joins S type [k] j := by
  rcases h with hno | ⟨htype, hgr, hroom⟩
  · refine Or.inl fun k' hk' hover => ?_
    rw [List.mem_singleton.mp hk'] at hover
    obtain ⟨x, hx, hx'⟩ := hover
    exact hno j mem_cons_self ⟨x, hx', hx⟩
  · refine Or.inr ⟨htype, hgr, fun i n hn _ => ?_⟩
    have hlast := hj.cpus_le i n hn
    by_cases hbit : k.jobResrcs.nodeBitmap.bit i = true
    · have hsum := hroom i n hn hbit
      simp at hsum ⊢
      omega
    · have hzero : cpusAt k i = 0 := if_neg hbit
      simp [hzero, hlast]

/-- Who can join many can join fewer. -/
theorem Joins.fewer {more : List JobRecord} (h : Joins S type (held ++ more) j) :
    Joins S type held j := by
  rcases h with hno | ⟨htype, hgr, hroom⟩
  · exact Or.inl fun k hk => hno k (mem_append_left more hk)
  · refine Or.inr ⟨htype, hgr, fun i n hn hbit => ?_⟩
    have hall := hroom i n hn hbit
    rw [map_append, sum_append] at hall
    omega

/-! ## What a row holds -/

/-- The size of the bit string of a row. -/
def units (S : Slurmctld) (type : EntityType) : Nat :=
  if type.byCores then coresBefore S.table S.table.length else S.table.length

/-- The bit string and the array of a row have the sizes of the group type, if they are there. -/
structure Sized (S : Slurmctld) (type : EntityType) (row : ActiveRow) : Prop where
  resmap : ∀ b, row.activeResmap = some b → b.nbits = units S type
  cpus : ∀ cpus, row.activeCpus = some cpus → cpus.length = S.table.length

/-- The row holds just these jobs.  What it has from before is not read while it has none. -/
structure Holds (S : Slurmctld) (type : EntityType) (row : ActiveRow) (held : List JobRecord) :
    Prop extends Sized S type row where
  count : row.jobsActive = held.length
  occupied : held ≠ [] → ∀ x, coresIn row.activeResmap x ↔ ∃ k ∈ held, Occupies S type k x
  used : held ≠ [] → type = .cpu → getGrType S = .cpu →
    ∃ cpus, row.activeCpus = some cpus ∧
      ∀ i n, nodeRecord S i = some n →
        cpus[i]? = some (held.map fun k => cpusAt k i).sum ∧
          (held.map fun k => cpusAt k i).sum ≤ n.cpus

/-- The job on the cluster. -/
def Allocated.job {j : JobRecord} (hS : Configured S) (hj : Allocated S j) : Job hS.cluster where
  toJobRes := j.jobResrcs.toJobRes
  nodes_size := hj.nodes_size
  cores_none := by
    intro hnone
    obtain ⟨b, hb, -⟩ := hj.cores
    rw [hb] at hnone
    cases hnone
  cores_some := by
    intro b hb
    obtain ⟨b', hb', hroom⟩ := hj.cores
    have hbb : b' = b := Option.some.inj (hb'.symm.trans hb)
    subst hbb
    exact hroom

/-- A claimed core is a core of a node of the job. -/
theorem Claims.ofNode {r : JobRes} (h : Claims S.table r x) :
    ∃ i n, nodeRecord S i = some n ∧ r.nodeBitmap.bit i = true ∧ OfNode S i x := by
  obtain ⟨i, hi, hnode, c, hc, -, rfl⟩ := h
  unfold hasNode at hnode
  rw [Bool.and_eq_true, table_getD, Option.isSome_map] at hnode
  obtain ⟨n, hn⟩ := Option.isSome_iff_exists.mp hnode.2
  refine ⟨i, n, hn, hnode.1, Nat.le_add_right _ _, ?_⟩
  rw [coresBefore_succ]
  omega

theorem sameSocket_self (hS : Configured S) {r : JobRes} (h : Claims S.table r x) :
    SameSocket S x x := by
  obtain ⟨i, n, hn, -, hx⟩ := Claims.ofNode h
  exact ⟨i, sameSocketOf_self hS hn hx⟩

/-- In rows by cores, a job overlaps with others just when one of the cores that it claims is
occupied by them. -/
theorem overlap_iff_claims (hS : Configured S) (htype : type.byCores = true) (j k : JobRecord) :
    Overlap S type k j ↔ ∃ x, Claims S.table j.jobResrcs.toJobRes x ∧ Occupies S type k x := by
  have hcores : (∃ x, Claims S.table k.jobResrcs.toJobRes x ∧ Claims S.table j.jobResrcs.toJobRes x) ↔
      ∃ x, Claims S.table j.jobResrcs.toJobRes x ∧ Claims S.table k.jobResrcs.toJobRes x :=
    exists_congr fun x => and_comm
  cases type with
  | node => cases htype
  | cpu => cases htype
  | core => exact hcores
  | cpu2 => exact hcores
  | socket =>
    show (∃ x, (∃ y, _ ∧ _) ∧ ∃ y, _ ∧ _) ↔ ∃ x, _ ∧ ∃ y, _ ∧ _
    constructor
    · intro ⟨x, ⟨y, hy, hxy⟩, z, hz, hxz⟩
      obtain ⟨i, hxz⟩ := hxz
      exact ⟨z, hz, y, hy, SameSocket.trans hS ⟨i, hxz.symm⟩ hxy⟩
    · intro ⟨x, hx, y, hy, hxy⟩
      exact ⟨x, ⟨y, hy, hxy⟩, x, hx, sameSocket_self hS hx⟩

/-! ## The conflict test -/

theorem Holds.nil_of_count (h : Holds S type row held) : row.jobsActive = 0 ↔ held = [] := by
  rw [h.count, length_eq_zero_iff]

theorem countRange_succ (p : Nat → Bool) (k : Nat) :
    countRange p 0 (k + 1) = countRange p 0 k + if p k then 1 else 0 := by
  unfold countRange
  simp [range'_1_concat, countP_append, countP_singleton]

theorem countRange_mono (p : Nat → Bool) {k : Nat} (h : i ≤ k) :
    countRange p 0 i ≤ countRange p 0 k := by
  rw [← countRange_append p (Nat.zero_le i) h]
  exact Nat.le_add_right _ _

/-- The element of the array for a node of the job. -/
theorem Allocated.getElem?_cpus (hj : Allocated S j) (hcpus : j.jobResrcs.cpus = some cpus)
    (hi : i < S.table.length) (hbit : j.jobResrcs.nodeBitmap.bit i = true) :
    cpus[countRange j.jobResrcs.nodeBitmap.bit 0 i]? = some (cpusAt j i) := by
  obtain ⟨cpus', hcpus', hlength⟩ := hj.cpus
  have heq : cpus' = cpus := Option.some.inj (hcpus'.symm.trans hcpus)
  subst heq
  have hlt : countRange j.jobResrcs.nodeBitmap.bit 0 i < cpus'.length := by
    have hmono := countRange_mono j.jobResrcs.nodeBitmap.bit (show i + 1 ≤ S.table.length from hi)
    rw [countRange_succ, if_pos hbit] at hmono
    rw [hlength, bitSetCount_eq, hj.nodes_size]
    omega
  unfold cpusAt
  rw [if_pos hbit, hcpus, Option.getD_some, getD_eq_getElem _ _ hlt]
  exact getElem?_eq_getElem hlt

/-- The nodes from `k` on have CPUs enough. -/
theorem cpusFitLoop_spec (hj : Allocated S j) (hgr : getGrType S = .cpu) {pCpus : List Nat}
    (hsize : pCpus.length = S.table.length) (hcpus : j.jobResrcs.cpus = some cpus) {k : Nat}
    (hk : k ≤ S.table.length) :
    ∃ fits, cpusFitLoop S pCpus cpus
        (select (hasNode S.table j.jobResrcs.nodeBitmap) k S.table.length)
        (countRange j.jobResrcs.nodeBitmap.bit 0 k) = some fits ∧
      (fits = true ↔ ∀ i n, k ≤ i → nodeRecord S i = some n →
        j.jobResrcs.nodeBitmap.bit i = true → pCpus.getD i 0 + cpusAt j i ≤ n.cpus) := by
  induction hlen : S.table.length - k generalizing k with
  | zero =>
    rw [Lib.Visit.select_eq_nil fun i hi => by omega]
    refine ⟨true, rfl, iff_of_true rfl fun i n hi hn => ?_⟩
    have hlt := lt_of_nodeRecord hn
    omega
  | succ len ih =>
    obtain ⟨fits, hrun, hfits⟩ := ih (k := k + 1) (by omega) (by omega)
    rw [countRange_succ] at hrun
    by_cases hbit : j.jobResrcs.nodeBitmap.bit k = true
    · obtain ⟨n, hn⟩ := hj.nodes k (by omega) hbit
      have hnode : hasNode S.table j.jobResrcs.nodeBitmap k = true := by
        unfold hasNode
        rw [hbit, table_getD, hn]
        rfl
      have hread : getPhysBitCnt S k = some n.cpus := by
        unfold getPhysBitCnt
        simp [hn, hgr]
      have hused : pCpus[k]? = some (pCpus.getD k 0) := by
        rw [getD_eq_getElem _ _ (by omega)]
        exact getElem?_eq_getElem (by omega)
      rw [Lib.Visit.select_cons ⟨le_refl k, by omega, hnode⟩ fun i hi => by omega, cpusFitLoop,
        hused, hj.getElem?_cpus hcpus (by omega) hbit, hread]
      rw [if_pos hbit] at hrun
      simp only [Option.bind_eq_bind, Option.bind_some]
      by_cases hover : n.cpus < pCpus.getD k 0 + cpusAt j k
      · rw [if_pos hover]
        refine ⟨false, rfl, iff_of_false nofun fun hall => ?_⟩
        have hle := hall k n (le_refl k) hn hbit
        omega
      · rw [if_neg hover]
        refine ⟨fits, hrun, hfits.trans ?_⟩
        constructor
        · intro hall i m hi hm hbit'
          rcases Nat.eq_or_lt_of_le hi with heq | hlt
          · subst heq
            rw [hn] at hm
            rw [← Option.some.inj hm]
            omega
          · exact hall i m hlt hm hbit'
        · intro hall i m hi
          exact hall i m (by omega)
    · have hnode : ¬ hasNode S.table j.jobResrcs.nodeBitmap k = true := by
        unfold hasNode
        simp [hbit]
      have hskip : select (hasNode S.table j.jobResrcs.nodeBitmap) k S.table.length =
          select (hasNode S.table j.jobResrcs.nodeBitmap) (k + 1) S.table.length := by
        unfold select
        rw [show S.table.length - k = S.table.length - (k + 1) + 1 by omega, range'_succ,
          filter_cons_of_neg hnode]
      rw [if_neg hbit, Nat.add_zero] at hrun
      rw [hskip]
      refine ⟨fits, hrun, hfits.trans ?_⟩
      constructor
      · intro hall i m hi hm hbit'
        rcases Nat.eq_or_lt_of_le hi with heq | hlt
        · exact absurd (heq ▸ hbit') hbit
        · exact hall i m hlt hm hbit'
      · intro hall i m hi
        exact hall i m (by omega)

/-- The node bit strings have no node in common. -/
theorem jobMap_eq_zero_iff {b b' : Bitstr} (h : b'.nbits = b.nbits) :
    bitSetCount (bitAnd (bitCopy b) b') = 0 ↔
      ∀ x, x < b.nbits → b.bit x = true → ¬ b'.bit x = true := by
  have hsize : (bitAnd (bitCopy b) b').nbits = b.nbits := combine_nbits _ _ _ _
  rw [bitSetCount_eq, countRange, countP_eq_zero, hsize]
  simp only [mem_range'_1, bit_bitAnd, bitCopy_nbits, bit_bitCopy, h, Nat.min_self]
  constructor
  · intro hall x hx hbit hbit'
    apply hall x ⟨Nat.zero_le _, by omega⟩
    rw [if_pos hx, hbit, hbit']
    rfl
  · intro hall x hx
    rw [if_pos (show x < b.nbits by omega), Bool.and_eq_true]
    intro hboth
    exact hall x (by omega) hboth.1 hboth.2

/-- In rows by nodes, a job overlaps with others when one of its nodes is occupied by them. -/
theorem overlap_iff_nodes (htype : type.byCores = false) (j k : JobRecord) :
    Overlap S type k j ↔ ∃ x, x < S.table.length ∧ j.jobResrcs.nodeBitmap.bit x = true ∧
      Occupies S type k x := by
  have hnodes : (∃ x, (x < S.table.length ∧ k.jobResrcs.nodeBitmap.bit x = true) ∧
        x < S.table.length ∧ j.jobResrcs.nodeBitmap.bit x = true) ↔
      ∃ x, x < S.table.length ∧ j.jobResrcs.nodeBitmap.bit x = true ∧
        x < S.table.length ∧ k.jobResrcs.nodeBitmap.bit x = true :=
    exists_congr fun x => ⟨fun h => ⟨h.2.1, h.2.2, h.1⟩, fun h => ⟨h.2.2, h.1, h.2.1⟩⟩
  cases type with
  | node => exact hnodes
  | cpu => exact hnodes
  | core => cases htype
  | cpu2 => cases htype
  | socket => cases htype

/-- The conflict test: a job fits just when it can join those that the row holds. -/
theorem jobFitsInActiveRow_spec (hS : Configured S) (hj : Allocated S j)
    (htype : getPartGrType S j.partPtr = type) (h : Holds S type row held) :
    ∃ fits, jobFitsInActiveRow S j row = some fits ∧ (fits = true ↔ Joins S type held j) := by
  unfold jobFitsInActiveRow
  cases hmap : row.activeResmap with
  | none =>
    refine ⟨true, rfl, iff_of_true rfl (Or.inl fun k hk hover => ?_)⟩
    obtain ⟨x, hx, -⟩ := hover
    have hin := (h.occupied (ne_nil_of_mem hk) x).mpr ⟨k, hk, hx⟩
    rw [hmap] at hin
    obtain ⟨b, hb, -⟩ := hin
    cases hb
  | some resmap =>
    dsimp only
    by_cases hzero : row.jobsActive = 0
    · rw [if_pos hzero, h.nil_of_count.mp hzero]
      exact ⟨true, rfl, iff_of_true rfl (joins_nil type j)⟩
    have hne : held ≠ [] := fun hnil => hzero (h.nil_of_count.mpr hnil)
    have hoccupied := h.occupied hne
    have hsize := h.resmap resmap hmap
    unfold units at hsize
    rw [if_neg hzero, htype]
    by_cases hcores : type.byCores = true
    · rw [if_pos hcores] at hsize ⊢
      have hcpu : type ≠ .cpu := by
        intro heq
        rw [heq] at hcores
        cases hcores
      have hfull : ∀ b, some resmap = some b →
          b.nbits = coresBefore hS.cluster.table hS.cluster.table.length := by
        intro b hb
        rw [← Option.some.inj hb]
        exact hsize
      obtain ⟨fits, hrun, hfits⟩ := jobFitsIntoCores_spec (hj.job hS) ⟨some resmap, hfull⟩
      refine ⟨fits, hrun, hfits.trans ?_⟩
      have hclaims : (∀ x, Claims S.table j.jobResrcs.toJobRes x → ¬ coresIn (some resmap) x) ↔
          ∀ k ∈ held, ¬ Overlap S type k j := by
        simp only [overlap_iff_claims hS hcores, ← hmap, hoccupied]
        constructor
        · intro hall k hk ⟨x, hx, hocc⟩
          exact hall x hx ⟨k, hk, hocc⟩
        · intro hall x hx ⟨k, hk, hocc⟩
          exact hall k hk ⟨x, hx, hocc⟩
      unfold Joins
      rw [← hclaims]
      simp only [hcpu, false_and, or_false]
      exact Iff.rfl
    · rw [if_neg hcores] at hsize ⊢
      rw [Bool.not_eq_true] at hcores
      have hdisjoint : bitSetCount (bitAnd (bitCopy j.jobResrcs.nodeBitmap) resmap) = 0 ↔
          ∀ k ∈ held, ¬ Overlap S type k j := by
        rw [jobMap_eq_zero_iff (hsize.trans hj.nodes_size.symm), hj.nodes_size]
        simp only [overlap_iff_nodes hcores]
        have hbits : ∀ x, x < S.table.length → (resmap.bit x = true ↔
            ∃ k ∈ held, Occupies S type k x) := by
          intro x hx
          rw [← hoccupied x, hmap]
          unfold coresIn
          simp [hsize, hx]
        constructor
        · intro hall k hk ⟨x, hx, hbit, hocc⟩
          exact hall x hx hbit ((hbits x hx).mpr ⟨k, hk, hocc⟩)
        · intro hall x hx hbit hbit'
          obtain ⟨k, hk, hocc⟩ := (hbits x hx).mp hbit'
          exact hall k hk ⟨x, hx, hbit, hocc⟩
      by_cases hcount : bitSetCount (bitAnd (bitCopy j.jobResrcs.nodeBitmap) resmap) = 0
      · rw [if_pos hcount]
        exact ⟨true, rfl, iff_of_true rfl (Or.inl (hdisjoint.mp hcount))⟩
      rw [if_neg hcount]
      have hjoins : Joins S type held j ↔ (type = .cpu ∧ getGrType S = .cpu ∧
          ∀ i n, nodeRecord S i = some n → j.jobResrcs.nodeBitmap.bit i = true →
            (held.map fun k => cpusAt k i).sum + cpusAt j i ≤ n.cpus) :=
        or_iff_right fun hno => hcount (hdisjoint.mpr hno)
      rw [hjoins]
      by_cases hcpu : type = .cpu
      · rw [if_pos hcpu]
        unfold canCpusFit
        by_cases hgr : getGrType S = .cpu
        · obtain ⟨pCpus, hpCpus, hused⟩ := h.used hne hcpu hgr
          obtain ⟨cpus, hcpus, -⟩ := hj.cpus
          obtain ⟨fits, hrun, hfits⟩ := cpusFitLoop_spec hj hgr (h.cpus pCpus hpCpus) hcpus
            (Nat.zero_le S.table.length)
          rw [if_neg (not_not_intro hgr), hpCpus, hcpus]
          rw [countRange_self _ (le_refl 0)] at hrun
          refine ⟨fits, ?_, hfits.trans ?_⟩
          · dsimp only
            rw [nodesOf_eq hj.nodes_size]
            exact hrun
          · simp only [hcpu, hgr, true_and, Nat.zero_le, true_implies]
            apply forall_congr'
            intro i
            apply forall_congr'
            intro n
            apply imp_congr_right
            intro hn
            rw [getD_eq_getElem?_getD, (hused i n hn).1]
            rfl
        · rw [if_pos hgr]
          exact ⟨false, rfl, iff_of_false nofun fun hall => hgr hall.2.1⟩
      · rw [if_neg hcpu]
        exact ⟨false, rfl, iff_of_false nofun fun hall => hcpu hall.1⟩

/-! ## Adding a job -/

/-- The bit string without its bits, and the cores in it. -/
theorem bitClearAll_spec (b : Bitstr) :
    (bitClearAll b).nbits = b.nbits ∧ ∀ x, x < b.nbits → (bitClearAll b).bit x = false := by
  have hpos := b.valid.1
  obtain ⟨hsize, hbits⟩ := bitNclear_spec b 0 (show b.nbits - 1 < b.nbits by omega)
  refine ⟨hsize, fun x hx => ?_⟩
  show (bitNclear b 0 (b.nbits - 1)).bit x = false
  rw [hbits, if_pos (by omega)]

/-- What the cores of the row are when a job is added: none if the row had no job. -/
theorem Holds.cleared (htype : type.byCores = true) (h : Holds S type row held) :
    ∃ full, (if row.jobsActive = 0 then row.activeResmap.map bitClearAll else row.activeResmap) = full ∧
      (∀ b, full = some b → b.nbits = coresBefore S.table S.table.length) ∧
      ∀ x, coresIn full x ↔ ∃ k ∈ held, Occupies S type k x := by
  have hsize := h.resmap
  unfold units at hsize
  rw [if_pos htype] at hsize
  by_cases hzero : row.jobsActive = 0
  · rw [if_pos hzero]
    have hnil := h.nil_of_count.mp hzero
    refine ⟨_, rfl, ?_, fun x => ?_⟩
    · intro b hb
      obtain ⟨b', hb', rfl⟩ := Option.map_eq_some_iff.mp hb
      rw [(bitClearAll_spec b').1]
      exact hsize b' hb'
    · rw [hnil]
      simp only [not_mem_nil, false_and, exists_false, iff_false]
      intro ⟨b, hb, hx⟩
      obtain ⟨b', -, rfl⟩ := Option.map_eq_some_iff.mp hb
      rw [mem_denote, (bitClearAll_spec b').1] at hx
      rw [(bitClearAll_spec b').2 x hx.1] at hx
      cases hx.2
  · rw [if_neg hzero]
    exact ⟨_, rfl, hsize, h.occupied fun hnil => hzero (h.nil_of_count.mpr hnil)⟩

/-- In a bit string of a size, the set bits are the cores in it. -/
theorem bit_iff_coresIn {b : Bitstr} : coresIn (some b) x ↔ x < b.nbits ∧ b.bit x = true := by
  unfold coresIn
  simp

/-- For a partition by sockets, the node table can be read as `_fill_sockets` reads it, up to
the last node of the job. -/
def SocketsReadable (S : Slurmctld) (type : EntityType) (j : JobRecord) : Prop :=
  type = .socket → ∀ i, i < S.table.length → j.jobResrcs.nodeBitmap.bit i = true →
    ReadableBelow S (i + 1)

/-- The bit string of the row, with the job added. -/
theorem addToResmap_spec (hS : Configured S) (hj : Allocated S j) (hread : SocketsReadable S type j)
    (h : Holds S type row held) :
    ∃ resmap, addToResmap S j.jobResrcs type row = some (some resmap) ∧
      resmap.nbits = units S type ∧
      ∀ x, coresIn (some resmap) x ↔ ∃ k ∈ held ++ [j], Occupies S type k x := by
  have hlast : ∀ x, (∃ k ∈ held ++ [j], Occupies S type k x) ↔
      (∃ k ∈ held, Occupies S type k x) ∨ Occupies S type j x := by
    intro x
    simp [or_and_right, exists_or]
  simp only [hlast]
  unfold addToResmap units
  by_cases hcores : type.byCores = true
  · rw [if_pos hcores, if_pos hcores]
    obtain ⟨full, hfull, hsize, hin⟩ := h.cleared hcores
    obtain ⟨full', hadd, hsome, hclaims⟩ := addJobToCores_spec (hj.job hS) ⟨full, hsize⟩
    obtain ⟨b, hb, -⟩ := hj.cores
    have hexists : full'.cores.isSome := by
      rw [hsome]
      show (_ || j.jobResrcs.coreBitmap.isSome) = true
      rw [hb]
      simp
    obtain ⟨resmap, hresmap⟩ := Option.isSome_iff_exists.mp hexists
    have hsize' : resmap.nbits = coresBefore S.table S.table.length := full'.sized resmap hresmap
    rw [hresmap] at hadd hclaims
    have hadd' : addJobToCores S.table j.jobResrcs.toJobRes full = some (some resmap) := hadd
    have hclaims' : ∀ x, coresIn (some resmap) x ↔
        (∃ k ∈ held, Occupies S type k x) ∨ Claims S.table j.jobResrcs.toJobRes x :=
      fun x => (hclaims x).trans (or_congr_left (hin x))
    rw [hfull]
    simp only [hadd', Option.bind_eq_bind, Option.bind_some]
    by_cases hsocket : type = .socket
    · rw [if_pos hsocket]
      obtain ⟨resmap', hfill, hsize'', hbits⟩ := fillSockets_spec hS hj.some_node
        (fun i hi hbit => hread hsocket i (hj.nodes_size ▸ hi) hbit) hsize'
      refine ⟨resmap', hfill, hsize''.trans hsize', fun x => ?_⟩
      have hlt : ∀ {y}, coresIn (some resmap) y ↔ y < resmap.nbits ∧ resmap.bit y = true :=
        bit_iff_coresIn
      have hbit : ∀ i x y, SameSocketOf S i x y → (resmap.bit y = true ↔
          (∃ k ∈ held, Occupies S type k y) ∨ Claims S.table j.jobResrcs.toJobRes y) := by
        intro i x y hxy
        have hy := hxy.symm.ofNode hS
        obtain ⟨n, hn, -⟩ := hxy
        have hroom := coresBefore_mono S.table (show i + 1 ≤ S.table.length from lt_of_nodeRecord hn)
        unfold OfNode at hy
        rw [← hclaims' y, hlt, hsize', and_iff_right (by omega)]
      subst hsocket
      rw [bit_iff_coresIn, hbits, hsize'']
      constructor
      · intro hin
        rcases hin with ⟨hx, hx' | ⟨i, hi, hnode, y, hxy, hy⟩⟩
        · rcases (hclaims' x).mp (hlt.mpr ⟨hx, hx'⟩) with hocc | hclaim
          · exact Or.inl hocc
          · exact Or.inr ⟨x, hclaim, sameSocket_self hS hclaim⟩
        · rcases (hbit i x y hxy).mp hy with ⟨k, hk, z, hz, hyz⟩ | hclaim
          · exact Or.inl ⟨k, hk, z, hz, SameSocket.trans hS ⟨i, hxy⟩ hyz⟩
          · exact Or.inr ⟨y, hclaim, i, hxy⟩
      · intro hor
        rcases hor with hocc | ⟨y, hclaim, i, hxy⟩
        · have hx := hlt.mp ((hclaims' x).mpr (Or.inl hocc))
          exact ⟨hx.1, Or.inl hx.2⟩
        · have hx := hxy.ofNode hS
          obtain ⟨i', n, hn, hnode, hy⟩ := Claims.ofNode hclaim
          have hii : i = i' := (hxy.symm.ofNode hS).unique hy
          subst hii
          have hi := lt_of_nodeRecord hn
          have hroom := coresBefore_mono S.table (show i + 1 ≤ S.table.length from hi)
          unfold OfNode at hx
          refine ⟨by omega, Or.inr ⟨i, by rw [hj.nodes_size]; exact hi, hnode, y, hxy, ?_⟩⟩
          exact (hbit i x y hxy).mpr (Or.inr hclaim)
    · rw [if_neg hsocket]
      refine ⟨resmap, rfl, hsize', fun x => (hclaims' x).trans (or_congr_right ?_)⟩
      cases type with
      | node => cases hcores
      | cpu => cases hcores
      | core => exact Iff.rfl
      | cpu2 => exact Iff.rfl
      | socket => exact absurd rfl hsocket
  · have hsize := h.resmap
    unfold units at hsize
    rw [if_neg hcores] at hsize
    rw [if_neg hcores, if_neg hcores]
    have hnode : ∀ x, Occupies S type j x ↔
        x < S.table.length ∧ j.jobResrcs.nodeBitmap.bit x = true := by
      intro x
      cases type with
      | node => exact Iff.rfl
      | cpu => exact Iff.rfl
      | core => exact absurd rfl hcores
      | cpu2 => exact absurd rfl hcores
      | socket => exact absurd rfl hcores
    simp only [hnode]
    cases hmap : row.activeResmap with
    | none =>
      refine ⟨bitCopy j.jobResrcs.nodeBitmap, rfl, hj.nodes_size, fun x => ?_⟩
      rw [bit_iff_coresIn, bit_bitCopy, bitCopy_nbits, hj.nodes_size]
      have hnone : ¬ ∃ k ∈ held, Occupies S type k x := by
        intro hexists
        have hheld : held ≠ [] := ne_nil_of_mem hexists.choose_spec.1
        have hin := (h.occupied hheld x).mpr hexists
        rw [hmap] at hin
        obtain ⟨b, hb, -⟩ := hin
        cases hb
      simp only [hnone, false_or]
    | some resmap =>
      have hsize' := hsize resmap hmap
      by_cases hzero : row.jobsActive = 0
      · have hequal : j.jobResrcs.nodeBitmap.nbits = resmap.nbits := hj.nodes_size.trans hsize'.symm
        refine ⟨bitCopybits resmap j.jobResrcs.nodeBitmap hequal, ?_, hsize', fun x => ?_⟩
        · simp only [if_pos hzero, dif_pos hequal]
        · rw [bit_iff_coresIn, bit_bitCopybits, h.nil_of_count.mp hzero]
          show x < resmap.nbits ∧ _ ↔ _
          rw [hsize']
          simp
      · refine ⟨bitOr resmap j.jobResrcs.nodeBitmap, ?_, ?_, fun x => ?_⟩
        · simp only [if_neg hzero]
        · rw [← hsize']
          exact combine_nbits _ _ _ _
        · have hbits : coresIn (some resmap) x ↔ ∃ k ∈ held, Occupies S type k x := by
            rw [← hmap]
            exact h.occupied (fun hnil => hzero (h.nil_of_count.mpr hnil)) x
          have hnbits : (bitOr resmap j.jobResrcs.nodeBitmap).nbits = S.table.length :=
            (combine_nbits _ _ _ _).trans hsize'
          rw [bit_iff_coresIn, hnbits, bit_bitOr, hsize', hj.nodes_size, Nat.min_self, ← hbits,
            bit_iff_coresIn, hsize', ← and_or_left]
          apply and_congr_right
          intro hx
          rw [if_pos hx, Bool.or_eq_true]

/-- A loop over the nodes that sets the element of each node once, with the place in the array
of the job. -/
theorem foldlM_cpus (rank : Nat → Nat) (value : Nat → Nat → Nat) {size : Nat}
    {step : Nat × List Nat → Nat → Option (Nat × List Nat)}
    (hstep : ∀ i cpus, i < size → cpus.length = size →
      step (rank i, cpus) i = some (rank (i + 1), cpus.set i (value i (cpus.getD i 0))))
    (hlen : cpus.length = size) {m : Nat} (hm : m ≤ size) :
    ∃ cpus', (List.range m).foldlM step (rank 0, cpus) = some (rank m, cpus') ∧
      cpus'.length = size ∧
      ∀ i, i < size → cpus'.getD i 0 = if i < m then value i (cpus.getD i 0) else cpus.getD i 0 := by
  induction m with
  | zero => exact ⟨cpus, rfl, hlen, fun i _ => by rw [if_neg (Nat.not_lt_zero i)]⟩
  | succ m ih =>
    obtain ⟨cpus', hrun, hlen', hvalue⟩ := ih (by omega)
    refine ⟨cpus'.set m (value m (cpus'.getD m 0)), ?_, by simp [hlen'], fun i hi => ?_⟩
    · rw [range_succ, foldlM_append, hrun]
      simp [hstep m cpus' (by omega) hlen']
    · have hm' := hvalue m (by omega)
      rw [if_neg (Nat.lt_irrefl m)] at hm'
      rw [getD_eq_getElem?_getD, getElem?_set, hm']
      by_cases heq : m = i
      · subst heq
        rw [if_pos rfl, if_pos (by omega), if_pos (Nat.lt_succ_self m)]
        rfl
      · rw [if_neg heq, ← getD_eq_getElem?_getD, hvalue i hi]
        simp only [show i < m + 1 ↔ i < m by omega]

/-- What a node has in use after the job was added to the array. -/
def increased (S : Slurmctld) (j : JobRecord) (i used : Nat) : Nat :=
  if j.jobResrcs.nodeBitmap.bit i then
    min ((getPhysBitCnt S i).getD 0) ((used + cpusAt j i) % 0x10000)
  else used

theorem overwriteCpus_eq (hj : Allocated S j) (hcpus : j.jobResrcs.cpus = some cpus)
    (hi : i < S.table.length) (old : List Nat) :
    overwriteCpus j.jobResrcs.nodeBitmap cpus (countRange j.jobResrcs.nodeBitmap.bit 0 i, old) i =
      some (countRange j.jobResrcs.nodeBitmap.bit 0 (i + 1), old.set i (cpusAt j i)) := by
  unfold overwriteCpus
  rw [bitTest_eq, countRange_succ]
  by_cases hbit : j.jobResrcs.nodeBitmap.bit i = true
  · simp [hbit, hj.getElem?_cpus hcpus hi hbit]
  · simp [hbit, cpusAt]

theorem increaseCpus_eq (hj : Allocated S j) (hcpus : j.jobResrcs.cpus = some cpus)
    (hi : i < S.table.length) {old : List Nat} (hold : old.length = S.table.length) :
    increaseCpus S j.jobResrcs.nodeBitmap cpus (countRange j.jobResrcs.nodeBitmap.bit 0 i, old) i =
      some (countRange j.jobResrcs.nodeBitmap.bit 0 (i + 1),
        old.set i (increased S j i (old.getD i 0))) := by
  have hlt : i < old.length := by rw [hold]; exact hi
  unfold increaseCpus increased
  rw [bitTest_eq, countRange_succ, getD_eq_getElem _ _ hlt]
  by_cases hbit : j.jobResrcs.nodeBitmap.bit i = true
  · obtain ⟨n, hn⟩ := hj.nodes i hi hbit
    have hread : getPhysBitCnt S i = some (if getGrType S = .cpu then n.cpus else n.totCores) := by
      unfold getPhysBitCnt
      simp [hn]
    have hmin : ∀ limit sum : Nat, (if limit < sum then limit else sum) = min limit sum := by
      intro limit sum
      split <;> omega
    rw [hread]
    simp only [hbit, if_true, hj.getElem?_cpus hcpus hi hbit, getElem?_eq_getElem hlt,
      Option.bind_eq_bind, Option.bind_some, Option.pure_def, Option.getD_some, hmin]
  · simp [hbit]

/-- The array of the row, with the job added. -/
theorem addToCpus_spec (hS : Configured S) (hj : Allocated S j) (h : Holds S .cpu row held)
    {resmap : Bitstr} (hresmap : resmap.nbits = S.table.length)
    (hjoins : getGrType S = .cpu → ∀ i n, nodeRecord S i = some n →
      (held.map fun k => cpusAt k i).sum + cpusAt j i ≤ n.cpus) :
    ∃ cpus, addToCpus S j.jobResrcs (some resmap) row = some cpus ∧
      cpus.length = S.table.length ∧
      (getGrType S = .cpu → ∀ i n, nodeRecord S i = some n →
        cpus[i]? = some ((held ++ [j]).map fun k => cpusAt k i).sum) := by
  obtain ⟨jCpus, hcpus, -⟩ := hj.cpus
  have hlen : (row.activeCpus.getD (List.replicate S.table.length 0)).length = S.table.length := by
    cases hrow : row.activeCpus with
    | none => simp
    | some cpus => simp [h.cpus cpus hrow]
  have hsum : ∀ i, ((held ++ [j]).map fun k => cpusAt k i).sum =
      (held.map fun k => cpusAt k i).sum + cpusAt j i := by
    intro i
    simp
  unfold addToCpus
  simp only [Option.map_some, hresmap, hcpus, Option.bind_eq_bind, Option.bind_some]
  by_cases hzero : row.jobsActive = 0
  · obtain ⟨cpus, hrun, hlen', hvalue⟩ := foldlM_cpus (countRange j.jobResrcs.nodeBitmap.bit 0)
      (fun i _ => cpusAt j i) (fun i old hi _ => overwriteCpus_eq hj hcpus hi old) hlen (le_refl _)
    rw [countRange_self _ (le_refl 0)] at hrun
    refine ⟨cpus, ?_, hlen', fun _ i n hn => ?_⟩
    · rw [if_pos hzero, hrun]
      rfl
    · have hi := lt_of_nodeRecord hn
      have hget := hvalue i hi
      rw [getD_eq_getElem _ _ (hlen' ▸ hi), if_pos hi] at hget
      rw [getElem?_eq_getElem (hlen' ▸ hi), hget, hsum, h.nil_of_count.mp hzero]
      simp
  · obtain ⟨cpus, hrun, hlen', hvalue⟩ := foldlM_cpus (countRange j.jobResrcs.nodeBitmap.bit 0)
      (increased S j) (fun i old hi hold => increaseCpus_eq hj hcpus hi hold) hlen (le_refl _)
    rw [countRange_self _ (le_refl 0)] at hrun
    refine ⟨cpus, ?_, hlen', fun hgr i n hn => ?_⟩
    · rw [if_neg hzero, hrun]
      rfl
    · have hi := lt_of_nodeRecord hn
      have hget := hvalue i hi
      obtain ⟨pCpus, hpCpus, hused⟩ := h.used (fun hnil => hzero (h.nil_of_count.mpr hnil)) rfl hgr
      rw [getD_eq_getElem _ _ (hlen' ▸ hi), if_pos hi, hpCpus, Option.getD_some,
        getD_eq_getElem?_getD, (hused i n hn).1, Option.getD_some] at hget
      rw [getElem?_eq_getElem (hlen' ▸ hi), hget, hsum]
      have hroom := hjoins hgr i n hn
      have hword := hS.words i n hn
      have hread : getPhysBitCnt S i = some n.cpus := by
        unfold getPhysBitCnt
        simp [hn, hgr]
      unfold increased
      by_cases hbit : j.jobResrcs.nodeBitmap.bit i = true
      · rw [if_pos hbit, hread, Option.getD_some, Nat.mod_eq_of_lt (by omega),
          Nat.min_eq_right hroom]
      · rw [if_neg hbit]
        simp [cpusAt, hbit]

/-- Nodes that a job does not share have room for it. -/
theorem Joins.room (hj : Allocated S j) (h : Holds S .cpu row held) (hjoins : Joins S .cpu held j)
    (hgr : getGrType S = .cpu) {n : NodeRecord} (hn : nodeRecord S i = some n) :
    (held.map fun k => cpusAt k i).sum + cpusAt j i ≤ n.cpus := by
  have hlast := hj.cpus_le i n hn
  by_cases hnil : held = []
  · simp [hnil, hlast]
  obtain ⟨cpus, -, hused⟩ := h.used hnil rfl hgr
  have hheld := (hused i n hn).2
  by_cases hbit : j.jobResrcs.nodeBitmap.bit i = true
  · rcases hjoins with hno | ⟨-, -, hroom⟩
    · have hzero : (held.map fun k => cpusAt k i).sum = 0 := by
        apply sum_eq_zero
        intro c hc
        obtain ⟨k, hk, rfl⟩ := List.mem_map.mp hc
        by_contra hpos
        have hbit' : k.jobResrcs.nodeBitmap.bit i = true := by
          by_contra hclear
          exact hpos (if_neg hclear)
        have hi := lt_of_nodeRecord hn
        exact hno k hk ⟨i, ⟨hi, hbit'⟩, hi, hbit⟩
      omega
    · exact hroom i n hn hbit
  · have hzero : cpusAt j i = 0 := if_neg hbit
    omega

/-- A job that can join those in the row is added: the row holds it too. -/
theorem addJobToActive_spec (hS : Configured S) (hj : Allocated S j)
    (htype : getPartGrType S j.partPtr = type) (hread : SocketsReadable S type j)
    (h : Holds S type row held) (hjoins : Joins S type held j) :
    ∃ row', addJobToActive S j row = some row' ∧ Holds S type row' (held ++ [j]) := by
  obtain ⟨resmap, hadd, hsize, hoccupied⟩ := addToResmap_spec hS hj hread h
  have hresmap : ∀ b, some resmap = some b → b.nbits = units S type := by
    intro b hb
    rw [← Option.some.inj hb]
    exact hsize
  unfold addJobToActive
  simp only [htype, hadd, Option.bind_eq_bind, Option.bind_some]
  by_cases hcpu : type = .cpu
  · subst hcpu
    obtain ⟨cpus, hcpus, hlen, hused⟩ := addToCpus_spec hS hj h hsize
      (fun hgr i n hn => hjoins.room hj h hgr hn)
    refine ⟨⟨row.jobsActive + 1, some resmap, some cpus⟩, ?_, ⟨hresmap, ?_⟩, ?_, ?_, ?_⟩
    · simp [hcpus]
    · intro cpus' hcpus'
      rw [← Option.some.inj hcpus']
      exact hlen
    · simp [h.count]
    · exact fun _ => hoccupied
    · intro _ _ hgr
      refine ⟨cpus, rfl, fun i n hn => ⟨hused hgr i n hn, ?_⟩⟩
      rw [map_append, sum_append]
      simpa using hjoins.room hj h hgr hn
  · refine ⟨⟨row.jobsActive + 1, some resmap, row.activeCpus⟩, ?_, ⟨hresmap, h.cpus⟩, ?_, ?_, ?_⟩
    · simp [hcpu]
    · simp [h.count]
    · exact fun _ => hoccupied
    · intro _ heq
      exact absurd heq hcpu

end Slurm.Gang
