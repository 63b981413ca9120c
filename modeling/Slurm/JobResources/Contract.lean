import Slurm.JobResources.Merge

/-!
# Union and intersection of job resources

`UnionOf` and `IntersectionOf` say what the merges are for, over the node and core
pairs that the operands have.  `algebraContract_iff` gives the condition under which
the code does both.  A cursor starts each record over at zero, where it has read the
record once, so that every record after the first is read for one node too many: the
condition is that this happens to read the right counts (`Aligned`).

With assertions compiled in there is one more: a first operand without nodes makes the
walk start at position `-1` of the node table, which `bit_test` does not allow.
-/

namespace Slurm.JobResources

open Slurm.Bitstring
open Lib.RunLength (expand expand_ones)

/-! ## The contract -/

/-- `r` is the union of `r1` and `r2`. -/
structure UnionOf (r r1 r2 : JobResources) : Prop where
  wf : WellFormed r
  nodes : denote r.nodeBitmap = (denote r1.nodeBitmap).or (denote r2.nodeBitmap)
  count1 : ∀ i ∈ (denote r1.nodeBitmap).elems, coreCount r i = coreCount r1 i
  count2 : ∀ i ∈ (denote r2.nodeBitmap).elems, coreCount r i = coreCount r2 i
  cores : ∀ i c, HasCore r i c ↔ HasCore r1 i c ∨ HasCore r2 i c

/-- The cores of `r` are those that `r1` and `r2` both have. -/
structure IntersectionOf (r r1 r2 : JobResources) : Prop where
  wf : WellFormed r
  cores : ∀ i c, HasCore r i c ↔ HasCore r1 i c ∧ HasCore r2 i c

/-- Both merges succeed, and the first operand becomes what they are named for.  The
second operand is not among what they change. -/
structure AlgebraContract (ndebug : Bool) (r1 r2 : JobResources) : Prop where
  union : ∃ r, jobResourcesOr ndebug r1 r2 = some (true, r) ∧ UnionOf r r1 r2
  intersection : ∃ r, jobResourcesAnd ndebug r1 r2 = some (true, r) ∧ IntersectionOf r r1 r2

/-- No assertion stops the walk: they are not compiled in, or the walk does not start
before the first position. -/
def Walkable (ndebug : Bool) (r1 r2 : JobResources) : Prop :=
  ndebug = true ∨ ¬ NoNodes r1 ∨ NoNodes r2

/-! ## Intersection -/

variable {ndebug : Bool} {r1 r2 : JobResources}

theorem jobResourcesAnd_eq (ho : Operands r1 r2) (hwalk : Walkable ndebug r1 r2) :
    jobResourcesAnd ndebug r1 r2 = some ((cursorsAt r1 r2 r1.nodeBitmap.nbits).rc,
      { r1 with coreBitmap := (andLoop r1 r2 r1.nodeBitmap.nbits).coreBitmap }) := by
  rw [jobResourcesAnd, forNodes_eq ho.same_table andStep_none hwalk, Option.map_some,
    ← andLoop_cursors]
  rfl

theorem hasCore_iff {r : JobResources} {i c : Nat} : HasCore r i c ↔
    i < r.nodeBitmap.nbits ∧ r.nodeBitmap.bit i = true ∧ c < coreCount r i ∧
      r.coreBitmap.bit (coreOffset r i + c) = true := by
  rw [HasCore, mem_denote, and_assoc]

theorem rc_of_aligned (ho : Operands r1 r2) (ha1 : Aligned r1) (ha2 : Aligned r2) :
    (cursorsAt r1 r2 r1.nodeBitmap.nbits).rc = true := by
  rw [cursorsAt_rc ho.wf1 ho.wf2 ho.same_table (Nat.le_refl _)]
  intro i hi h1 h2
  rw [ha1.count hi h1, ha2.count (ho.same_table ▸ hi) h2, ho.count_eq hi h1 h2]

theorem intersection_of_aligned (ho : Operands r1 r2) (hwalk : Walkable ndebug r1 r2)
    (ha1 : Aligned r1) (ha2 : Aligned r2) :
    ∃ r, jobResourcesAnd ndebug r1 r2 = some (true, r) ∧ IntersectionOf r r1 r2 := by
  obtain ⟨hsize, hcores, -⟩ := andLoop_cores ho ha1 ha2 (Nat.le_refl _)
  have heq := jobResourcesAnd_eq ho hwalk
  rw [rc_of_aligned ho ha1 ha2] at heq
  refine ⟨_, heq, { wf := ?_, cores := fun i c => ?_ }⟩
  · exact { ho.wf1 with cores_fit := Nat.le_trans ho.wf1.cores_fit (Nat.le_of_eq hsize.symm) }
  · rw [hasCore_iff, hasCore_iff, hasCore_iff]
    show i < r1.nodeBitmap.nbits ∧ r1.nodeBitmap.bit i = true ∧ c < coreCount r1 i ∧
      (andLoop r1 r2 r1.nodeBitmap.nbits).coreBitmap.bit (coreOffset r1 i + c) = true ↔ _
    constructor
    · rintro ⟨hi, h1, hc, hbit⟩
      rw [hcores i c hi h1 hc, Bool.and_eq_true, Bool.and_eq_true] at hbit
      obtain ⟨hbit1, h2, hbit2⟩ := hbit
      have hcount := ho.count_eq hi h1 h2
      exact ⟨⟨hi, h1, hc, hbit1⟩, ho.same_table ▸ hi, h2, hcount ▸ hc, hbit2⟩
    · rintro ⟨⟨hi, h1, hc, hbit1⟩, -, h2, -, hbit2⟩
      refine ⟨hi, h1, hc, ?_⟩
      rw [hcores i c hi h1 hc, hbit1, h2, hbit2]
      rfl

/-! ## Union -/

/-- What the loop of `job_resources_or` leaves as the first operand. -/
def unionResult (hcores : ValidSize (coreBits r1 r2)) : JobResources :=
  let s : OrState := orLoop hcores r1.nodeBitmap.nbits
  { nodeBitmap := s.nodeBitmap
    coreBitmap := s.coreBitmap
    socketsPerNode := s.socketsPerNode
    coresPerSocket := s.coresPerSocket
    sockCoreRepCount := s.sockCoreRepCount
    nhosts := s.nodeInx }

variable (hcores : ValidSize (coreBits r1 r2))

theorem jobResourcesOr_eq (ho : Operands r1 r2) (hwalk : Walkable ndebug r1 r2) :
    jobResourcesOr ndebug r1 r2
      = some ((cursorsAt r1 r2 r1.nodeBitmap.nbits).rc, unionResult hcores) := by
  rw [jobResourcesOr, dif_pos hcores, forNodes_eq ho.same_table orStep_none hwalk, Option.map_some,
    ← orLoop_cursors hcores]
  rfl

theorem union_nodes (ho : Operands r1 r2) :
    (unionResult hcores).nodeBitmap.nbits = r1.nodeBitmap.nbits ∧
      ∀ i, i < r1.nodeBitmap.nbits →
        (unionResult hcores).nodeBitmap.bit i = unionBit r1 r2 i := by
  have hlayout := orLoop_layout hcores ho (Nat.le_refl _)
  refine ⟨hlayout.nodes_size, fun i hi => ?_⟩
  rw [unionResult, hlayout.nodes, decide_eq_true hi, Bool.true_and]

theorem union_hostIndex (ho : Operands r1 r2) {i : Nat} (hi : i ≤ r1.nodeBitmap.nbits) :
    hostIndex (unionResult hcores) i = countRange (unionBit r1 r2) 0 i :=
  countRange_congr fun _ _ hk => (union_nodes hcores ho).2 _ (Nat.lt_of_lt_of_le hk hi)

theorem union_count (ho : Operands r1 r2) {i : Nat} (hi : i < r1.nodeBitmap.nbits)
    (hbit : unionBit r1 r2 i = true) : coreCount (unionResult hcores) i = unionCount r1 r2 i := by
  have hlayout := orLoop_layout hcores ho (Nat.le_refl _)
  have hlt : countRange (unionBit r1 r2) 0 i
      < (orLoop hcores r1.nodeBitmap.nbits).nodeInx := by
    rw [hlayout.nodeInx]
    exact countRange_lt hi hbit
  rw [coreCount, union_hostIndex hcores ho (Nat.le_of_lt hi)]
  simp only [unionResult]
  rw [hlayout.reps, expand_ones _ hlt]
  exact hlayout.counts i hi hbit

theorem union_offset (ho : Operands r1 r2) {n : Nat} (hn : n ≤ r1.nodeBitmap.nbits) :
    coreOffset (unionResult hcores) n = unionOffset r1 r2 n := by
  rw [coreOffset, unionOffset, sumBefore, sumBefore]
  refine Finset.sum_congr rfl fun i hi => ?_
  have hlt : i < r1.nodeBitmap.nbits := Nat.lt_of_lt_of_le (Finset.mem_range.mp hi) hn
  rw [(union_nodes hcores ho).2 i hlt]
  split
  · rename_i hbit
    rw [union_count hcores ho hlt hbit]
  · rfl

theorem union_wf (ho : Operands r1 r2) (ha1 : Aligned r1) (ha2 : Aligned r2) :
    WellFormed (unionResult hcores) := by
  have hlayout := orLoop_layout hcores ho (Nat.le_refl _)
  have hcard : (denote (unionResult hcores).nodeBitmap).elems.card
      = (orLoop hcores r1.nodeBitmap.nbits).nodeInx := by
    rw [card_eq_hostIndex, (union_nodes hcores ho).1, union_hostIndex hcores ho (Nat.le_refl _),
      hlayout.nodeInx]
  have hle : (orLoop hcores r1.nodeBitmap.nbits).nodeInx ≤ records r1 r2 := by
    rw [hlayout.nodeInx, records, ho.same_table.symm]
    exact unionIndex_le r1 r2 _
  have hlength : (orLoop hcores r1.nodeBitmap.nbits).sockCoreRepCount.length = records r1 r2 := by
    rw [hlayout.reps, List.length_append, List.length_replicate, List.length_replicate]
    omega
  refine
    { sockets_length := hlayout.sockets_length.trans hlength.symm
      cores_length := hlayout.cores_length.trans hlength.symm
      records := ?_
      nhosts := hcard.symm
      cores_fit := ?_ }
  · rw [hcard]
    simp only [unionResult]
    rw [hlayout.reps, List.sum_append, List.sum_replicate, List.sum_replicate]
    simp
  · rw [(union_nodes hcores ho).1, union_offset hcores ho (Nat.le_refl _)]
    have hfit1 := ho.wf1.cores_fit
    have hfit2 := ho.wf2.cores_fit
    have hoff := unionOffset_le ho ha1 ha2 (Nat.le_refl _)
    have hsize := (orLoop_cores hcores ho ha1 ha2 (Nat.le_refl _)).size
    rw [← ho.same_table] at hfit2
    simp only [unionResult]
    rw [hsize, coreBits]
    omega

theorem union_of_aligned (ho : Operands r1 r2) (ha1 : Aligned r1) (ha2 : Aligned r2) :
    UnionOf (unionResult hcores) r1 r2 := by
  obtain ⟨hn, hbits⟩ := union_nodes hcores ho
  have hcount1 : ∀ i, i < r1.nodeBitmap.nbits → r1.nodeBitmap.bit i = true →
      coreCount (unionResult hcores) i = coreCount r1 i := by
    intro i hi h1
    rw [union_count hcores ho hi (by rw [unionBit, h1, Bool.true_or]), unionCount, if_pos h1,
      ha1.count hi h1]
  have hcount2 : ∀ i, i < r1.nodeBitmap.nbits → r2.nodeBitmap.bit i = true →
      coreCount (unionResult hcores) i = coreCount r2 i := by
    intro i hi h2
    by_cases h1 : r1.nodeBitmap.bit i = true
    · rw [hcount1 i hi h1, ho.count_eq hi h1 h2]
    · rw [union_count hcores ho hi (by rw [unionBit, h2, Bool.or_true]), unionCount, if_neg h1,
        ha2.count (ho.same_table ▸ hi) h2]
  refine { wf := union_wf hcores ho ha1 ha2, nodes := ?_, count1 := ?_, count2 := ?_, cores := ?_ }
  · refine denote_eq_iff.mpr ⟨hn, fun i hi => ?_⟩
    rw [denote_size] at hi
    rw [hbits i hi, Finset.mem_union, mem_denote, mem_denote, unionBit, Bool.or_eq_true,
      ← ho.same_table]
    simp only [hi, true_and]
  · intro i hi
    rw [mem_denote] at hi
    exact hcount1 i hi.1 hi.2
  · intro i hi
    rw [mem_denote] at hi
    exact hcount2 i (ho.same_table.symm ▸ hi.1) hi.2
  · intro i c
    rw [hasCore_iff, hasCore_iff, hasCore_iff, hn, ← ho.same_table]
    by_cases hi : i < r1.nodeBitmap.nbits
    · simp only [hi, true_and]
      rw [hbits i hi]
      have hcore : c < coreCount (unionResult hcores) i → unionBit r1 r2 i = true →
          ((unionResult hcores).coreBitmap.bit (coreOffset (unionResult hcores) i + c) = true ↔
            unionCore r1 r2 i c = true) := by
        intro hc hbit
        rw [union_count hcores ho hi hbit] at hc
        rw [union_offset hcores ho (Nat.le_of_lt hi), unionResult,
          (orLoop_cores hcores ho ha1 ha2 (Nat.le_refl _)).cores i c hi hbit hc]
      constructor
      · rintro ⟨hbit, hc, hset⟩
        rw [hcore hc hbit, unionCore, Bool.or_eq_true, Bool.and_eq_true, Bool.and_eq_true] at hset
        rcases hset with ⟨h1, hset⟩ | ⟨h2, hset⟩
        · exact Or.inl ⟨h1, hcount1 i hi h1 ▸ hc, hset⟩
        · exact Or.inr ⟨h2, hcount2 i hi h2 ▸ hc, hset⟩
      · rintro (⟨h1, hc, hset⟩ | ⟨h2, hc, hset⟩)
        · have hbit : unionBit r1 r2 i = true := by rw [unionBit, h1, Bool.true_or]
          have hc' := (hcount1 i hi h1).symm ▸ hc
          refine ⟨hbit, hc', (hcore hc' hbit).mpr ?_⟩
          rw [unionCore, h1, hset]
          rfl
        · have hbit : unionBit r1 r2 i = true := by rw [unionBit, h2, Bool.or_true]
          have hc' := (hcount2 i hi h2).symm ▸ hc
          refine ⟨hbit, hc', (hcore hc' hbit).mpr ?_⟩
          rw [unionCore, h2, hset, Bool.true_and, Bool.or_true]
    · simp only [hi, false_and, or_self]

/-! ## The condition -/

theorem walkable_of_union
    (h : ∃ r, jobResourcesOr ndebug r1 r2 = some (true, r) ∧ UnionOf r r1 r2) :
    Walkable ndebug r1 r2 := by
  obtain ⟨r, heq, -⟩ := h
  by_contra hwalk
  rw [Walkable, not_or, not_or, not_not, Bool.not_eq_true] at hwalk
  obtain ⟨rfl, h1, h2⟩ := hwalk
  rw [jobResourcesOr] at heq
  split at heq
  · rw [forNodes_eq_none h1 h2] at heq
    cases heq
  · cases heq

include hcores in
/-- A union with the right counts comes from cursors that read them. -/
theorem aligned_of_union (ho : Operands r1 r2)
    (h : ∃ r, jobResourcesOr ndebug r1 r2 = some (true, r) ∧ UnionOf r r1 r2) :
    Aligned r1 ∧ Aligned r2 := by
  have hwalk := walkable_of_union h
  obtain ⟨r, heq, hunion⟩ := h
  rw [jobResourcesOr_eq hcores ho hwalk, Option.some.injEq, Prod.mk.injEq] at heq
  obtain ⟨hrc, rfl⟩ := heq
  rw [cursorsAt_rc ho.wf1 ho.wf2 ho.same_table (Nat.le_refl _)] at hrc
  constructor
  · intro i hi
    have hcount := hunion.count1 i hi
    rw [mem_denote] at hi
    rwa [union_count hcores ho hi.1 (by rw [unionBit, hi.2, Bool.true_or]), unionCount,
      if_pos hi.2] at hcount
  · intro i hi
    have hcount := hunion.count2 i hi
    rw [mem_denote, ← ho.same_table] at hi
    rw [union_count hcores ho hi.1 (by rw [unionBit, hi.2, Bool.or_true]), unionCount] at hcount
    split at hcount
    · rename_i h1
      rw [← hrc i hi.1 h1 hi.2]
      exact hcount
    · exact hcount

/-- The merges are the set operations exactly when the cursors read the cores of each
node, and no assertion stops the walk. -/
theorem algebraContract_iff (ndebug : Bool) (r1 r2 : JobResources) (ho : Operands r1 r2)
    (hcores : ValidSize (coreBits r1 r2)) :
    AlgebraContract ndebug r1 r2 ↔ Walkable ndebug r1 r2 ∧ Aligned r1 ∧ Aligned r2 := by
  constructor
  · intro h
    exact ⟨walkable_of_union h.union, aligned_of_union hcores ho h.union⟩
  · rintro ⟨hwalk, ha1, ha2⟩
    refine ⟨⟨unionResult hcores, ?_, union_of_aligned hcores ho ha1 ha2⟩,
      intersection_of_aligned ho hwalk ha1 ha2⟩
    rw [jobResourcesOr_eq hcores ho hwalk, rc_of_aligned ho ha1 ha2]

/-- Every bit of `len` bits set. -/
def allSet (len : Nat) (h : ValidSize len) : Bitstr := bitNot (bitAlloc len h)

/-- Nodes 0, 1 and 2 of three, with one, one and two cores. -/
def threeRecords : JobResources where
  nodeBitmap := allSet 3 (by decide)
  coreBitmap := allSet 4 (by decide)
  socketsPerNode := [1, 1, 1]
  coresPerSocket := [1, 1, 2]
  sockCoreRepCount := [1, 1, 1]
  nhosts := 3

/-- Node 0 of three, with one core. -/
def oneNode : JobResources where
  nodeBitmap := bitSet (bitAlloc 3 (by decide)) 0
  coreBitmap := allSet 1 (by decide)
  socketsPerNode := [1]
  coresPerSocket := [1]
  sockCoreRepCount := [1]
  nhosts := 1

/-- Node 2 comes out of the union with one core. -/
theorem algebraContract_fails : ¬ AlgebraContract true threeRecords oneNode := by
  intro h
  obtain ⟨r, heq, hunion⟩ := h.union
  have hcount : (jobResourcesOr true threeRecords oneNode).map (fun x => coreCount x.2 2) = some 1 := by
    decide +kernel
  rw [heq, Option.map_some, Option.some.injEq] at hcount
  have hcore : HasCore threeRecords 2 1 := by
    rw [hasCore_iff]
    decide +kernel
  have hin := ((hunion.cores 2 1).mpr (Or.inl hcore)).2.1
  rw [hcount] at hin
  exact Nat.lt_irrefl 1 hin

/-- Nodes 0 and 1 of three, with one and two cores. -/
def twoRecords : JobResources where
  nodeBitmap := bitClear (allSet 3 (by decide)) 2
  coreBitmap := allSet 3 (by decide)
  socketsPerNode := [1, 1]
  coresPerSocket := [1, 2]
  sockCoreRepCount := [1, 1]
  nhosts := 2

theorem algebraContract_iff_witness :
    (Operands twoRecords oneNode ∧ ValidSize (coreBits twoRecords oneNode)) ∧
      (AlgebraContract false twoRecords oneNode ↔
        Walkable false twoRecords oneNode ∧ Aligned twoRecords ∧ Aligned oneNode) := by
  have ho : Operands twoRecords oneNode :=
    { wf1 :=
        { sockets_length := rfl
          cores_length := rfl
          records := by decide +kernel
          nhosts := by decide +kernel
          cores_fit := by decide +kernel }
      wf2 :=
        { sockets_length := rfl
          cores_length := rfl
          records := by decide +kernel
          nhosts := by decide +kernel
          cores_fit := by decide +kernel }
      same_table := rfl
      same_count := by decide +kernel }
  have hcores : ValidSize (coreBits twoRecords oneNode) := by decide
  exact ⟨⟨ho, hcores⟩, algebraContract_iff false twoRecords oneNode ho hcores⟩

end Slurm.JobResources
