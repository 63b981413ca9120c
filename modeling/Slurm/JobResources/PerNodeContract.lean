import Slurm.JobResources.PerNode

/-!
# Each node has its cores

`OffsetContract` says that `get_job_resources_offset` numbers the cores of the allocation,
`NodeContract` that the functions for a node work on the bits of its cores, and
`BitsCopyContract` that `job_resources_bits_copy` takes over the bits of one node.

`perNodeContract_iff` gives the condition.  A node number behind the last node is only
refused because its offset is not in the core bit string, so the bit string must not have
room for more cores (`offsetContract_iff`).  `job_resources_bits_copy` looks up the two nodes
and then takes over all bits, so all bits must be those of the node
(`bitsCopyContract_iff`).
-/

namespace Slurm.JobResources

open Slurm.Bitstring Option Finset Nat
open Lib.Blocks

variable {h s c : Nat}

/-! ## The contract -/

/-- The core is one of the allocation. -/
def ValidTriple (r : JobResources) (nodeId socketId coreId : Nat) : Prop :=
  nodeId < r.nhosts ∧ socketId < sockets r nodeId ∧ coreId < socketCores r nodeId

/-- The offset numbers the cores of the allocation, and there are no others. -/
structure OffsetContract (r : JobResources) : Prop where
  valid : ∀ h s c, ValidTriple r h s c →
    ∃ k, k < totalCores r ∧ getJobResourcesOffset r h s c = some k
  injective : ∀ h s c h' s' c', ValidTriple r h s c → ValidTriple r h' s' c' →
    getJobResourcesOffset r h s c = getJobResourcesOffset r h' s' c' → h = h' ∧ s = s' ∧ c = c'
  onto : ∀ k, k < totalCores r →
    ∃ h s c, ValidTriple r h s c ∧ getJobResourcesOffset r h s c = some k
  invalid : ∀ h s c, ¬ ValidTriple r h s c → getJobResourcesOffset r h s c = none

/-- The cores of a node that are set. -/
def setCores (r : JobResources) (h : Nat) : Finset (Nat × Nat) :=
  (Finset.range (sockets r h) ×ˢ Finset.range (socketCores r h)).filter fun p =>
    getJobResourcesBit r h p.1 p.2 = some true

/-- The cores of a node get a value, and no other bit changes. -/
structure Changed (r : JobResources) (h : Nat) (v : Bool) (res : Bool × JobResources) : Prop where
  rc : res.1 = true ↔ 0 < hostCores r h
  frame : res.2 = { r with coreBitmap := res.2.coreBitmap }
  size : res.2.coreBitmap.nbits = r.coreBitmap.nbits
  own : ∀ s c, ValidTriple r h s c → getJobResourcesBit res.2 h s c = some v
  rest : ∀ k, (∀ s c, ValidTriple r h s c → getJobResourcesOffset r h s c ≠ some k) →
    res.2.coreBitmap.bit k = r.coreBitmap.bit k

/-- The functions for node `h` work on the bits of its cores. -/
structure NodeContract (r : JobResources) (h : Nat) : Prop where
  get : getJobResourcesNode r h = true ↔
    ∃ s c, ValidTriple r h s c ∧ getJobResourcesBit r h s c = some true
  count : countJobResourcesNode r h = (setCores r h).card
  copy_none : copyJobResourcesNode r h = none ↔ hostCores r h = 0
  copy : ∀ b, copyJobResourcesNode r h = some b → b.nbits = hostCores r h ∧
    ∀ s c, ValidTriple r h s c →
      getJobResourcesBit r h s c = some (b.bit (socketCores r h * s + c))
  set : Changed r h true (setJobResourcesNode r h)
  clear : Changed r h false (clearJobResourcesNode r h)

/-- Two structures with nodes, and one of the nodes of each. -/
structure CopyCase where
  newRes : UsedResources
  new_hosted : Hosted newRes.toJobResources
  new_size : newRes.coreBitmapUsed.nbits = newRes.coreBitmap.nbits
  newNodeOffset : Nat
  fromRes : UsedResources
  from_hosted : Hosted fromRes.toJobResources
  from_size : fromRes.coreBitmapUsed.nbits = fromRes.coreBitmap.nbits
  fromNodeOffset : Nat

namespace CopyCase

variable (p : CopyCase)

/-- Both nodes are there. -/
def Known : Prop := p.newNodeOffset < p.newRes.nhosts ∧ p.fromNodeOffset < p.fromRes.nhosts

/-- The nodes have as many cores. -/
def SameCores : Prop :=
  hostCores p.newRes.toJobResources p.newNodeOffset
    = hostCores p.fromRes.toJobResources p.fromNodeOffset

instance : Decidable p.SameCores := inferInstanceAs (Decidable (_ = _))

/-- Bit `k` is one of the node of `new_job_resrcs_ptr`, and the bit of that core is set in the
node of `from_job_resrcs_ptr`, whose bits are `b`. -/
def Moved (b : Bitstr) (k : Nat) : Prop :=
  nodeStart p.newRes.toJobResources p.newNodeOffset ≤ k ∧
    k < nodeStart p.newRes.toJobResources p.newNodeOffset
      + hostCores p.newRes.toJobResources p.newNodeOffset ∧
    b.bit (nodeStart p.fromRes.toJobResources p.fromNodeOffset
      + (k - nodeStart p.newRes.toJobResources p.newNodeOffset)) = true

/-- The return code, and what `new_job_resrcs_ptr` becomes. -/
def result : Bool × UsedResources :=
  jobResourcesBitsCopy p.newRes p.newNodeOffset p.fromRes p.fromNodeOffset

end CopyCase

/-- The set bits of `b'` are those of `b` and those of the node. -/
structure Ored (p : CopyCase) (source b b' : Bitstr) : Prop where
  size : b'.nbits = b.nbits
  bits : ∀ k, k < b.nbits → (b'.bit k = true ↔ b.bit k = true ∨ p.Moved source k)

/-- The bits of the node of one structure are taken over into the node of the other. -/
structure BitsCopyContract (p : CopyCase) : Prop where
  rc : p.result.1 = true ↔ p.Known ∧ p.SameCores
  frame : p.result.2 = { p.newRes with
    coreBitmap := p.result.2.coreBitmap, coreBitmapUsed := p.result.2.coreBitmapUsed }
  cores : p.result.1 = true →
    Ored p p.fromRes.coreBitmap p.newRes.coreBitmap p.result.2.coreBitmap
  used : p.result.1 = true →
    Ored p p.fromRes.coreBitmapUsed p.newRes.coreBitmapUsed p.result.2.coreBitmapUsed
  error : p.result.1 = false →
    denote p.result.2.coreBitmap = denote p.newRes.coreBitmap ∧
      denote p.result.2.coreBitmapUsed = denote p.newRes.coreBitmapUsed

/-- A structure with nodes, and a copy between two others. -/
structure PerNodeCase extends CopyCase where
  r : JobResources
  hosted : Hosted r

/-- Cores are numbered, and what is done to a node is done to its cores. -/
structure PerNodeContract (p : PerNodeCase) : Prop where
  offsets : OffsetContract p.r
  nodes : ∀ h, NodeContract p.r h
  copies : BitsCopyContract p.toCopyCase

/-! ## The condition -/

/-- The core bit string has the cores of the nodes and no more. -/
def Exact (r : JobResources) : Prop := r.coreBitmap.nbits = totalCores r

/-- Of the bits that `b` lacks, `source` has set those that come from the node, or none when
the nodes do not have as many cores. -/
def Alone (p : CopyCase) (source b : Bitstr) : Prop :=
  ∀ k, k < b.nbits → b.bit k = false →
    (k < source.nbits ∧ source.bit k = true ↔ p.SameCores ∧ p.Moved source k)

/-! ## Offsets -/

variable {r : JobResources}

/-- The bit of a core. -/
def coreAt (r : JobResources) (h s c : Nat) : Nat := nodeStart r h + socketCores r h * s + c

theorem coreAt_inBlock (hv : ValidTriple r h s c) : InBlock (coreCounts r) h (coreAt r h s c) := by
  obtain ⟨-, hs, hc⟩ := hv
  have hle : socketCores r h * (s + 1) ≤ socketCores r h * sockets r h :=
    Nat.mul_le_mul_left _ hs
  rw [mul_succ] at hle
  unfold InBlock
  rw [getD_coreCounts]
  show nodeStart r h ≤ coreAt r h s c ∧ coreAt r h s c < nodeStart r h + hostCores r h
  unfold coreAt hostCores
  omega

theorem coreAt_lt (hv : ValidTriple r h s c) : coreAt r h s c < totalCores r := by
  have hblock := coreAt_inBlock hv
  have hle := start_add_le_sum (coreCounts r) h
  exact Nat.lt_of_lt_of_le hblock.2 hle

/-- The place of a core in its node. -/
theorem exists_core {k : Nat} (hk : k < hostCores r h) :
    ∃ s c, s < sockets r h ∧ c < socketCores r h ∧ socketCores r h * s + c = k := by
  have hpos : 0 < socketCores r h := by
    rcases Nat.eq_zero_or_pos (socketCores r h) with hzero | hpos
    · rw [hostCores, hzero, Nat.zero_mul] at hk
      exact absurd hk (Nat.not_lt_zero k)
    · exact hpos
  refine ⟨k / socketCores r h, k % socketCores r h, ?_, mod_lt _ hpos, div_add_mod _ _⟩
  rw [Nat.div_lt_iff_lt_mul hpos, Nat.mul_comm]
  exact hk

theorem coreAt_inj {h' s' c' : Nat} (hv : ValidTriple r h s c) (hv' : ValidTriple r h' s' c')
    (heq : coreAt r h s c = coreAt r h' s' c') : h = h' ∧ s = s' ∧ c = c' := by
  have hblock := coreAt_inBlock hv
  have hblock' := coreAt_inBlock hv'
  rw [← heq] at hblock'
  have hnode := block_unique hblock hblock'
  subst hnode
  unfold coreAt at heq
  have hpos : 0 < socketCores r h := zero_lt_of_lt hv.2.2
  have hplace : socketCores r h * s + c = socketCores r h * s' + c' := by omega
  have hdiv := congrArg (· / socketCores r h) hplace
  simp only [mul_add_div hpos, div_eq_of_lt hv.2.2, div_eq_of_lt hv'.2.2] at hdiv
  have hsocket : s = s' := by omega
  subst hsocket
  exact ⟨rfl, rfl, by omega⟩

/-- The offset of a core of a node of the allocation. -/
theorem offset_of_lt (hr : Hosted r) (hlt : h < r.nhosts) (s c : Nat) :
    getJobResourcesOffset r h s c =
      if s < sockets r h ∧ c < socketCores r h then some (coreAt r h s c) else none := by
  obtain ⟨w, i, place, hseek, hsockets, hsocketCores, -, hstart⟩ := hr.seekNode hlt
  unfold getJobResourcesOffset
  rw [hseek]
  dsimp only
  rw [hsockets, hsocketCores, hstart]
  by_cases hs : s < sockets r h
  · by_cases hc : c < socketCores r h
    · have hbound := Nat.lt_of_lt_of_le (coreAt_lt ⟨hlt, hs, hc⟩) hr.cores_fit
      rw [if_neg (Nat.not_le_of_lt hs), if_neg (Nat.not_le_of_lt hc), if_pos ⟨hs, hc⟩]
      exact if_neg (Nat.not_le_of_lt hbound)
    · rw [if_neg (Nat.not_le_of_lt hs), if_pos (Nat.le_of_not_lt hc), if_neg fun h => hc h.2]
  · rw [if_pos (Nat.le_of_not_lt hs), if_neg fun h => hs h.1]

theorem offset_of_valid (hr : Hosted r) (hv : ValidTriple r h s c) :
    getJobResourcesOffset r h s c = some (coreAt r h s c) := by
  rw [offset_of_lt hr hv.1, if_pos hv.2]

/-- An offset behind the nodes is behind their cores. -/
theorem offset_of_le (hexact : Exact r) (hle : r.nhosts ≤ h) (s c : Nat) :
    getJobResourcesOffset r h s c = none := by
  have hbehind : ∀ k, totalCores r ≤ k → inBitmap r k = none := by
    intro k hk
    exact if_pos (hexact ▸ hk)
  unfold getJobResourcesOffset
  by_cases hlt : h < (hostReps r).sum
  · obtain ⟨w, i, place, hseek, -, hweight⟩ := seekNode_of_lt hlt
    have htotal := totalCores_le_start r hle
    rw [hseek]
    dsimp only
    split
    · rfl
    · split
      · rfl
      · exact hbehind _ (by omega)
  · have htotal := totalCores_le_start r hle
    rw [seekNode_of_le (Nat.le_of_not_lt hlt)]
    exact hbehind _ (Nat.le_trans htotal (start_le_sum _ _))

/-- With room for more cores, some node behind the last one has an offset: the first behind
the nodes that has a core, or the first behind the records. -/
theorem exists_offset (hr : Hosted r) (hroom : totalCores r < r.coreBitmap.nbits) :
    ∃ h s c, r.nhosts ≤ h ∧ getJobResourcesOffset r h s c ≠ none := by
  have hstart : start (allCores r) r.nhosts = totalCores r := by
    unfold totalCores
    rw [coreCounts_eq]
    rfl
  have hinside : inBitmap r (totalCores r) ≠ none := by
    unfold inBitmap
    rw [if_neg (Nat.not_le_of_lt hroom)]
    exact some_ne_none _
  have hlength : (allCores r).length = (hostReps r).sum := by
    unfold allCores
    rw [List.length_map, Lib.RunLength.expand_length]
  obtain ⟨h, hle, hsame, hend⟩ := exists_nonempty (allCores r) (hlength ▸ hr.records)
  refine ⟨h, 0, 0, hle, ?_⟩
  rw [hstart] at hsame
  unfold getJobResourcesOffset
  rcases hend with heq | ⟨hlt, hpos⟩
  · rw [seekNode_of_le (Nat.le_of_eq (hlength.symm.trans heq.symm)),
      ← start_of_length_le (Nat.le_of_eq heq.symm), hsame]
    exact hinside
  · obtain ⟨w, i, place, hseek, hget, hweight⟩ := seekNode_of_lt (hlength ▸ hlt)
    have hcount : (allCores r).getD h 0 = r.cores i := by
      unfold allCores
      rw [List.getD_eq_getElem?_getD, List.getElem?_map, hget]
      rfl
    rw [hcount] at hpos
    have hsockets : 0 < r.socketsPerNode.getD i 0 := Nat.pos_of_mul_pos_left hpos
    have hsocketCores : 0 < r.coresPerSocket.getD i 0 := Nat.pos_of_mul_pos_right hpos
    rw [hseek]
    dsimp only
    rw [if_neg (Nat.not_le_of_lt hsockets), if_neg (Nat.not_le_of_lt hsocketCores), Nat.mul_zero,
      hweight, hsame]
    exact hinside

/-- The offset numbers the cores exactly when the bit string has no room for more. -/
theorem offsetContract_iff (hr : Hosted r) : OffsetContract r ↔ Exact r := by
  constructor
  · intro h
    by_contra hne
    obtain ⟨h', s, c, hle, hsome⟩ :=
      exists_offset hr (Nat.lt_of_le_of_ne hr.cores_fit fun heq => hne heq.symm)
    exact hsome (h.invalid h' s c fun hv => Nat.not_lt_of_le hle hv.1)
  · intro hexact
    refine { valid := ?_, injective := ?_, onto := ?_, invalid := ?_ }
    · intro h s c hv
      exact ⟨_, coreAt_lt hv, offset_of_valid hr hv⟩
    · intro h s c h' s' c' hv hv' heq
      rw [offset_of_valid hr hv, offset_of_valid hr hv', Option.some.injEq] at heq
      exact coreAt_inj hv hv' heq
    · intro k hk
      obtain ⟨h, hlt, hblock⟩ := exists_block hk
      rw [hr.length_coreCounts] at hlt
      obtain ⟨hlo, hhi⟩ := hblock
      rw [getD_coreCounts] at hhi
      obtain ⟨s, c, hs, hc, hplace⟩ :=
        exists_core (show k - start (coreCounts r) h < hostCores r h by omega)
      have hv : ValidTriple r h s c := ⟨hlt, hs, hc⟩
      refine ⟨h, s, c, hv, ?_⟩
      rw [offset_of_valid hr hv, Option.some.injEq]
      unfold coreAt nodeStart
      omega
    · intro h s c hv
      by_cases hlt : h < r.nhosts
      · rw [offset_of_lt hr hlt, if_neg fun hin => hv ⟨hlt, hin⟩]
      · exact offset_of_le hexact (Nat.le_of_not_lt hlt) s c

/-! ## The bits of a node -/

theorem bit_of_valid (hr : Hosted r) (hv : ValidTriple r h s c) :
    getJobResourcesBit r h s c = some (r.coreBitmap.bit (coreAt r h s c)) := by
  unfold getJobResourcesBit
  rw [offset_of_valid hr hv, map_some, bitTest_eq]

/-- Place `i` of the bits of a node is a core. -/
theorem exists_valid (hr : Hosted r) {i : Nat} (hi : i < hostCores r h) :
    ∃ s c, ValidTriple r h s c ∧ coreAt r h s c = nodeStart r h + i := by
  have hlt : h < r.nhosts := by
    by_contra hge
    rw [hostCores_of_le hr (Nat.le_of_not_lt hge)] at hi
    exact Nat.not_lt_zero i hi
  obtain ⟨s, c, hs, hc, hplace⟩ := exists_core hi
  refine ⟨s, c, ⟨hlt, hs, hc⟩, ?_⟩
  rw [coreAt, Nat.add_assoc, hplace]

theorem hostCores_pos (hv : ValidTriple r h s c) : 0 < hostCores r h :=
  Nat.mul_pos (zero_lt_of_lt hv.2.2) (zero_lt_of_lt hv.2.1)

/-- A core has a place in the bits of its node. -/
theorem coreAt_place (hv : ValidTriple r h s c) :
    socketCores r h * s + c < hostCores r h ∧
      coreAt r h s c = nodeStart r h + (socketCores r h * s + c) := by
  have hblock := (coreAt_inBlock hv).2
  have heq : coreAt r h s c = nodeStart r h + (socketCores r h * s + c) := Nat.add_assoc _ _ _
  rw [getD_coreCounts, heq] at hblock
  exact ⟨Nat.lt_of_add_lt_add_left hblock, heq⟩

/-- The bits of any node, where there is no room for more cores. -/
theorem nodeCores_eq (hr : Hosted r) (hexact : Exact r) (h : Nat) :
    nodeCores r h = if hostCores r h = 0 then none else some (nodeStart r h, hostCores r h) := by
  by_cases hlt : h < r.nhosts
  · exact nodeCores_of_lt hr hlt
  · have hle := Nat.le_of_not_lt hlt
    rw [nodeCores_of_le hexact hle, if_pos (hostCores_of_le hr hle)]

theorem countP_range (p : Nat → Bool) (n : Nat) :
    (List.range n).countP p = ((Finset.range n).filter fun i => p i = true).card := by
  have hcount := countRange_eq_card p 0 n
  rw [countRange, Nat.sub_zero, ← List.range_eq_range'] at hcount
  simpa only [Nat.zero_le, true_and] using hcount

/-- The cores of a node that are set, counted by their places. -/
theorem card_setCores (hr : Hosted r) (h : Nat) :
    (setCores r h).card = (List.range (hostCores r h)).countP fun i =>
      r.coreBitmap.bit (nodeStart r h + i) := by
  rw [countP_range]
  by_cases hlt : h < r.nhosts
  · have hmem : ∀ p ∈ setCores r h, ValidTriple r h p.1 p.2 ∧
        r.coreBitmap.bit (coreAt r h p.1 p.2) = true := by
      intro p hp
      obtain ⟨hin, hbit⟩ := Finset.mem_filter.mp hp
      obtain ⟨hs, hc⟩ := Finset.mem_product.mp hin
      have hv : ValidTriple r h p.1 p.2 := ⟨hlt, Finset.mem_range.mp hs, Finset.mem_range.mp hc⟩
      rw [bit_of_valid hr hv, Option.some.injEq] at hbit
      exact ⟨hv, hbit⟩
    refine card_bij (fun p _ => socketCores r h * p.1 + p.2) ?_ ?_ ?_
    · intro p hp
      obtain ⟨hv, hbit⟩ := hmem p hp
      obtain ⟨hplace, heq⟩ := coreAt_place hv
      rw [Finset.mem_filter, Finset.mem_range]
      exact ⟨hplace, heq ▸ hbit⟩
    · intro p hp q hq heq
      have hv := (hmem p hp).1
      have hv' := (hmem q hq).1
      have hat : coreAt r h p.1 p.2 = coreAt r h q.1 q.2 := by
        rw [(coreAt_place hv).2, (coreAt_place hv').2, heq]
      obtain ⟨-, hs, hc⟩ := coreAt_inj hv hv' hat
      exact Prod.ext hs hc
    · intro i hi
      obtain ⟨hin, hbit⟩ := Finset.mem_filter.mp hi
      obtain ⟨s, c, hv, hat⟩ := exists_valid hr (Finset.mem_range.mp hin)
      have hplace := (coreAt_place hv).2
      refine ⟨(s, c), ?_, show socketCores r h * s + c = i by omega⟩
      rw [setCores, Finset.mem_filter, mem_product, Finset.mem_range, Finset.mem_range,
        bit_of_valid hr hv, hat, hbit]
      exact ⟨hv.2, rfl⟩
  · have hzero := hostCores_of_le hr (Nat.le_of_not_lt hlt)
    have hempty : setCores r h = ∅ := by
      apply eq_empty_of_forall_notMem
      intro p hp
      obtain ⟨hs, hc⟩ := Finset.mem_product.mp (Finset.mem_filter.mp hp).1
      have hpos := Nat.mul_pos (zero_lt_of_lt (Finset.mem_range.mp hc))
        (zero_lt_of_lt (Finset.mem_range.mp hs))
      exact Nat.ne_of_gt hpos hzero
    rw [hempty, hzero]
    rfl

/-! ## Changes of a node -/

/-- What is changed is the bits of the node. -/
theorem changed_of_bits (hr : Hosted r) {v : Bool} (hpos : 0 < hostCores r h) {b : Bitstr}
    (hsize : b.nbits = r.coreBitmap.nbits)
    (hbits : ∀ k, b.bit k = if nodeStart r h ≤ k ∧ k < nodeStart r h + hostCores r h then v
      else r.coreBitmap.bit k) : Changed r h v (true, { r with coreBitmap := b }) := by
  have hr' : Hosted { r with coreBitmap := b } := { hr with cores_fit := hsize ▸ hr.cores_fit }
  refine { rc := iff_of_true rfl hpos, frame := rfl, size := hsize, own := ?_, rest := ?_ }
  · intro s c hv
    have hv' : ValidTriple { r with coreBitmap := b } h s c := hv
    obtain ⟨hplace, heq⟩ := coreAt_place hv
    rw [bit_of_valid hr' hv']
    show some (b.bit (coreAt r h s c)) = some v
    rw [hbits, if_pos (by omega)]
  · intro k hk
    show b.bit k = _
    rw [hbits, if_neg]
    intro hin
    obtain ⟨s, c, hv, hat⟩ := exists_valid hr (show k - nodeStart r h < hostCores r h by omega)
    refine hk s c hv ?_
    rw [offset_of_valid hr hv, hat, Option.some.injEq]
    omega

theorem changed_change (hr : Hosted r) (hexact : Exact r) (h : Nat) (v : Bool) :
    Changed r h v (changeJobResourcesNode r h v) := by
  unfold changeJobResourcesNode
  rw [nodeCores_eq hr hexact]
  by_cases hzero : hostCores r h = 0
  · rw [if_pos hzero]
    refine { rc := ?_, frame := rfl, size := rfl, own := ?_, rest := fun _ _ => rfl }
    · exact iff_of_false Bool.false_ne_true (by omega)
    · intro s c hv
      exact absurd hzero (Nat.ne_of_gt (hostCores_pos hv))
  · have hfits := Nat.le_trans (nodeStart_add_le r h) hr.cores_fit
    rw [if_neg hzero]
    refine changed_of_bits hr (Nat.pos_of_ne_zero hzero) ?_ fun k => ?_
    · cases v
      · exact (clearAll_spec hfits).1
      · exact (setWhere_spec _ hfits).1
    · cases v
      · exact (clearAll_spec hfits).2 k
      · rw [if_pos rfl, (setWhere_spec _ hfits).2 k, Bool.or_true]

/-- The functions for a node, where there is no room for more cores. -/
theorem nodeContract_of_exact (hr : Hosted r) (hexact : Exact r) (h : Nat) : NodeContract r h := by
  have hcores := nodeCores_eq hr hexact h
  refine
    { get := ?_, count := ?_, copy_none := ?_, copy := ?_
      set := changed_change hr hexact h true, clear := changed_change hr hexact h false }
  · unfold getJobResourcesNode
    rw [hcores]
    by_cases hzero : hostCores r h = 0
    · rw [if_pos hzero]
      refine iff_of_false Bool.false_ne_true fun hex => ?_
      obtain ⟨s, c, hv, -⟩ := hex
      exact Nat.ne_of_gt (hostCores_pos hv) hzero
    · rw [if_neg hzero]
      show (List.range _).any _ = true ↔ _
      rw [List.any_eq_true]
      constructor
      · intro hex
        obtain ⟨i, hi, hbit⟩ := hex
        obtain ⟨s, c, hv, hat⟩ := exists_valid hr (List.mem_range.mp hi)
        rw [bitTest_eq] at hbit
        exact ⟨s, c, hv, by rw [bit_of_valid hr hv, hat, hbit]⟩
      · intro hex
        obtain ⟨s, c, hv, hbit⟩ := hex
        obtain ⟨hplace, heq⟩ := coreAt_place hv
        rw [bit_of_valid hr hv, Option.some.injEq, heq] at hbit
        exact ⟨_, List.mem_range.mpr hplace, (bitTest_eq _ _).trans hbit⟩
  · unfold countJobResourcesNode
    rw [hcores, card_setCores hr]
    by_cases hzero : hostCores r h = 0
    · rw [if_pos hzero, hzero]
      rfl
    · rw [if_neg hzero]
      simp only [bitTest_eq]
  · unfold copyJobResourcesNode
    rw [hcores]
    by_cases hzero : hostCores r h = 0
    · rw [if_pos hzero]
      exact iff_of_true rfl hzero
    · have hfits := Nat.le_trans (nodeStart_add_le r h) hr.cores_fit
      have hvalid : ValidSize (hostCores r h) :=
        ⟨Nat.pos_of_ne_zero hzero, by have := r.coreBitmap.valid.2; omega⟩
      rw [if_neg hzero]
      dsimp only
      rw [dif_pos hvalid]
      exact iff_of_false (some_ne_none _) hzero
  · intro b hb
    unfold copyJobResourcesNode at hb
    rw [hcores] at hb
    by_cases hzero : hostCores r h = 0
    · rw [if_pos hzero] at hb
      cases hb
    · rw [if_neg hzero] at hb
      dsimp only at hb
      split at hb
      · rename_i hvalid
        rw [Option.some.injEq] at hb
        obtain ⟨hsize, hbits⟩ := setWhere_spec
          (fun i => bitTest r.coreBitmap (nodeStart r h + i))
          (show 0 + hostCores r h ≤ (bitAlloc (hostCores r h) hvalid).nbits from
            Nat.le_of_eq (Nat.zero_add _))
        rw [hb] at hsize hbits
        refine ⟨hsize, fun s c hv => ?_⟩
        obtain ⟨hplace, heq⟩ := coreAt_place hv
        rw [bit_of_valid hr hv, hbits, if_pos ⟨Nat.zero_le _, by omega⟩, bit_bitAlloc, heq,
          bitTest_eq, Nat.sub_zero, Bool.false_or]
      · cases hb

/-! ## Taking over bits -/

theorem nodeCoreCnt_eq (hr : Hosted r) (hlt : h < r.nhosts) : nodeCoreCnt r h = hostCores r h := by
  obtain ⟨w, i, place, hseek, -, -, hcores, -⟩ := hr.seekNode hlt
  unfold nodeCoreCnt
  rw [hseek]
  exact hcores

namespace CopyCase

variable {p : CopyCase}

/-- What happens when a node is not there. -/
theorem result_of_unknown (h : ¬ p.Known) : p.result = (false, p.newRes) := by
  unfold result jobResourcesBitsCopy
  split
  · rfl
  · split
    · rfl
    · exact absurd ⟨by omega, by omega⟩ h

/-- What happens to the nodes that are there. -/
theorem result_of_known (h : p.Known) : p.result = (decide p.SameCores,
    { p.newRes with
      coreBitmap := bitOr p.newRes.coreBitmap p.fromRes.coreBitmap
      coreBitmapUsed := bitOr p.newRes.coreBitmapUsed p.fromRes.coreBitmapUsed }) := by
  unfold result jobResourcesBitsCopy SameCores
  rw [if_neg (Nat.not_le_of_lt h.1), if_neg (Nat.not_le_of_lt h.2), nodeCoreCnt_eq p.new_hosted h.1,
    nodeCoreCnt_eq p.from_hosted h.2]
  congr

end CopyCase

variable {p : CopyCase} {source b : Bitstr}

theorem bitOr_iff {k : Nat} (hk : k < b.nbits) :
    (bitOr b source).bit k = true ↔ b.bit k = true ∨ k < source.nbits ∧ source.bit k = true := by
  rw [bit_bitOr]
  by_cases hsource : k < source.nbits
  · rw [if_pos (Nat.lt_min.mpr ⟨hk, hsource⟩), Bool.or_eq_true]
    simp only [hsource, true_and]
  · rw [if_neg fun h => hsource (Nat.lt_min.mp h).2]
    simp only [hsource, false_and, or_false]

/-- Taking over all bits is taking over those of the node when these are alone. -/
theorem ored_iff (hsame : p.SameCores) : Ored p source b (bitOr b source) ↔ Alone p source b := by
  unfold Alone
  simp only [hsame, true_and]
  constructor
  · intro h k hk hfalse
    have hiff := h.bits k hk
    rw [bitOr_iff hk] at hiff
    simpa only [hfalse, Bool.false_eq_true, false_or] using hiff
  · intro h
    refine { size := combine_nbits _ _ _ _, bits := fun k hk => ?_ }
    rw [bitOr_iff hk]
    cases hb : b.bit k with
    | true => exact iff_of_true (Or.inl rfl) (Or.inl rfl)
    | false => exact or_congr_right (h k hk hb)

/-- Taking over all bits changes nothing when there is none to take over. -/
theorem denote_bitOr_iff (hsame : ¬ p.SameCores) :
    denote (bitOr b source) = denote b ↔ Alone p source b := by
  have hsize : (bitOr b source).nbits = b.nbits := combine_nbits _ _ _ _
  unfold Alone
  simp only [hsame, false_and, iff_false]
  constructor
  · intro h k hk hfalse hset
    have hin : k ∈ (denote (bitOr b source)).elems :=
      mem_denote.mpr ⟨hsize ▸ hk, (bitOr_iff hk).mpr (Or.inr hset)⟩
    rw [h, mem_denote, hfalse] at hin
    exact Bool.false_ne_true hin.2
  · intro h
    refine BitSet.ext hsize (Finset.ext fun k => ?_)
    rw [mem_denote, mem_denote, hsize]
    refine and_congr_right fun hk => ?_
    rw [bitOr_iff hk]
    refine ⟨fun hor => ?_, Or.inl⟩
    rcases hor with hbit | hset
    · exact hbit
    · by_contra hfalse
      exact h k hk (Bool.eq_false_iff.mpr hfalse) hset

/-- The copy takes over the bits of the node exactly when these are alone in both bit
strings. -/
theorem bitsCopyContract_iff (p : CopyCase) :
    BitsCopyContract p ↔ (p.Known → Alone p p.fromRes.coreBitmap p.newRes.coreBitmap ∧
      Alone p p.fromRes.coreBitmapUsed p.newRes.coreBitmapUsed) := by
  by_cases hknown : p.Known
  · have hresult := CopyCase.result_of_known hknown
    by_cases hsame : p.SameCores
    · rw [decide_eq_true hsame] at hresult
      constructor
      · intro h _
        have hcores := h.cores
        have hused := h.used
        rw [hresult] at hcores hused
        exact ⟨(ored_iff hsame).mp (hcores rfl), (ored_iff hsame).mp (hused rfl)⟩
      · intro h
        obtain ⟨hcores, hused⟩ := h hknown
        constructor <;> rw [hresult]
        · exact iff_of_true rfl ⟨hknown, hsame⟩
        · exact fun _ => (ored_iff hsame).mpr hcores
        · exact fun _ => (ored_iff hsame).mpr hused
        · exact fun hfalse => absurd hfalse.symm Bool.false_ne_true
    · rw [decide_eq_false hsame] at hresult
      constructor
      · intro h _
        have herror := h.error
        rw [hresult] at herror
        obtain ⟨hcores, hused⟩ := herror rfl
        exact ⟨(denote_bitOr_iff hsame).mp hcores, (denote_bitOr_iff hsame).mp hused⟩
      · intro h
        obtain ⟨hcores, hused⟩ := h hknown
        constructor <;> rw [hresult]
        · exact iff_of_false Bool.false_ne_true fun h => hsame h.2
        · exact fun htrue => absurd htrue Bool.false_ne_true
        · exact fun htrue => absurd htrue Bool.false_ne_true
        · exact fun _ => ⟨(denote_bitOr_iff hsame).mpr hcores, (denote_bitOr_iff hsame).mpr hused⟩
  · have hresult := CopyCase.result_of_unknown hknown
    refine iff_of_true ?_ fun h => absurd h hknown
    constructor <;> rw [hresult]
    · exact iff_of_false Bool.false_ne_true fun h => hknown h.1
    · exact fun htrue => absurd htrue Bool.false_ne_true
    · exact fun htrue => absurd htrue Bool.false_ne_true
    · exact fun _ => ⟨rfl, rfl⟩

/-- Each node has its cores when the core bit string has room for these only, and a copy
takes over those of one node when no other bit is to be taken over. -/
theorem perNodeContract_iff (p : PerNodeCase) :
    PerNodeContract p ↔ Exact p.r ∧
      (p.Known → Alone p.toCopyCase p.fromRes.coreBitmap p.newRes.coreBitmap ∧
        Alone p.toCopyCase p.fromRes.coreBitmapUsed p.newRes.coreBitmapUsed) := by
  rw [← offsetContract_iff p.hosted, ← bitsCopyContract_iff]
  constructor
  · intro h
    exact ⟨h.offsets, h.copies⟩
  · intro h
    have hexact := (offsetContract_iff p.hosted).mp h.1
    exact ⟨h.1, fun i => nodeContract_of_exact p.hosted hexact i, h.2⟩

/-! ## The union of an allocation with itself -/

theorem validSize_one : ValidSize 1 := by decide

theorem validSize_two : ValidSize 2 := by decide

/-- An allocation of the only node of a cluster, with its only core. -/
def oneCore : JobResources where
  nodeBitmap := bitSet (bitAlloc 1 validSize_one) 0
  coreBitmap := bitSet (bitAlloc 1 validSize_one) 0
  socketsPerNode := [1]
  coresPerSocket := [1]
  sockCoreRepCount := [1]
  nhosts := 1

/-- What `job_resources_or` makes of it and itself. -/
def oneCoreUnion : JobResources where
  nodeBitmap := bitSet (bitAlloc 1 validSize_one) 0
  coreBitmap := bitSet (bitAlloc 2 validSize_two) 0
  socketsPerNode := [1, 0]
  coresPerSocket := [1, 0]
  sockCoreRepCount := [1, 0]
  nhosts := 1

theorem hosted_oneCoreUnion : Hosted oneCoreUnion where
  sockets_length := by decide
  cores_length := by decide
  reps_length := by decide
  records := by decide
  cores_fit := by decide
  int_fit := by decide

/-- Two nodes with a core each.  The bits are those of `b`. -/
def twoNodes (b : Bitstr) : UsedResources where
  nodeBitmap := bitSet (bitSet (bitAlloc 2 validSize_two) 0) 1
  coreBitmap := b
  socketsPerNode := [1, 0]
  coresPerSocket := [1, 0]
  sockCoreRepCount := [2, 0]
  nhosts := 2
  coreBitmapUsed := b

theorem hosted_twoNodes (h : b.nbits = 2) : Hosted (twoNodes b).toJobResources where
  sockets_length := Nat.le_refl 2
  cores_length := Nat.le_refl 2
  reps_length := Nat.le_refl 2
  records := Nat.le_refl 2
  cores_fit := Nat.le_of_eq h.symm
  int_fit := by
    show (2 : Nat) < 2 ^ 31
    decide

/-- The copy of node 1, which has no core set, where node 0 has one. -/
def oneCoreCase : PerNodeCase where
  r := oneCoreUnion
  hosted := hosted_oneCoreUnion
  newRes := twoNodes (bitAlloc 2 validSize_two)
  new_hosted := hosted_twoNodes rfl
  new_size := rfl
  newNodeOffset := 1
  fromRes := twoNodes (bitSet (bitAlloc 2 validSize_two) 0)
  from_hosted := hosted_twoNodes rfl
  from_size := rfl
  fromNodeOffset := 1

/-- In the union, node 1 has an offset, and the copy sets the core of node 0. -/
theorem not_perNodeContract_union :
    jobResourcesOr true oneCore oneCore = some (true, oneCoreUnion) ∧
      ¬ PerNodeContract oneCoreCase := by
  refine ⟨by decide +kernel, fun h => ?_⟩
  have hvalid : ¬ ValidTriple oneCoreUnion 1 0 0 := fun hv => absurd hv.1 (by decide)
  exact absurd (h.offsets.invalid 1 0 0 hvalid) (by decide)

end Slurm.JobResources
