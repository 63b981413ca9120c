import Slurm.JobResources.Model

/-!
# The two merges, node by node

* `cursorsAt_*`: where the cursors and the offsets stand after the nodes before `n`, and
  when the return code is still `SLURM_SUCCESS`.
* `orLoop_layout`: the nodes and the records of the union, whatever the cores are.
* `orLoop_cores` and `andLoop_cores`: the core bits of the two merges, for operands
  whose cursors read the right counts (`Aligned`).
-/

namespace Slurm.JobResources

open Slurm.Bitstring List
open Lib.RunLength (cursorAt cursorAt_succ cursorAt_off expand stretch)

variable {off len n : Nat} {b : Bitstr}

/-! ## Bits of a block of cores -/

/-- A loop that changes one bit of a block in each turn. -/
theorem foldl_block {f : Bitstr → Nat → Bitstr} {g : Bool → Nat → Bool}
    (hf : ∀ b j, off + j < b.nbits → (f b j).nbits = b.nbits ∧
      ∀ k, (f b j).bit k = if k = off + j then g (b.bit k) j else b.bit k) (len : Nat) (b : Bitstr)
    (hlen : off + len ≤ b.nbits) :
    ((List.range len).foldl f b).nbits = b.nbits ∧ ∀ k, ((List.range len).foldl f b).bit k
      = if off ≤ k ∧ k < off + len then g (b.bit k) (k - off) else b.bit k := by
  induction len with
  | zero => exact ⟨rfl, fun k => by rw [if_neg (by omega)]; rfl⟩
  | succ len ih =>
    obtain ⟨hn, hbits⟩ := ih (by omega)
    rw [range_succ, foldl_append, foldl_cons, foldl_nil]
    obtain ⟨hn', hbit⟩ := hf ((List.range len).foldl f b) len (by omega)
    refine ⟨hn'.trans hn, fun k => ?_⟩
    rw [hbit, hbits]
    by_cases hk : k = off + len
    · rw [if_pos hk, if_neg (by omega), if_pos (by omega), hk, Nat.add_sub_cancel_left]
    · rw [if_neg hk]
      by_cases hin : off ≤ k ∧ k < off + len
      · rw [if_pos hin, if_pos (by omega)]
      · rw [if_neg hin, if_neg (by omega)]

theorem clearUnless_spec (keep : Nat → Bool) (h : off + len ≤ b.nbits) :
    (clearUnless keep off len b).nbits = b.nbits ∧ ∀ k, (clearUnless keep off len b).bit k
      = if off ≤ k ∧ k < off + len then b.bit k && keep (k - off) else b.bit k := by
  refine foldl_block (g := fun x j => x && keep j) (fun b j hj => ?_) len b h
  rw [bitTest_eq]
  by_cases hclear : (b.bit (off + j) && !keep j) = true
  · rw [if_pos hclear]
    refine ⟨rfl, fun k => ?_⟩
    rw [bit_bitClear hj]
    simp only [Bool.and_eq_true, Bool.not_eq_true'] at hclear
    split <;> simp [*]
  · rw [if_neg hclear]
    refine ⟨rfl, fun k => ?_⟩
    split
    · rename_i hk
      rw [hk]
      cases hb : b.bit (off + j) <;> simp_all
    · rfl

theorem clearAll_spec (h : off + len ≤ b.nbits) :
    (clearAll off len b).nbits = b.nbits ∧ ∀ k, (clearAll off len b).bit k
      = if off ≤ k ∧ k < off + len then false else b.bit k := by
  refine foldl_block (f := fun b j => bitClear b (off + j)) (g := fun _ _ => false)
    (fun b j hj => ⟨rfl, fun k => ?_⟩) len b h
  rw [bit_bitClear hj]
  split <;> simp [*]

theorem setWhere_spec (pick : Nat → Bool) (h : off + len ≤ b.nbits) :
    (setWhere pick off len b).nbits = b.nbits ∧ ∀ k, (setWhere pick off len b).bit k
      = if off ≤ k ∧ k < off + len then b.bit k || pick (k - off) else b.bit k := by
  refine foldl_block (g := fun x j => x || pick j) (fun b j hj => ?_) len b h
  by_cases hpick : pick j = true
  · rw [if_pos hpick]
    refine ⟨rfl, fun k => ?_⟩
    rw [bit_bitSet hj, hpick]
    split <;> simp [*]
  · rw [if_neg hpick]
    refine ⟨rfl, fun k => ?_⟩
    rw [Bool.not_eq_true] at hpick
    rw [hpick]
    split <;> simp

/-! ## The cursors -/

variable {r r1 r2 : JobResources}

/-- The variables of the cursors after the nodes before `n`. -/
def cursorsAt (r1 r2 : JobResources) (n : Nat) : Cursors :=
  foldNodes r1 r2 (fun s _ match1 match2 => s.visit r1 r2 match1 match2) 0 n (Cursors.start r1 r2)

theorem cursorsAt_succ (n : Nat) : cursorsAt r1 r2 (n + 1)
    = (cursorsAt r1 r2 n).visit r1 r2 (r1.nodeBitmap.bit n) (r2.nodeBitmap.bit n) := by
  rw [cursorsAt, foldNodes_succ, Nat.zero_add]
  rfl

theorem cursorsAt_cur1 (n : Nat) :
    (cursorsAt r1 r2 n).cur1 = cursorAt 0 r1.sockCoreRepCount (hostIndex r1 n) := by
  induction n with
  | zero => rfl
  | succ n ih =>
    simp only [cursorsAt_succ, Cursors.visit, ih, hostIndex_succ]
    split
    · rw [cursorAt_succ]
      rfl
    · rfl

theorem cursorsAt_cur2 (n : Nat) :
    (cursorsAt r1 r2 n).cur2 = cursorAt 0 r2.sockCoreRepCount (hostIndex r2 n) := by
  induction n with
  | zero => rfl
  | succ n ih =>
    simp only [cursorsAt_succ, Cursors.visit, ih, hostIndex_succ]
    split
    · rw [cursorAt_succ]
      rfl
    · rfl

/-- The record that the cursor reads at a node. -/
theorem next_off (hw : WellFormed r) (hn : n < r.nodeBitmap.nbits)
    (hbit : r.nodeBitmap.bit n = true) :
    (r.next (cursorAt 0 r.sockCoreRepCount (hostIndex r n))).off
      = (expand (stretch r.sockCoreRepCount)).getD (hostIndex r n) 0 := by
  rw [next, ← cursorAt_succ, cursorAt_off _ (hw.hostIndex_lt hn hbit)]

theorem cursorsAt_coreCnt1 (r2 : JobResources) (hw : WellFormed r1) (hn : n < r1.nodeBitmap.nbits)
    (hbit : r1.nodeBitmap.bit n = true) : (cursorsAt r1 r2 n).coreCnt1 r1 = cursorCount r1 n := by
  rw [Cursors.coreCnt1, cursorsAt_cur1, next_off hw hn hbit, cursorCount]

theorem cursorsAt_coreCnt2 (r1 : JobResources) (hw : WellFormed r2) (hn : n < r2.nodeBitmap.nbits)
    (hbit : r2.nodeBitmap.bit n = true) : (cursorsAt r1 r2 n).coreCnt2 r2 = cursorCount r2 n := by
  rw [Cursors.coreCnt2, cursorsAt_cur2, next_off hw hn hbit, cursorCount]

theorem cursorsAt_coreOff1 (r2 : JobResources) (hw : WellFormed r1) (hn : n ≤ r1.nodeBitmap.nbits) :
    (cursorsAt r1 r2 n).coreOff1 = sumBefore r1.nodeBitmap.bit (cursorCount r1) n := by
  induction n with
  | zero => rfl
  | succ n ih =>
    simp only [cursorsAt_succ, Cursors.visit, sumBefore_succ, ih (Nat.le_of_succ_le hn)]
    split
    · rename_i hbit
      rw [cursorsAt_coreCnt1 r2 hw hn hbit]
    · rfl

theorem cursorsAt_coreOff2 (r1 : JobResources) (hw : WellFormed r2) (hn : n ≤ r2.nodeBitmap.nbits) :
    (cursorsAt r1 r2 n).coreOff2 = sumBefore r2.nodeBitmap.bit (cursorCount r2) n := by
  induction n with
  | zero => rfl
  | succ n ih =>
    simp only [cursorsAt_succ, Cursors.visit, sumBefore_succ, ih (Nat.le_of_succ_le hn)]
    split
    · rename_i hbit
      rw [cursorsAt_coreCnt2 r1 hw hn hbit]
    · rfl

/-- No error so far: at the common nodes the cursors read one count. -/
theorem cursorsAt_rc (hw1 : WellFormed r1) (hw2 : WellFormed r2)
    (htable : r1.nodeBitmap.nbits = r2.nodeBitmap.nbits) (hn : n ≤ r1.nodeBitmap.nbits) :
    (cursorsAt r1 r2 n).rc = true ↔ ∀ i, i < n → r1.nodeBitmap.bit i = true →
      r2.nodeBitmap.bit i = true → cursorCount r1 i = cursorCount r2 i := by
  induction n with
  | zero => simp [cursorsAt, foldNodes, Cursors.start, htable]
  | succ n ih =>
    rw [cursorsAt_succ, Cursors.visit, Bool.and_eq_true, ih (by omega)]
    constructor
    · rintro ⟨hbefore, hlast⟩ i hi h1 h2
      rcases Nat.lt_succ_iff_lt_or_eq.mp hi with hi | rfl
      · exact hbefore i hi h1 h2
      · rw [h1, h2, cursorsAt_coreCnt1 r2 hw1 hn h1, cursorsAt_coreCnt2 r1 hw2 (by omega) h2] at hlast
        simpa using hlast
    · intro h
      refine ⟨fun i hi => h i (Nat.lt_succ_of_lt hi), ?_⟩
      cases h1 : r1.nodeBitmap.bit n with
      | false => rfl
      | true =>
        cases h2 : r2.nodeBitmap.bit n with
        | false => rfl
        | true =>
          rw [cursorsAt_coreCnt1 r2 hw1 hn h1, cursorsAt_coreCnt2 r1 hw2 (by omega) h2]
          simpa using h n (Nat.lt_succ_self n) h1 h2

/-- The cursors of a loop over the nodes do not depend on what else it does. -/
theorem foldNodes_cursors {σ : Type} {step : σ → Int → Bool → Bool → σ} (cursors : σ → Cursors)
    (hstep : ∀ s i match1 match2,
      cursors (step s i match1 match2) = (cursors s).visit r1 r2 match1 match2)
    {s : σ} (hs : cursors s = Cursors.start r1 r2) (n : Nat) :
    cursors (foldNodes r1 r2 step 0 n s) = cursorsAt r1 r2 n := by
  induction n with
  | zero => exact hs
  | succ n ih =>
    rw [foldNodes_succ, hstep, ih, cursorsAt_succ, Nat.zero_add]

theorem Cursors.visit_none (s : Cursors) : s.visit r1 r2 false false = s := by
  cases s
  simp [Cursors.visit]

/-- The cursors read the cores of each node. -/
def Aligned (r : JobResources) : Prop :=
  ∀ i ∈ (denote r.nodeBitmap).elems, cursorCount r i = coreCount r i

theorem Aligned.count (h : Aligned r) {i : Nat} (hi : i < r.nodeBitmap.nbits)
    (hbit : r.nodeBitmap.bit i = true) : cursorCount r i = coreCount r i :=
  h i (mem_denote.mpr ⟨hi, hbit⟩)

theorem Aligned.offset (h : Aligned r) (hn : n ≤ r.nodeBitmap.nbits) :
    sumBefore r.nodeBitmap.bit (cursorCount r) n = coreOffset r n :=
  sumBefore_congr fun _ hi hbit => h.count (Nat.lt_of_lt_of_le hi hn) hbit

/-! ## Intersection -/

/-- The variables of `job_resources_and` after the nodes before `n`. -/
def andLoop (r1 r2 : JobResources) (n : Nat) : AndState :=
  foldNodes r1 r2 (andStep r1 r2) 0 n { Cursors.start r1 r2 with coreBitmap := r1.coreBitmap }

theorem andStep_none (s : AndState) (i : Int) : andStep r1 r2 s i false false = s := by
  cases s
  simp only [andStep, Cursors.visit_none]

theorem andLoop_cursors (n : Nat) : (andLoop r1 r2 n).toCursors = cursorsAt r1 r2 n :=
  foldNodes_cursors AndState.toCursors (fun _ _ _ _ => rfl) rfl n

theorem andLoop_succ (n : Nat) : andLoop r1 r2 (n + 1)
    = andStep r1 r2 (andLoop r1 r2 n) n (r1.nodeBitmap.bit n) (r2.nodeBitmap.bit n) := by
  rw [andLoop, foldNodes_succ, Nat.zero_add]
  rfl

/-- The operands of a merge. -/
structure Operands (r1 r2 : JobResources) : Prop where
  wf1 : WellFormed r1
  wf2 : WellFormed r2
  same_table : r1.nodeBitmap.nbits = r2.nodeBitmap.nbits
  same_count : ∀ i ∈ (denote r1.nodeBitmap).elems, i ∈ (denote r2.nodeBitmap).elems →
    coreCount r1 i = coreCount r2 i

theorem Operands.count_eq (ho : Operands r1 r2) {i : Nat} (hi : i < r1.nodeBitmap.nbits)
    (h1 : r1.nodeBitmap.bit i = true) (h2 : r2.nodeBitmap.bit i = true) :
    coreCount r1 i = coreCount r2 i :=
  ho.same_count i (mem_denote.mpr ⟨hi, h1⟩) (mem_denote.mpr ⟨ho.same_table ▸ hi, h2⟩)

/-- The cores of a node lie in the core bit string. -/
theorem WellFormed.block_le (hw : WellFormed r) (hn : n < r.nodeBitmap.nbits)
    (hbit : r.nodeBitmap.bit n = true) : coreOffset r n + coreCount r n ≤ r.coreBitmap.nbits :=
  Nat.le_trans (sumBefore_add_le _ hn hbit) hw.cores_fit

/-- What one node does to the core bits. -/
theorem andStep_bit (ho : Operands r1 r2) (ha1 : Aligned r1) (ha2 : Aligned r2)
    (hn : n < r1.nodeBitmap.nbits)
    (hsize : (andLoop r1 r2 n).coreBitmap.nbits = r1.coreBitmap.nbits) :
    (andLoop r1 r2 (n + 1)).coreBitmap.nbits = r1.coreBitmap.nbits ∧
      ∀ k, (andLoop r1 r2 (n + 1)).coreBitmap.bit k
        = if r1.nodeBitmap.bit n = true ∧ coreOffset r1 n ≤ k ∧
              k < coreOffset r1 n + coreCount r1 n then
            (andLoop r1 r2 n).coreBitmap.bit k && (r2.nodeBitmap.bit n &&
              r2.coreBitmap.bit (coreOffset r2 n + (k - coreOffset r1 n)))
          else (andLoop r1 r2 n).coreBitmap.bit k := by
  have hn2 : n < r2.nodeBitmap.nbits := ho.same_table ▸ hn
  have hoff1 := cursorsAt_coreOff1 r2 ho.wf1 (Nat.le_of_lt hn)
  have hoff2 := cursorsAt_coreOff2 r1 ho.wf2 (Nat.le_of_lt hn2)
  rw [ha1.offset (Nat.le_of_lt hn)] at hoff1
  rw [ha2.offset (Nat.le_of_lt hn2)] at hoff2
  rw [andLoop_succ]
  unfold andStep
  dsimp only
  rw [andLoop_cursors]
  cases h1 : r1.nodeBitmap.bit n with
  | false =>
    refine ⟨hsize, fun k => ?_⟩
    rw [if_neg fun h => Bool.false_ne_true h.1]
  | true =>
    have hcnt1 := (cursorsAt_coreCnt1 r2 ho.wf1 hn h1).trans (ha1.count hn h1)
    have hblock := ho.wf1.block_le hn h1
    cases h2 : r2.nodeBitmap.bit n with
    | false =>
      dsimp only
      rw [hcnt1, hoff1]
      obtain ⟨hsize', hbit⟩ := clearAll_spec (hsize ▸ hblock)
      refine ⟨hsize'.trans hsize, fun k => ?_⟩
      rw [hbit]
      simp
    | true =>
      have hcnt2 := (cursorsAt_coreCnt2 r1 ho.wf2 hn2 h2).trans (ha2.count hn2 h2)
      dsimp only
      rw [hcnt1, hcnt2, hoff1, hoff2, ← ho.count_eq hn h1 h2, Nat.min_self]
      obtain ⟨hsize', hbit⟩ := clearUnless_spec
        (fun j => bitTest r2.coreBitmap (coreOffset r2 n + j)) (hsize ▸ hblock)
      refine ⟨hsize'.trans hsize, fun k => ?_⟩
      rw [hbit, bitTest_eq]
      simp

/-- The core bits of the first operand: those of the nodes before `n` are those that
the second one has too, and the others are as they were. -/
theorem andLoop_cores (ho : Operands r1 r2) (ha1 : Aligned r1) (ha2 : Aligned r2)
    (hn : n ≤ r1.nodeBitmap.nbits) :
    (andLoop r1 r2 n).coreBitmap.nbits = r1.coreBitmap.nbits ∧
      (∀ i c, i < n → r1.nodeBitmap.bit i = true → c < coreCount r1 i →
        (andLoop r1 r2 n).coreBitmap.bit (coreOffset r1 i + c)
          = (r1.coreBitmap.bit (coreOffset r1 i + c) && (r2.nodeBitmap.bit i &&
              r2.coreBitmap.bit (coreOffset r2 i + c)))) ∧
      ∀ k, coreOffset r1 n ≤ k → (andLoop r1 r2 n).coreBitmap.bit k = r1.coreBitmap.bit k := by
  induction n with
  | zero => exact ⟨rfl, fun i c hi => absurd hi (Nat.not_lt_zero i), fun k _ => rfl⟩
  | succ n ih =>
    obtain ⟨hsize, hdone, hrest⟩ := ih (by omega)
    obtain ⟨hsize', hbit⟩ := andStep_bit ho ha1 ha2 hn hsize
    refine ⟨hsize', fun i c hi h1 hc => ?_, fun k hk => ?_⟩
    · rw [hbit]
      rcases Nat.lt_succ_iff_lt_or_eq.mp hi with hi | rfl
      · have hle : coreOffset r1 i + coreCount r1 i ≤ coreOffset r1 n := sumBefore_add_le _ hi h1
        rw [if_neg (by omega), hdone i c hi h1 hc]
      · rw [if_pos ⟨h1, by omega, by omega⟩, hrest _ (Nat.le_add_right _ _), Nat.add_sub_cancel_left]
    · rw [coreOffset, sumBefore_succ, ← coreOffset] at hk
      rw [hbit, if_neg, hrest k (by omega)]
      rintro ⟨h1, hlo, hhi⟩
      rw [if_pos h1] at hk
      omega

/-! ## Union -/

/-- A node of the union. -/
def unionBit (r1 r2 : JobResources) (i : Nat) : Bool := r1.nodeBitmap.bit i || r2.nodeBitmap.bit i

/-- The count that the cursors read at a node of the union. -/
def unionCount (r1 r2 : JobResources) (i : Nat) : Nat :=
  if r1.nodeBitmap.bit i then cursorCount r1 i else cursorCount r2 i

/-- `bit_set_count` of both node bit strings. -/
def records (r1 r2 : JobResources) : Nat :=
  hostIndex r1 r1.nodeBitmap.nbits + hostIndex r2 r2.nodeBitmap.nbits

variable (hcores : ValidSize (coreBits r1 r2))

/-- The variables of `job_resources_or` after the nodes before `n`. -/
def orLoop (n : Nat) : OrState := foldNodes r1 r2 (orStep r1 r2) 0 n (orStart r1 r2 hcores)

theorem orStep_none (s : OrState) (i : Int) : orStep r1 r2 s i false false = s := rfl

theorem orStep_cursors (s : OrState) (i : Int) (match1 match2 : Bool) :
    (orStep r1 r2 s i match1 match2).toCursors = s.visit r1 r2 match1 match2 := by
  cases match1 <;> cases match2 <;> first | rfl | exact s.visit_none.symm

theorem orLoop_cursors (n : Nat) : (orLoop hcores n).toCursors = cursorsAt r1 r2 n :=
  foldNodes_cursors OrState.toCursors orStep_cursors rfl n

theorem orLoop_succ (n : Nat) : orLoop hcores (n + 1)
    = orStep r1 r2 (orLoop hcores n) n (r1.nodeBitmap.bit n) (r2.nodeBitmap.bit n) := by
  rw [orLoop, foldNodes_succ, Nat.zero_add]
  rfl

theorem orStep_nodeInx (s : OrState) (i : Int) (match1 match2 : Bool) :
    (orStep r1 r2 s i match1 match2).nodeInx = s.nodeInx + if match1 || match2 then 1 else 0 := by
  cases match1 <;> cases match2 <;> rfl

theorem orStep_nodeBitmap (s : OrState) (i : Int) (match1 match2 : Bool) :
    (orStep r1 r2 s i match1 match2).nodeBitmap
      = if match1 || match2 then bitSet s.nodeBitmap i.toNat else s.nodeBitmap := by
  cases match1 <;> cases match2 <;> rfl

theorem orStep_reps (s : OrState) (i : Int) (match1 match2 : Bool) :
    (orStep r1 r2 s i match1 match2).sockCoreRepCount
      = if match1 || match2 then s.sockCoreRepCount.set s.nodeInx 1 else s.sockCoreRepCount := by
  cases match1 <;> cases match2 <;> rfl

theorem orStep_coresPerSocket (s : OrState) (i : Int) (match1 match2 : Bool) :
    (orStep r1 r2 s i match1 match2).coresPerSocket
      = if match1 || match2 then s.coresPerSocket.set s.nodeInx
          (if match1 then r1.coresPerSocket.getD (r1.next s.cur1).off 0
            else r2.coresPerSocket.getD (r2.next s.cur2).off 0)
        else s.coresPerSocket := by
  cases match1 <;> cases match2 <;> rfl

theorem orStep_socketsPerNode (s : OrState) (i : Int) (match1 match2 : Bool) :
    (orStep r1 r2 s i match1 match2).socketsPerNode
      = if match1 || match2 then s.socketsPerNode.set s.nodeInx
          (if match1 then r1.socketsPerNode.getD (r1.next s.cur1).off 0
            else r2.socketsPerNode.getD (r2.next s.cur2).off 0)
        else s.socketsPerNode := by
  cases match1 <;> cases match2 <;> rfl

theorem unionIndex_le (r1 r2 : JobResources) (n : Nat) :
    countRange (unionBit r1 r2) 0 n ≤ hostIndex r1 n + hostIndex r2 n := by
  induction n with
  | zero => exact Nat.le_refl 0
  | succ n ih =>
    rw [countRange_succ, hostIndex_succ, hostIndex_succ, unionBit]
    cases r1.nodeBitmap.bit n <;> cases r2.nodeBitmap.bit n <;>
      simp only [Bool.or_true, Bool.or_false, Bool.false_eq_true, if_true, if_false] <;> omega

theorem unionIndex_lt (htable : r1.nodeBitmap.nbits = r2.nodeBitmap.nbits)
    (hn : n < r1.nodeBitmap.nbits) (hbit : unionBit r1 r2 n = true) :
    countRange (unionBit r1 r2) 0 n < records r1 r2 := by
  have hle := unionIndex_le r1 r2 (n + 1)
  have h1 : hostIndex r1 (n + 1) ≤ hostIndex r1 r1.nodeBitmap.nbits := countRange_le _ hn
  have h2 : hostIndex r2 (n + 1) ≤ hostIndex r2 r2.nodeBitmap.nbits := countRange_le _ (htable ▸ hn)
  rw [countRange_succ, if_pos hbit] at hle
  rw [records]
  omega

/-- The nodes and the records of the union, after the nodes before `n`. -/
structure OrLayout (r1 r2 : JobResources) (n : Nat) (s : OrState) : Prop where
  nodeInx : s.nodeInx = countRange (unionBit r1 r2) 0 n
  nodes_size : s.nodeBitmap.nbits = r1.nodeBitmap.nbits
  nodes : ∀ k, s.nodeBitmap.bit k = (decide (k < n) && unionBit r1 r2 k)
  reps : s.sockCoreRepCount
    = List.replicate s.nodeInx 1 ++ List.replicate (records r1 r2 - s.nodeInx) 0
  sockets_length : s.socketsPerNode.length = records r1 r2
  cores_length : s.coresPerSocket.length = records r1 r2
  counts : ∀ i, i < n → unionBit r1 r2 i = true →
    s.coresPerSocket.getD (countRange (unionBit r1 r2) 0 i) 0
      * s.socketsPerNode.getD (countRange (unionBit r1 r2) 0 i) 0 = unionCount r1 r2 i

/-- One more record of one node. -/
theorem set_ones (n m : Nat) :
    (List.replicate n 1 ++ List.replicate (m + 1) 0).set n 1
      = List.replicate (n + 1) 1 ++ List.replicate m 0 := by
  rw [set_append_right _ _ (by rw [length_replicate]), length_replicate, Nat.sub_self,
    replicate_succ, set_cons_zero, replicate_succ', append_assoc]
  rfl

theorem getD_set_self {l : List Nat} {k : Nat} (h : k < l.length) (v : Nat) :
    (l.set k v).getD k 0 = v := by
  rw [getD_eq_getElem?_getD, getElem?_set_self h]
  rfl

theorem getD_set_ne {l : List Nat} {k k' : Nat} (h : k ≠ k') (v : Nat) :
    (l.set k v).getD k' 0 = l.getD k' 0 := by
  rw [getD_eq_getElem?_getD, getElem?_set_ne h, getD_eq_getElem?_getD]

theorem orLoop_layout (ho : Operands r1 r2) (hn : n ≤ r1.nodeBitmap.nbits) :
    OrLayout r1 r2 n (orLoop hcores n) := by
  induction n with
  | zero =>
    have hrecords : bitSetCount r1.nodeBitmap + bitSetCount r2.nodeBitmap = records r1 r2 := by
      rw [bitSetCount_eq, bitSetCount_eq]
      rfl
    refine
      { nodeInx := rfl
        nodes_size := ?_
        nodes := fun k => bit_bitAlloc _ _ k
        reps := congrArg (List.replicate · 0) hrecords
        sockets_length := List.length_replicate.trans hrecords
        cores_length := List.length_replicate.trans hrecords
        counts := fun i hi => absurd hi (Nat.not_lt_zero i) }
    show nodeCnt r1 r2 = r1.nodeBitmap.nbits
    rw [nodeCnt, ← ho.same_table, Nat.min_self]
  | succ n ih =>
    have hprev := ih (by omega)
    have hcursors := orLoop_cursors hcores n
    rw [orLoop_succ]
    cases hbit : unionBit r1 r2 n with
    | false =>
      obtain ⟨h1, h2⟩ := Bool.or_eq_false_iff.mp hbit
      rw [h1, h2, orStep_none]
      refine { hprev with nodeInx := ?_, nodes := ?_, counts := ?_ }
      · rw [countRange_succ, hbit]
        exact hprev.nodeInx
      · intro k
        rw [hprev.nodes]
        by_cases hk : k = n
        · rw [hk, hbit, Bool.and_false, Bool.and_false]
        · rw [decide_eq_decide.mpr (show k < n ↔ k < n + 1 by omega)]
      · intro i hi hi'
        refine hprev.counts i ?_ hi'
        rcases Nat.lt_succ_iff_lt_or_eq.mp hi with hi | rfl
        · exact hi
        · exact absurd (hbit.symm.trans hi') Bool.false_ne_true
    | true =>
      have hor : (r1.nodeBitmap.bit n || r2.nodeBitmap.bit n) = true := hbit
      have hlt := unionIndex_lt ho.same_table hn hbit
      refine
        { nodeInx := ?_, nodes_size := ?_, nodes := ?_, reps := ?_, sockets_length := ?_
          cores_length := ?_, counts := ?_ }
      · rw [orStep_nodeInx, hor, hprev.nodeInx, countRange_succ, hbit]
      · rw [orStep_nodeBitmap, if_pos hor, bitSet_nbits, hprev.nodes_size]
      · intro k
        rw [orStep_nodeBitmap, if_pos hor, Int.toNat_natCast,
          bit_bitSet (hprev.nodes_size ▸ hn), hprev.nodes]
        by_cases hk : k = n
        · simp [hk, hbit]
        · rw [decide_eq_false hk, Bool.false_or, decide_eq_decide.mpr (show k < n ↔ k < n + 1 by omega)]
      · rw [orStep_reps, if_pos hor, orStep_nodeInx, if_pos hor, hprev.reps, ← set_ones]
        rw [← hprev.nodeInx] at hlt
        rw [show records r1 r2 - (orLoop hcores n).nodeInx
          = records r1 r2 - ((orLoop hcores n).nodeInx + 1) + 1 by omega]
      · rw [orStep_socketsPerNode, if_pos hor, length_set, hprev.sockets_length]
      · rw [orStep_coresPerSocket, if_pos hor, length_set, hprev.cores_length]
      · intro i hi hi'
        rw [orStep_socketsPerNode, if_pos hor, orStep_coresPerSocket, if_pos hor]
        rcases Nat.lt_succ_iff_lt_or_eq.mp hi with hi | rfl
        · have hne : (orLoop hcores n).nodeInx ≠ countRange (unionBit r1 r2) 0 i := by
            have hlt' := countRange_lt hi hi'
            rw [hprev.nodeInx]
            omega
          rw [getD_set_ne hne, getD_set_ne hne]
          exact hprev.counts i hi hi'
        · rw [← hprev.nodeInx, getD_set_self (by rw [hprev.cores_length, hprev.nodeInx]; exact hlt),
            getD_set_self (by rw [hprev.sockets_length, hprev.nodeInx]; exact hlt), hcursors,
            unionCount]
          split
          · rename_i h1
            rw [← cursorsAt_coreCnt1 r2 ho.wf1 hn h1]
            rfl
          · rename_i h1
            have h2 : r2.nodeBitmap.bit i = true := by
              simpa only [Bool.not_eq_true, h1, Bool.false_or] using hor
            rw [← cursorsAt_coreCnt2 r1 ho.wf2 (ho.same_table ▸ hn) h2]
            rfl

/-- Where the cores of node `n` of the union start. -/
def unionOffset (r1 r2 : JobResources) (n : Nat) : Nat :=
  sumBefore (unionBit r1 r2) (unionCount r1 r2) n

theorem unionOffset_le (ho : Operands r1 r2) (ha1 : Aligned r1) (ha2 : Aligned r2)
    (hn : n ≤ r1.nodeBitmap.nbits) : unionOffset r1 r2 n ≤ coreOffset r1 n + coreOffset r2 n := by
  induction n with
  | zero => exact Nat.le_refl 0
  | succ n ih =>
    have hprev := ih (by omega)
    rw [unionOffset, coreOffset, coreOffset] at hprev ⊢
    rw [sumBefore_succ, sumBefore_succ, sumBefore_succ, unionBit, unionCount]
    cases h1 : r1.nodeBitmap.bit n with
    | true =>
      rw [ha1.count hn h1]
      simp only [Bool.true_or, if_true]
      omega
    | false =>
      cases h2 : r2.nodeBitmap.bit n with
      | true =>
        rw [ha2.count (ho.same_table ▸ hn) h2]
        simp only [Bool.or_true, Bool.false_eq_true, if_true, if_false]
        omega
      | false =>
        simp only [Bool.or_false, Bool.false_eq_true, if_false]
        omega

/-- The cores of a node of the union fit. -/
theorem unionBlock_le (ho : Operands r1 r2) (ha1 : Aligned r1) (ha2 : Aligned r2)
    (hn : n < r1.nodeBitmap.nbits) (hbit : unionBit r1 r2 n = true) :
    unionOffset r1 r2 n + unionCount r1 r2 n ≤ coreBits r1 r2 := by
  have hle := unionOffset_le ho ha1 ha2 (Nat.le_refl _)
  have hadd : unionOffset r1 r2 n + unionCount r1 r2 n ≤ unionOffset r1 r2 r1.nodeBitmap.nbits :=
    sumBefore_add_le _ hn hbit
  have hfit1 := ho.wf1.cores_fit
  have hfit2 := ho.wf2.cores_fit
  rw [← ho.same_table] at hfit2
  rw [coreBits]
  omega

/-- The cores that a node of the union has in one of the operands. -/
def unionCore (r1 r2 : JobResources) (i c : Nat) : Bool :=
  (r1.nodeBitmap.bit i && r1.coreBitmap.bit (coreOffset r1 i + c)) ||
    (r2.nodeBitmap.bit i && r2.coreBitmap.bit (coreOffset r2 i + c))

/-- What one node of the union does to the core bits. -/
theorem orStep_cores (ho : Operands r1 r2) (ha1 : Aligned r1) (ha2 : Aligned r2)
    (hn : n < r1.nodeBitmap.nbits) (hbit : unionBit r1 r2 n = true) :
    (orLoop hcores (n + 1)).coreOff = (orLoop hcores n).coreOff + unionCount r1 r2 n ∧
      (orLoop hcores (n + 1)).coreBitmap = setWhere (unionCore r1 r2 n) (orLoop hcores n).coreOff
        (unionCount r1 r2 n) (orLoop hcores n).coreBitmap := by
  have hn2 : n < r2.nodeBitmap.nbits := ho.same_table ▸ hn
  have hoff1 := cursorsAt_coreOff1 r2 ho.wf1 (Nat.le_of_lt hn)
  have hoff2 := cursorsAt_coreOff2 r1 ho.wf2 (Nat.le_of_lt hn2)
  rw [ha1.offset (Nat.le_of_lt hn)] at hoff1
  rw [ha2.offset (Nat.le_of_lt hn2)] at hoff2
  have hcnt1 := fun h1 => (cursorsAt_coreCnt1 r2 ho.wf1 hn h1)
  have hcnt2 := fun h2 => (cursorsAt_coreCnt2 r1 ho.wf2 hn2 h2)
  rw [orLoop_succ]
  unfold orStep unionCore unionCount
  dsimp only
  rw [orLoop_cursors]
  simp only [hoff1, hoff2, bitTest_eq]
  cases h1 : r1.nodeBitmap.bit n with
  | true =>
    cases h2 : r2.nodeBitmap.bit n with
    | true =>
      have heq : cursorCount r1 n = cursorCount r2 n := by
        rw [ha1.count hn h1, ha2.count hn2 h2, ho.count_eq hn h1 h2]
      simp only [OrState.addNode, hcnt1 h1, hcnt2 h2, ← heq, Nat.min_self, if_true, Bool.true_and,
        and_self]
    | false =>
      simp only [OrState.addNode, hcnt1 h1, if_true, Bool.true_and, Bool.false_and, Bool.or_false,
        and_self]
  | false =>
    have h2 : r2.nodeBitmap.bit n = true := by
      rwa [unionBit, h1, Bool.false_or] at hbit
    simp only [h2, OrState.addNode, hcnt2 h2, Bool.false_eq_true, if_false, Bool.true_and,
      Bool.false_and, Bool.false_or, and_self]

/-- The core bits of the union, after the nodes before `n`. -/
structure OrCores (r1 r2 : JobResources) (n : Nat) (s : OrState) : Prop where
  coreOff : s.coreOff = unionOffset r1 r2 n
  size : s.coreBitmap.nbits = coreBits r1 r2
  cores : ∀ i c, i < n → unionBit r1 r2 i = true → c < unionCount r1 r2 i →
    s.coreBitmap.bit (unionOffset r1 r2 i + c) = unionCore r1 r2 i c
  rest : ∀ k, unionOffset r1 r2 n ≤ k → s.coreBitmap.bit k = false

theorem orLoop_cores (ho : Operands r1 r2) (ha1 : Aligned r1) (ha2 : Aligned r2)
    (hn : n ≤ r1.nodeBitmap.nbits) : OrCores r1 r2 n (orLoop hcores n) := by
  induction n with
  | zero =>
    exact
      { coreOff := rfl
        size := rfl
        cores := fun i c hi => absurd hi (Nat.not_lt_zero i)
        rest := fun k _ => bit_bitAlloc _ _ k }
  | succ n ih =>
    have hprev := ih (by omega)
    have hoffset : unionOffset r1 r2 (n + 1)
        = unionOffset r1 r2 n + if unionBit r1 r2 n then unionCount r1 r2 n else 0 :=
      sumBefore_succ _ _ n
    cases hbit : unionBit r1 r2 n with
    | false =>
      obtain ⟨h1, h2⟩ := Bool.or_eq_false_iff.mp hbit
      rw [hbit, if_neg Bool.false_ne_true, Nat.add_zero] at hoffset
      rw [orLoop_succ, h1, h2, orStep_none]
      refine { hprev with coreOff := ?_, cores := ?_, rest := ?_ }
      · rw [hoffset]
        exact hprev.coreOff
      · intro i c hi hi'
        refine hprev.cores i c ?_ hi'
        rcases Nat.lt_succ_iff_lt_or_eq.mp hi with hi | rfl
        · exact hi
        · exact absurd (hbit.symm.trans hi') Bool.false_ne_true
      · rw [hoffset]
        exact hprev.rest
    | true =>
      rw [hbit, if_pos rfl] at hoffset
      obtain ⟨hoff, hmap⟩ := orStep_cores hcores ho ha1 ha2 hn hbit
      rw [hprev.coreOff] at hoff hmap
      have hblock := unionBlock_le ho ha1 ha2 hn hbit
      obtain ⟨hsize, hbits⟩ := setWhere_spec (unionCore r1 r2 n) (hprev.size ▸ hblock)
      rw [← hmap] at hsize hbits
      refine { coreOff := ?_, size := ?_, cores := ?_, rest := ?_ }
      · rw [hoff, hoffset]
      · rw [hsize, hprev.size]
      · intro i c hi hi' hc
        rw [hbits]
        rcases Nat.lt_succ_iff_lt_or_eq.mp hi with hi | rfl
        · have hle : unionOffset r1 r2 i + unionCount r1 r2 i ≤ unionOffset r1 r2 n :=
            sumBefore_add_le _ hi hi'
          rw [if_neg (by omega), hprev.cores i c hi hi' hc]
        · rw [if_pos ⟨by omega, by omega⟩, hprev.rest _ (Nat.le_add_right _ _),
            Nat.add_sub_cancel_left, Bool.false_or]
      · intro k hk
        rw [hbits, if_neg (by omega), hprev.rest k (by omega)]

end Slurm.JobResources
