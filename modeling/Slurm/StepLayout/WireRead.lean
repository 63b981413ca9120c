import Slurm.JobResources.WireContract
import Slurm.StepLayout.Wire

/-!
# Unpacking step layouts from any buffer

When `unpack_slurm_step_layout` ends well on a buffer that need not hold a layout.

At `unpack_error` the loop of `slurm_step_layout_destroy` goes up to `node_cnt`, which is set before
`tids` is.  So the buffer must not end, and no allocation must fail, between the two.

* `destroy_iff`, `destroy_unset_iff`: when the structure can be freed.
* `exact_str`, `exact_array`: when a field is read, and where the buffer is then.
* `fails_unpackLayout`: when unpacking ends with a structure that cannot be freed, or with an
  assertion.
* `fine_iff`: when it ends well.
-/

namespace Slurm.LayoutWire

open Lib.BigEndian Nat
open Lib.Reading
open Lib.Cleanup
open Slurm.Pack
open Slurm.Wire (versionMin safeArray encode encode_cons encode_append packAll_append packAll_cons
  reads_u32 reads_u16 reads_str avoids_reader avoids_safeArray avoids_word HasRoom)

variable {A : Type}
variable {α : Type} {c c' : Cursor Byte} {g : Cursor Byte → Out (List α)} {valp : Option (List α)}
    {l' : SlurmStepLayout A}

/-- The function returns, and freeing stays inside of the arrays. -/
def Unpacked.Fine : Unpacked A → Prop
  | .success _ _ => True
  | .error _ => True
  | .crash => False

/-! ## The condition -/

/-- The number in the next four bytes. -/
def sizeAt (c : Cursor Byte) : Nat := ofBytes (c.next 4)

/-- The cursor after a number and so many elements of `w` bytes. -/
def afterBlock (w : Nat) (c : Cursor Byte) : Cursor Byte := c.advance (4 + sizeAt c * w)

/-- A number and so many elements of `w` bytes are there, and the memory for them. -/
def BlockFits (w : Nat) (alloc : Bool) (c : Cursor Byte) : Prop :=
  4 ≤ c.remaining ∧ (sizeAt c ≠ 0 → alloc = true ∧ 4 + sizeAt c * w ≤ c.remaining)

/-- A string is there, and the memory for it. -/
def StrFits (alloc : Bool) (c : Cursor Byte) : Prop :=
  BlockFits 1 alloc c ∧
    (sizeAt c ≠ 0 → sizeAt c ≤ maxPackMemLen ∧ ((c.advance 4).next (sizeAt c)).getLast? = some 0)

/-- The arrays of `k` nodes are there, from that of node `i` on. -/
def NodesFit (alloc : Site → Bool) : Nat → Nat → Cursor Byte → Prop
  | 0, _, _ => True
  | k + 1, i, c => BlockFits 4 (alloc (.node i)) c ∧ NodesFit alloc k (i + 1) (afterBlock 4 c)

/-- The cursor after the arrays of `k` nodes. -/
def afterNodes : Nat → Cursor Byte → Cursor Byte
  | 0, c => c
  | k + 1, c => afterNodes k (afterBlock 4 c)

/-- The place of `node_cnt`, where the strings begin at `c`. -/
def nodeCntAt (c : Cursor Byte) : Cursor Byte := afterBlock 1 (afterBlock 1 c)

/-- What comes before `node_cnt` is there, and `node_cnt`. -/
def HeadFits (alloc : Site → Bool) (c : Cursor Byte) : Prop :=
  StrFits (alloc .skipped) c ∧ StrFits (alloc .nodeList) (afterBlock 1 c) ∧
    4 ≤ (nodeCntAt c).remaining

/-- The place of the arrays of `cpt_compact`, where `node_cnt` is at `c`. -/
def cptCompactAt (c : Cursor Byte) : Cursor Byte := afterNodes (sizeAt c) (c.advance 14)

/-- What comes before the assertion is there, where `node_cnt` is at `c`. -/
def CountsFit (alloc : Site → Bool) (c : Cursor Byte) : Prop :=
  14 ≤ c.remaining ∧ NodesFit alloc (sizeAt c) 0 (c.advance 14) ∧
    BlockFits 2 (alloc .cptCompactArray) (cptCompactAt c) ∧
      BlockFits 4 (alloc .cptCompactReps) (afterBlock 2 (cptCompactAt c))

/-- Where `node_cnt` is at `c`: if there are nodes, the three numbers after it are there, too, the
two arrays can be made, and an `int` can index them; and where assertions count, the arrays of
`cpt_compact` have one length. -/
structure Freeable (ndebug : Bool) (alloc : Site → Bool) (c : Cursor Byte) : Prop where
  allocated : sizeAt c ≠ 0 →
    14 ≤ c.remaining ∧ alloc .tasks = true ∧ alloc .tids = true ∧ sizeAt c ≤ 2 ^ 31
  counts : ndebug = false → CountsFit alloc c →
    sizeAt (cptCompactAt c) = sizeAt (afterBlock 2 (cptCompactAt c))

/-- When `unpack_slurm_step_layout` ends well. -/
def Readable (ndebug : Bool) (alloc : Site → Bool) (version : Nat) (c : Cursor Byte) : Prop :=
  versionMin ≤ version → 2 ≤ c.remaining → ofBytes (c.next 2) ≠ 0 → HeadFits alloc (c.advance 2) →
    Freeable ndebug alloc (nodeCntAt (c.advance 2))

/-! ## Freeing -/

theorem freeTids_iff (tids : Option (List (List (BitVec 32)))) (k i : Nat) :
    freeTids tids k (BitVec.ofNat 32 i) = true ↔
      ∀ j < k, indexed tids (BitVec.ofNat 32 (i + j)).toInt = true := by
  induction k generalizing i with
  | zero => simp [freeTids]
  | succ k ih =>
    have hnext : BitVec.ofNat 32 i + 1 = BitVec.ofNat 32 (i + 1) := (BitVec.ofNat_add i 1).symm
    rw [freeTids, Bool.and_eq_true, hnext, ih]
    constructor
    · intro ⟨hfirst, hrest⟩ j hj
      cases j with
      | zero => exact hfirst
      | succ j =>
        have hindex := hrest j (lt_of_succ_lt_succ hj)
        rwa [Nat.add_assoc, Nat.add_comm 1] at hindex
    · intro h
      refine ⟨h 0 (succ_pos k), fun j hj => ?_⟩
      have hindex := h (j + 1) (succ_lt_succ hj)
      rwa [Nat.add_assoc, Nat.add_comm 1]

/-- Without an array nothing can be freed. -/
theorem destroy_unset_iff {l : SlurmStepLayout A} (h : l.tids = none) :
    slurmStepLayoutDestroy (some l) = true ↔ l.nodeCnt.toNat = 0 := by
  show freeTids l.tids l.nodeCnt.toNat (BitVec.ofNat 32 0) = true ↔ _
  rw [freeTids_iff, h]
  constructor
  · intro hall
    by_contra hcnt
    have hindex := hall 0 (Nat.pos_of_ne_zero hcnt)
    simp [indexed] at hindex
  · intro hcnt j hj
    omega

/-- An array of `node_cnt` elements can be freed if all of its indexes are values of an `int`. -/
theorem destroy_iff {l : SlurmStepLayout A} (h : (l.tids.getD []).length = l.nodeCnt.toNat) :
    slurmStepLayoutDestroy (some l) = true ↔ l.nodeCnt.toNat ≤ 2 ^ 31 := by
  have hlt := l.nodeCnt.isLt
  rcases htids : l.tids with _ | tids
  · rw [destroy_unset_iff htids]
    rw [htids] at h
    simp at h
    omega
  · show freeTids l.tids l.nodeCnt.toNat (BitVec.ofNat 32 0) = true ↔ _
    rw [htids, Option.getD_some] at h
    rw [freeTids_iff, htids]
    constructor
    · intro hall
      by_contra hcnt
      have hindex := hall (2 ^ 31) (not_le.mp hcnt)
      simp [indexed] at hindex
    · intro hcnt j hj
      have hint : (BitVec.ofNat 32 (0 + j)).toInt = j := by
        rw [Nat.zero_add, BitVec.toInt_eq_toNat_cond, BitVec.toNat_ofNat, mod_eq_of_lt (by omega),
          if_pos (by omega)]
      rw [hint]
      simp [indexed]
      omega

/-! ## What is read of a buffer -/

theorem remaining_advance (c : Cursor Byte) (n : Nat) :
    (c.advance n).remaining = c.remaining - n := sub_add_eq _ _ _

theorem advance_advance (c : Cursor Byte) (n k : Nat) :
    (c.advance n).advance k = c.advance (n + k) := by
  rw [Cursor.advance, Cursor.advance, Cursor.advance, Nat.add_assoc]

theorem exact_block {β ε : Type} (e : ε) (check : List β → Bool) (n : Nat) (c : Cursor β) :
    Exact (blockIf e check n) c (n ≤ c.remaining ∧ check (c.next n) = true) (c.advance n)
      (· = c.next n) := by
  unfold Exact blockIf
  by_cases hroom : c.remaining < n
  · rw [if_pos hroom]
    exact Or.inr ⟨fun h => absurd h.1 (not_le.mpr hroom), e, c, rfl⟩
  · rw [if_neg hroom]
    cases hcheck : check (c.next n) with
    | false => exact Or.inr ⟨fun h => Bool.noConfusion h.2, e, c, rfl⟩
    | true => exact Or.inl ⟨⟨not_lt.mp hroom, rfl⟩, c.next n, rfl, rfl⟩

/-- A number of `w` bytes. -/
theorem exact_word (w k : Nat) (c : Cursor Byte) :
    Exact (unpackBytes w >>= fun n => pure (BitVec.ofNat k n)) c (w ≤ c.remaining) (c.advance w)
      (· = BitVec.ofNat k (ofBytes (c.next w))) := by
  have hblock := (exact_block Fault.unpackError (fun _ => true) w c).congr (and_iff_left rfl) rfl
    fun _ h => h
  refine exact_map (R := (· = ofBytes (c.next w))) (exact_map hblock ?_) ?_
  · intro bs hbs
    rw [hbs]
  · intro n hn
    rw [hn]

theorem exact_unpack32 (c : Cursor Byte) :
    Exact unpack32 c (4 ≤ c.remaining) (c.advance 4) (fun size => size.toNat = sizeAt c) :=
  (exact_word 4 32 c).congr Iff.rfl rfl fun size hsize => by
    rw [hsize]
    exact toNat_size c

theorem exact_fail (e : Fault) (c c' : Cursor Byte) (R : α → Prop) :
    Exact (fail e : Unpack α) c False c' R :=
  Or.inr ⟨id, e, c, rfl⟩

theorem exact_reader {m : Unpack (Option α)} {p : Prop} {R : Option α → Prop} (h : Exact m c p c' R)
    (len : α → Nat) : Exact (Out.reader (zeroOnError len m)) c p c' R := by
  unfold Exact Out.reader zeroOnError
  rcases h with ⟨hp, a, heq, hR⟩ | ⟨hp, e, c₁, heq⟩
  · rw [heq]
    exact Or.inl ⟨hp, a, rfl, hR⟩
  · rw [heq]
    exact Or.inr ⟨hp, .unpackError, c₁, rfl⟩

/-- A string. -/
theorem exact_str (alloc : Bool) (c : Cursor Byte) :
    Exact (Out.reader (unpackstrXmalloc alloc)) c (StrFits alloc c) (afterBlock 1 c)
      fun _ => True := by
  refine exact_reader ?_ _
  have hrest : ∀ size : BitVec 32, size.toNat = sizeAt c →
      Exact (if size = 0 then (pure none : Unpack (Option (List Byte)))
        else if maxPackMemLen < size.toNat then fail .unpackError
        else do
          let bs ← blockIf .unpackError (fun bs => decide (bs.getLast? = some 0) && alloc) size.toNat
          pure (some bs)) (c.advance 4)
        (sizeAt c ≠ 0 → sizeAt c ≤ maxPackMemLen ∧ sizeAt c ≤ (c.advance 4).remaining ∧
          alloc = true ∧ ((c.advance 4).next (sizeAt c)).getLast? = some 0) (afterBlock 1 c)
        fun _ => True := by
    intro size hsize
    have hzero : size = 0 ↔ sizeAt c = 0 := by
      rw [← hsize, ← BitVec.toNat_inj]
      rfl
    by_cases hnone : sizeAt c = 0
    · rw [if_pos (hzero.mpr hnone)]
      refine (exact_pure (c.advance 4) trivial).congr ?_ ?_ fun _ h => h
      · simp [hnone]
      · rw [afterBlock, hnone]
    · rw [if_neg fun h => hnone (hzero.mp h), hsize]
      by_cases hmax : maxPackMemLen < sizeAt c
      · rw [if_pos hmax]
        refine (exact_fail _ _ _ _).congr ?_ rfl fun _ h => h
        simp [hnone]
        omega
      · rw [if_neg hmax]
        refine (exact_map (exact_block _ _ _ _) fun _ _ => trivial).congr ?_ ?_ fun _ h => h
        · simp [hnone, not_lt.mp hmax, and_comm]
        · rw [advance_advance, afterBlock, Nat.mul_one]
  refine (exact_bind (exact_unpack32 c) hrest).congr ?_ rfl fun _ h => h
  rw [StrFits, BlockFits, remaining_advance]
  constructor
  · intro ⟨hfour, h⟩
    refine ⟨⟨hfour, fun hne => ?_⟩, fun hne => ⟨(h hne).1, (h hne).2.2.2⟩⟩
    have hroom := (h hne).2.1
    exact ⟨(h hne).2.2.1, by omega⟩
  · intro ⟨⟨hfour, hblock⟩, hstr⟩
    refine ⟨hfour, fun hne => ⟨(hstr hne).1, ?_, (hblock hne).1, (hstr hne).2⟩⟩
    have hroom := (hblock hne).2
    omega

theorem safeArray_ok {n : Nat} (h : g c = ⟨true, valp, n, c'⟩) :
    safeArray g c = (.ok (valp, n), c') := by
  rw [safeArray, h]
  rfl

theorem safeArray_error {n : Nat} (h : g c = ⟨false, valp, n, c'⟩) :
    safeArray g c = (.error .unpackError, c') := by
  rw [safeArray, h]
  rfl

/-- An array of elements of `w` bytes, and its length. -/
theorem exact_array {unpack : Unpack α} {w : Nat} (h : Fixed unpack w) (alloc : Bool)
    (c : Cursor Byte) :
    Exact (safeArray (unpackArray unpack alloc 0)) c (BlockFits w alloc c) (afterBlock w c)
      fun a => a.2 = sizeAt c := by
  rcases exact_unpack32 c with ⟨hfour, size, heq, hsize⟩ | ⟨hfour, e, c₁, heq⟩
  · have hzero : size = 0 ↔ sizeAt c = 0 := by
      rw [← hsize, ← BitVec.toNat_inj]
      rfl
    by_cases hnone : sizeAt c = 0
    · have hread : unpackArray unpack alloc 0 c = ⟨true, none, 0, c.advance 4⟩ := by
        rw [unpackArray, heq]
        exact if_pos (hzero.mpr hnone)
      refine Or.inl ⟨⟨hfour, fun hne => absurd hnone hne⟩, (none, 0), ?_, hnone.symm⟩
      rw [safeArray_ok hread, afterBlock, hnone, Nat.zero_mul]
    · have hvals := fixed_repeatFrom (fun _ => h) 0 (sizeAt c) (c.advance 4)
      rw [remaining_advance] at hvals
      cases alloc with
      | false =>
        have hread : unpackArray unpack false 0 c = ⟨false, none, size.toNat, c.advance 4⟩ := by
          rw [unpackArray, heq]
          exact if_neg fun h => hnone (hzero.mp h)
        exact Or.inr ⟨fun hfits => Bool.noConfusion (hfits.2 hnone).1, _, _, safeArray_error hread⟩
      | true =>
        split at hvals
        · rename_i hroom
          obtain ⟨e, c₁, hvals⟩ := hvals
          have hread : unpackArray unpack true 0 c = ⟨false, none, size.toNat, c₁⟩ := by
            rw [unpackArray, heq]
            dsimp only
            rw [if_neg fun h => hnone (hzero.mp h), if_neg (by decide), hsize, hvals]
          exact Or.inr ⟨fun hfits => absurd (hfits.2 hnone).2 (by omega), _, _,
            safeArray_error hread⟩
        · rename_i hroom
          obtain ⟨vals, hvals⟩ := hvals
          have hread : unpackArray unpack true 0 c =
              ⟨true, some vals, sizeAt c, (c.advance 4).advance (sizeAt c * w)⟩ := by
            rw [unpackArray, heq]
            dsimp only
            rw [if_neg fun h => hnone (hzero.mp h), if_neg (by decide), hsize, hvals]
          refine Or.inl ⟨⟨hfour, fun _ => ⟨rfl, by omega⟩⟩, (some vals, sizeAt c), ?_, rfl⟩
          rw [safeArray_ok hread, advance_advance, afterBlock]
  · have hread : unpackArray unpack alloc 0 c = ⟨false, none, 0, c₁⟩ := by
      rw [unpackArray, heq]
    exact Or.inr ⟨fun hfits => hfour hfits.1, _, _, safeArray_error hread⟩

/-! ## What is left at `unpack_error` -/

/-- The program ends, or the structure cannot be freed. -/
def Stop.Bad : Stop A → Prop
  | .unpackError l => slurmStepLayoutDestroy (some l) = false
  | .crash => True

/-- What freeing depends on is as it was. -/
def Kept (l l' : SlurmStepLayout A) : Prop :=
  l'.nodeCnt = l.nodeCnt ∧ (l'.tids.getD []).length = (l.tids.getD []).length ∧
    (l.tids = none → l'.tids = none)

theorem Kept.refl (l : SlurmStepLayout A) : Kept l l := ⟨rfl, rfl, id⟩

theorem Kept.trans {l l'' : SlurmStepLayout A} (h : Kept l l') (h' : Kept l' l'') : Kept l l'' :=
  ⟨h'.1.trans h.1, h'.2.1.trans h.2.1, fun hnone => h'.2.2 (h.2.2 hnone)⟩

theorem kept_setNode (l : SlurmStepLayout A) (i : Nat) (tids : List (BitVec 32)) (numTids : Nat) :
    Kept l (l.setNode i tids numTids) := by
  unfold Kept SlurmStepLayout.setNode
  rcases l.tids with _ | array
  · simp
  · simp

variable {P : Stop A → Prop} {l : SlurmStepLayout A} {alloc : Site → Bool}

theorem errors_safe {m : Unpack α} (h : Avoids m .crash) (hl : P (.unpackError l)) :
    Errors (safe l m) P := by
  apply errors_mapError
  intro c e c' heq
  cases e with
  | unpackError => exact hl
  | crash => exact absurd (congrArg Prod.fst heq) (h c)

theorem errors_safeXcalloc (allocated : Bool) (cnt : Nat) (zero : α) (hl : P (.unpackError l)) :
    Errors (safeXcalloc l allocated cnt zero) P := by
  unfold safeXcalloc
  split
  · exact errors_pure none
  · split
    · exact errors_fail hl
    · exact errors_pure _

theorem exact_safeXcalloc (l : SlurmStepLayout A) (allocated : Bool) (cnt : Nat) (zero : α)
    (c : Cursor Byte) :
    Exact (safeXcalloc l allocated cnt zero) c (cnt ≠ 0 → allocated = true) c
      fun a => (a.getD []).length = cnt := by
  unfold safeXcalloc
  split
  · rename_i hcnt
    refine (exact_pure c ?_).congr ?_ rfl fun _ h => h
    · exact hcnt.symm
    · simp [hcnt]
  · rename_i hcnt
    split
    · rename_i hfull
      refine Or.inr ⟨fun h => ?_, _, _, rfl⟩
      rw [h hcnt] at hfull
      exact Bool.noConfusion hfull
    · rename_i hfull
      refine (exact_pure c ?_).congr ?_ rfl fun _ h => h
      · simp
      · simp [hfull]

/-! ### Up to `node_cnt` -/

theorem errors_unpackNodeCnt (alloc : Site → Bool) :
    Errors (unpackNodeCnt alloc) fun e : Stop A => ¬ e.Bad := by
  have hzero : ∀ l : SlurmStepLayout A, l.tids = none → l.nodeCnt = 0 →
      ¬ Stop.Bad (.unpackError l) := by
    intro l htids hcnt
    show ¬ slurmStepLayoutDestroy (some l) = false
    rw [(destroy_unset_iff htids).mpr (by rw [hcnt]; rfl)]
    decide
  refine errors_bind (errors_safe (avoids_reader _) (hzero _ rfl rfl)) fun _ => ?_
  refine errors_bind (errors_safe (avoids_reader _) (hzero _ rfl rfl)) fun nodeList => ?_
  exact errors_bind (errors_safe (avoids_word 4 32) (hzero _ rfl rfl)) fun _ => errors_pure _

theorem exact_unpackNodeCnt (alloc : Site → Bool) (c : Cursor Byte) :
    Exact (unpackNodeCnt alloc : Build A (SlurmStepLayout A)) c (HeadFits alloc c)
      ((nodeCntAt c).advance 4)
      fun l => l.nodeCnt.toNat = sizeAt (nodeCntAt c) ∧ l.tids = none := by
  unfold HeadFits unpackNodeCnt
  refine exact_bind (exact_mapError (exact_str _ _) _) fun _ _ => ?_
  refine exact_bind (exact_mapError (exact_str _ _) _) fun nodeList _ => ?_
  exact exact_map (exact_mapError (exact_unpack32 _) _) fun nodeCnt hcnt => ⟨hcnt, rfl⟩

/-! ### The numbers and the two arrays -/

theorem errors_unpackNumbers (hP : ∀ l', Kept l l' → P (.unpackError l')) :
    Errors (unpackNumbers l) P := by
  refine errors_bind (errors_safe (avoids_word 2 16) (hP _ (Kept.refl l))) fun _ => ?_
  refine errors_bind (errors_safe (avoids_word 4 32) (hP _ ⟨rfl, rfl, id⟩)) fun _ => ?_
  exact errors_bind (errors_safe (avoids_word 4 32) (hP _ ⟨rfl, rfl, id⟩)) fun _ => errors_pure _

theorem exact_unpackNumbers (l : SlurmStepLayout A) (c : Cursor Byte) :
    Exact (unpackNumbers l) c (10 ≤ c.remaining) (c.advance 10) (Kept l) := by
  have hread : Exact (unpackNumbers l) c (2 ≤ c.remaining ∧ 4 ≤ (c.advance 2).remaining ∧
      4 ≤ ((c.advance 2).advance 4).remaining) (((c.advance 2).advance 4).advance 4) (Kept l) := by
    refine exact_bind (exact_mapError (exact_word 2 16 c) _) fun _ _ => ?_
    refine exact_bind (exact_mapError (exact_word 4 32 _) _) fun _ _ => ?_
    exact exact_map (exact_mapError (exact_word 4 32 _) _) fun _ _ => ⟨rfl, rfl, id⟩
  refine hread.congr ?_ ?_ fun _ h => h
  · rw [advance_advance, remaining_advance, remaining_advance]
    omega
  · rw [advance_advance, advance_advance]

theorem errors_allocArrays (alloc : Site → Bool) (hP : ∀ l', Kept l l' → P (.unpackError l')) :
    Errors (allocArrays alloc l) P := by
  refine errors_bind (errors_safeXcalloc _ _ _ (hP _ (Kept.refl l))) fun tasks => ?_
  exact errors_bind (errors_safeXcalloc _ _ _ (hP _ ⟨rfl, rfl, id⟩)) fun tids => errors_pure _

theorem exact_allocArrays (alloc : Site → Bool) (l : SlurmStepLayout A) (c : Cursor Byte) :
    Exact (allocArrays alloc l) c
      (l.nodeCnt.toNat ≠ 0 → alloc .tasks = true ∧ alloc .tids = true) c
      fun l' => l'.nodeCnt = l.nodeCnt ∧ (l'.tids.getD []).length = l'.nodeCnt.toNat := by
  have hmade : Exact (allocArrays alloc l) c
      ((l.nodeCnt.toNat ≠ 0 → alloc .tasks = true) ∧ (l.nodeCnt.toNat ≠ 0 → alloc .tids = true)) c
      fun l' => l'.nodeCnt = l.nodeCnt ∧ (l'.tids.getD []).length = l'.nodeCnt.toNat := by
    refine exact_bind (exact_safeXcalloc _ _ _ _ _) fun tasks _ => ?_
    exact exact_map (exact_safeXcalloc _ _ _ _ _) fun tids htids => ⟨rfl, htids⟩
  exact hmade.congr imp_and.symm rfl fun _ h => h

/-! ### The arrays of the nodes -/

theorem errors_unpackNodes (alloc : Site → Bool) (k i : Nat)
    (hP : ∀ l', Kept l l' → P (.unpackError l')) : Errors (unpackNodes alloc k i l) P := by
  induction k generalizing i l with
  | zero => exact errors_pure l
  | succ k ih =>
    refine errors_bind (errors_safe (avoids_safeArray _) (hP _ (Kept.refl l))) fun tids => ?_
    exact ih (i + 1) fun l' hl' => hP l' ((kept_setNode l i _ _).trans hl')

theorem exact_unpackNodes (alloc : Site → Bool) (k i : Nat) (l : SlurmStepLayout A)
    (c : Cursor Byte) :
    Exact (unpackNodes alloc k i l) c (NodesFit alloc k i c) (afterNodes k c) (Kept l) := by
  induction k generalizing i l c with
  | zero => exact exact_pure c (Kept.refl l)
  | succ k ih =>
    refine exact_bind (exact_mapError (exact_array (fixed_word 4 32) _ c) _) fun tids _ => ?_
    exact (ih (i + 1) _ _).congr Iff.rfl rfl fun l' hl' => (kept_setNode l i _ _).trans hl'

/-- Each array takes four bytes at least. -/
theorem le_of_nodesFit (alloc : Site → Bool) (k i : Nat) (h : NodesFit alloc k i c) :
    4 * k ≤ c.remaining := by
  induction k generalizing i c with
  | zero => exact Nat.zero_le _
  | succ k ih =>
    have hfour := h.1.1
    have hrest := ih (i + 1) h.2
    rw [afterBlock, remaining_advance] at hrest
    omega

/-! ### The arrays of `cpt_compact`, and `alias_addrs` -/

theorem sizeAt_lt (c : Cursor Byte) : sizeAt c < 2 ^ 32 := by
  rw [sizeAt, ← toNat_size]
  exact (BitVec.ofNat 32 (ofBytes (c.next 4))).isLt

theorem fails_unpackCptCompact (ndebug : Bool) (hl : ∀ l', Kept l l' → ¬ Stop.Bad (.unpackError l'))
    (c : Cursor Byte) :
    Fails Stop.Bad (unpackCptCompact ndebug alloc l) c ↔
      BlockFits 2 (alloc .cptCompactArray) c ∧ BlockFits 4 (alloc .cptCompactReps) (afterBlock 2 c) ∧
        ndebug = false ∧ sizeAt c ≠ sizeAt (afterBlock 2 c) := by
  unfold unpackCptCompact
  refine fails_bind_none (exact_mapError (exact_array (fixed_word 2 16) _ c) _)
    (errors_safe (avoids_safeArray _) (hl _ (Kept.refl l))) fun array harray => ?_
  refine fails_bind_none (exact_mapError (exact_array (fixed_word 4 32) _ _) _)
    (errors_safe (avoids_safeArray _) (hl _ ⟨rfl, rfl, id⟩)) fun reps hreps => ?_
  have hne : BitVec.ofNat 32 reps.2 ≠ BitVec.ofNat 32 array.2 ↔
      sizeAt c ≠ sizeAt (afterBlock 2 c) := by
    have hsize := sizeAt_lt c
    have hsize' := sizeAt_lt (afterBlock 2 c)
    rw [harray, hreps, ne_eq, ← BitVec.toNat_inj, BitVec.toNat_ofNat, BitVec.toNat_ofNat,
      mod_eq_of_lt hsize, mod_eq_of_lt hsize', ne_comm]
  dsimp only
  rw [← hne]
  split
  · rename_i hcrash
    exact iff_of_true ⟨_, _, rfl, trivial⟩ hcrash
  · rename_i hgood
    refine iff_of_false ?_ hgood
    exact not_fails (errors_pure _) _

theorem kept_unpackCptCompact {ndebug : Bool}
    (h : unpackCptCompact ndebug alloc l c = (.ok l', c')) : Kept l l' := by
  unfold unpackCptCompact at h
  obtain ⟨array, c₁, -, h⟩ := bind_eq_ok.mp h
  obtain ⟨reps, c₂, -, h⟩ := bind_eq_ok.mp h
  dsimp only at h
  split at h
  · cases h
  · cases h
    exact ⟨rfl, rfl, id⟩

theorem errors_unpackAlias (extractNetCred : CString → Nat → Option (NodeAliasAddrs A))
    (version : Nat) (alloc : Site → Bool) (hl : P (.unpackError l)) :
    Errors (unpackAlias extractNetCred version alloc l) P := by
  refine errors_bind (errors_safe (avoids_reader _) hl) fun tmpStr => ?_
  split
  · exact errors_pure l
  · split
    · exact errors_fail hl
    · exact errors_pure _

/-! ### All of it -/

/-- A structure that can be freed, and what comes from it. -/
theorem not_bad_of_kept (hlen : (l.tids.getD []).length = l.nodeCnt.toNat)
    (hcnt : l.nodeCnt.toNat ≤ 2 ^ 31) :
    ∀ l', Kept l l' → ¬ Stop.Bad (.unpackError l') := by
  intro l' ⟨hcnt', hlen', _⟩
  show ¬ slurmStepLayoutDestroy (some l') = false
  rw [(destroy_iff (by rw [hlen', hlen, hcnt'])).mpr (by rwa [hcnt'])]
  decide

theorem bad_of_kept (hlen : (l.tids.getD []).length = l.nodeCnt.toNat)
    (hcnt : ¬ l.nodeCnt.toNat ≤ 2 ^ 31) : ∀ l', Kept l l' → Stop.Bad (.unpackError l') := by
  intro l' ⟨hcnt', hlen', _⟩
  show slurmStepLayoutDestroy (some l') = false
  rw [← Bool.not_eq_true, destroy_iff (by rw [hlen', hlen, hcnt']), hcnt']
  exact hcnt

/-- What is unpacked once the arrays are made. -/
def unpackArrays (extractNetCred : CString → Nat → Option (NodeAliasAddrs A)) (ndebug : Bool)
    (version : Nat) (alloc : Site → Bool) (l : SlurmStepLayout A) : Build A (SlurmStepLayout A) := do
  let l ← unpackNodes alloc l.nodeCnt.toNat 0 l
  let l ← unpackCptCompact ndebug alloc l
  unpackAlias extractNetCred version alloc l

variable {extractNetCred : CString → Nat → Option (NodeAliasAddrs A)} {ndebug : Bool} {version : Nat}

/-- The arrays of `cpt_compact` are there, where assertions count, and have two lengths. -/
def CountsDiffer (ndebug : Bool) (alloc : Site → Bool) (c : Cursor Byte) : Prop :=
  BlockFits 2 (alloc .cptCompactArray) c ∧ BlockFits 4 (alloc .cptCompactReps) (afterBlock 2 c) ∧
    ndebug = false ∧ sizeAt c ≠ sizeAt (afterBlock 2 c)

theorem fails_unpackArrays (hlen : (l.tids.getD []).length = l.nodeCnt.toNat)
    (hcnt : l.nodeCnt.toNat ≤ 2 ^ 31) (c : Cursor Byte) :
    Fails Stop.Bad (unpackArrays extractNetCred ndebug version alloc l) c ↔
      NodesFit alloc l.nodeCnt.toNat 0 c ∧
        CountsDiffer ndebug alloc (afterNodes l.nodeCnt.toNat c) := by
  have hl := not_bad_of_kept hlen hcnt
  refine fails_bind_none (exact_unpackNodes alloc _ 0 l c) (errors_unpackNodes alloc _ 0 hl)
    fun l' hl' => ?_
  rw [fails_bind, fails_unpackCptCompact ndebug fun l'' hl'' => hl l'' (hl'.trans hl'')]
  refine or_iff_left fun ⟨l'', c', hread, hfails⟩ => ?_
  have hkept := hl'.trans (kept_unpackCptCompact hread)
  exact not_fails (errors_unpackAlias extractNetCred version alloc (hl l'' hkept)) c' hfails

/-- The loop of `slurm_step_layout_destroy` cannot pass `INT_MAX`, and a buffer cannot have
so many arrays. -/
theorem fails_unpackArrays_of_lt (hlen : (l.tids.getD []).length = l.nodeCnt.toNat)
    (hcnt : ¬ l.nodeCnt.toNat ≤ 2 ^ 31) (hsize : c.remaining < 2 ^ 32) :
    Fails Stop.Bad (unpackArrays extractNetCred ndebug version alloc l) c := by
  have hbad := bad_of_kept hlen hcnt
  have hshort : ¬ NodesFit alloc l.nodeCnt.toNat 0 c := by
    intro hfit
    have hle := le_of_nodesFit alloc _ 0 hfit
    omega
  have hnodes := exact_unpackNodes alloc l.nodeCnt.toNat 0 l c
  rcases hnodes with ⟨hfit, -⟩ | ⟨-, e, c', heq⟩
  · exact absurd hfit hshort
  · exact fails_bind.mpr (Or.inl ⟨e, c', heq, errors_unpackNodes alloc _ 0 hbad c e c' heq⟩)

/-- Before the array is made, only a structure without nodes can be freed. -/
theorem bad_unset_iff (htids : l.tids = none) (h : Kept l l') :
    Stop.Bad (.unpackError l') ↔ l.nodeCnt.toNat ≠ 0 := by
  show slurmStepLayoutDestroy (some l') = false ↔ _
  rw [← Bool.not_eq_true, destroy_unset_iff (h.2.2 htids), h.1]

/-- Unpacking from the making of the arrays on. -/
theorem fails_allocArrays (htids : l.tids = none) (hsize : c.remaining < 2 ^ 32) :
    Fails Stop.Bad (do
        let l ← allocArrays alloc l
        unpackArrays extractNetCred ndebug version alloc l) c ↔
      ((l.nodeCnt.toNat ≠ 0 →
          alloc .tasks = true ∧ alloc .tids = true ∧ l.nodeCnt.toNat ≤ 2 ^ 31) →
        NodesFit alloc l.nodeCnt.toNat 0 c ∧
          CountsDiffer ndebug alloc (afterNodes l.nodeCnt.toNat c)) := by
  have hmade := exact_allocArrays alloc l c
  by_cases hnone : l.nodeCnt.toNat = 0
  · have hgood : ∀ l', Kept l l' → ¬ Stop.Bad (.unpackError l') := fun l' hl' hbad =>
      (bad_unset_iff htids hl').mp hbad hnone
    have harrays := fails_bind_none (f := unpackArrays extractNetCred ndebug version alloc) hmade
      (errors_allocArrays alloc hgood) fun l' ⟨hcnt, hlen⟩ => by
        have hfails := @fails_unpackArrays A l' alloc extractNetCred ndebug version hlen
          (by rw [hcnt, hnone]; exact Nat.zero_le _) c
        rwa [hcnt] at hfails
    rw [harrays]
    simp [hnone]
  · have hbad : ∀ l', Kept l l' → Stop.Bad (.unpackError l') := fun l' hl' =>
      (bad_unset_iff htids hl').mpr hnone
    have harrays := fails_bind_all (f := unpackArrays extractNetCred ndebug version alloc)
      (q := l.nodeCnt.toNat ≤ 2 ^ 31 → NodesFit alloc l.nodeCnt.toNat 0 c ∧
        CountsDiffer ndebug alloc (afterNodes l.nodeCnt.toNat c)) hmade
      (errors_allocArrays alloc hbad) fun l' ⟨hcnt, hlen⟩ => by
        by_cases hint : l.nodeCnt.toNat ≤ 2 ^ 31
        · rw [fails_unpackArrays hlen (by rwa [hcnt]), hcnt]
          exact (imp_iff_right hint).symm
        · exact iff_of_true (fails_unpackArrays_of_lt hlen (by rwa [hcnt]) hsize)
            fun hle => absurd hle hint
    rw [harrays]
    simp only [ne_eq, hnone, not_false_eq_true, forall_const, and_imp]

/-- Unpacking from the numbers on, where `node_cnt` is at `c`. -/
theorem fails_unpackNumbers (htids : l.tids = none) (hcnt : l.nodeCnt.toNat = sizeAt c)
    (hroom : 4 ≤ c.remaining) (hsize : c.remaining < 2 ^ 32) :
    Fails Stop.Bad (do
        let l ← unpackNumbers l
        let l ← allocArrays alloc l
        unpackArrays extractNetCred ndebug version alloc l) (c.advance 4) ↔
      ¬ Freeable ndebug alloc c := by
  have hfourteen : 10 ≤ (c.advance 4).remaining ↔ 14 ≤ c.remaining := by
    rw [remaining_advance]
    omega
  have hnumbers := exact_unpackNumbers l (c.advance 4)
  rw [advance_advance, hfourteen] at hnumbers
  have hrest : ∀ l', Kept l l' → (Fails Stop.Bad (do
      let l ← allocArrays alloc l'
      unpackArrays extractNetCred ndebug version alloc l) (c.advance (4 + 10)) ↔
        ((sizeAt c ≠ 0 → alloc .tasks = true ∧ alloc .tids = true ∧ sizeAt c ≤ 2 ^ 31) →
          NodesFit alloc (sizeAt c) 0 (c.advance 14) ∧
            CountsDiffer ndebug alloc (cptCompactAt c))) := by
    intro l' hl'
    rw [fails_allocArrays (hl'.2.2 htids) (by rw [remaining_advance]; omega), hl'.1, hcnt]
    rfl
  have hfree : Freeable ndebug alloc c ↔
      (sizeAt c ≠ 0 → 14 ≤ c.remaining ∧ alloc .tasks = true ∧ alloc .tids = true ∧
        sizeAt c ≤ 2 ^ 31) ∧
      ¬ (14 ≤ c.remaining ∧ NodesFit alloc (sizeAt c) 0 (c.advance 14) ∧
        CountsDiffer ndebug alloc (cptCompactAt c)) := by
    constructor
    · intro h
      exact ⟨h.allocated, fun ⟨hlen, hnodes, harray, hreps, hassert, hne⟩ =>
        hne (h.counts hassert ⟨hlen, hnodes, harray, hreps⟩)⟩
    · intro ⟨hallocated, hcounts⟩
      refine ⟨hallocated, fun hassert ⟨hlen, hnodes, harray, hreps⟩ => ?_⟩
      by_contra hne
      exact hcounts ⟨hlen, hnodes, harray, hreps, hassert, hne⟩
  rw [hfree]
  by_cases hnone : sizeAt c = 0
  · rw [fails_bind_none hnumbers (errors_unpackNumbers fun l' hl' hbad =>
      (bad_unset_iff htids hl').mp hbad (hcnt.trans hnone)) hrest]
    simp [hnone]
  · rw [fails_bind_all hnumbers (errors_unpackNumbers fun l' hl' =>
      (bad_unset_iff htids hl').mpr (by rwa [hcnt])) hrest]
    simp only [ne_eq, hnone, not_false_eq_true, forall_const]
    grind

/-- When the label finds a structure that cannot be freed, or an assertion fails. -/
theorem fails_unpackLayout {c : Cursor Byte} (hsize : c.data.length < 2 ^ 32) :
    Fails Stop.Bad (unpackLayout extractNetCred ndebug version alloc) c ↔
      HeadFits alloc c ∧ ¬ Freeable ndebug alloc (nodeCntAt c) := by
  have hremaining : (nodeCntAt c).remaining < 2 ^ 32 := (sub_le _ _).trans_lt hsize
  refine fails_bind_none (exact_unpackNodeCnt alloc c).with_self (errors_unpackNodeCnt alloc)
    fun l ⟨⟨hcnt, htids⟩, hhead⟩ => ?_
  exact fails_unpackNumbers htids hcnt hhead.2.2 hremaining

theorem unpackError_fine (l : Option (SlurmStepLayout A)) (c : Cursor Byte) :
    (unpackError l c).Fine ↔ slurmStepLayoutDestroy l = true := by
  unfold unpackError
  split
  · rename_i hfree
    exact iff_of_true trivial hfree
  · rename_i hfree
    exact iff_of_false id hfree

theorem ofNat_word_eq_zero (c : Cursor Byte) :
    BitVec.ofNat 16 (ofBytes (c.next 2)) = 0 ↔ ofBytes (c.next 2) = 0 := by
  have hlen : (c.next 2).length ≤ 2 := by
    rw [Cursor.next, List.length_take]
    exact Nat.min_le_left _ _
  have hlt : ofBytes (c.next 2) < 2 ^ 16 :=
    (ofBytes_lt _).trans_le (Nat.pow_le_pow_right (by decide) hlen)
  rw [← BitVec.toNat_inj, BitVec.toNat_ofNat, mod_eq_of_lt hlt]
  rfl

/-- The function ends well exactly when the buffer can be read. -/
theorem fine_iff {c : Cursor Byte} (hsize : c.data.length < 2 ^ 32) :
    (unpackSlurmStepLayout extractNetCred ndebug alloc c version).Fine ↔
      Readable ndebug alloc version c := by
  unfold unpackSlurmStepLayout Readable
  by_cases hversion : versionMin ≤ version
  · rw [if_pos hversion, imp_iff_right hversion]
    rcases exact_word 2 16 c with ⟨hroom, uint16Tmp, heq, hvalue⟩ | ⟨hroom, e, c₁, heq⟩
    · rw [unpack16, heq, imp_iff_right hroom]
      subst hvalue
      dsimp only
      by_cases hnull : ofBytes (c.next 2) = 0
      · rw [if_pos ((ofNat_word_eq_zero c).mpr hnull)]
        exact iff_of_true trivial fun hne => absurd hnull hne
      · rw [if_neg fun h => hnull ((ofNat_word_eq_zero c).mp h), imp_iff_right hnull]
        have hfails := @fails_unpackLayout A alloc extractNetCred ndebug version (c.advance 2) hsize
        rw [← not_iff_not, Classical.not_imp, ← hfails]
        unfold Fails
        rcases unpackLayout extractNetCred ndebug version alloc (c.advance 2) with ⟨e | l, c'⟩
        · cases e with
          | unpackError l => simp [unpackError_fine, Stop.Bad]
          | crash => simp [Unpacked.Fine, Stop.Bad]
        · simp [Unpacked.Fine]
    · rw [unpack16, heq]
      exact iff_of_true ((unpackError_fine none c₁).mpr rfl) fun h => absurd h hroom
  · rw [if_neg hversion]
    exact iff_of_true ((unpackError_fine none c).mpr rfl) fun h => absurd h hversion

end Slurm.LayoutWire
