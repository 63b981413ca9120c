import Slurm.Lib.Run
import Slurm.Pack.RoundTrip

/-!
# The contract of packed buffers

`bufferContract_iff` says exactly when values that are packed come back, and when every
unpack call of a run does what it must, on any buffer.

The values come back unless the buffer cannot be made larger by `BUF_SIZE` at least.  On
an error the functions for an array of numbers set the pointer to `NULL`, but not the
length to 0, as the functions for memory blocks, strings and arrays of strings do.

* `moves_reader`: every call leaves `processed` within the buffer.
* `unpackArray_fails_iff`: what the functions for an array of numbers leave.
-/

namespace Slurm.Pack

open Lib.BigEndian
open Lib.Reading
open Lib.Run (Always EachStep Guarded)

variable {α : Type} {c : Cursor Byte}

/-! ## Calls -/

/-- An unpack call, with the length that the caller passes where it may be kept, and the
allocations that succeed. -/
inductive Call where
  | u8
  | bool
  | u16
  | u32
  | u64
  | time
  | memPtr
  | memXmalloc (alloc : Bool)
  | strXmalloc (alloc : Bool)
  | u16Array (alloc : Bool) (sizeVal : Nat)
  | u32Array (alloc : Bool) (sizeVal : Nat)
  | u64Array (alloc : Bool) (sizeVal : Nat)
  | strArray (alloc : Nat → Bool)

/-- What is seen of a call: whether it was a success, whether the pointer is not `NULL`,
the length, and the buffer. -/
structure Seen where
  success : Bool
  valp : Bool
  sizeVal : Nat
  buf : Cursor Byte

/-- A call with a pointer and a length. -/
def Out.seen {α : Type} (o : Out α) : Seen := ⟨o.success, o.valp.isSome, o.sizeVal, o.buf⟩

/-- A call that sets a number. -/
def seenNum {α : Type} (m : Unpack α) (c : Cursor Byte) : Seen :=
  match m c with
  | (.ok _, c') => ⟨true, false, 0, c'⟩
  | (.error _, c') => ⟨false, false, 0, c'⟩

/-- A call. -/
def Call.run : Call → Cursor Byte → Seen
  | .u8, c => seenNum unpack8 c
  | .bool, c => seenNum unpackbool c
  | .u16, c => seenNum unpack16 c
  | .u32, c => seenNum unpack32 c
  | .u64, c => seenNum unpack64 c
  | .time, c => seenNum unpackTime c
  | .memPtr, c => (unpackmemPtr c).seen
  | .memXmalloc alloc, c => (unpackmemXmalloc alloc c).seen
  | .strXmalloc alloc, c => (unpackstrXmalloc alloc c).seen
  | .u16Array alloc sizeVal, c => (unpack16Array alloc sizeVal c).seen
  | .u32Array alloc sizeVal, c => (unpack32Array alloc sizeVal c).seen
  | .u64Array alloc sizeVal, c => (unpack64Array alloc sizeVal c).seen
  | .strArray alloc, c => (unpackstrArray alloc c).seen

/-- The buffer after a call. -/
def exec (c : Cursor Byte) (call : Call) : Option (Cursor Byte) := some (call.run c).buf

/-! ## The contract -/

/-- `processed <= size` -/
def Within (c : Cursor Byte) : Prop := c.pos ≤ c.data.length

/-- A call never moves back, and leaves no pointer and no length when it fails. -/
def CallContract (c : Cursor Byte) (call : Call) (c' : Cursor Byte) : Prop :=
  c'.data = c.data ∧ c.pos ≤ c'.pos ∧
    ((call.run c).success = false → (call.run c).valp = false ∧ (call.run c).sizeVal = 0)

/-- What the buffer layer must do for the values that are packed into a buffer, and for
the calls that unpack another one. -/
structure BufferContract (b : Buf) (vs : List Val) (c : Cursor Byte) (calls : List Call) : Prop where
  roundTrips : RoundTrips b vs
  within : Always exec Within c calls
  each : EachStep exec CallContract c calls

/-- An array of numbers of `w` bytes can be read; or the length cannot, and it was 0. -/
def ArrayFits (w : Nat) (alloc : Bool) (sizeVal : Nat) (c : Cursor Byte) : Prop :=
  if c.remaining < 4 then sizeVal = 0
  else ofBytes (c.next 4) = 0 ∨ alloc = true ∧ 4 + ofBytes (c.next 4) * w ≤ c.remaining

/-- When a call does what it must. -/
def CallFits (c : Cursor Byte) : Call → Prop
  | .u16Array alloc sizeVal => ArrayFits 2 alloc sizeVal c
  | .u32Array alloc sizeVal => ArrayFits 4 alloc sizeVal c
  | .u64Array alloc sizeVal => ArrayFits 8 alloc sizeVal c
  | _ => True

/-! ## Where the calls leave the buffer -/

/-- The call moves on within the buffer. -/
def MovesOn (c c' : Cursor Byte) : Prop :=
  c'.data = c.data ∧ c.pos ≤ c'.pos ∧ c'.pos ≤ c.data.length

theorem movesOn_seenNum {m : Unpack α} (h : Moves m) (hc : Within c) :
    MovesOn c (seenNum m c).buf := by
  have hm := h c hc
  rw [seenNum]
  split <;> rename_i heq <;> rw [heq] at hm <;> exact hm

theorem movesOn_zeroOnError {m : Unpack (Option α)} (h : Moves m) (len : α → Nat) (hc : Within c) :
    MovesOn c (zeroOnError len m c).buf := by
  have hm := h c hc
  rw [zeroOnError]
  split <;> rename_i heq <;> rw [heq] at hm <;> exact hm

theorem moves_unpackBytes (w : Nat) : Moves (unpackBytes w) :=
  moves_bind (moves_blockIf _ _ w) fun bs => moves_pure (ofBytes bs)

theorem moves_word (w k : Nat) : Moves (unpackBytes w >>= fun n => pure (BitVec.ofNat k n)) :=
  moves_bind (moves_unpackBytes w) fun _ => moves_pure _

theorem moves_readMem (check : List Byte → Bool) (alloc : Bool) : Moves (readMem check alloc) := by
  refine moves_bind (moves_word 4 32) fun size => ?_
  refine moves_ite (moves_pure none) (moves_ite (moves_fail _) ?_)
  exact moves_bind (moves_blockIf _ _ _) fun bs => moves_pure (some bs)

theorem moves_reader {m : Unpack (Option α)} (h : Moves m) (len : α → Nat) :
    Moves (Out.reader (zeroOnError len m)) := by
  intro c hc
  have hm := movesOn_zeroOnError h len hc
  rw [Out.reader]
  split <;> exact hm

theorem moves_readStrArray (alloc : Nat → Bool) : Moves (readStrArray alloc) := by
  refine moves_bind (moves_word 4 32) fun size => ?_
  refine moves_ite (moves_pure none) (moves_ite (moves_fail _) (moves_ite (moves_fail _) ?_))
  refine moves_bind (moves_repeatFrom (fun i => moves_reader (moves_readMem _ _) _) _ _) fun vals => ?_
  exact moves_pure (some vals)

theorem movesOn_unpackArray {unpack : Unpack α} (h : Moves unpack) (alloc : Bool) (sizeVal : Nat)
    (hc : Within c) : MovesOn c (unpackArray unpack alloc sizeVal c).buf := by
  have hsize := moves_word 4 32 c hc
  rw [unpackArray]
  split
  · rename_i e c₁ heq
    rw [unpack32] at heq
    rwa [heq] at hsize
  · rename_i size c₁ heq
    rw [unpack32] at heq
    rw [heq] at hsize
    obtain ⟨hdata, hle, hlast⟩ := hsize
    split
    · exact ⟨hdata, hle, hlast⟩
    · split
      · exact ⟨hdata, hle, hlast⟩
      · have hvals := moves_repeatFrom (fun _ => h) 0 size.toNat c₁ (hdata ▸ hlast)
        split <;> rename_i heq' <;> rw [heq'] at hvals <;> obtain ⟨hdata', hle', hlast'⟩ := hvals
        · exact ⟨hdata'.trans hdata, hle.trans hle', hdata ▸ hlast'⟩
        · exact ⟨hdata'.trans hdata, hle.trans hle', hdata ▸ hlast'⟩

/-- Every call moves on within the buffer. -/
theorem movesOn_run (call : Call) (hc : Within c) : MovesOn c (call.run c).buf := by
  cases call with
  | u8 => exact movesOn_seenNum (moves_word 1 8) hc
  | bool => exact movesOn_seenNum (moves_bind (moves_word 1 8) fun _ => moves_pure _) hc
  | u16 => exact movesOn_seenNum (moves_word 2 16) hc
  | u32 => exact movesOn_seenNum (moves_word 4 32) hc
  | u64 => exact movesOn_seenNum (moves_word 8 64) hc
  | time => exact movesOn_seenNum (moves_word 8 64) hc
  | memPtr => exact movesOn_zeroOnError (moves_readMem _ _) _ hc
  | memXmalloc alloc => exact movesOn_zeroOnError (moves_readMem _ _) _ hc
  | strXmalloc alloc => exact movesOn_zeroOnError (moves_readMem _ _) _ hc
  | u16Array alloc sizeVal => exact movesOn_unpackArray (moves_word 2 16) alloc sizeVal hc
  | u32Array alloc sizeVal => exact movesOn_unpackArray (moves_word 4 32) alloc sizeVal hc
  | u64Array alloc sizeVal => exact movesOn_unpackArray (moves_word 8 64) alloc sizeVal hc
  | strArray alloc => exact movesOn_zeroOnError (moves_readStrArray alloc) _ hc

/-! ## What a call that fails leaves -/

theorem fixed_word (w k : Nat) :
    Fixed (unpackBytes w >>= fun n => pure (BitVec.ofNat k n)) w :=
  fixed_map (fixed_map (fixed_block _ w) ofBytes) (BitVec.ofNat k)

/-- The label that sets the length sets both. -/
theorem zeroOnError_fails (len : α → Nat) (m : Unpack (Option α))
    (h : (zeroOnError len m c).seen.success = false) :
    (zeroOnError len m c).seen.valp = false ∧ (zeroOnError len m c).seen.sizeVal = 0 := by
  rcases hm : m c with ⟨_ | valp, c₁⟩
  · rw [zeroOnError, hm]
    exact ⟨rfl, rfl⟩
  · rw [zeroOnError, hm] at h
    cases h

theorem seenNum_fails (m : Unpack α) (c : Cursor Byte) :
    (seenNum m c).valp = false ∧ (seenNum m c).sizeVal = 0 := by
  rw [seenNum]
  split <;> exact ⟨rfl, rfl⟩

/-- The length that comes first. -/
theorem unpack32_eq (h : 4 ≤ c.remaining) :
    unpack32 c = (.ok (BitVec.ofNat 32 (ofBytes (c.next 4))), c.advance 4) := by
  have hblock : block Fault.unpackError 4 c = (.ok (c.next 4), c.advance 4) := by
    rw [block, blockIf, if_neg (not_lt.mpr h), if_neg (by decide)]
  rw [unpack32, bind_apply, unpackBytes, bind_apply, hblock]
  rfl

theorem toNat_size (c : Cursor Byte) :
    (BitVec.ofNat 32 (ofBytes (c.next 4))).toNat = ofBytes (c.next 4) := by
  have hlen : (c.next 4).length ≤ 4 := by
    rw [Cursor.next, List.length_take]
    exact Nat.min_le_left _ _
  have hlt : ofBytes (c.next 4) < 2 ^ 32 :=
    (ofBytes_lt _).trans_le (Nat.pow_le_pow_right (by decide) hlen)
  rw [BitVec.toNat_ofNat, Nat.mod_eq_of_lt hlt]

/-- A call for an array of numbers leaves no length when it fails, exactly when the array
can be read or the length cannot and was 0. -/
theorem unpackArray_fails_iff {unpack : Unpack α} {w : Nat} (h : Fixed unpack w) (alloc : Bool)
    (sizeVal : Nat) (c : Cursor Byte) :
    ((unpackArray unpack alloc sizeVal c).seen.success = false →
      (unpackArray unpack alloc sizeVal c).seen.valp = false ∧
        (unpackArray unpack alloc sizeVal c).seen.sizeVal = 0) ↔
      ArrayFits w alloc sizeVal c := by
  have hsize := fixed_word 4 32 c
  rw [ArrayFits]
  split at hsize
  · rename_i hlt
    obtain ⟨e, c₁, heq⟩ := hsize
    rw [if_pos hlt, unpackArray, unpack32, heq]
    exact ⟨fun hfail => (hfail rfl).2, fun hzero _ => ⟨rfl, hzero⟩⟩
  · rename_i hge
    have hvals := fixed_repeatFrom (fun _ => h) 0 (ofBytes (c.next 4)) (c.advance 4)
    have hremaining : (c.advance 4).remaining = c.remaining - 4 := Nat.sub_add_eq _ _ _
    have hzero : BitVec.ofNat 32 (ofBytes (c.next 4)) = 0 ↔ ofBytes (c.next 4) = 0 := by
      rw [← BitVec.toNat_inj, toNat_size]
      rfl
    rw [if_neg hge, unpackArray, unpack32_eq (not_lt.mp hge)]
    dsimp only
    rw [toNat_size]
    by_cases hnone : ofBytes (c.next 4) = 0
    · rw [if_pos (hzero.mpr hnone)]
      exact iff_of_true (fun hfail => Bool.noConfusion hfail) (Or.inl hnone)
    · rw [if_neg fun hsz => hnone (hzero.mp hsz), or_iff_right hnone]
      by_cases halloc : alloc = false
      · rw [if_pos halloc]
        refine iff_of_false (fun hfail => hnone (hfail rfl).2) fun hfits => ?_
        rw [halloc] at hfits
        exact Bool.noConfusion hfits.1
      · rw [if_neg halloc]
        split at hvals
        · rename_i hlt
          obtain ⟨e, c₁, heq⟩ := hvals
          rw [heq]
          exact iff_of_false (fun hfail => hnone (hfail rfl).2) fun hfits => by omega
        · obtain ⟨vals, heq⟩ := hvals
          rw [heq]
          refine iff_of_true (fun hfail => Bool.noConfusion hfail) ⟨?_, by omega⟩
          exact Bool.not_eq_false _ |>.mp halloc

/-- A call does what it must exactly when the condition is met. -/
theorem callContract_iff (call : Call) (hc : Within c) :
    CallContract c call (call.run c).buf ↔ CallFits c call := by
  obtain ⟨hdata, hle, -⟩ := movesOn_run call hc
  rw [CallContract, and_iff_right hdata, and_iff_right hle]
  cases call with
  | u8 => exact iff_of_true (fun _ => seenNum_fails _ c) trivial
  | bool => exact iff_of_true (fun _ => seenNum_fails _ c) trivial
  | u16 => exact iff_of_true (fun _ => seenNum_fails _ c) trivial
  | u32 => exact iff_of_true (fun _ => seenNum_fails _ c) trivial
  | u64 => exact iff_of_true (fun _ => seenNum_fails _ c) trivial
  | time => exact iff_of_true (fun _ => seenNum_fails _ c) trivial
  | memPtr => exact iff_of_true (zeroOnError_fails _ _) trivial
  | memXmalloc alloc => exact iff_of_true (zeroOnError_fails _ _) trivial
  | strXmalloc alloc => exact iff_of_true (zeroOnError_fails _ _) trivial
  | u16Array alloc sizeVal => exact unpackArray_fails_iff (fixed_word 2 16) alloc sizeVal c
  | u32Array alloc sizeVal => exact unpackArray_fails_iff (fixed_word 4 32) alloc sizeVal c
  | u64Array alloc sizeVal => exact unpackArray_fails_iff (fixed_word 8 64) alloc sizeVal c
  | strArray alloc => exact iff_of_true (zeroOnError_fails _ _) trivial

/-- The contract is met exactly when the buffer can be made large enough for the values,
and every call for an array of numbers finds it complete. -/
theorem bufferContract_iff {size : Nat} {b : Buf} (hb : initBuf size = some b) {vs : List Val}
    (hvs : ∀ v ∈ vs, v.Sized) {c : Cursor Byte} (hc : Within c) (calls : List Call) :
    BufferContract b vs c calls ↔
      Grows b.data.length 0 ((allBlocks vs).map List.length) ∧ Guarded exec CallFits c calls := by
  have hrule : Always exec Within c calls ∧ EachStep exec CallContract c calls ↔
      Guarded exec CallFits c calls := by
    apply Lib.Run.always_eachStep_iff (I := Within) _ _ hc
    · exact fun _ hc => hc
    · intro c call c' hc hc'
      obtain rfl := Option.some.inj hc'
      obtain ⟨hdata, -, hlast⟩ := movesOn_run call hc
      have hwithin : Within (call.run c).buf := by
        rw [Within, hdata]
        exact hlast
      exact ⟨fun _ => hwithin, (and_iff_right hwithin).trans (callContract_iff call hc)⟩
  rw [← roundTrips_iff hb hvs, ← hrule]
  exact ⟨fun h => ⟨h.roundTrips, h.within, h.each⟩, fun h => ⟨h.1, h.2.1, h.2.2⟩⟩

/-- A buffer that ends after the length of an array. -/
def truncated : Cursor Byte := ⟨[0, 0, 0, 1], 0⟩

/-- The array is not there, and its length is left. -/
theorem bufferContract_fails :
    ∃ b, initBuf 1 = some b ∧ ¬ BufferContract b [] truncated [.u16Array true 0] := by
  refine ⟨_, rfl, fun h => ?_⟩
  have hlen := ((h.each _ rfl).1.2.2 rfl).2
  exact absurd hlen (by decide)

/-- Some values in a buffer of one byte, and the calls for two of them in another one. -/
theorem bufferContract_iff_witness :
    BufferContract ⟨⟨[0], 0⟩, false, false⟩ [.u16 7, .str none, .u32Array [5]] truncated
        [.u32, .u16Array true 0] ↔
      Grows 1 0 [2, 4, 4, 4] ∧ Guarded exec CallFits truncated [.u32, .u16Array true 0] :=
  @bufferContract_iff 1 _ rfl _ (by simp [Val.Sized, strSize]) _ (Nat.zero_le _) _

end Slurm.Pack
