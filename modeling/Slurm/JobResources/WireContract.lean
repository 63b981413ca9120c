import Slurm.Pack.Contract
import Slurm.JobResources.Wire

/-!
# The contract of packed job resources

`wireContract_iff` says exactly when a structure comes back as it was packed, and when
`unpack_job_resources` ends well on any buffer.

A structure is not read back when an array that the other side requires is `NULL`:
`pack_job_resources` sends a length of 0 for it.  On the way to its error label,
`unpack_job_resources` may not have set the pointer that it frees there.

* `packJobResources_eq`: what is packed, as a list of values.
* `reads_unpackBody`: the structure is read back.
* `unpackFields_ok`: what is known of a structure that was unpacked.
-/

namespace Slurm.Wire

open Lib.BigEndian List
open Lib.Reading
open Slurm.Bitstring
open Slurm.Pack

variable {version n : Nat} {α : Type} {array : Option (List α)} {vs : List Val}
    {bitmap : Option (List Bool)} {c c' : Cursor Byte} {ndebug : Bool} {b : Buf}

/-! ## What is packed -/

/-- The values of a bit string. -/
def bitmapVals : Option (List Bool) → List Val
  | none => [.u32 noVal]
  | some bits => [.u32 (BitVec.ofNat 32 bits.length), .str (some ⟨bitFmtHexmask bits, nul_free_fmt bits⟩)]

/-- The values of the fields before the arrays, without the number of hosts. -/
def headVals (version : Nat) (r : Fields) : List Val :=
  .u32 r.ncpus ::
    ((if version2411 ≤ version then [.u32 r.nextStepNodeInx] else []) ++
      [.u32 r.nodeReq, .str r.nodes, .u8 r.wholeNode, .u16 r.threadsPerCore, .u16 r.crType])

/-- The values of the arrays. -/
def arrayVals (r : Fields) : List Val :=
  [.u32Array (sent r.cpuArrayReps r.cpuArrayCnt.toNat),
    .u16Array (sent r.cpuArrayValue r.cpuArrayCnt.toNat),
    .u16Array (sent r.cpus r.nhosts.toNat),
    .u16Array (sent r.cpusUsed r.nhosts.toNat),
    .u64Array (sent r.memoryAllocated r.nhosts.toNat),
    .u64Array (sent r.memoryUsed r.nhosts.toNat),
    .u16Array (sent r.socketsPerNode (sockRecs r)),
    .u16Array (sent r.coresPerSocket (sockRecs r)),
    .u32Array (sent r.sockCoreRepCount (sockRecs r))]

/-- The values of the bit strings. -/
def bitmapsVals (r : JobRes) : List Val :=
  bitmapVals r.coreBitmap ++ (bitmapVals r.coreBitmapUsed ++ bitmapVals r.nodeBitmap)

/-- The values that are packed after the number of hosts. -/
def bodyVals (version : Nat) (r : JobRes) : List Val :=
  headVals version r.toFields ++ (arrayVals r.toFields ++ bitmapsVals r)

/-- All values that are packed. -/
def wireVals (version : Nat) : Option JobRes → List Val
  | none => [.u32 noVal]
  | some r => .u32 r.nhosts :: bodyVals version r

theorem packAll_append (vs vs' : List Val) (b : Buf) :
    packAll (vs ++ vs') b = packAll vs' (packAll vs b) := foldl_append

theorem packAll_cons (v : Val) (vs : List Val) (b : Buf) :
    packAll (v :: vs) b = packAll vs (packVal v b) := rfl

theorem packBitStrHex_eq (bitmap : Option (List Bool)) (b : Buf) :
    packBitStrHex bitmap b = packAll (bitmapVals bitmap) b := by
  cases bitmap with
  | none => rfl
  | some bits => rfl

theorem packRest_eq (r : JobRes) (b : Buf) :
    packRest r b =
      packAll ([.str r.nodes, .u8 r.wholeNode, .u16 r.threadsPerCore, .u16 r.crType] ++
        (arrayVals r.toFields ++ bitmapsVals r)) b := by
  rw [packAll_append, packAll_append, bitmapsVals, packAll_append, packAll_append,
    ← packBitStrHex_eq, ← packBitStrHex_eq, ← packBitStrHex_eq]
  rfl

/-- The values that are packed. -/
theorem packJobResources_eq (hversion : versionMin ≤ version) (ptr : Option JobRes) (b : Buf) :
    packJobResources ptr version b = packAll (wireVals version ptr) b := by
  cases ptr with
  | none =>
    rw [packJobResources, if_pos hversion]
    split <;> rfl
  | some r =>
    rw [packJobResources, if_pos hversion, wireVals, bodyVals, headVals]
    by_cases hnew : version2411 ≤ version
    · rw [if_pos hnew, if_pos hnew, packRest_eq]
      simp only [cons_append, nil_append, packAll_cons]
      rfl
    · rw [if_neg hnew, if_neg hnew, packRest_eq]
      simp only [cons_append, nil_append, packAll_cons]
      rfl

/-! ## What is accepted -/

/-- An array is `NULL` or has this many elements.  An array of no elements is `NULL`. -/
def Sized {α : Type} (array : Option (List α)) (n : Nat) : Prop :=
  ∀ l, array = some l → l ≠ [] ∧ l.length = n

theorem sized_none : Sized (none : Option (List α)) n :=
  fun l hl => by cases hl

theorem sized_some {l : List α} (hne : l ≠ []) (hlen : l.length = n) : Sized (some l) n :=
  fun _ hl => Option.some.inj hl ▸ ⟨hne, hlen⟩

/-- A bit string, which is not empty and not too long. -/
def BitmapOk (bitmap : Option (List Bool)) : Prop := ∀ bits, bitmap = some bits → ValidSize bits.length

/-- The structures that are accepted: arrays are `NULL` or of the length that the
structure implies, and where `NULL` is not accepted they are not. -/
structure Accepted (r : JobRes) : Prop where
  nodes : strSize r.nodes ≤ maxPackMemLen
  reps : Sized r.cpuArrayReps r.cpuArrayCnt.toNat
  value : Sized r.cpuArrayValue r.cpuArrayCnt.toNat
  cpus : Sized r.cpus r.nhosts.toNat
  cpusUsed : Sized r.cpusUsed r.nhosts.toNat
  memoryAllocated : Sized r.memoryAllocated r.nhosts.toNat
  memoryUsed : Sized r.memoryUsed r.nhosts.toNat
  socketsPerNode : r.socketsPerNode.isSome = true ∧ Sized r.socketsPerNode (sockRecs r.toFields)
  coresPerSocket : r.coresPerSocket.isSome = true ∧ Sized r.coresPerSocket (sockRecs r.toFields)
  sockCoreRepCount :
    r.sockCoreRepCount.isSome = true ∧ Sized r.sockCoreRepCount (sockRecs r.toFields)
  coreBitmap : r.coreBitmap.isSome = true ∧ BitmapOk r.coreBitmap
  coreBitmapUsed : r.coreBitmapUsed.isSome = true ∧ BitmapOk r.coreBitmapUsed
  nodeBitmap : BitmapOk r.nodeBitmap

/-- What is sent of an array that is accepted. -/
theorem sent_eq (h : Sized array n) : sent array n = array.getD [] := by
  cases array with
  | none => exact take_nil
  | some l =>
    have hlen := (h l rfl).2
    rw [sent, Option.getD_some, ← hlen, take_length]

theorem unlessNil_sent (h : Sized array n) :
    (if sent array n = [] then none else some (sent array n)) = array := by
  rw [sent_eq h]
  cases array with
  | none => rfl
  | some l => exact if_neg (h l rfl).1

/-! ## What is read -/

/-- The bytes of some values. -/
def encode (vs : List Val) : List Byte := (allBlocks vs).flatten

theorem encode_cons (v : Val) (vs : List Val) : encode (v :: vs) = bytes v ++ encode vs := by
  rw [encode, allBlocks, flatMap_cons, flatten_append]
  rfl

theorem encode_append (vs vs' : List Val) : encode (vs ++ vs') = encode vs ++ encode vs' := by
  rw [encode, allBlocks, flatMap_append, flatten_append]
  rfl

theorem bytes_single {v : Val} {bs : List Byte} (h : blocks v = [bs]) : bytes v = bs := by
  rw [bytes, h, flatten_cons, flatten_nil, append_nil]

theorem reads_u32 (val : BitVec 32) : Reads unpack32 (bytes (.u32 val)) val := by
  rw [bytes_single rfl]
  exact reads_unpack32 val

theorem reads_u16 (val : BitVec 16) : Reads unpack16 (bytes (.u16 val)) val := by
  rw [bytes_single rfl]
  exact reads_word (show 16 = 8 * 2 from rfl) val

theorem reads_u8 (val : BitVec 8) : Reads unpack8 (bytes (.u8 val)) val := by
  rw [bytes_single rfl]
  exact reads_unpack8 val

theorem reads_str {str : Option CString} (h : strSize str ≤ maxPackMemLen) :
    Reads (Out.reader (unpackstrXmalloc true)) (bytes (.str str)) (strMem str) := by
  rw [bytes_single rfl]
  exact reads_unpackstrXmalloc h

/-- An array and its length are read. -/
theorem reads_safeArray {unpack : Unpack α} {block : α → List Byte}
    (hread : ∀ val, Reads unpack (block val) val) (hsized : Sized array n)
    (hlen : (sent array n).length < 2 ^ 32) :
    Reads (safeArray (unpackArray unpack true 0))
      (toBytes 4 (sent array n).length :: (sent array n).map block).flatten
      (array, (sent array n).length) := by
  intro c hbs
  rw [flatten_cons, ← flatMap_def] at hbs ⊢
  have heq := unpackArray_eq hread hlen hbs
  rw [unlessNil_sent hsized] at heq
  rw [safeArray, heq]
  rfl

/-- The first value of some, and the others. -/
theorem reads_next {β : Type} {m : Unpack α} {f : α → Unpack β} {v : Val} {a : α} {b : β}
    (hm : Reads m (bytes v) a) (hf : Reads (f a) (encode vs) b) :
    Reads (m >>= f) (encode (v :: vs)) b := by
  rw [encode_cons]
  exact reads_bind hm hf

theorem reads_done (a : α) : Reads (pure a : Unpack α) (encode []) a := reads_pure a

theorem reads_unpackNextStep (version : Nat) (val : BitVec 32) :
    Reads (unpackNextStep version) (encode (if version2411 ≤ version then [.u32 val] else []))
      (if version2411 ≤ version then val else 0) := by
  rw [unpackNextStep]
  by_cases hversion : version2411 ≤ version
  · rw [if_pos hversion, if_pos hversion, if_pos hversion, encode_cons,
      show encode [] = [] from rfl, append_nil]
    exact reads_u32 val
  · rw [if_neg hversion, if_neg hversion, if_neg hversion]
    exact reads_done 0

theorem reads_unpackHead (version : Nat) {r : Fields} (hnodes : strSize r.nodes ≤ maxPackMemLen) :
    Reads (unpackHead version) (encode (headVals version r))
      ⟨r.ncpus, if version2411 ≤ version then r.nextStepNodeInx else 0, r.nodeReq, r.nodes,
        r.wholeNode, r.threadsPerCore, r.crType⟩ := by
  rw [unpackHead, headVals]
  refine reads_next (reads_u32 _) ?_
  rw [encode_append]
  refine reads_bind (reads_unpackNextStep version r.nextStepNodeInx) ?_
  refine reads_next (reads_u32 _) ?_
  refine reads_next (reads_str hnodes) ?_
  refine reads_next (reads_u8 _) ?_
  refine reads_next (reads_u16 _) ?_
  refine reads_next (reads_u16 _) ?_
  rw [cstring_strMem]
  exact reads_done _

/-- What the version carries. -/
def Fields.carried (version : Nat) (r : Fields) : Fields :=
  { r with nextStepNodeInx := if version2411 ≤ version then r.nextStepNodeInx else 0 }

/-- What the version carries. -/
def JobRes.carried (version : Nat) (r : JobRes) : JobRes :=
  { r with toFields := r.toFields.carried version }

/-- The structures that come back: no array that is required is `NULL`, and no value
stands for something else. -/
structure Sendable (r : Fields) : Prop where
  nhosts : r.nhosts ≠ noVal
  reps : (r.cpuArrayReps.getD []).length = r.cpuArrayCnt.toNat
  value : (r.cpuArrayValue.getD []).length = r.cpuArrayCnt.toNat
  cpus : (r.cpus.getD []).length = r.nhosts.toNat
  crType : r.crType &&& 0x8000 = 0

theorem reads_u16Array {array : Option (List (BitVec 16))} (hsized : Sized array n)
    (hlen : (sent array n).length < 2 ^ 32) :
    Reads (safeArray (unpack16Array true 0)) (bytes (.u16Array (sent array n)))
      (array, (sent array n).length) :=
  reads_safeArray (reads_word (show 16 = 8 * 2 from rfl)) hsized hlen

theorem reads_u32Array {array : Option (List (BitVec 32))} (hsized : Sized array n)
    (hlen : (sent array n).length < 2 ^ 32) :
    Reads (safeArray (unpack32Array true 0)) (bytes (.u32Array (sent array n)))
      (array, (sent array n).length) :=
  reads_safeArray reads_unpack32 hsized hlen

theorem reads_u64Array {array : Option (List (BitVec 64))} (hsized : Sized array n)
    (hlen : (sent array n).length < 2 ^ 32) :
    Reads (safeArray (unpack64Array true 0)) (bytes (.u64Array (sent array n)))
      (array, (sent array n).length) :=
  reads_safeArray (reads_word (show 64 = 8 * 8 from rfl)) hsized hlen

variable {r : JobRes}

/-- The fields up to the bit strings are read back. -/
theorem reads_unpackFields (version : Nat) (h : Accepted r) (hsend : Sendable r.toFields)
    (hsized : ∀ v ∈ arrayVals r.toFields, v.Sized) :
    Reads (unpackFields version r.nhosts)
      (encode (headVals version r.toFields) ++ encode (arrayVals r.toFields))
      (r.toFields.carried version) := by
  rw [arrayVals] at hsized ⊢
  simp only [forall_mem_cons, Val.Sized] at hsized
  obtain ⟨hreps, hvalue, hcpus, hused, hmemory, hmemoryUsed, hsockets, hcores, hcounts, -⟩ := hsized
  have hrepsLen : (sent r.cpuArrayReps r.cpuArrayCnt.toNat).length = r.cpuArrayCnt.toNat := by
    rw [sent_eq h.reps, hsend.reps]
  have hvalueLen : (sent r.cpuArrayValue r.cpuArrayCnt.toNat).length = r.cpuArrayCnt.toNat := by
    rw [sent_eq h.value, hsend.value]
  have hcpusLen : (sent r.cpus r.nhosts.toNat).length = r.nhosts.toNat := by
    rw [sent_eq h.cpus, hsend.cpus]
  rw [unpackFields]
  refine reads_bind (reads_unpackHead version h.nodes) ?_
  refine reads_next (reads_u32Array h.reps hreps) ?_
  refine reads_next (reads_u16Array h.value hvalue) ?_
  rw [if_neg (not_not.mpr (hvalueLen.trans hrepsLen.symm))]
  refine reads_next (reads_u16Array h.cpus hcpus) ?_
  rw [if_neg (not_not.mpr hcpusLen)]
  refine reads_next (reads_u16Array h.cpusUsed hused) ?_
  refine reads_next (reads_u64Array h.memoryAllocated hmemory) ?_
  refine reads_next (reads_u64Array h.memoryUsed hmemoryUsed) ?_
  refine reads_next (reads_u16Array h.socketsPerNode.2 hsockets) ?_
  refine reads_next (reads_u16Array h.coresPerSocket.2 hcores) ?_
  refine reads_next (reads_u32Array h.sockCoreRepCount.2 hcounts) ?_
  dsimp only
  rw [hrepsLen, BitVec.ofNat_toNat, BitVec.setWidth_eq]
  exact reads_done _

theorem strSize_bitmap {bits : List Bool} (h : BitmapOk (some bits)) :
    strSize (some ⟨bitFmtHexmask bits, nul_free_fmt bits⟩) ≤ maxPackMemLen := by
  have hmax := (h bits rfl).2
  have hle := length_bitFmtHexmask_le bits
  rw [strSize, maxPackMemLen]
  dsimp only
  omega

/-- A bit string is read back. -/
theorem reads_unpackBitStrHex (ndebug : Bool) (h : BitmapOk bitmap) :
    Reads (unpackBitStrHex ndebug) (encode (bitmapVals bitmap)) bitmap := by
  rw [unpackBitStrHex]
  cases bitmap with
  | none =>
    refine reads_next (reads_u32 noVal) ?_
    exact reads_done none
  | some bits =>
    obtain ⟨hpos, hmax⟩ := h bits rfl
    have hsize : (BitVec.ofNat 32 bits.length).toNat = bits.length := by
      rw [BitVec.toNat_ofNat, Nat.mod_eq_of_lt (by omega)]
    have hnoVal : ¬ BitVec.ofNat 32 bits.length = noVal := by
      intro heq
      have hnat := congrArg BitVec.toNat heq
      rw [hsize, show noVal.toNat = 4294967294 from rfl] at hnat
      omega
    have hzero : ¬ BitVec.ofNat 32 bits.length = 0 := by
      intro heq
      have hnat := congrArg BitVec.toNat heq
      rw [hsize, show (0 : BitVec 32).toNat = 0 from rfl] at hnat
      omega
    refine reads_next (reads_u32 _) ?_
    rw [if_neg hnoVal]
    refine reads_next (reads_str (strSize_bitmap h)) ?_
    rw [if_neg hzero, if_neg fun hcrash => absurd hcrash.2 (by omega)]
    have hchars : (cstring (bitFmtHexmask bits ++ [0])).chars = bitFmtHexmask bits := by
      have hback := cstring_strMem (some ⟨bitFmtHexmask bits, nul_free_fmt bits⟩)
      rw [strMem, Option.map_some] at hback
      rw [Option.some.inj hback]
    rw [strMem]
    dsimp only
    rw [hchars, hsize, bitUnfmtHexmask_fmt (by omega)]
    exact reads_done (some bits)

/-- The structure is read back. -/
theorem reads_unpackBody (ndebug : Bool) (version : Nat) (h : Accepted r)
    (hsend : Sendable r.toFields) (hsized : ∀ v ∈ arrayVals r.toFields, v.Sized) :
    Reads (unpackBody ndebug version r.nhosts) (encode (bodyVals version r)) (r.carried version) := by
  rw [bodyVals, encode_append, encode_append, ← append_assoc, bitmapsVals, encode_append,
    encode_append]
  refine reads_bind (reads_unpackFields version h hsend hsized) ?_
  refine reads_bind (reads_unpackBitStrHex ndebug h.coreBitmap.2) ?_
  refine reads_bind (reads_unpackBitStrHex ndebug h.coreBitmapUsed.2) ?_
  exact reads_map (reads_unpackBitStrHex ndebug h.nodeBitmap) fun nodeBitmap =>
    JobRes.mk (r.toFields.carried version) r.coreBitmap r.coreBitmapUsed nodeBitmap

/-! ## What is known of a structure that was unpacked -/

/-- The length is that of the array. -/
theorem length_unpackArray (unpack : Unpack α) (alloc : Bool) (sizeVal : Nat) (c : Cursor Byte) :
    (unpackArray unpack alloc sizeVal c).success = true →
      ((unpackArray unpack alloc sizeVal c).valp.getD []).length =
        (unpackArray unpack alloc sizeVal c).sizeVal := by
  rw [unpackArray]
  split
  · exact fun h => Bool.noConfusion h
  · split
    · exact fun _ => rfl
    · split
      · exact fun h => Bool.noConfusion h
      · split
        · exact fun h => Bool.noConfusion h
        · rename_i hvals
          exact fun _ => length_repeatFrom hvals

theorem length_safeArray {unpack : Unpack α} {alloc : Bool} {sizeVal : Nat}
    {a : Option (List α) × Nat} (h : safeArray (unpackArray unpack alloc sizeVal) c = (.ok a, c')) :
    (a.1.getD []).length = a.2 := by
  have hlen := length_unpackArray unpack alloc sizeVal c
  rw [safeArray] at h
  split at h
  · rename_i hsuccess
    cases h
    exact hlen hsuccess
  · cases h

/-- The arrays that are required were there. -/
theorem unpackFields_ok {nhosts : BitVec 32} {r : Fields}
    (h : unpackFields version nhosts c = (.ok r, c')) :
    r.nhosts = nhosts ∧ (r.cpuArrayReps.getD []).length = (r.cpuArrayValue.getD []).length ∧
      BitVec.ofNat 32 (r.cpuArrayReps.getD []).length = r.cpuArrayCnt ∧
      (r.cpus.getD []).length = nhosts.toNat := by
  rw [unpackFields] at h
  obtain ⟨head, c₁, -, h⟩ := bind_eq_ok.mp h
  obtain ⟨reps, c₂, hreps, h⟩ := bind_eq_ok.mp h
  obtain ⟨value, c₃, hvalue, h⟩ := bind_eq_ok.mp h
  by_cases hcnt : value.2 = reps.2
  · rw [if_neg (not_not.mpr hcnt)] at h
    obtain ⟨cpus, c₄, hcpus, h⟩ := bind_eq_ok.mp h
    by_cases hhosts : cpus.2 = nhosts.toNat
    · rw [if_neg (not_not.mpr hhosts)] at h
      obtain ⟨cpusUsed, c₅, -, h⟩ := bind_eq_ok.mp h
      obtain ⟨memoryAllocated, c₆, -, h⟩ := bind_eq_ok.mp h
      obtain ⟨memoryUsed, c₇, -, h⟩ := bind_eq_ok.mp h
      obtain ⟨socketsPerNode, c₈, -, h⟩ := bind_eq_ok.mp h
      obtain ⟨coresPerSocket, c₉, -, h⟩ := bind_eq_ok.mp h
      obtain ⟨sockCoreRepCount, c₁₀, -, h⟩ := bind_eq_ok.mp h
      cases h
      exact ⟨rfl, (length_safeArray hreps).trans (hcnt.symm.trans (length_safeArray hvalue).symm),
        congrArg _ (length_safeArray hreps), (length_safeArray hcpus).trans hhosts⟩
    · rw [if_pos hhosts] at h
      cases h
  · rw [if_pos hcnt] at h
    cases h

/-! ## The contract -/

/-- The function ends with success, or with an error and `NULL` in `*job_resrcs_pptr`. -/
def Unpacked.Fine : Unpacked → Prop
  | .success _ _ => True
  | .error _ => True
  | .notSet => False
  | .crash => False

/-- What the two functions must do, for a structure that is packed into a buffer and for
any other buffer and version. -/
structure WireContract (ndebug : Bool) (ptr : Option JobRes) (version : Nat) (b : Buf)
    (version' : Nat) (c : Cursor Byte) : Prop where
  roundTrip :
    unpackJobResources ndebug version ⟨(packJobResources ptr version b).data, b.pos⟩ =
      .success (ptr.map (JobRes.carried version))
        ⟨(packJobResources ptr version b).data, (packJobResources ptr version b).pos⟩
  fine : (unpackJobResources ndebug version' c).Fine

/-- The buffer can be made large enough for some values. -/
structure HasRoom (b : Buf) (vs : List Val) : Prop where
  writable : Writable b
  size_le : b.data.length ≤ maxBufSize
  grows : Grows b.data.length b.pos ((allBlocks vs).map List.length)

/-- Where a bit string is unpacked, its size is accepted, and its text is not so long that
`bit_index` passes the numbers of 32 bits. -/
def BitmapFits (ndebug : Bool) (c : Cursor Byte) : Prop :=
  ∀ size str c₁ c₂, unpack32 c = (.ok size, c₁) → size ≠ noVal →
    Out.reader (unpackstrXmalloc true) c₁ = (.ok str, c₂) → size ≠ 0 →
      (ndebug = false → size.toNat ≤ 0x40000000) ∧
        ∀ text, str = some text → bitUnfmtHexmask size.toNat (cstring text).chars ≠ .overflow

/-- So it is for the next bit strings, as far as they are reached. -/
def BitmapsFit (ndebug : Bool) : Nat → Cursor Byte → Prop
  | 0, _ => True
  | n + 1, c =>
    BitmapFits ndebug c ∧
      ∀ bitmap c', unpackBitStrHex ndebug c = (.ok bitmap, c') → BitmapsFit ndebug n c'

/-- When `unpack_job_resources` ends well: the version is supported, the number of hosts
is there, and the bit strings that are reached are fine. -/
def Readable (ndebug : Bool) (version : Nat) (c : Cursor Byte) : Prop :=
  versionMin ≤ version ∧ 4 ≤ c.remaining ∧
    (BitVec.ofNat 32 (ofBytes (c.next 4)) ≠ noVal →
      ∀ fields c', unpackFields version (BitVec.ofNat 32 (ofBytes (c.next 4))) (c.advance 4) =
        (.ok fields, c') → BitmapsFit ndebug 3 c')

/-! ## How unpacking ends -/

theorem avoids_word (w k : Nat) :
    Avoids (unpackBytes w >>= fun n => pure (BitVec.ofNat k n)) Fault.crash := by
  refine avoids_bind (avoids_bind (avoids_blockIf Fault.noConfusion _ w) fun bs => ?_) fun n => ?_
  · exact avoids_pure _ _
  · exact avoids_pure _ _

theorem avoids_unpack32 : Avoids unpack32 .crash := avoids_word 4 32

theorem avoids_reader (f : Cursor Byte → Out α) : Avoids (Out.reader f) .crash := by
  intro c h
  rw [Stops, Out.reader] at h
  split at h <;> cases h

theorem avoids_safeArray (f : Cursor Byte → Out (List α)) : Avoids (safeArray f) .crash := by
  intro c h
  rw [Stops, safeArray] at h
  split at h <;> cases h

theorem avoids_unpackHead (version : Nat) : Avoids (unpackHead version) .crash := by
  refine avoids_bind (avoids_word 4 32) fun ncpus => ?_
  refine avoids_bind (avoids_ite avoids_unpack32 (avoids_pure _ _)) fun nextStepNodeInx => ?_
  refine avoids_bind (avoids_word 4 32) fun nodeReq => ?_
  refine avoids_bind (avoids_reader _) fun nodes => ?_
  refine avoids_bind (avoids_word 1 8) fun wholeNode => ?_
  refine avoids_bind (avoids_word 2 16) fun threadsPerCore => ?_
  exact avoids_bind (avoids_word 2 16) fun crType => avoids_pure _ _

theorem avoids_unpackFields (version : Nat) (nhosts : BitVec 32) :
    Avoids (unpackFields version nhosts) .crash := by
  refine avoids_bind (avoids_unpackHead version) fun head => ?_
  refine avoids_bind (avoids_safeArray _) fun reps => ?_
  refine avoids_bind (avoids_safeArray _) fun value => ?_
  refine avoids_ite (avoids_fail Fault.noConfusion) ?_
  refine avoids_bind (avoids_safeArray _) fun cpus => ?_
  refine avoids_ite (avoids_fail Fault.noConfusion) ?_
  refine avoids_bind (avoids_safeArray _) fun cpusUsed => ?_
  refine avoids_bind (avoids_safeArray _) fun memoryAllocated => ?_
  refine avoids_bind (avoids_safeArray _) fun memoryUsed => ?_
  refine avoids_bind (avoids_safeArray _) fun socketsPerNode => ?_
  refine avoids_bind (avoids_safeArray _) fun coresPerSocket => ?_
  exact avoids_bind (avoids_safeArray _) fun sockCoreRepCount => avoids_pure _ _

/-- What becomes of a text that was read. -/
theorem stops_bitmapText {size : BitVec 32} {str : Option (List Byte)} :
    Stops
        (if size = 0 then (pure none : Unpack (Option (List Bool)))
          else if ndebug = false ∧ 0x40000000 < size.toNat then fail .crash
          else
            match str with
            | none => fail .unpackError
            | some text =>
              match bitUnfmtHexmask size.toNat (cstring text).chars with
              | .bits bits => pure (some bits)
              | .error => fail .unpackError
              | .overflow => fail .crash) .crash c ↔
      size ≠ 0 ∧ ¬ ((ndebug = false → size.toNat ≤ 0x40000000) ∧
        ∀ text, str = some text → bitUnfmtHexmask size.toNat (cstring text).chars ≠ .overflow) := by
  by_cases hzero : size = 0
  · rw [if_pos hzero]
    exact iff_of_false (avoids_pure _ _ c) fun h => h.1 hzero
  · rw [if_neg hzero, and_iff_right hzero]
    by_cases hsize : ndebug = false ∧ 0x40000000 < size.toNat
    · rw [if_pos hsize]
      exact iff_of_true rfl fun h => absurd (h.1 hsize.1) (not_le.mpr hsize.2)
    · rw [if_neg hsize]
      have hok : ndebug = false → size.toNat ≤ 0x40000000 := fun hnd =>
        not_lt.mp fun hlt => hsize ⟨hnd, hlt⟩
      rw [and_iff_right hok]
      cases str with
      | none =>
        refine iff_of_false (avoids_fail Fault.noConfusion c) fun h => h fun text heq => ?_
        cases heq
      | some text =>
        dsimp only
        split
        · rename_i hbits
          refine iff_of_false (avoids_pure _ _ c) fun h => h fun text' heq => ?_
          rw [← Option.some.inj heq, hbits]
          exact Unfmt.noConfusion
        · rename_i herror
          refine iff_of_false (avoids_fail Fault.noConfusion c) fun h => h fun text' heq => ?_
          rw [← Option.some.inj heq, herror]
          exact Unfmt.noConfusion
        · rename_i hover
          exact iff_of_true rfl fun h => h text rfl hover

theorem stops_unpackBitStrHex :
    Stops (unpackBitStrHex ndebug) .crash c ↔ ¬ BitmapFits ndebug c := by
  rw [unpackBitStrHex, stops_bind, or_iff_right (avoids_unpack32 c), BitmapFits]
  push Not
  constructor
  · rintro ⟨size, c₁, hsize, h⟩
    by_cases hnoVal : size = noVal
    · rw [if_pos hnoVal] at h
      exact absurd h (avoids_pure _ _ c₁)
    · rw [if_neg hnoVal, stops_bind, or_iff_right (avoids_reader _ c₁)] at h
      obtain ⟨str, c₂, hstr, h⟩ := h
      obtain ⟨hzero, hbad⟩ := stops_bitmapText.mp h
      push Not at hbad
      exact ⟨size, str, c₁, c₂, hsize, hnoVal, hstr, hzero, hbad⟩
  · rintro ⟨size, str, c₁, c₂, hsize, hnoVal, hstr, hzero, hbad⟩
    refine ⟨size, c₁, hsize, ?_⟩
    rw [if_neg hnoVal, stops_bind]
    refine Or.inr ⟨str, c₂, hstr, stops_bitmapText.mpr ⟨hzero, ?_⟩⟩
    push Not
    exact hbad

/-- The bit strings do not stop the program exactly when they are fine as far as they are
reached. -/
theorem stops_unpackBody {ndebug : Bool} {version : Nat} {nhosts : BitVec 32} {c : Cursor Byte} :
    Stops (unpackBody ndebug version nhosts) .crash c ↔
      ¬ ∀ fields c', unpackFields version nhosts c = (.ok fields, c') → BitmapsFit ndebug 3 c' := by
  have hthree : ∀ (fields : Fields) (c' : Cursor Byte), Stops (do
      let coreBitmap ← unpackBitStrHex ndebug
      let coreBitmapUsed ← unpackBitStrHex ndebug
      let nodeBitmap ← unpackBitStrHex ndebug
      pure (⟨fields, coreBitmap, coreBitmapUsed, nodeBitmap⟩ : JobRes)) .crash c' ↔
        ¬ BitmapsFit ndebug 3 c' := by
    intro fields c'
    have hpure : ∀ coreBitmap coreBitmapUsed nodeBitmap c₁, ¬ Stops (pure (⟨fields, coreBitmap,
        coreBitmapUsed, nodeBitmap⟩ : JobRes) : Unpack JobRes) .crash c₁ := fun _ _ _ c₁ =>
      avoids_pure _ _ c₁
    simp only [stops_bind, stops_unpackBitStrHex, hpure, and_false, exists_false, or_false,
      BitmapsFit]
    push Not
    grind
  rw [unpackBody, stops_bind, or_iff_right (avoids_unpackFields version nhosts c)]
  push Not
  exact ⟨fun ⟨fields, c', hfields, h⟩ => ⟨fields, c', hfields, (hthree fields c').mp h⟩,
    fun ⟨fields, c', hfields, h⟩ => ⟨fields, c', hfields, (hthree fields c').mpr h⟩⟩

/-- The function ends well exactly when the buffer can be read. -/
theorem fine_iff (ndebug : Bool) (version : Nat) (c : Cursor Byte) :
    (unpackJobResources ndebug version c).Fine ↔ Readable ndebug version c := by
  rw [unpackJobResources, Readable]
  by_cases hversion : versionMin ≤ version
  · rw [if_pos hversion, and_iff_right hversion]
    by_cases hroom : 4 ≤ c.remaining
    · rw [unpack32_eq hroom, and_iff_right hroom]
      dsimp only
      by_cases hnone : BitVec.ofNat 32 (ofBytes (c.next 4)) = noVal
      · rw [if_pos hnone]
        exact iff_of_true trivial fun hne => absurd hnone hne
      · rw [if_neg hnone]
        have hstops := @stops_unpackBody ndebug version (BitVec.ofNat 32 (ofBytes (c.next 4)))
          (c.advance 4)
        rw [Stops] at hstops
        rw [imp_iff_right hnone]
        split
        · rename_i r c' hbody
          rw [hbody] at hstops
          exact iff_of_true trivial (not_not.mp fun hbad => by cases hstops.mpr hbad)
        · rename_i c' hbody
          rw [hbody] at hstops
          exact iff_of_true trivial (not_not.mp fun hbad => by cases hstops.mpr hbad)
        · rename_i c' hbody
          rw [hbody] at hstops
          exact iff_of_false id (hstops.mp rfl)
    · have hfixed := fixed_word 4 32 c
      rw [if_pos (not_le.mp hroom)] at hfixed
      obtain ⟨e, c', heq⟩ := hfixed
      rw [unpack32, heq]
      exact iff_of_false id fun h => hroom h.1
  · rw [if_neg hversion]
    exact iff_of_false id fun h => hversion h.1

/-! ## Round trips -/

theorem fixCrType_of_clear {crType : BitVec 16} (h : crType &&& 0x8000 = 0) :
    fixCrType crType = crType := if_neg (not_not.mpr h)

theorem fixCrType_clear (crType : BitVec 16) : fixCrType crType &&& 0x8000 = 0 := by
  rw [fixCrType]
  split
  · rw [BitVec.and_or_distrib_right, BitVec.and_assoc,
      show (~~~0x8000 &&& 0x8000 : BitVec 16) = 0 from rfl,
      show (0x20 &&& 0x8000 : BitVec 16) = 0 from rfl]
    simp
  · rename_i h
    exact not_not.mp h

/-- An array is not longer than its bytes. -/
theorem length_le_flatten {block : α → List Byte} (h : ∀ val, 1 ≤ (block val).length)
    (vals : List α) : vals.length ≤ (toBytes 4 vals.length :: vals.map block).flatten.length := by
  have hge := @length_flatMap_ge α block 1 vals h
  rw [flatten_cons, length_append, ← flatMap_def]
  omega

theorem sized_arrays (hbytes : ∀ v ∈ vs, (bytes v).length ≤ maxBufSize)
    (h : ∀ v ∈ arrayVals r.toFields, v ∈ vs) : ∀ v ∈ arrayVals r.toFields, v.Sized := by
  have hmax : maxBufSize < 2 ^ 32 := by decide
  have hword : ∀ w, 1 ≤ w → ∀ n, 1 ≤ (toBytes w n).length := fun w hw n => by
    rwa [length_toBytes]
  intro v hv
  have hle := hbytes v (h v hv)
  rw [arrayVals] at hv
  simp only [mem_cons, not_mem_nil, or_false] at hv
  rcases hv with rfl | rfl | rfl | rfl | rfl | rfl | rfl | rfl | rfl
  · exact (length_le_flatten (fun _ => hword 4 (by decide) _) _).trans_lt (hle.trans_lt hmax)
  · exact (length_le_flatten (fun _ => hword 2 (by decide) _) _).trans_lt (hle.trans_lt hmax)
  · exact (length_le_flatten (fun _ => hword 2 (by decide) _) _).trans_lt (hle.trans_lt hmax)
  · exact (length_le_flatten (fun _ => hword 2 (by decide) _) _).trans_lt (hle.trans_lt hmax)
  · exact (length_le_flatten (fun _ => hword 8 (by decide) _) _).trans_lt (hle.trans_lt hmax)
  · exact (length_le_flatten (fun _ => hword 8 (by decide) _) _).trans_lt (hle.trans_lt hmax)
  · exact (length_le_flatten (fun _ => hword 2 (by decide) _) _).trans_lt (hle.trans_lt hmax)
  · exact (length_le_flatten (fun _ => hword 2 (by decide) _) _).trans_lt (hle.trans_lt hmax)
  · exact (length_le_flatten (fun _ => hword 4 (by decide) _) _).trans_lt (hle.trans_lt hmax)

theorem sized_bitmapVals (h : BitmapOk bitmap) : ∀ v ∈ bitmapVals bitmap, v.Sized := by
  intro v hv
  cases bitmap with
  | none =>
    rw [bitmapVals, mem_singleton] at hv
    rw [hv]
    trivial
  | some bits =>
    simp only [bitmapVals, mem_cons, not_mem_nil, or_false] at hv
    rcases hv with rfl | rfl
    · trivial
    · exact strSize_bitmap h

theorem sized_wireVals (h : Accepted r)
    (hbytes : ∀ v ∈ wireVals version (some r), (bytes v).length ≤ maxBufSize) :
    (∀ v ∈ arrayVals r.toFields, v.Sized) ∧ ∀ v ∈ wireVals version (some r), v.Sized := by
  have harrays : ∀ v ∈ arrayVals r.toFields, v.Sized := by
    refine sized_arrays hbytes fun v hv => ?_
    rw [wireVals, bodyVals]
    exact mem_cons_of_mem _ (mem_append_right _ (mem_append_left _ hv))
  refine ⟨harrays, fun v hv => ?_⟩
  rw [wireVals, bodyVals, mem_cons, mem_append, mem_append, bitmapsVals,
    mem_append, mem_append] at hv
  rcases hv with rfl | hv | hv | hv | hv | hv
  · trivial
  · rw [headVals] at hv
    split at hv <;>
      simp only [mem_cons, mem_append, not_mem_nil, or_false, false_or] at hv
    · rcases hv with rfl | rfl | rfl | rfl | rfl | rfl | rfl <;> first | trivial | exact h.nodes
    · rcases hv with rfl | rfl | rfl | rfl | rfl | rfl <;> first | trivial | exact h.nodes
  · exact harrays v hv
  · exact sized_bitmapVals h.coreBitmap.2 v hv
  · exact sized_bitmapVals h.coreBitmapUsed.2 v hv
  · exact sized_bitmapVals h.nodeBitmap v hv

/-- What is in the buffer after some values are packed, and where packing ends. -/
theorem packed_vals (hroom : HasRoom b vs) (hsized : ∀ v ∈ vs, v.Sized) :
    encode vs <+: (packAll vs b).data.drop b.pos ∧
      (packAll vs b).pos = b.pos + (encode vs).length := by
  rw [packAll_eq hsized hroom.writable]
  obtain ⟨-, hpos, rest, hrest⟩ := writeAll_of_grows hroom.writable hroom.grows
  refine ⟨⟨rest, ?_⟩, hpos⟩
  have htake : (b.data.take b.pos).length = b.pos := by
    rw [length_take, min_eq_left hroom.writable.pos_le]
  rw [← hrest, append_assoc, drop_left' htake]
  rfl

/-- What is in the buffer after packing, and where packing ends. -/
theorem packed (hversion : versionMin ≤ version) {ptr : Option JobRes}
    (hroom : HasRoom b (wireVals version ptr)) (hsized : ∀ v ∈ wireVals version ptr, v.Sized) :
    encode (wireVals version ptr) <+: (packJobResources ptr version b).data.drop b.pos ∧
      (packJobResources ptr version b).pos = b.pos + (encode (wireVals version ptr)).length := by
  rw [packJobResources_eq hversion]
  exact packed_vals hroom hsized

/-- No structure at all comes back. -/
theorem roundTrip_none (hversion : versionMin ≤ version) (hroom : HasRoom b (wireVals version none))
    (ndebug : Bool) :
    unpackJobResources ndebug version ⟨(packJobResources none version b).data, b.pos⟩ =
      .success none
        ⟨(packJobResources none version b).data, (packJobResources none version b).pos⟩ := by
  have hsized : ∀ v ∈ wireVals version none, v.Sized := by
    intro v hv
    rw [wireVals, mem_singleton] at hv
    rw [hv]
    trivial
  obtain ⟨hdata, hpos⟩ := packed hversion hroom hsized
  rw [wireVals, encode_cons, show encode [] = [] from rfl, append_nil] at hdata hpos
  have hread := reads_u32 noVal ⟨(packJobResources none version b).data, b.pos⟩ hdata
  rw [unpackJobResources, if_pos hversion, hread]
  dsimp only
  rw [if_pos rfl, hpos]
  rfl

/-- A structure that came back could be sent. -/
theorem sendable_of_unpackBody {r' : JobRes} (h : Accepted r) (hnone : r.nhosts ≠ noVal)
    (hbody : unpackBody ndebug version r.nhosts c = (.ok r', c'))
    (hsame : { r' with crType := fixCrType r'.crType } = r.carried version) :
    Sendable r.toFields := by
  obtain ⟨fields, c₁, hfields, hbody⟩ := bind_eq_ok.mp hbody
  obtain ⟨coreBitmap, c₂, -, hbody⟩ := bind_eq_ok.mp hbody
  obtain ⟨coreBitmapUsed, c₃, -, hbody⟩ := bind_eq_ok.mp hbody
  obtain ⟨nodeBitmap, c₄, -, hbody⟩ := bind_eq_ok.mp hbody
  cases hbody
  obtain ⟨-, hlen, hcnt, hcpus⟩ := unpackFields_ok hfields
  have hreps : fields.cpuArrayReps = r.cpuArrayReps := congrArg (·.cpuArrayReps) hsame
  have hvalue : fields.cpuArrayValue = r.cpuArrayValue := congrArg (·.cpuArrayValue) hsame
  have hcpus' : fields.cpus = r.cpus := congrArg (·.cpus) hsame
  have hcnt' : fields.cpuArrayCnt = r.cpuArrayCnt := congrArg (·.cpuArrayCnt) hsame
  have hcrType : fixCrType fields.crType = r.crType := congrArg (·.crType) hsame
  rw [hreps, hvalue] at hlen
  rw [hreps, hcnt'] at hcnt
  rw [hcpus'] at hcpus
  have hsmall : (r.cpuArrayReps.getD []).length < 2 ^ 32 := by
    cases hr : r.cpuArrayReps with
    | none => exact Nat.two_pow_pos 32
    | some l =>
      rw [Option.getD_some, (h.reps l hr).2]
      exact r.cpuArrayCnt.isLt
  have hrepsLen : (r.cpuArrayReps.getD []).length = r.cpuArrayCnt.toNat := by
    rw [← hcnt, BitVec.toNat_ofNat, Nat.mod_eq_of_lt hsmall]
  refine ⟨hnone, hrepsLen, hlen.symm.trans hrepsLen, hcpus, ?_⟩
  rw [← hcrType]
  exact fixCrType_clear _

/-- A structure comes back exactly when it can be sent. -/
theorem roundTrip_some (hversion : versionMin ≤ version) (h : Accepted r)
    (hroom : HasRoom b (wireVals version (some r))) (ndebug : Bool) :
    unpackJobResources ndebug version ⟨(packJobResources (some r) version b).data, b.pos⟩ =
        .success (some (r.carried version)) ⟨(packJobResources (some r) version b).data,
          (packJobResources (some r) version b).pos⟩ ↔
      Sendable r.toFields := by
  have hbytes : ∀ v ∈ wireVals version (some r), (bytes v).length ≤ maxBufSize := by
    intro v hv
    have htotal := sum_le_of_grows hroom.writable.pos_le hroom.size_le hroom.grows
    rw [← length_flatten] at htotal
    exact (length_bytes_le hv).trans (by omega)
  obtain ⟨harrays, hsized⟩ := sized_wireVals h hbytes
  obtain ⟨⟨rest, hdata⟩, hpos⟩ := packed hversion hroom hsized
  rw [wireVals, encode_cons, length_append] at hpos
  rw [wireVals, encode_cons, append_assoc] at hdata
  have hfirst := reads_u32 r.nhosts ⟨(packJobResources (some r) version b).data, b.pos⟩
    ⟨_, hdata⟩
  have hdrop : (packJobResources (some r) version b).data.drop
      (b.pos + (bytes (.u32 r.nhosts)).length) = encode (bodyVals version r) ++ rest := by
    rw [← drop_drop, ← hdata, drop_left]
  rw [unpackJobResources, if_pos hversion, hfirst]
  dsimp only
  constructor
  · intro hback
    by_cases hnone : r.nhosts = noVal
    · rw [if_pos hnone] at hback
      cases hback
    · rw [if_neg hnone] at hback
      split at hback
      · rename_i r' c' hbody
        injection hback with hsame
        exact sendable_of_unpackBody h hnone hbody (Option.some.inj hsame)
      · cases hback
      · cases hback
  · intro hsend
    have hbody := reads_unpackBody ndebug version h hsend harrays
      ((Cursor.mk (packJobResources (some r) version b).data b.pos).advance
        (bytes (.u32 r.nhosts)).length) ⟨rest, hdrop.symm⟩
    rw [if_neg hsend.nhosts, hbody]
    dsimp only
    rw [JobRes.carried, Fields.carried]
    dsimp only
    rw [fixCrType_of_clear hsend.crType, hpos, ← Nat.add_assoc]
    rfl

/-- The contract is met exactly when the structure can be sent and the other buffer can be
read. -/
theorem wireContract_iff {version : Nat} (hversion : versionMin ≤ version) {ptr : Option JobRes}
    (hptr : ∀ r, ptr = some r → Accepted r) {b : Buf} (hroom : HasRoom b (wireVals version ptr))
    (ndebug : Bool) (version' : Nat) (c : Cursor Byte) :
    WireContract ndebug ptr version b version' c ↔
      (∀ r, ptr = some r → Sendable r.toFields) ∧ Readable ndebug version' c := by
  have hback : unpackJobResources ndebug version ⟨(packJobResources ptr version b).data, b.pos⟩ =
      .success (ptr.map (JobRes.carried version))
        ⟨(packJobResources ptr version b).data, (packJobResources ptr version b).pos⟩ ↔
      ∀ r, ptr = some r → Sendable r.toFields := by
    cases ptr with
    | none => exact iff_of_true (roundTrip_none hversion hroom ndebug) fun r hr => by cases hr
    | some r =>
      rw [Option.map_some, roundTrip_some hversion (hptr r rfl) hroom ndebug]
      exact ⟨fun hsend r' hr' => Option.some.inj hr' ▸ hsend, fun hsend => hsend r rfl⟩
  rw [← hback, ← fine_iff]
  exact ⟨fun h => ⟨h.roundTrip, h.fine⟩, fun h => ⟨h.1, h.2⟩⟩

/-- A buffer of one byte. -/
def smallBuf : Buf := { data := [0], pos := 0, mmaped := false, shadow := false }

/-- The number of hosts is not complete: `job_resrcs` is freed before it is set. -/
theorem wireContract_fails :
    ¬ WireContract true none (44 * 256) smallBuf (44 * 256) ⟨[0, 0, 0], 0⟩ := by
  intro h
  exact h.fine

/-- One core of one host. -/
def oneCore : JobRes where
  nhosts := 1
  ncpus := 1
  nextStepNodeInx := 0
  nodeReq := 0
  nodes := none
  wholeNode := 0
  threadsPerCore := 1
  crType := 1
  cpuArrayCnt := 1
  cpuArrayReps := some [1]
  cpuArrayValue := some [1]
  cpus := some [1]
  cpusUsed := none
  memoryAllocated := none
  memoryUsed := none
  socketsPerNode := some [1]
  coresPerSocket := some [1]
  sockCoreRepCount := some [1]
  coreBitmap := some [true]
  coreBitmapUsed := some [false]
  nodeBitmap := none

theorem accepted_oneCore : Accepted oneCore where
  nodes := Nat.zero_le _
  reps := sized_some (cons_ne_nil _ _) rfl
  value := sized_some (cons_ne_nil _ _) rfl
  cpus := sized_some (cons_ne_nil _ _) rfl
  cpusUsed := sized_none
  memoryAllocated := sized_none
  memoryUsed := sized_none
  socketsPerNode := ⟨rfl, sized_some (cons_ne_nil _ _) rfl⟩
  coresPerSocket := ⟨rfl, sized_some (cons_ne_nil _ _) rfl⟩
  sockCoreRepCount := ⟨rfl, sized_some (cons_ne_nil _ _) rfl⟩
  coreBitmap := ⟨rfl, fun bits hbits => by rw [← Option.some.inj hbits]; decide⟩
  coreBitmapUsed := ⟨rfl, fun bits hbits => by rw [← Option.some.inj hbits]; decide⟩
  nodeBitmap := fun bits hbits => by cases hbits

/-- One core of one host, in a small buffer, and a buffer that has no structure. -/
theorem wireContract_iff_witness :
    WireContract true (some oneCore) (44 * 256) smallBuf (44 * 256) ⟨[255, 255, 255, 254], 0⟩ ↔
      (∀ r, some oneCore = some r → Sendable r.toFields) ∧
        Readable true (44 * 256) ⟨[255, 255, 255, 254], 0⟩ :=
  wireContract_iff (by decide) (fun _ hr => Option.some.inj hr ▸ accepted_oneCore)
    ⟨⟨rfl, rfl, Nat.zero_le _⟩, by decide, by decide⟩ true _ _

end Slurm.Wire
