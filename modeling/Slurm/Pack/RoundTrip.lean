import Slurm.Pack.Model

/-!
# What is packed is unpacked

A `Val` is a value with the function that packs it.  `packAll` packs some values, one
after the other, and `readAll` unpacks the same types.

Every pack function writes some blocks of bytes (`blocks`).  `Grows` says that the buffer
can be made large enough for each of them.  When it does, the buffer has all blocks in
order (`writeAll_of_grows`); when it does not, one of them is missing
(`writeAll_of_not_grows`).  As the unpack functions take just the bytes of the values
that they give (`takes_readVal`), the values come back exactly in the first case.

* `roundTrips_iff`: when the values come back.
-/

namespace Slurm.Pack

open Lib.BigEndian Option Nat
open Lib.Reading

variable {size n w : Nat} {b : Buf} {bs : List Byte} {bss : List (List Byte)} {α : Type}
    {block : α → List Byte} {valp : List (Option CString)} {unpack : Unpack α} {c : Cursor Byte}

/-! ## Values -/

/-- A value with its pack function. -/
inductive Val where
  | u8 (val : BitVec 8)
  | bool (val : Bool)
  | u16 (val : BitVec 16)
  | u32 (val : BitVec 32)
  | u64 (val : BitVec 64)
  | time (val : BitVec 64)
  | mem (valp : List Byte)
  | str (str : Option CString)
  | u16Array (valp : List (BitVec 16))
  | u32Array (valp : List (BitVec 32))
  | u64Array (valp : List (BitVec 64))
  | strArray (valp : List (Option CString))

/-- The type of a value. -/
inductive Kind where
  | u8
  | bool
  | u16
  | u32
  | u64
  | time
  | mem
  | str
  | u16Array
  | u32Array
  | u64Array
  | strArray

/-- The type of a value. -/
def Val.kind : Val → Kind
  | .u8 _ => .u8
  | .bool _ => .bool
  | .u16 _ => .u16
  | .u32 _ => .u32
  | .u64 _ => .u64
  | .time _ => .time
  | .mem _ => .mem
  | .str _ => .str
  | .u16Array _ => .u16Array
  | .u32Array _ => .u32Array
  | .u64Array _ => .u64Array
  | .strArray _ => .strArray

/-- The size of the memory block that a string is packed as. -/
def strSize : Option CString → Nat
  | none => 0
  | some str => str.chars.length + 1

/-- Memory blocks are not too large, and lengths are numbers of 32 bits. -/
def Val.Sized : Val → Prop
  | .mem valp => valp.length ≤ maxPackMemLen
  | .str s => strSize s ≤ maxPackMemLen
  | .u16Array valp => valp.length < 2 ^ 32
  | .u32Array valp => valp.length < 2 ^ 32
  | .u64Array valp => valp.length < 2 ^ 32
  | .strArray valp => valp.length < 2 ^ 32 ∧ ∀ s ∈ valp, strSize s ≤ maxPackMemLen
  | _ => True

/-- The value is packed. -/
def packVal : Val → Buf → Buf
  | .u8 val => pack8 val
  | .bool val => packbool val
  | .u16 val => pack16 val
  | .u32 val => pack32 val
  | .u64 val => pack64 val
  | .time val => packTime val
  | .mem valp => packmem valp
  | .str str => packstr str
  | .u16Array valp => pack16Array valp
  | .u32Array valp => pack32Array valp
  | .u64Array valp => pack64Array valp
  | .strArray valp => packstrArray valp

/-- The values are packed in order. -/
def packAll (vs : List Val) (b : Buf) : Buf := vs.foldl (fun b v => packVal v b) b

/-- The string at a pointer. -/
def cstring (bs : List Byte) : CString where
  chars := bs.takeWhile fun c => decide (c ≠ 0)
  nul_free := fun h => by
    have hc := List.mem_takeWhile_imp h
    exact absurd rfl (of_decide_eq_true hc)

/-- A value of the type is unpacked, where no allocation fails. -/
def readVal : Kind → Unpack Val
  | .u8 => do
    let val ← unpack8
    pure (.u8 val)
  | .bool => do
    let val ← unpackbool
    pure (.bool val)
  | .u16 => do
    let val ← unpack16
    pure (.u16 val)
  | .u32 => do
    let val ← unpack32
    pure (.u32 val)
  | .u64 => do
    let val ← unpack64
    pure (.u64 val)
  | .time => do
    let val ← unpackTime
    pure (.time val)
  | .mem => do
    let valp ← Out.reader (unpackmemXmalloc true)
    pure (.mem (valp.getD []))
  | .str => do
    let valp ← Out.reader (unpackstrXmalloc true)
    pure (.str (valp.map cstring))
  | .u16Array => do
    let valp ← Out.reader (unpack16Array true 0)
    pure (.u16Array (valp.getD []))
  | .u32Array => do
    let valp ← Out.reader (unpack32Array true 0)
    pure (.u32Array (valp.getD []))
  | .u64Array => do
    let valp ← Out.reader (unpack64Array true 0)
    pure (.u64Array (valp.getD []))
  | .strArray => do
    let valp ← Out.reader (unpackstrArray fun _ => true)
    pure (.strArray ((valp.getD []).map (·.map cstring)))

/-- Values of the types are unpacked in order. -/
def readAll : List Kind → Unpack (List Val)
  | [] => pure []
  | k :: ks => do
    let v ← readVal k
    let vs ← readAll ks
    pure (v :: vs)

/-- The same types are unpacked from the start of the buffer: these are the values, and
unpacking ends where packing has ended. -/
def RoundTrips (b : Buf) (vs : List Val) : Prop :=
  readAll (vs.map Val.kind) ⟨(packAll vs b).data, 0⟩ =
    (.ok vs, ⟨(packAll vs b).data, (packAll vs b).pos⟩)

/-! ## The blocks of a value -/

/-- A memory block with its size. -/
def memBlock (valp : List Byte) : List Byte := toBytes 4 valp.length ++ valp

/-- The memory block of a string. -/
def strBlock : Option CString → List Byte
  | none => memBlock []
  | some str => memBlock (str.chars ++ [0])

/-- The blocks of bytes that a value is written in. -/
def blocks : Val → List (List Byte)
  | .u8 val => [[val]]
  | .bool val => [[if val then 1 else 0]]
  | .u16 val => [toBytes 2 val.toNat]
  | .u32 val => [toBytes 4 val.toNat]
  | .u64 val => [toBytes 8 val.toNat]
  | .time val => [toBytes 8 val.toNat]
  | .mem valp => [memBlock valp]
  | .str str => [strBlock str]
  | .u16Array valp => toBytes 4 valp.length :: valp.map fun val => toBytes 2 val.toNat
  | .u32Array valp => toBytes 4 valp.length :: valp.map fun val => toBytes 4 val.toNat
  | .u64Array valp => toBytes 4 valp.length :: valp.map fun val => toBytes 8 val.toNat
  | .strArray valp => toBytes 4 valp.length :: valp.map strBlock

/-- The blocks of some values. -/
def allBlocks (vs : List Val) : List (List Byte) := vs.flatMap blocks

/-- The bytes of a value. -/
def bytes (v : Val) : List Byte := (blocks v).flatten

/-- Each of the blocks is written, or nothing of it. -/
def writeAll (bss : List (List Byte)) (b : Buf) : Buf := bss.foldl (fun b bs => packBytes bs b) b

/-- The size of the buffer after a block of `n` bytes. -/
def sizeFor (size pos n : Nat) : Nat :=
  if size - pos < n then size + bufSize + if bufSize ≤ n then n else 0 else size

/-- The buffer, of this size, can be made large enough for each block, when `pos` bytes of
it are used. -/
def Grows : Nat → Nat → List Nat → Prop
  | _, _, [] => True
  | size, pos, n :: ns =>
    (size - pos < n → sizeFor size pos n ≤ maxBufSize) ∧ Grows (sizeFor size pos n) (pos + n) ns

instance decidableGrows : (size pos : Nat) → (ns : List Nat) → Decidable (Grows size pos ns)
  | _, _, [] => isTrue trivial
  | size, pos, n :: ns =>
    haveI := decidableGrows (sizeFor size pos n) (pos + n) ns
    inferInstanceAs (Decidable (_ ∧ _))

/-! ## Writing -/

/-- A buffer that `init_buf` makes, and what becomes of it. -/
structure Writable (b : Buf) : Prop where
  mmaped : b.mmaped = false
  shadow : b.shadow = false
  pos_le : b.pos ≤ b.data.length

theorem writable_initBuf (h : initBuf size = some b) : Writable b := by
  rw [initBuf] at h
  split at h
  · cases h
  · obtain rfl := Option.some.inj h
    exact ⟨rfl, rfl, Nat.zero_le _⟩

/-- What `tryGrowBufRemaining` does when it succeeds, and when it does not. -/
theorem tryGrowBufRemaining_eq (h : Writable b) (n : Nat) :
    tryGrowBufRemaining b n =
      if b.data.length - b.pos < n ∧ maxBufSize < sizeFor b.data.length b.pos n then none
      else
        some { b with
          data :=
            b.data ++ List.replicate (sizeFor b.data.length b.pos n - b.data.length) 0 } := by
  rw [tryGrowBufRemaining, Cursor.remaining]
  by_cases hroom : b.data.length - b.pos < n
  · have hsize : sizeFor b.data.length b.pos n =
        if bufSize ≤ n then b.data.length + bufSize + n else b.data.length + bufSize := by
      rw [sizeFor, if_pos hroom]
      split <;> rfl
    rw [if_pos hroom, tryGrowBuf, h.mmaped, h.shadow, ← hsize]
    by_cases hmax : maxBufSize < sizeFor b.data.length b.pos n
    · rw [if_neg (by decide), if_pos hmax, if_pos ⟨hroom, hmax⟩]
    · rw [if_neg (by decide), if_neg hmax, if_neg fun hboth => hmax hboth.2]
  · have hsize : sizeFor b.data.length b.pos n = b.data.length := if_neg hroom
    rw [if_neg hroom, if_neg fun hboth => hroom hboth.1, hsize, Nat.sub_self, List.replicate_zero,
      List.append_nil]

theorem le_sizeFor {pos : Nat} (h : pos ≤ size) : pos + n ≤ sizeFor size pos n := by
  rw [sizeFor]
  split
  · split <;> omega
  · omega

theorem size_le_sizeFor (size pos n : Nat) : size ≤ sizeFor size pos n := by
  rw [sizeFor]
  split
  · omega
  · exact le_refl size

theorem put_put (h : b.pos ≤ b.data.length) (bs bs' : List Byte) :
    (b.put bs).put bs' = b.put (bs ++ bs') := by
  have hlen : (b.data.take b.pos ++ bs).length = b.pos + bs.length := by
    rw [List.length_append, List.length_take, min_eq_left h]
  simp only [Buf.put, Buf.mk.injEq, Cursor.mk.injEq, and_true]
  constructor
  · rw [List.take_left' hlen, ← List.drop_drop (i := bs'.length), List.drop_left' hlen,
      List.drop_drop, List.length_append, Nat.add_assoc]
    simp only [List.append_assoc]
  · rw [List.length_append, Nat.add_assoc]

/-- The blocks are in the buffer, after what was in it. -/
structure Wrote (b : Buf) (bs : List Byte) (b' : Buf) : Prop where
  writable : Writable b'
  pos_eq : b'.pos = b.pos + bs.length
  hasPrefix : b.data.take b.pos ++ bs <+: b'.data

theorem Wrote.trans {b' b'' : Buf} {bs' : List Byte} (h : Wrote b bs b') (h' : Wrote b' bs' b'')
    (hb : b.pos ≤ b.data.length) : Wrote b (bs ++ bs') b'' := by
  have htake : b'.data.take b'.pos = b.data.take b.pos ++ bs := by
    have hlen : (b.data.take b.pos ++ bs).length = b'.pos := by
      rw [List.length_append, List.length_take, min_eq_left hb, h.pos_eq]
    rw [← hlen]
    exact (List.prefix_iff_eq_take.mp h.hasPrefix).symm
  have hname := h'.hasPrefix
  rw [htake, List.append_assoc] at hname
  exact ⟨h'.writable, by rw [h'.pos_eq, h.pos_eq, List.length_append, Nat.add_assoc], hname⟩

/-- A block that there is room for is written. -/
theorem packBytes_of_room (h : Writable b) (hroom : b.data.length - b.pos < bs.length →
      sizeFor b.data.length b.pos bs.length ≤ maxBufSize) :
    Wrote b bs (packBytes bs b) ∧
      (packBytes bs b).data.length = sizeFor b.data.length b.pos bs.length := by
  have hle := le_sizeFor (n := bs.length) h.pos_le
  have hge := size_le_sizeFor b.data.length b.pos bs.length
  have hpos := h.pos_le
  rw [packBytes, tryGrowBufRemaining_eq h, if_neg fun hfull => absurd (hroom hfull.1) (not_le.mpr hfull.2)]
  have hlen : (Buf.put { b with
      data := b.data ++ List.replicate (sizeFor b.data.length b.pos bs.length - b.data.length) 0 }
      bs).data.length = sizeFor b.data.length b.pos bs.length := by
    simp only [Buf.put, List.length_append, List.length_take, List.length_drop,
      List.length_replicate]
    omega
  refine ⟨⟨⟨h.mmaped, h.shadow, ?_⟩, rfl, ?_⟩, hlen⟩
  · rw [hlen]
    exact hle
  · simp only [Buf.put]
    rw [List.take_append_of_le_length hpos]
    exact List.prefix_append _ _

/-- A block that there is no room for is not written. -/
theorem packBytes_of_full (h : Writable b) (hfull : b.data.length - b.pos < bs.length ∧
      maxBufSize < sizeFor b.data.length b.pos bs.length) : packBytes bs b = b := by
  rw [packBytes, tryGrowBufRemaining_eq h, if_pos hfull]

theorem packBytes_writable (h : Writable b) (bs : List Byte) :
    Writable (packBytes bs b) ∧ (packBytes bs b).pos ≤ b.pos + bs.length := by
  by_cases hfull : b.data.length - b.pos < bs.length ∧
      maxBufSize < sizeFor b.data.length b.pos bs.length
  · rw [packBytes_of_full h hfull]
    exact ⟨h, Nat.le_add_right _ _⟩
  · have hroom := (packBytes_of_room h fun hlt => not_lt.mp fun hmax => hfull ⟨hlt, hmax⟩).1
    exact ⟨hroom.writable, hroom.pos_eq.le⟩

theorem writeAll_writable (h : Writable b) (bss : List (List Byte)) :
    Writable (writeAll bss b) ∧ (writeAll bss b).pos ≤ b.pos + bss.flatten.length := by
  induction bss generalizing b with
  | nil => exact ⟨h, Nat.le_add_right _ _⟩
  | cons bs bss ih =>
    obtain ⟨hw, hpos⟩ := packBytes_writable h bs
    obtain ⟨hw', hpos'⟩ := ih hw
    refine ⟨hw', ?_⟩
    rw [List.flatten_cons, List.length_append]
    exact hpos'.trans (by omega)

/-- All blocks are written when the buffer can be made large enough. -/
theorem writeAll_of_grows (h : Writable b)
    (hgrows : Grows b.data.length b.pos (bss.map List.length)) :
    Wrote b bss.flatten (writeAll bss b) := by
  induction bss generalizing b with
  | nil =>
    refine ⟨h, rfl, ?_⟩
    rw [List.flatten_nil, List.append_nil]
    exact List.take_prefix _ _
  | cons bs bss ih =>
    obtain ⟨hroom, hrest⟩ := hgrows
    obtain ⟨hwrote, hlen⟩ := packBytes_of_room h hroom
    rw [← hlen, ← hwrote.pos_eq] at hrest
    exact hwrote.trans (ih hwrote.writable hrest) h.pos_le

/-- A block is missing when the buffer cannot be made large enough. -/
theorem writeAll_of_not_grows (h : Writable b)
    (hgrows : ¬ Grows b.data.length b.pos (bss.map List.length)) :
    (writeAll bss b).pos < b.pos + bss.flatten.length := by
  induction bss generalizing b with
  | nil => exact absurd trivial hgrows
  | cons bs bss ih =>
    rw [List.flatten_cons, List.length_append, writeAll, List.foldl_cons]
    by_cases hfull : b.data.length - b.pos < bs.length ∧
        maxBufSize < sizeFor b.data.length b.pos bs.length
    · rw [packBytes_of_full h hfull]
      have hle := (writeAll_writable h bss).2
      rw [writeAll] at hle
      omega
    · have hroom : b.data.length - b.pos < bs.length →
          sizeFor b.data.length b.pos bs.length ≤ maxBufSize :=
        fun hlt => not_lt.mp fun hmax => hfull ⟨hlt, hmax⟩
      obtain ⟨hwrote, hlen⟩ := packBytes_of_room h hroom
      have hrest := @ih (packBytes bs b) hwrote.writable fun hrest =>
        hgrows ⟨hroom, by rwa [hlen, hwrote.pos_eq] at hrest⟩
      rw [writeAll, hwrote.pos_eq] at hrest
      omega

/-! ## The pack functions write the blocks -/

theorem packmem_eq (h : Writable b) {valp : List Byte} (hlen : valp.length ≤ maxPackMemLen) :
    packmem valp b = packBytes (memBlock valp) b := by
  have hblock : (memBlock valp).length = 4 + valp.length := by
    rw [memBlock, List.length_append, length_toBytes]
  rw [packmem, if_neg (not_lt.mpr hlen), packBytes, hblock, tryGrowBufRemaining_eq h]
  by_cases hfull : b.data.length - b.pos < 4 + valp.length ∧
      maxBufSize < sizeFor b.data.length b.pos (4 + valp.length)
  · rw [if_pos hfull]
  · rw [if_neg hfull]
    refine put_put ?_ _ _
    rw [List.length_append]
    exact h.pos_le.trans (Nat.le_add_right _ _)

theorem packstr_eq (h : Writable b) {str : Option CString} (hlen : strSize str ≤ maxPackMemLen) :
    packstr str b = packBytes (strBlock str) b := by
  cases str with
  | none => exact packmem_eq h (Nat.zero_le _)
  | some str =>
    refine packmem_eq h ?_
    rw [List.length_append, List.length_singleton]
    exact hlen

theorem foldl_pack {pack : α → Buf → Buf} {valp : List α}
    (hpack : ∀ val ∈ valp, ∀ b, Writable b → pack val b = packBytes (block val) b)
    (h : Writable b) : valp.foldl (fun b val => pack val b) b = writeAll (valp.map block) b := by
  induction valp generalizing b with
  | nil => rfl
  | cons val valp ih =>
    rw [List.foldl_cons, List.map_cons, writeAll, List.foldl_cons,
      hpack val List.mem_cons_self b h]
    exact ih (fun val' hval' => hpack val' (List.mem_cons_of_mem _ hval')) (packBytes_writable h _).1

theorem packArray_eq {pack : α → Buf → Buf} (hpack : ∀ val b, pack val b = packBytes (block val) b)
    (h : Writable b) {valp : List α} (hlen : valp.length < 2 ^ 32) :
    packArray pack valp b = writeAll (toBytes 4 valp.length :: valp.map block) b := by
  have hsize : (BitVec.ofNat 32 valp.length).toNat = valp.length := by
    rw [BitVec.toNat_ofNat, mod_eq_of_lt hlen]
  rw [packArray, pack32, hsize, foldl_pack (fun val _ b _ => hpack val b) (packBytes_writable h _).1]
  rfl

theorem four_le_length_strBlock (str : Option CString) : 4 ≤ (strBlock str).length := by
  cases str <;> rw [strBlock, memBlock, List.length_append, length_toBytes] <;>
    exact Nat.le_add_right _ _

/-- Where there is no room for a block, there is none for a larger one. -/
theorem writeAll_of_full (h : Writable b)
    (hfull : b.data.length - b.pos < n ∧ maxBufSize < sizeFor b.data.length b.pos n)
    (hlen : ∀ bs ∈ bss, n ≤ bs.length) : writeAll bss b = b := by
  induction bss with
  | nil => rfl
  | cons bs bss ih =>
    have hle := hlen bs List.mem_cons_self
    have hroom : b.data.length - b.pos < bs.length := hfull.1.trans_le hle
    have hmax := hfull.2
    rw [sizeFor, if_pos hfull.1] at hmax
    have hmax' : maxBufSize < sizeFor b.data.length b.pos bs.length := by
      rw [sizeFor, if_pos hroom]
      split at hmax <;> split <;> omega
    rw [writeAll, List.foldl_cons, packBytes_of_full h ⟨hroom, hmax'⟩]
    exact ih fun bs' hbs' => hlen bs' (List.mem_cons_of_mem _ hbs')

theorem packstrArray_eq (h : Writable b) (hsizes : ∀ str ∈ valp, strSize str ≤ maxPackMemLen) :
    packstrArray valp b = writeAll (toBytes 4 valp.length :: valp.map strBlock) b := by
  have hlen : (toBytes 4 valp.length).length = 4 := length_toBytes 4 _
  have hcount := packBytes_writable h (toBytes 4 valp.length)
  rw [writeAll, List.foldl_cons]
  by_cases hfull : b.data.length - b.pos < 4 ∧ maxBufSize < sizeFor b.data.length b.pos 4
  · rw [packstrArray, tryGrowBufRemaining_eq h, if_pos hfull, packBytes_of_full h (hlen.symm ▸ hfull)]
    refine (writeAll_of_full h hfull fun bs hbs => ?_).symm
    obtain ⟨str, -, rfl⟩ := List.mem_map.mp hbs
    exact four_le_length_strBlock str
  · rw [packBytes, hlen, tryGrowBufRemaining_eq h, if_neg hfull] at hcount ⊢
    rw [packstrArray, tryGrowBufRemaining_eq h, if_neg hfull]
    have hstrs : ∀ str ∈ valp, ∀ b, Writable b → packstr str b = packBytes (strBlock str) b :=
      fun str hstr b hb => packstr_eq hb (hsizes str hstr)
    exact foldl_pack hstrs hcount.1

theorem packVal_eq {v : Val} (hv : v.Sized) (h : Writable b) :
    packVal v b = writeAll (blocks v) b := by
  cases v with
  | u8 val => rfl
  | bool val => rfl
  | u16 val => rfl
  | u32 val => rfl
  | u64 val => rfl
  | time val => rfl
  | mem valp => exact packmem_eq h hv
  | str str => exact packstr_eq h hv
  | u16Array valp => exact packArray_eq (fun _ _ => rfl) h hv
  | u32Array valp => exact packArray_eq (fun _ _ => rfl) h hv
  | u64Array valp => exact packArray_eq (fun _ _ => rfl) h hv
  | strArray valp => exact packstrArray_eq h hv.2

variable {vs : List Val}

theorem packAll_eq (hvs : ∀ v ∈ vs, v.Sized) (h : Writable b) :
    packAll vs b = writeAll (allBlocks vs) b := by
  induction vs generalizing b with
  | nil => rfl
  | cons v vs ih =>
    have hw := (writeAll_writable h (blocks v)).1
    rw [packAll, List.foldl_cons, packVal_eq (hvs v List.mem_cons_self) h, allBlocks,
      List.flatMap_cons]
    refine (ih (fun v' hv' => hvs v' (List.mem_cons_of_mem _ hv')) hw).trans ?_
    exact List.foldl_append.symm

/-! ## Values are read back -/

theorem reads_unpackBytes (h : n < 256 ^ w) : Reads (unpackBytes w) (toBytes w n) n := by
  have hblock := @reads_block Byte Fault .unpackError (toBytes w n)
  rw [length_toBytes] at hblock
  have hread := reads_map hblock ofBytes
  rwa [ofBytes_toBytes_of_lt h] at hread

/-- A number of `8 * w` bits. -/
theorem reads_word {k : Nat} (hk : k = 8 * w) (val : BitVec k) :
    Reads (unpackBytes w >>= fun n => pure (BitVec.ofNat k n)) (toBytes w val.toNat) val := by
  have hlt : val.toNat < 256 ^ w := by
    rw [show (256 : Nat) = 2 ^ 8 from rfl, ← Nat.pow_mul, ← hk]
    exact val.isLt
  have hread := reads_map (reads_unpackBytes hlt) (BitVec.ofNat k)
  rwa [BitVec.ofNat_toNat, BitVec.setWidth_eq] at hread

theorem reads_unpack32 (val : BitVec 32) : Reads unpack32 (toBytes 4 val.toNat) val :=
  reads_word (show 32 = 8 * 4 from rfl) val

theorem reads_size (h : n < 2 ^ 32) : Reads unpack32 (toBytes 4 n) (BitVec.ofNat 32 n) := by
  have hread := reads_unpack32 (BitVec.ofNat 32 n)
  rwa [BitVec.toNat_ofNat, mod_eq_of_lt h] at hread

theorem reads_unpack8 (val : BitVec 8) : Reads unpack8 [val] val := by
  have hread := reads_word (show 8 = 8 * 1 from rfl) val
  have hbytes : toBytes 1 val.toNat = [val] := by
    rw [toBytes, toBytes, List.nil_append, BitVec.ofNat_toNat, BitVec.setWidth_eq]
  rwa [hbytes] at hread

/-- A memory block that passes the check. -/
theorem reads_readMem {check : List Byte → Bool} {bs : List Byte} (hlen : bs.length ≤ maxPackMemLen)
    (hcheck : bs ≠ [] → check bs = true) :
    Reads (readMem check true) (memBlock bs) (if bs = [] then none else some bs) := by
  have hmax : maxPackMemLen < 2 ^ 32 := by decide
  have hlt : bs.length < 2 ^ 32 := hlen.trans_lt hmax
  have hsize : (BitVec.ofNat 32 bs.length).toNat = bs.length := by
    rw [BitVec.toNat_ofNat, mod_eq_of_lt hlt]
  rw [memBlock, readMem]
  refine reads_bind (reads_size hlt) ?_
  by_cases hnil : bs = []
  · subst hnil
    exact reads_pure none
  · have hne : ¬ BitVec.ofNat 32 bs.length = 0 := by
      intro hzero
      rw [← BitVec.toNat_inj, hsize] at hzero
      exact hnil (List.length_eq_zero_iff.mp hzero)
    rw [if_neg hne, hsize, if_neg (not_lt.mpr hlen), if_neg hnil]
    exact reads_map (reads_blockIf (by rw [hcheck hnil, Bool.true_and])) some

theorem reads_zeroOnError {m : Unpack (Option α)} {v : Option α} (h : Reads m bs v)
    (len : α → Nat) : Reads (Out.reader (zeroOnError len m)) bs v := by
  intro c hbs
  have hm := h c hbs
  rw [Out.reader, zeroOnError, hm]
  rfl

/-- An array of numbers is read back, with its length. -/
theorem unpackArray_eq {vals : List α} (hread : ∀ val, Reads unpack (block val) val)
    (hlen : vals.length < 2 ^ 32)
    (hbs : toBytes 4 vals.length ++ vals.flatMap block <+: c.data.drop c.pos) :
    unpackArray unpack true 0 c =
      ⟨true, if vals = [] then none else some vals, vals.length,
        c.advance (toBytes 4 vals.length ++ vals.flatMap block).length⟩ := by
  have hsize : (BitVec.ofNat 32 vals.length).toNat = vals.length := by
    rw [BitVec.toNat_ofNat, mod_eq_of_lt hlen]
  obtain ⟨rest, hrest⟩ := hbs
  have hfirst := reads_size hlen c ⟨vals.flatMap block ++ rest, by
    rw [← List.append_assoc, hrest]⟩
  rw [length_toBytes] at hfirst
  have hdrop : c.data.drop (c.pos + 4) = vals.flatMap block ++ rest := by
    rw [← List.drop_drop, ← hrest, List.append_assoc, List.drop_left' (length_toBytes 4 _)]
  rw [unpackArray, hfirst]
  dsimp only
  by_cases hnil : vals = []
  · subst hnil
    rfl
  · have hne : ¬ BitVec.ofNat 32 vals.length = 0 := by
      intro hzero
      rw [← BitVec.toNat_inj, hsize] at hzero
      exact hnil (List.length_eq_zero_iff.mp hzero)
    have hsecond := @reads_repeatFrom Byte Fault α (fun _ => unpack) block vals
      (fun _ val _ => hread val) 0 (c.advance 4) ⟨rest, hdrop.symm⟩
    rw [if_neg hne, if_neg (by decide), hsize, hsecond, if_neg hnil]
    simp only [Cursor.advance, List.length_append, length_toBytes, Nat.add_assoc]

theorem reads_unpackArray {vals : List α} (hread : ∀ val, Reads unpack (block val) val)
    (hlen : vals.length < 2 ^ 32) :
    Reads (Out.reader (unpackArray unpack true 0)) (toBytes 4 vals.length ++ vals.flatMap block)
      (if vals = [] then none else some vals) := by
  intro c hbs
  rw [Out.reader, unpackArray_eq hread hlen hbs]
  rfl

/-- The memory block of a string, as it is read. -/
def strMem : Option CString → Option (List Byte)
  | none => none
  | some str => some (str.chars ++ [0])

theorem cstring_strMem (str : Option CString) : (strMem str).map cstring = str := by
  cases str with
  | none => rfl
  | some str =>
    have hchars : (str.chars ++ [0]).takeWhile (fun c => decide (c ≠ 0)) = str.chars := by
      have hall : ∀ c ∈ str.chars, decide (c ≠ 0) = true := by
        intro c hc
        apply decide_eq_true
        rintro rfl
        exact str.nul_free hc
      rw [List.takeWhile_append_of_pos hall, List.takeWhile_cons_of_neg (by decide),
        List.append_nil]
    rw [strMem, map_some, cstring]
    congr

theorem reads_unpackstrXmalloc {str : Option CString} (hlen : strSize str ≤ maxPackMemLen) :
    Reads (Out.reader (unpackstrXmalloc true)) (strBlock str) (strMem str) := by
  refine reads_zeroOnError ?_ _
  cases str with
  | none => exact reads_readMem (Nat.zero_le _) fun hne => absurd rfl hne
  | some str =>
    have hlen' : (str.chars ++ [0]).length ≤ maxPackMemLen := by
      rw [List.length_append, List.length_singleton]
      exact hlen
    have hread := @reads_readMem (fun bs => decide (bs.getLast? = some 0)) _ hlen' fun _ => by
      rw [List.getLast?_concat]
      rfl
    rwa [if_neg (List.append_ne_nil_of_right_ne_nil _ (List.cons_ne_nil _ _))] at hread

theorem reads_unpackstrArray (hlen : valp.length ≤ maxPackMemLen)
    (hsizes : ∀ str ∈ valp, strSize str ≤ maxPackMemLen) :
    Reads (Out.reader (unpackstrArray fun _ => true))
      (toBytes 4 valp.length ++ valp.flatMap strBlock)
      (if valp = [] then none else some (valp.map strMem)) := by
  have hmax : maxPackMemLen < 2 ^ 32 := by decide
  have hlt : valp.length < 2 ^ 32 := hlen.trans_lt hmax
  have hsize : (BitVec.ofNat 32 valp.length).toNat = valp.length := by
    rw [BitVec.toNat_ofNat, mod_eq_of_lt hlt]
  refine reads_zeroOnError ?_ _
  rw [readStrArray]
  refine reads_bind (reads_size hlt) ?_
  by_cases hnil : valp = []
  · subst hnil
    exact reads_pure none
  · have hne : ¬ BitVec.ofNat 32 valp.length = 0 := by
      intro hzero
      rw [← BitVec.toNat_inj, hsize] at hzero
      exact hnil (List.length_eq_zero_iff.mp hzero)
    have hblocks : (valp.map strMem).flatMap (fun mem => memBlock (mem.getD [])) =
        valp.flatMap strBlock := by
      rw [List.flatMap_map]
      exact List.flatMap_congr fun str _ => by cases str <;> rfl
    have hstrs := @reads_repeatFrom Byte Fault (Option (List Byte))
      (fun _ => Out.reader (unpackstrXmalloc true)) (fun mem => memBlock (mem.getD []))
      (valp.map strMem) (fun i mem hmem => ?_) 0
    · rw [hblocks, List.length_map] at hstrs
      rw [if_neg hne, hsize, if_neg (not_lt.mpr hlen), if_neg (by decide), if_neg hnil]
      exact reads_map hstrs some
    · obtain ⟨str, hstr, rfl⟩ := List.mem_map.mp hmem
      have hread := reads_unpackstrXmalloc (hsizes str hstr)
      cases str with
      | none => exact hread
      | some str => exact hread

theorem length_flatMap_ge {α : Type} {block : α → List Byte} {n : Nat} {vals : List α}
    (h : ∀ val, n ≤ (block val).length) : n * vals.length ≤ (vals.flatMap block).length := by
  induction vals with
  | nil => exact Nat.zero_le _
  | cons val vals ih =>
    have hval := h val
    rw [List.flatMap_cons, List.length_append, List.length_cons, mul_succ]
    omega

theorem getD_unlessNil (vals : List α) :
    (if vals = [] then none else some vals).getD [] = vals := by
  split
  · rename_i hnil
    rw [hnil, getD_none]
  · rw [getD_some]

/-- A value is read back. -/
theorem reads_readVal {v : Val} (hv : v.Sized) (hbytes : (bytes v).length ≤ maxBufSize) :
    Reads (readVal v.kind) (bytes v) v := by
  have hone : ∀ bs : List Byte, [bs].flatten = bs := fun bs => by
    rw [List.flatten_cons, List.flatten_nil, List.append_nil]
  cases v with
  | u8 val =>
    rw [bytes, blocks, hone]
    exact reads_map (reads_unpack8 val) Val.u8
  | bool val =>
    rw [bytes, blocks, hone]
    have hread := reads_map (reads_map (reads_unpack8 (if val then 1 else 0)) fun tmp8 =>
      decide (tmp8 ≠ 0)) Val.bool
    cases val <;> exact hread
  | u16 val =>
    rw [bytes, blocks, hone]
    exact reads_map (reads_word (show 16 = 8 * 2 from rfl) val) Val.u16
  | u32 val =>
    rw [bytes, blocks, hone]
    exact reads_map (reads_unpack32 val) Val.u32
  | u64 val =>
    rw [bytes, blocks, hone]
    exact reads_map (reads_word (show 64 = 8 * 8 from rfl) val) Val.u64
  | time val =>
    rw [bytes, blocks, hone]
    exact reads_map (reads_word (show 64 = 8 * 8 from rfl) val) Val.time
  | mem valp =>
    rw [bytes, blocks, hone]
    have hmem := @reads_readMem (fun _ => true) valp hv fun _ => rfl
    have hread := reads_map (reads_zeroOnError hmem List.length) fun valp => Val.mem (valp.getD [])
    rwa [getD_unlessNil] at hread
  | str str =>
    rw [bytes, blocks, hone]
    have hread := reads_map (reads_unpackstrXmalloc hv) fun valp => Val.str (valp.map cstring)
    rwa [cstring_strMem] at hread
  | u16Array valp =>
    rw [bytes, blocks, List.flatten_cons, ← List.flatMap_def]
    have hread := reads_map (reads_unpackArray (reads_word (show 16 = 8 * 2 from rfl)) hv)
      fun valp => Val.u16Array (valp.getD [])
    rwa [getD_unlessNil] at hread
  | u32Array valp =>
    rw [bytes, blocks, List.flatten_cons, ← List.flatMap_def]
    have hread := reads_map (reads_unpackArray reads_unpack32 hv) fun valp =>
      Val.u32Array (valp.getD [])
    rwa [getD_unlessNil] at hread
  | u64Array valp =>
    rw [bytes, blocks, List.flatten_cons, ← List.flatMap_def]
    have hread := reads_map (reads_unpackArray (reads_word (show 64 = 8 * 8 from rfl)) hv)
      fun valp => Val.u64Array (valp.getD [])
    rwa [getD_unlessNil] at hread
  | strArray valp =>
    rw [bytes, blocks, List.flatten_cons, ← List.flatMap_def] at hbytes ⊢
    have hcnt : valp.length ≤ maxPackMemLen := by
      have hmax : maxBufSize < 4 * maxPackMemLen := by decide
      have hge := @length_flatMap_ge _ strBlock 4 valp four_le_length_strBlock
      rw [List.length_append] at hbytes
      omega
    have hread := reads_map (reads_unpackstrArray hcnt hv.2) fun valp =>
      Val.strArray ((valp.getD []).map (·.map cstring))
    have hvalue : ((if valp = [] then none else some (valp.map strMem)).getD []).map
        (·.map cstring) = valp := by
      have hmap : (valp.map strMem).map (·.map cstring) = valp := by
        rw [List.map_map]
        exact List.map_id'' (fun str => cstring_strMem str) valp
      split
      · rename_i hnil
        rw [hnil, getD_none, List.map_nil]
      · rw [getD_some, hmap]
    rwa [hvalue] at hread

/-! ## How much is read -/

theorem takes_unpackBytes (w : Nat) : Takes (unpackBytes w) fun _ => w :=
  takes_map (takes_blockIf _ _ w) fun _ => le_refl w

theorem takes_word (w k : Nat) :
    Takes (unpackBytes w >>= fun n => pure (BitVec.ofNat k n)) fun _ => w :=
  takes_map (takes_unpackBytes w) fun _ => le_refl w

/-- The label changes nothing where there is no error. -/
theorem ok_of_zeroOnError {m : Unpack (Option α)} {len : α → Nat} {c' : Cursor Byte} {v : Option α}
    (h : Out.reader (zeroOnError len m) c = (.ok v, c')) : m c = (.ok v, c') := by
  rcases hm : m c with ⟨_ | valp, c₁⟩
  · rw [Out.reader, zeroOnError, hm] at h
    cases h
  · rw [Out.reader, zeroOnError, hm] at h
    cases h
    rfl

/-- What is known of a memory block that was read. -/
theorem readMem_ok {check : List Byte → Bool} {alloc : Bool} {c' : Cursor Byte}
    {v : Option (List Byte)} (h : readMem check alloc c = (.ok v, c')) :
    (v = none ∧ c.pos + 4 ≤ c'.pos) ∨
      ∃ bs, v = some bs ∧ check bs = true ∧ c.pos + 4 + bs.length ≤ c'.pos := by
  obtain ⟨size, c₁, hsize, h⟩ := bind_eq_ok.mp h
  have hfour : c.pos + 4 ≤ c₁.pos := takes_word 4 32 c size c₁ hsize
  split at h
  · cases h
    exact Or.inl ⟨rfl, hfour⟩
  · split at h
    · cases h
    · obtain ⟨bs, c₂, hblock, h⟩ := bind_eq_ok.mp h
      cases h
      rw [blockIf] at hblock
      split at hblock
      · cases hblock
      · split at hblock
        · cases hblock
        · rename_i hroom hcheck
          cases hblock
          rw [Bool.not_eq_false, Bool.and_eq_true] at hcheck
          have hlen : (c₁.next size.toNat).length ≤ size.toNat := by
            rw [Cursor.next, List.length_take]
            exact Nat.min_le_left _ _
          exact Or.inr ⟨_, rfl, hcheck.1, by simp only [Cursor.advance]; omega⟩

theorem takes_unpackmem (alloc : Bool) :
    Takes (Out.reader (unpackmemXmalloc alloc)) fun v => 4 + (v.getD []).length := by
  intro c v c' h
  rcases readMem_ok (ok_of_zeroOnError h) with ⟨rfl, hpos⟩ | ⟨bs, rfl, -, hpos⟩
  · exact hpos
  · rwa [Nat.add_assoc] at hpos

theorem length_strBlock_cstring (h : bs.getLast? = some 0) :
    (strBlock (some (cstring bs))).length ≤ 4 + bs.length := by
  obtain ⟨cs, rfl⟩ := List.getLast?_eq_some_iff.mp h
  have hchars : (cs ++ [0]).takeWhile (fun c => decide (c ≠ (0 : Byte))) =
      cs.takeWhile fun c => decide (c ≠ 0) := by
    induction cs with
    | nil => rfl
    | cons c cs ih =>
      have hlast : (cs ++ [(0 : Byte)]).getLast? = some 0 := List.getLast?_concat
      rw [List.cons_append, List.takeWhile_cons, List.takeWhile_cons, ih hlast]
  have hle : (cstring (cs ++ [0])).chars.length ≤ cs.length := by
    rw [show (cstring (cs ++ [0])).chars = (cs ++ [0]).takeWhile (fun c => decide (c ≠ 0)) from rfl,
      hchars]
    exact (List.takeWhile_prefix _).length_le
  rw [strBlock, memBlock]
  simp only [List.length_append, List.length_singleton, length_toBytes]
  omega

theorem takes_unpackstr (alloc : Bool) :
    Takes (Out.reader (unpackstrXmalloc alloc)) fun v => (strBlock (v.map cstring)).length := by
  intro c v c' h
  rcases readMem_ok (ok_of_zeroOnError h) with ⟨rfl, hpos⟩ | ⟨bs, rfl, hcheck, hpos⟩
  · exact hpos
  · have hlen := length_strBlock_cstring (of_decide_eq_true hcheck)
    dsimp only [map_some]
    omega

theorem takes_unpackArray (hw : Takes unpack fun _ => w) (alloc : Bool) (sizeVal : Nat) :
    Takes (Out.reader (unpackArray unpack alloc sizeVal)) fun v => 4 + w * (v.getD []).length := by
  intro c v c' h
  rcases hsize : unpack32 c with ⟨_ | size, c₁⟩
  · rw [Out.reader, unpackArray, hsize] at h
    cases h
  · have hfour := takes_word 4 32 c size c₁ hsize
    rw [Out.reader, unpackArray, hsize] at h
    dsimp only at h hfour ⊢
    by_cases hzero : size = 0
    · simp only [if_pos hzero] at h
      cases h
      exact hfour
    · by_cases halloc : alloc = false
      · simp only [if_neg hzero, if_pos halloc] at h
        cases h
      · rcases hvals : repeatFrom (fun _ => unpack) 0 size.toNat c₁ with ⟨_ | vals, c₂⟩
        · simp only [if_neg hzero, if_neg halloc, hvals] at h
          cases h
        · simp only [if_neg hzero, if_neg halloc, hvals, if_true] at h
          cases h
          have hrest := takes_repeatFrom (fun _ => hw) 0 size.toNat c₁ vals c' hvals
          dsimp only at hrest
          rw [List.map_const', List.sum_replicate, smul_eq_mul, Nat.mul_comm] at hrest
          rw [getD_some]
          omega

theorem takes_unpackstrArray (alloc : Nat → Bool) :
    Takes (Out.reader (unpackstrArray alloc)) fun v =>
      4 + (((v.getD []).map (·.map cstring)).flatMap strBlock).length := by
  intro c v c' h
  have hread := ok_of_zeroOnError h
  obtain ⟨size, c₁, hsize, hread⟩ := bind_eq_ok.mp hread
  have hfour : c.pos + 4 ≤ c₁.pos := takes_word 4 32 c size c₁ hsize
  split at hread
  · cases hread
    exact hfour
  · split at hread
    · cases hread
    · split at hread
      · cases hread
      · obtain ⟨vals, c₂, hvals, hread⟩ := bind_eq_ok.mp hread
        cases hread
        have hrest := takes_repeatFrom (fun i => takes_unpackstr (alloc (i + 1))) 0 size.toNat c₁
          vals c' hvals
        dsimp only [getD_some] at hrest ⊢
        rw [List.flatMap_map, List.length_flatMap]
        omega

/-- At least the bytes of the value are read. -/
theorem takes_readVal (k : Kind) : Takes (readVal k) fun v => (bytes v).length := by
  have hone : ∀ bs : List Byte, [bs].flatten = bs := fun bs => by
    rw [List.flatten_cons, List.flatten_nil, List.append_nil]
  have harray : ∀ {α : Type} (w : Nat) (num : α → Nat) (v : Option (List α)),
      (toBytes 4 (v.getD []).length :: (v.getD []).map fun val => toBytes w (num val)).flatten.length ≤
        4 + w * (v.getD []).length := by
    intro α w num v
    rw [List.flatten_cons, List.length_append, length_toBytes, ← List.flatMap_def,
      List.length_flatMap]
    simp only [length_toBytes, List.map_const', List.sum_replicate, smul_eq_mul]
    rw [Nat.mul_comm]
  cases k with
  | u8 => exact takes_map (takes_word 1 8) fun _ => le_refl 1
  | bool => exact takes_map (takes_map (takes_word 1 8) fun _ => le_refl 1) fun _ => le_refl 1
  | u16 => exact takes_map (takes_word 2 16) fun _ => by rw [bytes, blocks, hone, length_toBytes]
  | u32 => exact takes_map (takes_word 4 32) fun _ => by rw [bytes, blocks, hone, length_toBytes]
  | u64 => exact takes_map (takes_word 8 64) fun _ => by rw [bytes, blocks, hone, length_toBytes]
  | time => exact takes_map (takes_word 8 64) fun _ => by rw [bytes, blocks, hone, length_toBytes]
  | mem =>
    refine takes_map (takes_unpackmem true) fun v => ?_
    rw [bytes, blocks, hone, memBlock, List.length_append, length_toBytes]
  | str =>
    refine takes_map (takes_unpackstr true) fun v => ?_
    rw [bytes, blocks, hone]
  | u16Array => exact takes_map (takes_unpackArray (takes_word 2 16) true 0) (harray 2 _)
  | u32Array => exact takes_map (takes_unpackArray (takes_word 4 32) true 0) (harray 4 _)
  | u64Array => exact takes_map (takes_unpackArray (takes_word 8 64) true 0) (harray 8 _)
  | strArray =>
    refine takes_map (takes_unpackstrArray fun _ => true) fun v => ?_
    rw [bytes, blocks, List.flatten_cons, List.length_append, length_toBytes, ← List.flatMap_def]

theorem takes_readAll (ks : List Kind) :
    Takes (readAll ks) fun vs => (allBlocks vs).flatten.length := by
  induction ks with
  | nil =>
    intro c vs c' h
    cases h
    exact le_refl _
  | cons k ks ih =>
    intro c vs c' h
    obtain ⟨v, c₁, hv, h⟩ := bind_eq_ok.mp h
    obtain ⟨vs', c₂, hvs, h⟩ := bind_eq_ok.mp h
    cases h
    have hone := takes_readVal k c v c₁ hv
    have hrest := ih c₁ vs' c' hvs
    dsimp only at hone hrest ⊢
    rw [bytes] at hone
    rw [allBlocks] at hrest
    rw [allBlocks, List.flatMap_cons, List.flatten_append, List.length_append]
    omega

/-! ## Round trips -/

/-- Where a buffer is large enough for all blocks, there are not more bytes than a buffer
may have. -/
theorem sum_le_of_grows {pos : Nat} {ns : List Nat} (hpos : pos ≤ size) (hsize : size ≤ maxBufSize)
    (h : Grows size pos ns) : pos + ns.sum ≤ maxBufSize := by
  induction ns generalizing size pos with
  | nil => exact hpos.trans hsize
  | cons n ns ih =>
    obtain ⟨hroom, hrest⟩ := h
    have hle : sizeFor size pos n ≤ maxBufSize := by
      by_cases hlt : size - pos < n
      · exact hroom hlt
      · rwa [sizeFor, if_neg hlt]
    have htotal := ih (le_sizeFor hpos) hle hrest
    rw [List.sum_cons]
    omega

theorem reads_readAll (hvs : ∀ v ∈ vs, v.Sized) (hbytes : ∀ v ∈ vs, (bytes v).length ≤ maxBufSize) :
    Reads (readAll (vs.map Val.kind)) (allBlocks vs).flatten vs := by
  induction vs with
  | nil => exact reads_pure []
  | cons v vs ih =>
    rw [allBlocks, List.flatMap_cons, List.flatten_append]
    refine reads_bind (reads_readVal (hvs v List.mem_cons_self) (hbytes v List.mem_cons_self)) ?_
    exact reads_map (ih (fun v' hv' => hvs v' (List.mem_cons_of_mem _ hv'))
      fun v' hv' => hbytes v' (List.mem_cons_of_mem _ hv')) (v :: ·)

theorem length_bytes_le {v : Val} (hv : v ∈ vs) :
    (bytes v).length ≤ (allBlocks vs).flatten.length := by
  have hsub : (blocks v).Sublist (allBlocks vs) := by
    rw [allBlocks, List.flatMap_def]
    exact List.sublist_flatten_of_mem (List.mem_map_of_mem hv)
  exact hsub.flatten.length_le

/-- A new buffer. -/
theorem initBuf_spec (h : initBuf size = some b) : b.pos = 0 ∧ b.data.length ≤ maxBufSize := by
  have hmin : bufSize ≤ maxBufSize := by decide
  rw [initBuf] at h
  split at h
  · cases h
  · obtain rfl := Option.some.inj h
    refine ⟨rfl, ?_⟩
    rw [List.length_replicate]
    split <;> omega

/-- The values come back exactly when the buffer can be made large enough for each of
their blocks. -/
theorem roundTrips_iff (hb : initBuf size = some b) (hvs : ∀ v ∈ vs, v.Sized) :
    RoundTrips b vs ↔ Grows b.data.length 0 ((allBlocks vs).map List.length) := by
  have hw := writable_initBuf hb
  obtain ⟨hpos, hmax⟩ := initBuf_spec hb
  rw [RoundTrips, packAll_eq hvs hw, ← hpos]
  constructor
  · intro hread
    by_contra hgrows
    have hlt := writeAll_of_not_grows hw hgrows
    have hle := takes_readAll _ _ _ _ hread
    dsimp only at hle
    omega
  · intro hgrows
    have hwrote := writeAll_of_grows hw hgrows
    have htotal := sum_le_of_grows hw.pos_le hmax hgrows
    have hname := hwrote.hasPrefix
    have hend := hwrote.pos_eq
    rw [hpos, List.take_zero, List.nil_append] at hname
    rw [← List.length_flatten] at htotal
    have hreads := reads_readAll hvs fun v hv => (length_bytes_le hv).trans (by omega)
    rw [hreads ⟨(writeAll (allBlocks vs) b).data, b.pos⟩ (by rwa [hpos, List.drop_zero]),
      Cursor.advance, hend]

end Slurm.Pack
