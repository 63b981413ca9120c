import Slurm.Lib.Decimal
import Slurm.Lib.Reading

/-!
# Packed buffers (`common/pack.c`)

A `Buf` is a `buf_t`: `data` is what `head` points to, so that its length is `size`, and
`pos` is `processed`.  The pack functions write at `pos`, after `tryGrowBuf` has made the
buffer larger where that is needed; they return nothing, and write nothing when it
fails.

The unpack functions are readers with the same cursor.  Those that make memory have a
label for errors, which sets the pointer and the length that the caller gave; an `Out` is
what the caller finds then.  Whether an allocation succeeds is an argument, as are the
lengths before the call.  `slurmdbd_conf` is not set, so that
`unpackstr_xmalloc_chooser` is `unpackstr_xmalloc`.  The floating-point values are left out.
-/

namespace Slurm.Pack

open Lib.BigEndian (toBytes ofBytes)
open Lib.Reading

abbrev Byte := BitVec 8

/-- `BUF_SIZE` -/
def bufSize : Nat := 16 * 1024

/-- `MAX_BUF_SIZE` -/
def maxBufSize : Nat := 0xffff0000

/-- `MAX_PACK_MEM_LEN` -/
def maxPackMemLen : Nat := 1024 * 1024 * 1024

/-- `buf_t` -/
structure Buf extends Cursor Byte where
  mmaped : Bool
  shadow : Bool

/-! ## The buffer -/

/-- `init_buf`, which ends the program when the size is too large. -/
def initBuf (size : Nat) : Option Buf :=
  if maxBufSize < size then none
  else
    let size := if size = 0 then bufSize else size
    some { data := List.replicate size 0, pos := 0, mmaped := false, shadow := false }

/-- `try_grow_buf`, or none for an error. -/
def tryGrowBuf (b : Buf) (size : Nat) : Option Buf :=
  let newSize := b.data.length + bufSize
  let newSize := if bufSize ≤ size then newSize + size else newSize
  if b.mmaped || b.shadow then none
  else if maxBufSize < newSize then none
  else some { b with data := b.data ++ List.replicate (newSize - b.data.length) 0 }

/-- `try_grow_buf_remaining` -/
def tryGrowBufRemaining (b : Buf) (size : Nat) : Option Buf :=
  if b.remaining < size then tryGrowBuf b size else some b

/-- `memcpy` to the place of the cursor, which is moved on. -/
def Buf.put (b : Buf) (bs : List Byte) : Buf :=
  { b with
    data := b.data.take b.pos ++ bs ++ b.data.drop (b.pos + bs.length)
    pos := b.pos + bs.length }

/-! ## Packing -/

/-- What all functions for one number do. -/
def packBytes (bs : List Byte) (b : Buf) : Buf :=
  match tryGrowBufRemaining b bs.length with
  | none => b
  | some b => b.put bs

/-- `pack_time` -/
def packTime (val : BitVec 64) : Buf → Buf := packBytes (toBytes 8 val.toNat)

/-- `pack64` -/
def pack64 (val : BitVec 64) : Buf → Buf := packBytes (toBytes 8 val.toNat)

/-- `pack32` -/
def pack32 (val : BitVec 32) : Buf → Buf := packBytes (toBytes 4 val.toNat)

/-- `pack16` -/
def pack16 (val : BitVec 16) : Buf → Buf := packBytes (toBytes 2 val.toNat)

/-- `pack8` -/
def pack8 (val : BitVec 8) : Buf → Buf := packBytes [val]

/-- `packbool` -/
def packbool (val : Bool) : Buf → Buf := pack8 (if val then 1 else 0)

/-- `packmem` -/
def packmem (valp : List Byte) (b : Buf) : Buf :=
  if maxPackMemLen < valp.length then b
  else
    match tryGrowBufRemaining b (4 + valp.length) with
    | none => b
    | some b => (b.put (toBytes 4 valp.length)).put valp

/-- A C string: its characters, without the one that ends it. -/
structure CString where
  chars : List Byte
  nul_free : (0 : Byte) ∉ chars

/-- `packstr` -/
def packstr : Option CString → Buf → Buf
  | none => packmem []
  | some str => packmem (str.chars ++ [0])

/-- What the functions for an array of numbers do. -/
def packArray {α : Type} (pack : α → Buf → Buf) (valp : List α) (b : Buf) : Buf :=
  valp.foldl (fun b val => pack val b) (pack32 (BitVec.ofNat 32 valp.length) b)

/-- `pack16_array` -/
def pack16Array : List (BitVec 16) → Buf → Buf := packArray pack16

/-- `pack32_array` -/
def pack32Array : List (BitVec 32) → Buf → Buf := packArray pack32

/-- `pack64_array` -/
def pack64Array : List (BitVec 64) → Buf → Buf := packArray pack64

/-- `packstr_array`, which packs nothing more when the length cannot be packed. -/
def packstrArray (valp : List (Option CString)) (b : Buf) : Buf :=
  match tryGrowBufRemaining b 4 with
  | none => b
  | some b => valp.foldl (fun b str => packstr str b) (b.put (toBytes 4 valp.length))

/-! ## Unpacking -/

/-- How unpacking stops: at `unpack_error`, or the program ends. -/
inductive Fault where
  | unpackError
  | crash
  deriving DecidableEq

abbrev Unpack (α : Type) := Reader Byte Fault α

/-- What all functions for one number do. -/
def unpackBytes (w : Nat) : Unpack Nat := do
  let bs ← block .unpackError w
  pure (ofBytes bs)

/-- `unpack_time` -/
def unpackTime : Unpack (BitVec 64) := do
  let n64 ← unpackBytes 8
  pure (BitVec.ofNat 64 n64)

/-- `unpack64` -/
def unpack64 : Unpack (BitVec 64) := do
  let nl ← unpackBytes 8
  pure (BitVec.ofNat 64 nl)

/-- `unpack32` -/
def unpack32 : Unpack (BitVec 32) := do
  let nl ← unpackBytes 4
  pure (BitVec.ofNat 32 nl)

/-- `unpack16` -/
def unpack16 : Unpack (BitVec 16) := do
  let ns ← unpackBytes 2
  pure (BitVec.ofNat 16 ns)

/-- `unpack8` -/
def unpack8 : Unpack (BitVec 8) := do
  let val ← unpackBytes 1
  pure (BitVec.ofNat 8 val)

/-- `unpackbool` -/
def unpackbool : Unpack Bool := do
  let tmp8 ← unpack8
  pure (decide (tmp8 ≠ 0))

/-- What the caller finds: whether it was a success, the memory that the pointer points
to, where it is not `NULL`, the length, and the buffer. -/
structure Out (α : Type) where
  success : Bool
  valp : Option α
  sizeVal : Nat
  buf : Cursor Byte

/-- The function as it is called by others, which read the pointer only. -/
def Out.reader {α : Type} (f : Cursor Byte → Out α) : Unpack (Option α) := fun c =>
  if (f c).success then (.ok (f c).valp, (f c).buf) else (.error .unpackError, (f c).buf)

/-- The label that sets the pointer to `NULL` and the length to 0. -/
def zeroOnError {α : Type} (len : α → Nat) (m : Unpack (Option α)) (c : Cursor Byte) : Out α :=
  match m c with
  | (.ok valp, c') => ⟨true, valp, (valp.map len).getD 0, c'⟩
  | (.error _, c') => ⟨false, none, 0, c'⟩

/-- A memory block of the length that comes first, when it passes the check. -/
def readMem (check : List Byte → Bool) (alloc : Bool) : Unpack (Option (List Byte)) := do
  let size ← unpack32
  if size = 0 then pure none
  else if maxPackMemLen < size.toNat then fail .unpackError
  else do
    let bs ← blockIf .unpackError (fun bs => check bs && alloc) size.toNat
    pure (some bs)

/-- `unpackmem_ptr` -/
def unpackmemPtr : Cursor Byte → Out (List Byte) :=
  zeroOnError List.length (readMem (fun _ => true) true)

/-- `unpackmem_xmalloc` -/
def unpackmemXmalloc (alloc : Bool) : Cursor Byte → Out (List Byte) :=
  zeroOnError List.length (readMem (fun _ => true) alloc)

/-- `unpackstr_xmalloc`: the last byte must be `'\0'`. -/
def unpackstrXmalloc (alloc : Bool) : Cursor Byte → Out (List Byte) :=
  zeroOnError List.length (readMem (fun bs => decide (bs.getLast? = some 0)) alloc)

/-- What the functions for an array of numbers do.  The label sets the pointer to `NULL`
and leaves the length as it is. -/
def unpackArray {α : Type} (unpack : Unpack α) (alloc : Bool) (sizeVal : Nat) (c : Cursor Byte) :
    Out (List α) :=
  match unpack32 c with
  | (.error _, c) => ⟨false, none, sizeVal, c⟩
  | (.ok size, c) =>
    if size = 0 then ⟨true, none, 0, c⟩
    else if alloc = false then ⟨false, none, size.toNat, c⟩
    else
      match repeatFrom (fun _ => unpack) 0 size.toNat c with
      | (.error _, c) => ⟨false, none, size.toNat, c⟩
      | (.ok vals, c) => ⟨true, some vals, size.toNat, c⟩

/-- `unpack16_array` -/
def unpack16Array : Bool → Nat → Cursor Byte → Out (List (BitVec 16)) := unpackArray unpack16

/-- `unpack32_array` -/
def unpack32Array : Bool → Nat → Cursor Byte → Out (List (BitVec 32)) := unpackArray unpack32

/-- `unpack64_array` -/
def unpack64Array : Bool → Nat → Cursor Byte → Out (List (BitVec 64)) := unpackArray unpack64

/-- The strings of an array.  The first allocation is that of the array. -/
def readStrArray (alloc : Nat → Bool) : Unpack (Option (List (Option (List Byte)))) := do
  let size ← unpack32
  if size = 0 then pure none
  else if maxPackMemLen < size.toNat then fail .unpackError
  else if alloc 0 = false then fail .unpackError
  else do
    let vals ← repeatFrom (fun i => Out.reader (unpackstrXmalloc (alloc (i + 1)))) 0 size.toNat
    pure (some vals)

/-- `unpackstr_array` -/
def unpackstrArray (alloc : Nat → Bool) : Cursor Byte → Out (List (Option (List Byte))) :=
  zeroOnError List.length (readStrArray alloc)

end Slurm.Pack
