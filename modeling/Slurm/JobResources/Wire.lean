import Slurm.Bitstring.Hexmask
import Slurm.Pack.RoundTrip

/-!
# Packed job resources (`common/job_resources.c`)

`JobRes` is a `job_resources_t` with the fields that are packed; a pointer that may be
`NULL` is an option, and a bit string is the list of its bits.  `packJobResources` and
`unpackJobResources` are the two functions, for either layout: from version 24.11 on
`next_step_node_inx` is sent, too.

`ndebug` says whether assertions do nothing, as in a release build.  Allocations do not
fail.
-/

namespace Slurm.Wire

open Lib.BigEndian (toBytes)
open Lib.Reading
open Slurm.Bitstring (bitFmtHexmask bitUnfmtHexmask)
open Slurm.Pack

/-- `NO_VAL` -/
def noVal : BitVec 32 := 0xfffffffe

/-- `SLURM_24_11_PROTOCOL_VERSION` -/
def version2411 : Nat := 42 * 256

/-- `SLURM_MIN_PROTOCOL_VERSION` -/
def versionMin : Nat := 41 * 256

/-- The fields of a `job_resources_t` without its bit strings. -/
structure Fields where
  nhosts : BitVec 32
  ncpus : BitVec 32
  nextStepNodeInx : BitVec 32
  nodeReq : BitVec 32
  nodes : Option CString
  wholeNode : BitVec 8
  threadsPerCore : BitVec 16
  crType : BitVec 16
  cpuArrayCnt : BitVec 32
  cpuArrayReps : Option (List (BitVec 32))
  cpuArrayValue : Option (List (BitVec 16))
  cpus : Option (List (BitVec 16))
  cpusUsed : Option (List (BitVec 16))
  memoryAllocated : Option (List (BitVec 64))
  memoryUsed : Option (List (BitVec 64))
  socketsPerNode : Option (List (BitVec 16))
  coresPerSocket : Option (List (BitVec 16))
  sockCoreRepCount : Option (List (BitVec 32))

/-- `job_resources_t` -/
structure JobRes extends Fields where
  coreBitmap : Option (List Bool)
  coreBitmapUsed : Option (List Bool)
  nodeBitmap : Option (List Bool)

/-! ## Packing -/

/-- `pack_bit_str_hex` -/
def packBitStrHex : Option (List Bool) → Buf → Buf
  | none, b => pack32 noVal b
  | some bits, b => packmem (bitFmtHexmask bits ++ [0]) (pack32 (BitVec.ofNat 32 bits.length) b)

/-- The loop that counts the records, from record `i` on, with `k` hosts left. -/
def recsLoop (nhosts : Nat) (reps : List (BitVec 32)) : Nat → Nat → BitVec 32 → Nat
  | 0, i, _ => i
  | k + 1, i, sockRecs =>
    let sockRecs := sockRecs + reps.getD i 0
    if nhosts ≤ sockRecs.toNat then i else recsLoop nhosts reps k (i + 1) sockRecs

/-- The number of records that are packed. -/
def sockRecs (r : Fields) : Nat :=
  recsLoop r.nhosts.toNat (r.sockCoreRepCount.getD []) r.nhosts.toNat 0 0 + 1

/-- The first `n` elements of an array, and none when it is `NULL`. -/
def sent {α : Type} (array : Option (List α)) (n : Nat) : List α := (array.getD []).take n

/-- What both layouts have after `node_req`. -/
def packRest (r : JobRes) (b : Buf) : Buf :=
  let i := sockRecs r.toFields
  b |> packstr r.nodes
    |> pack8 r.wholeNode
    |> pack16 r.threadsPerCore
    |> pack16 r.crType
    |> pack32Array (sent r.cpuArrayReps r.cpuArrayCnt.toNat)
    |> pack16Array (sent r.cpuArrayValue r.cpuArrayCnt.toNat)
    |> pack16Array (sent r.cpus r.nhosts.toNat)
    |> pack16Array (sent r.cpusUsed r.nhosts.toNat)
    |> pack64Array (sent r.memoryAllocated r.nhosts.toNat)
    |> pack64Array (sent r.memoryUsed r.nhosts.toNat)
    |> pack16Array (sent r.socketsPerNode i)
    |> pack16Array (sent r.coresPerSocket i)
    |> pack32Array (sent r.sockCoreRepCount i)
    |> packBitStrHex r.coreBitmap
    |> packBitStrHex r.coreBitmapUsed
    |> packBitStrHex r.nodeBitmap

/-- `pack_job_resources` -/
def packJobResources (ptr : Option JobRes) (version : Nat) (b : Buf) : Buf :=
  if version2411 ≤ version then
    match ptr with
    | none => pack32 noVal b
    | some r =>
      b |> pack32 r.nhosts |> pack32 r.ncpus |> pack32 r.nextStepNodeInx |> pack32 r.nodeReq
        |> packRest r
  else if versionMin ≤ version then
    match ptr with
    | none => pack32 noVal b
    | some r => b |> pack32 r.nhosts |> pack32 r.ncpus |> pack32 r.nodeReq |> packRest r
  else b

/-! ## Unpacking -/

/-- An array and its length, `tmp32`. -/
def safeArray {α : Type} (f : Cursor Byte → Out (List α)) : Unpack (Option (List α) × Nat) :=
  fun c =>
    if (f c).success then (.ok ((f c).valp, (f c).sizeVal), (f c).buf)
    else (.error .unpackError, (f c).buf)

/-- `unpack_bit_str_hex` -/
def unpackBitStrHex (ndebug : Bool) : Unpack (Option (List Bool)) := do
  let size ← unpack32
  if size = noVal then pure none
  else do
    let tmpStr ← Out.reader (unpackstrXmalloc true)
    if size = 0 then pure none
    else if ndebug = false ∧ 0x40000000 < size.toNat then fail .crash
    else
      match tmpStr with
      | none => fail .unpackError
      | some str =>
        match bitUnfmtHexmask size.toNat (cstring str).chars with
        | .bits bits => pure (some bits)
        | .error => fail .unpackError
        | .overflow => fail .crash

/-- The fields before the arrays. -/
structure Head where
  ncpus : BitVec 32
  nextStepNodeInx : BitVec 32
  nodeReq : BitVec 32
  nodes : Option CString
  wholeNode : BitVec 8
  threadsPerCore : BitVec 16
  crType : BitVec 16

/-- `next_step_node_inx`, where the version has it. -/
def unpackNextStep (version : Nat) : Unpack (BitVec 32) :=
  if version2411 ≤ version then unpack32 else pure 0

/-- The fields before the arrays are unpacked. -/
def unpackHead (version : Nat) : Unpack Head := do
  let ncpus ← unpack32
  let nextStepNodeInx ← unpackNextStep version
  let nodeReq ← unpack32
  let nodes ← Out.reader (unpackstrXmalloc true)
  let wholeNode ← unpack8
  let threadsPerCore ← unpack16
  let crType ← unpack16
  pure ⟨ncpus, nextStepNodeInx, nodeReq, nodes.map cstring, wholeNode, threadsPerCore, crType⟩

/-- The fields up to the bit strings are unpacked. -/
def unpackFields (version : Nat) (nhosts : BitVec 32) : Unpack Fields := do
  let head ← unpackHead version
  let reps ← safeArray (unpack32Array true 0)
  let value ← safeArray (unpack16Array true 0)
  if value.2 ≠ reps.2 then fail .unpackError
  else do
    let cpus ← safeArray (unpack16Array true 0)
    if cpus.2 ≠ nhosts.toNat then fail .unpackError
    else do
      let cpusUsed ← safeArray (unpack16Array true 0)
      let memoryAllocated ← safeArray (unpack64Array true 0)
      let memoryUsed ← safeArray (unpack64Array true 0)
      let socketsPerNode ← safeArray (unpack16Array true 0)
      let coresPerSocket ← safeArray (unpack16Array true 0)
      let sockCoreRepCount ← safeArray (unpack32Array true 0)
      pure
        { nhosts := nhosts
          ncpus := head.ncpus
          nextStepNodeInx := head.nextStepNodeInx
          nodeReq := head.nodeReq
          nodes := head.nodes
          wholeNode := head.wholeNode
          threadsPerCore := head.threadsPerCore
          crType := head.crType
          cpuArrayCnt := BitVec.ofNat 32 reps.2
          cpuArrayReps := reps.1
          cpuArrayValue := value.1
          cpus := cpus.1
          cpusUsed := cpusUsed.1
          memoryAllocated := memoryAllocated.1
          memoryUsed := memoryUsed.1
          socketsPerNode := socketsPerNode.1
          coresPerSocket := coresPerSocket.1
          sockCoreRepCount := sockCoreRepCount.1 }

/-- The structure after its number of hosts is unpacked. -/
def unpackBody (ndebug : Bool) (version : Nat) (nhosts : BitVec 32) : Unpack JobRes := do
  let fields ← unpackFields version nhosts
  let coreBitmap ← unpackBitStrHex ndebug
  let coreBitmapUsed ← unpackBitStrHex ndebug
  let nodeBitmap ← unpackBitStrHex ndebug
  pure ⟨fields, coreBitmap, coreBitmapUsed, nodeBitmap⟩

/-- `0x8000` in `cr_type` was `SELECT_LINEAR`, which is `0x20` now. -/
def fixCrType (crType : BitVec 16) : BitVec 16 :=
  if crType &&& 0x8000 ≠ 0 then (crType &&& ~~~0x8000) ||| 0x20 else crType

/-- How `unpack_job_resources` ends. -/
inductive Unpacked where
  | success (ptr : Option JobRes) (c : Cursor Byte)
  /-- `SLURM_ERROR`, with `NULL` in `*job_resrcs_pptr`. -/
  | error (c : Cursor Byte)
  /-- `free_job_resources` follows `job_resrcs`, which was never set. -/
  | notSet
  /-- An assertion fails, or memory outside of a bit string is written. -/
  | crash

/-- `unpack_job_resources` -/
def unpackJobResources (ndebug : Bool) (version : Nat) (c : Cursor Byte) : Unpacked :=
  if versionMin ≤ version then
    match unpack32 c with
    | (.error _, _) => .notSet
    | (.ok empty, c) =>
      if empty = noVal then .success none c
      else
        match unpackBody ndebug version empty c with
        | (.ok r, c) => .success (some { r with crType := fixCrType r.crType }) c
        | (.error .unpackError, c) => .error c
        | (.error .crash, _) => .crash
  else .notSet

end Slurm.Wire
