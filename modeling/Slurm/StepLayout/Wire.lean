import Slurm.JobResources.Wire

/-!
# Packed step layouts (`common/slurm_step_layout.c`)

`SlurmStepLayout` is a `slurm_step_layout_t` with the fields that are packed.  `tasks` and `tids`
are `NULL` or arrays; an array of `tids`, or of `cpt_compact`, that is `NULL` is the empty list.

Unpacking goes to `unpack_error` with what is in `*step_layout` then, which
`slurm_step_layout_destroy` frees.  That function indexes `tids` with an `int`, which wraps around,
up to `node_cnt`; `slurmStepLayoutDestroy` says whether all of its indexes are inside of the array.

Whether an allocation succeeds is an argument, but for that of the structure: `xmalloc` ends the
program when it does not.  The functions of the credential plugin are arguments, too.  `ndebug` says
whether assertions do nothing.
-/

namespace Slurm.LayoutWire

open Lib.Reading
open Lib.Cleanup
open Slurm.Pack
open Slurm.Wire (versionMin safeArray)

/-- `slurm_node_alias_addrs_t`, where `rest` is what a credential holds. -/
structure NodeAliasAddrs (A : Type) where
  netCred : Option CString
  rest : A

/-- `slurm_step_layout_t` -/
structure SlurmStepLayout (A : Type) where
  nodeList : Option CString
  nodeCnt : BitVec 32
  startProtocolVer : BitVec 16
  taskCnt : BitVec 32
  taskDist : BitVec 32
  tasks : Option (List (BitVec 16))
  tids : Option (List (List (BitVec 32)))
  cptCompactArray : List (BitVec 16)
  cptCompactCnt : BitVec 32
  cptCompactReps : List (BitVec 32)
  aliasAddrs : Option (NodeAliasAddrs A)

variable {A : Type}

/-- A new structure. -/
def SlurmStepLayout.zero : SlurmStepLayout A :=
  ⟨none, 0, 0, 0, 0, none, none, [], 0, [], none⟩

/-! ## Packing -/

/-- The array that is packed for node `i`. -/
def nodeTids (l : SlurmStepLayout A) (i : Nat) : List (BitVec 32) :=
  ((l.tids.getD []).getD i []).take ((l.tasks.getD []).getD i 0).toNat

/-- The loop over the nodes. -/
def packNodes (l : SlurmStepLayout A) (b : Buf) : Buf :=
  (List.range l.nodeCnt.toNat).foldl (fun b i => pack32Array (nodeTids l i) b) b

/-- `alias_addrs` is packed. -/
def packAlias (createNetCred : NodeAliasAddrs A → Nat → Option CString) (version : Nat)
    (aliasAddrs : Option (NodeAliasAddrs A)) : Buf → Buf :=
  packstr (aliasAddrs.bind fun addrs => createNetCred addrs version)

/-- `pack_slurm_step_layout` -/
def packSlurmStepLayout (createNetCred : NodeAliasAddrs A → Nat → Option CString)
    (stepLayout : Option (SlurmStepLayout A)) (b : Buf) (version : Nat) : Buf :=
  if versionMin ≤ version then
    match stepLayout with
    | none => pack16 0 b
    | some l =>
      b |> pack16 1
        |> packstr none
        |> packstr l.nodeList
        |> pack32 l.nodeCnt
        |> pack16 l.startProtocolVer
        |> pack32 l.taskCnt
        |> pack32 l.taskDist
        |> packNodes l
        |> pack16Array (l.cptCompactArray.take l.cptCompactCnt.toNat)
        |> pack32Array (l.cptCompactReps.take l.cptCompactCnt.toNat)
        |> packAlias createNetCred version l.aliasAddrs
  else b

/-! ## Freeing -/

/-- The index is inside of the array. -/
def indexed {α : Type} : Option (List α) → Int → Bool
  | none, _ => false
  | some array, i => decide (0 ≤ i ∧ i < array.length)

/-- The loop that frees the arrays of `tids`, with `k` turns left.  The test of the loop takes `i`
as a number without sign, the index does not. -/
def freeTids (tids : Option (List (List (BitVec 32)))) : Nat → BitVec 32 → Bool
  | 0, _ => true
  | k + 1, i => indexed tids i.toInt && freeTids tids k (i + 1)

/-- `slurm_step_layout_destroy`: whether it stays inside of the arrays. -/
def slurmStepLayoutDestroy : Option (SlurmStepLayout A) → Bool
  | none => true
  | some l => freeTids l.tids l.nodeCnt.toNat 0

/-! ## Unpacking -/

/-- The allocations that may fail. -/
inductive Site where
  | skipped
  | nodeList
  | tasks
  | tids
  | node (i : Nat)
  | cptCompactArray
  | cptCompactReps
  | aliasAddrs

/-- How unpacking stops: at `unpack_error`, with this `step_layout`, or the program ends. -/
inductive Stop (A : Type) where
  | unpackError (stepLayout : SlurmStepLayout A)
  | crash

abbrev Build (A α : Type) := Reader Byte (Stop A) α

/-- Where a fault leads to. -/
def Stop.of (l : SlurmStepLayout A) : Fault → Stop A
  | .unpackError => .unpackError l
  | .crash => .crash

/-- What the macros for unpacking do while the structure is `l`. -/
def safe {α : Type} (l : SlurmStepLayout A) (m : Unpack α) : Build A α := mapError (Stop.of l) m

/-- `safe_xcalloc` -/
def safeXcalloc {α : Type} (l : SlurmStepLayout A) (alloc : Bool) (cnt : Nat) (zero : α) :
    Build A (Option (List α)) :=
  if cnt = 0 then pure none
  else if alloc = false then fail (.unpackError l)
  else pure (some (List.replicate cnt zero))

/-- The fields up to `node_cnt` are unpacked. -/
def unpackNodeCnt (alloc : Site → Bool) : Build A (SlurmStepLayout A) := do
  let l := SlurmStepLayout.zero
  let _ ← safe l (Out.reader (unpackstrXmalloc (alloc .skipped)))
  let nodeList ← safe l (Out.reader (unpackstrXmalloc (alloc .nodeList)))
  let l := { l with nodeList := nodeList.map cstring }
  let nodeCnt ← safe l unpack32
  pure { l with nodeCnt := nodeCnt }

/-- The numbers after `node_cnt` are unpacked. -/
def unpackNumbers (l : SlurmStepLayout A) : Build A (SlurmStepLayout A) := do
  let startProtocolVer ← safe l unpack16
  let l := { l with startProtocolVer := startProtocolVer }
  let taskCnt ← safe l unpack32
  let l := { l with taskCnt := taskCnt }
  let taskDist ← safe l unpack32
  pure { l with taskDist := taskDist }

/-- The arrays for `node_cnt` nodes are made. -/
def allocArrays (alloc : Site → Bool) (l : SlurmStepLayout A) : Build A (SlurmStepLayout A) := do
  let tasks ← safeXcalloc l (alloc .tasks) l.nodeCnt.toNat 0
  let l := { l with tasks := tasks }
  let tids ← safeXcalloc l (alloc .tids) l.nodeCnt.toNat []
  pure { l with tids := tids }

/-- `tids[i]` and `tasks[i]` are set. -/
def SlurmStepLayout.setNode (l : SlurmStepLayout A) (i : Nat) (tids : List (BitVec 32))
    (numTids : Nat) : SlurmStepLayout A :=
  { l with
    tasks := l.tasks.map fun tasks => tasks.set i (BitVec.ofNat 16 numTids)
    tids := l.tids.map fun array => array.set i tids }

/-- The loop over the nodes, with `k` nodes left. -/
def unpackNodes (alloc : Site → Bool) : Nat → Nat → SlurmStepLayout A → Build A (SlurmStepLayout A)
  | 0, _, l => pure l
  | k + 1, i, l => do
    let tids ← safe l (safeArray (unpack32Array (alloc (.node i)) 0))
    unpackNodes alloc k (i + 1) (l.setNode i (tids.1.getD []) tids.2)

/-- The arrays of `cpt_compact` are unpacked. -/
def unpackCptCompact (ndebug : Bool) (alloc : Site → Bool) (l : SlurmStepLayout A) :
    Build A (SlurmStepLayout A) := do
  let array ← safe l (safeArray (unpack16Array (alloc .cptCompactArray) 0))
  let l := { l with
    cptCompactArray := array.1.getD []
    cptCompactCnt := BitVec.ofNat 32 array.2 }
  let reps ← safe l (safeArray (unpack32Array (alloc .cptCompactReps) 0))
  let l := { l with cptCompactReps := reps.1.getD [] }
  if ndebug = false ∧ BitVec.ofNat 32 reps.2 ≠ l.cptCompactCnt then fail .crash
  else pure l

/-- `alias_addrs` is unpacked. -/
def unpackAlias (extractNetCred : CString → Nat → Option (NodeAliasAddrs A)) (version : Nat)
    (alloc : Site → Bool) (l : SlurmStepLayout A) : Build A (SlurmStepLayout A) := do
  let tmpStr ← safe l (Out.reader (unpackstrXmalloc (alloc .aliasAddrs)))
  match tmpStr.map cstring with
  | none => pure l
  | some str =>
    match extractNetCred str version with
    | none => fail (.unpackError l)
    | some addrs => pure { l with aliasAddrs := some { addrs with netCred := some str } }

/-- Everything after the first number is unpacked. -/
def unpackLayout (extractNetCred : CString → Nat → Option (NodeAliasAddrs A)) (ndebug : Bool)
    (version : Nat) (alloc : Site → Bool) : Build A (SlurmStepLayout A) := do
  let l ← unpackNodeCnt alloc
  let l ← unpackNumbers l
  let l ← allocArrays alloc l
  let l ← unpackNodes alloc l.nodeCnt.toNat 0 l
  let l ← unpackCptCompact ndebug alloc l
  unpackAlias extractNetCred version alloc l

/-- How `unpack_slurm_step_layout` ends. -/
inductive Unpacked (A : Type) where
  /-- `SLURM_SUCCESS`; where there is no structure, `*layout` is as it was. -/
  | success (layout : Option (SlurmStepLayout A)) (c : Cursor Byte)
  /-- `SLURM_ERROR`, with `NULL` in `*layout`. -/
  | error (c : Cursor Byte)
  /-- An assertion fails, or an index is outside of an array. -/
  | crash

/-- What is done at `unpack_error`. -/
def unpackError (stepLayout : Option (SlurmStepLayout A)) (c : Cursor Byte) : Unpacked A :=
  if slurmStepLayoutDestroy stepLayout then .error c else .crash

/-- `unpack_slurm_step_layout` -/
def unpackSlurmStepLayout (extractNetCred : CString → Nat → Option (NodeAliasAddrs A))
    (ndebug : Bool) (alloc : Site → Bool) (c : Cursor Byte) (version : Nat) : Unpacked A :=
  if versionMin ≤ version then
    match unpack16 c with
    | (.error _, c) => unpackError none c
    | (.ok uint16Tmp, c) =>
      if uint16Tmp = 0 then .success none c
      else
        match unpackLayout extractNetCred ndebug version alloc c with
        | (.ok l, c) => .success (some l) c
        | (.error (.unpackError l), c) => unpackError (some l) c
        | (.error .crash, _) => .crash
  else unpackError none c

end Slurm.LayoutWire
