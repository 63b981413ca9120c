import Slurm.StepLayout.WireRead

/-!
# The contract of packed step layouts

`layoutWireContract_iff` says when `unpack_slurm_step_layout` ends well on any buffer.  What
`pack_slurm_step_layout` has written always comes back.

* `packSlurmStepLayout_eq`: the values that are packed.
* `reads_unpackLayout`: the layout is read back.
-/

namespace Slurm.LayoutWire

open Lib.BigEndian List
open Lib.Reading
open Lib.Cleanup
open Slurm.Pack
open Slurm.Wire (versionMin safeArray encode encode_cons encode_append packAll_append packAll_cons
  reads_u32 reads_u16 reads_str avoids_reader avoids_safeArray avoids_word HasRoom)

variable {A : Type}
variable {α : Type}

/-! ## The contract -/

/-- The values of a layout. -/
def wireVals (l : SlurmStepLayout A) : List Val :=
  [Val.u16 1, Val.str none, Val.str l.nodeList, Val.u32 l.nodeCnt, Val.u16 l.startProtocolVer,
      Val.u32 l.taskCnt, Val.u32 l.taskDist] ++
    ((l.tids.getD []).map Val.u32Array ++
      [Val.u16Array l.cptCompactArray, Val.u32Array l.cptCompactReps, Val.str none])

/-- A layout that is packed into a buffer, and any other buffer that is unpacked. -/
structure Exchange (A : Type) where
  createNetCred : NodeAliasAddrs A → Nat → Option CString
  extractNetCred : CString → Nat → Option (NodeAliasAddrs A)
  ndebug : Bool
  layout : SlurmStepLayout A
  length_tids : (layout.tids.getD []).length = layout.nodeCnt.toNat
  /-- `tasks[i]` is the length of `tids[i]`. -/
  tasks_eq : (layout.tasks.getD []).map BitVec.toNat = (layout.tids.getD []).map List.length
  length_array : layout.cptCompactArray.length = layout.cptCompactCnt.toNat
  length_reps : layout.cptCompactReps.length = layout.cptCompactCnt.toNat
  nodeList_le : strSize layout.nodeList ≤ maxPackMemLen
  aliasAddrs_eq : layout.aliasAddrs = none
  version : Nat
  supported : versionMin ≤ version
  buf : Buf
  room : HasRoom buf (wireVals layout)
  alloc : Site → Bool
  otherVersion : Nat
  other : Cursor Byte
  /-- `size` is a number of 32 bits. -/
  size_lt : other.data.length < 2 ^ 32

/-- The buffer after packing. -/
def Exchange.packed (x : Exchange A) : Buf :=
  packSlurmStepLayout x.createNetCred (some x.layout) x.buf x.version

/-- The fields that must come back. -/
structure Same (l l' : SlurmStepLayout A) : Prop where
  nodeList : l'.nodeList = l.nodeList
  nodeCnt : l'.nodeCnt = l.nodeCnt
  startProtocolVer : l'.startProtocolVer = l.startProtocolVer
  taskCnt : l'.taskCnt = l.taskCnt
  taskDist : l'.taskDist = l.taskDist
  tasks : l'.tasks.getD [] = l.tasks.getD []
  tids : l'.tids.getD [] = l.tids.getD []
  cptCompactArray : l'.cptCompactArray = l.cptCompactArray
  cptCompactCnt : l'.cptCompactCnt = l.cptCompactCnt
  cptCompactReps : l'.cptCompactReps = l.cptCompactReps

/-- What the two functions must do: the layout comes back and all bytes are used, and on any other
buffer the end is a success or an error. -/
structure LayoutWireContract (x : Exchange A) : Prop where
  roundTrip : ∃ l',
    unpackSlurmStepLayout x.extractNetCred x.ndebug (fun _ => true) ⟨x.packed.data, x.buf.pos⟩
      x.version = .success (some l') ⟨x.packed.data, x.packed.pos⟩ ∧ Same x.layout l'
  fine : (unpackSlurmStepLayout x.extractNetCred x.ndebug x.alloc x.other x.otherVersion).Fine

/-! ## Round trips -/

/-- What is packed of a node is all of its array. -/
theorem map_nodeTids (x : Exchange A) :
    (List.range x.layout.nodeCnt.toNat).map (nodeTids x.layout) = x.layout.tids.getD [] := by
  apply ext_getElem
  · rw [length_map, length_range, x.length_tids]
  · intro i hi hi'
    have htasks := congrArg (·[i]?) x.tasks_eq
    have hlen := congrArg List.length x.tasks_eq
    rw [length_map, length_map] at hlen
    have hi'' : i < (x.layout.tasks.getD []).length := hlen.symm ▸ hi'
    simp only [getElem?_map, getElem?_eq_getElem hi', getElem?_eq_getElem hi'',
      Option.map_some, Option.some.injEq] at htasks
    rw [getElem_map, getElem_range, nodeTids, getD_eq_getElem _ _ hi',
      getD_eq_getElem _ _ hi'', htasks, take_length]

theorem packNodes_eq (x : Exchange A) (b : Buf) :
    packNodes x.layout b = packAll ((x.layout.tids.getD []).map .u32Array) b := by
  unfold packNodes packAll
  rw [← map_nodeTids x, foldl_map, foldl_map]
  rfl

theorem packAll_nil (b : Buf) : packAll [] b = b := rfl

/-- The values that are packed. -/
theorem packSlurmStepLayout_eq (x : Exchange A) : x.packed = packAll (wireVals x.layout) x.buf := by
  have harray : x.layout.cptCompactArray.take x.layout.cptCompactCnt.toNat =
      x.layout.cptCompactArray := take_of_length_le x.length_array.le
  have hreps : x.layout.cptCompactReps.take x.layout.cptCompactCnt.toNat =
      x.layout.cptCompactReps := take_of_length_le x.length_reps.le
  rw [wireVals, packAll_append, packAll_append, ← packNodes_eq, Exchange.packed,
    packSlurmStepLayout, if_pos x.supported]
  simp only [packAll_cons, packAll_nil, packVal, packAlias, harray, hreps, x.aliasAddrs_eq,
    Option.bind_none]

theorem length_tid_lt (x : Exchange A) : ∀ t ∈ x.layout.tids.getD [], t.length < 2 ^ 32 := by
  intro t ht
  have hmem : t.length ∈ (x.layout.tasks.getD []).map BitVec.toNat := by
    rw [x.tasks_eq]
    exact mem_map_of_mem ht
  obtain ⟨task, -, htask⟩ := List.mem_map.mp hmem
  rw [← htask]
  exact task.isLt.trans (by decide)

theorem sized_wireVals (x : Exchange A) : ∀ v ∈ wireVals x.layout, v.Sized := by
  intro v hv
  have hcnt := x.layout.cptCompactCnt.isLt
  rw [wireVals, mem_append, mem_append] at hv
  rcases hv with hv | hv | hv
  · simp only [mem_cons, not_mem_nil, or_false] at hv
    rcases hv with rfl | rfl | rfl | rfl | rfl | rfl | rfl <;>
      first | trivial | exact x.nodeList_le | exact Nat.zero_le _
  · obtain ⟨t, ht, rfl⟩ := List.mem_map.mp hv
    exact length_tid_lt x t ht
  · simp only [mem_cons, not_mem_nil, or_false] at hv
    rcases hv with rfl | rfl | rfl
    · exact x.length_array.trans_lt hcnt
    · exact x.length_reps.trans_lt hcnt
    · exact Nat.zero_le _

/-! ### Elements that are set in order -/

/-- The elements from place `i` on are set. -/
def setFrom {α : Type} (array : List α) : Nat → List α → List α
  | _, [] => array
  | i, x :: xs => setFrom (array.set i x) (i + 1) xs

theorem setFrom_eq {array xs : List α} {i : Nat} (h : array.length = i + xs.length) :
    setFrom array i xs = array.take i ++ xs := by
  induction xs generalizing array i with
  | nil =>
    rw [length_nil, Nat.add_zero] at h
    rw [setFrom, ← h, take_length, append_nil]
  | cons x xs ih =>
    rw [length_cons] at h
    have hi : i < array.length := by omega
    rw [setFrom, ih (by rw [length_set]; omega), take_succ_eq_append_getElem
      (by rw [length_set]; exact hi), getElem_set_self, take_set_of_le (Nat.le_refl i),
      append_assoc, singleton_append]

/-- The structure with the arrays of some nodes. -/
def SlurmStepLayout.setNodes (l : SlurmStepLayout A) (i : Nat) (ts : List (List (BitVec 32))) :
    SlurmStepLayout A :=
  { l with
    tasks := l.tasks.map fun tasks => setFrom tasks i (ts.map fun t => BitVec.ofNat 16 t.length)
    tids := l.tids.map fun array => setFrom array i ts }

theorem setNodes_nil (l : SlurmStepLayout A) (i : Nat) : l.setNodes i [] = l := by
  unfold SlurmStepLayout.setNodes
  simp [setFrom]

theorem setNodes_cons (l : SlurmStepLayout A) (i : Nat) (t : List (BitVec 32))
    (ts : List (List (BitVec 32))) :
    (l.setNode i t t.length).setNodes (i + 1) ts = l.setNodes i (t :: ts) := by
  unfold SlurmStepLayout.setNodes SlurmStepLayout.setNode
  simp [setFrom, Function.comp_def]

/-! ### What is read back -/

theorem reads_array {unpack : Unpack α} {block : α → List Byte}
    (hread : ∀ val, Reads unpack (block val) val) {vals : List α} (hlen : vals.length < 2 ^ 32) :
    Reads (safeArray (unpackArray unpack true 0))
      (toBytes 4 vals.length :: vals.map block).flatten
      (if vals = [] then none else some vals, vals.length) := by
  intro c hbs
  rw [flatten_cons, ← flatMap_def] at hbs ⊢
  exact safeArray_ok (unpackArray_eq hread hlen hbs)

theorem reads_u32Array {vals : List (BitVec 32)} (hlen : vals.length < 2 ^ 32) :
    Reads (safeArray (unpack32Array true 0)) (bytes (.u32Array vals))
      (if vals = [] then none else some vals, vals.length) := reads_array reads_unpack32 hlen

theorem reads_u16Array {vals : List (BitVec 16)} (hlen : vals.length < 2 ^ 32) :
    Reads (safeArray (unpack16Array true 0)) (bytes (.u16Array vals))
      (if vals = [] then none else some vals, vals.length) :=
  reads_array (reads_word (show 16 = 8 * 2 from rfl)) hlen

/-- The next value within the structure. -/
theorem reads_next_safe {γ : Type} {l : SlurmStepLayout A} {m : Unpack α} {f : α → Build A γ}
    {v : Val} {vs : List Val} {a : α} {b : γ} (hm : Reads m (bytes v) a)
    (hf : Reads (f a) (encode vs) b) : Reads (safe l m >>= f) (encode (v :: vs)) b := by
  rw [encode_cons]
  exact reads_bind (reads_mapError hm) hf

theorem reads_unpackNodeCnt {nodeList : Option CString} (hlen : strSize nodeList ≤ maxPackMemLen)
    (nodeCnt : BitVec 32) :
    Reads (unpackNodeCnt fun _ => true) (encode [.str none, .str nodeList, .u32 nodeCnt])
      ({ SlurmStepLayout.zero with nodeList := nodeList, nodeCnt := nodeCnt } :
        SlurmStepLayout A) := by
  refine reads_next_safe (reads_str (Nat.zero_le _)) ?_
  refine reads_next_safe (reads_str hlen) ?_
  refine reads_next_safe (reads_u32 nodeCnt) ?_
  rw [cstring_strMem]
  exact reads_pure _

theorem reads_unpackNumbers (l : SlurmStepLayout A) (startProtocolVer : BitVec 16)
    (taskCnt taskDist : BitVec 32) :
    Reads (unpackNumbers l) (encode [.u16 startProtocolVer, .u32 taskCnt, .u32 taskDist])
      { l with startProtocolVer := startProtocolVer, taskCnt := taskCnt, taskDist := taskDist } := by
  refine reads_next_safe (reads_u16 startProtocolVer) ?_
  refine reads_next_safe (reads_u32 taskCnt) ?_
  exact reads_next_safe (reads_u32 taskDist) (reads_pure _)

/-- A new array, or `NULL`. -/
def made {α : Type} (cnt : Nat) (zero : α) : Option (List α) :=
  if cnt = 0 then none else some (List.replicate cnt zero)

theorem safeXcalloc_eq (l : SlurmStepLayout A) (cnt : Nat) (zero : α) :
    safeXcalloc l true cnt zero = pure (made cnt zero) := by
  unfold safeXcalloc made
  split
  · rfl
  · rfl

theorem reads_allocArrays (l : SlurmStepLayout A) :
    Reads (allocArrays (fun _ => true) l) []
      { l with tasks := made l.nodeCnt.toNat 0, tids := made l.nodeCnt.toNat [] } := by
  unfold allocArrays
  rw [safeXcalloc_eq]
  refine reads_bind (reads_pure _) ?_
  dsimp only
  rw [safeXcalloc_eq]
  exact reads_map (reads_pure _) _

theorem reads_unpackNodes (ts : List (List (BitVec 32))) (hlen : ∀ t ∈ ts, t.length < 2 ^ 32) (i : Nat)
    (l : SlurmStepLayout A) :
    Reads (unpackNodes (fun _ => true) ts.length i l) (encode (ts.map .u32Array))
      (l.setNodes i ts) := by
  induction ts generalizing i l with
  | nil =>
    rw [setNodes_nil]
    exact reads_pure l
  | cons t ts ih =>
    refine reads_next_safe (reads_u32Array (hlen t mem_cons_self)) ?_
    rw [getD_unlessNil, ← setNodes_cons]
    exact ih (fun t' ht' => hlen t' (mem_cons_of_mem _ ht')) (i + 1) _

theorem reads_unpackCptCompact (ndebug : Bool) (l : SlurmStepLayout A) {array : List (BitVec 16)}
    {reps : List (BitVec 32)} (harray : array.length < 2 ^ 32) (hlen : reps.length = array.length) :
    Reads (unpackCptCompact ndebug (fun _ => true) l) (encode [.u16Array array, .u32Array reps])
      { l with
        cptCompactArray := array
        cptCompactCnt := BitVec.ofNat 32 array.length
        cptCompactReps := reps } := by
  refine reads_next_safe (reads_u16Array harray) ?_
  refine reads_next_safe (reads_u32Array (hlen ▸ harray)) ?_
  dsimp only
  rw [getD_unlessNil, getD_unlessNil, hlen, if_neg fun h => h.2 rfl]
  exact reads_pure _

theorem reads_unpackAlias (extractNetCred : CString → Nat → Option (NodeAliasAddrs A))
    (version : Nat) (l : SlurmStepLayout A) :
    Reads (unpackAlias extractNetCred version (fun _ => true) l) (encode [.str none]) l :=
  reads_next_safe (reads_str (Nat.zero_le _)) (reads_pure l)

/-- The layout that comes back. -/
def Exchange.received (x : Exchange A) : SlurmStepLayout A where
  nodeList := x.layout.nodeList
  nodeCnt := x.layout.nodeCnt
  startProtocolVer := x.layout.startProtocolVer
  taskCnt := x.layout.taskCnt
  taskDist := x.layout.taskDist
  tasks := (made x.layout.nodeCnt.toNat 0).map fun tasks =>
    setFrom tasks 0 ((x.layout.tids.getD []).map fun t => BitVec.ofNat 16 t.length)
  tids := (made x.layout.nodeCnt.toNat []).map fun array => setFrom array 0 (x.layout.tids.getD [])
  cptCompactArray := x.layout.cptCompactArray
  cptCompactCnt := BitVec.ofNat 32 x.layout.cptCompactArray.length
  cptCompactReps := x.layout.cptCompactReps
  aliasAddrs := none

/-- The layout is read back. -/
theorem reads_unpackLayout (x : Exchange A) :
    Reads (unpackLayout x.extractNetCred x.ndebug x.version fun _ => true)
      (encode (wireVals x.layout).tail) x.received := by
  have hvals : (wireVals x.layout).tail =
      [Val.str none, Val.str x.layout.nodeList, Val.u32 x.layout.nodeCnt] ++
        ([Val.u16 x.layout.startProtocolVer, Val.u32 x.layout.taskCnt, Val.u32 x.layout.taskDist] ++
          ((x.layout.tids.getD []).map Val.u32Array ++
            ([Val.u16Array x.layout.cptCompactArray, Val.u32Array x.layout.cptCompactReps] ++
              [Val.str none]))) := rfl
  have hcnt := x.layout.cptCompactCnt.isLt
  rw [hvals, encode_append, encode_append, encode_append, encode_append]
  refine reads_bind (reads_unpackNodeCnt x.nodeList_le x.layout.nodeCnt) ?_
  refine reads_bind (reads_unpackNumbers _ _ _ _) ?_
  rw [← nil_append (encode _ ++ _)]
  refine reads_bind (reads_allocArrays _) ?_
  have hnodes := reads_unpackNodes (x.layout.tids.getD []) (length_tid_lt x) 0
    { SlurmStepLayout.zero (A := A) with
      nodeList := x.layout.nodeList
      nodeCnt := x.layout.nodeCnt
      startProtocolVer := x.layout.startProtocolVer
      taskCnt := x.layout.taskCnt
      taskDist := x.layout.taskDist
      tasks := made x.layout.nodeCnt.toNat 0
      tids := made x.layout.nodeCnt.toNat [] }
  rw [x.length_tids] at hnodes
  refine reads_bind hnodes ?_
  refine reads_bind (reads_unpackCptCompact x.ndebug _ (x.length_array.trans_lt hcnt)
    (x.length_reps.trans x.length_array.symm)) ?_
  exact reads_unpackAlias _ _ _

theorem getD_made {xs : List α} {cnt : Nat} (h : xs.length = cnt) (zero : α) :
    ((made cnt zero).map fun array => setFrom array 0 xs).getD [] = xs := by
  unfold made
  split
  · rename_i hcnt
    exact (eq_nil_of_length_eq_zero (h.trans hcnt)).symm
  · rw [Option.map_some, Option.getD_some, setFrom_eq (by rw [length_replicate, h, Nat.zero_add]),
      take_zero, nil_append]

theorem same_received (x : Exchange A) : Same x.layout x.received where
  nodeList := rfl
  nodeCnt := rfl
  startProtocolVer := rfl
  taskCnt := rfl
  taskDist := rfl
  tasks := by
    have htasks : (x.layout.tids.getD []).map (fun t => BitVec.ofNat 16 t.length) =
        x.layout.tasks.getD [] := by
      have hmap := congrArg (List.map (BitVec.ofNat 16)) x.tasks_eq
      rw [map_map, map_map] at hmap
      refine hmap.symm.trans ?_
      simp [Function.comp_def]
    rw [Exchange.received, htasks]
    refine getD_made ?_ 0
    rw [← x.length_tids, ← length_map (f := BitVec.toNat), x.tasks_eq, length_map]
  tids := getD_made x.length_tids []
  cptCompactArray := rfl
  cptCompactCnt := by
    rw [Exchange.received, x.length_array, BitVec.ofNat_toNat, BitVec.setWidth_eq]
  cptCompactReps := rfl

/-- What was packed always comes back. -/
theorem unpack_packed (x : Exchange A) :
    unpackSlurmStepLayout x.extractNetCred x.ndebug (fun _ => true) ⟨x.packed.data, x.buf.pos⟩
      x.version = .success (some x.received) ⟨x.packed.data, x.packed.pos⟩ := by
  obtain ⟨⟨rest, hdata⟩, hpos⟩ := Slurm.Wire.packed_vals x.room (sized_wireVals x)
  rw [← packSlurmStepLayout_eq] at hdata hpos
  have hvals : wireVals x.layout = .u16 1 :: (wireVals x.layout).tail := rfl
  rw [hvals, encode_cons] at hdata hpos
  rw [append_assoc] at hdata
  rw [length_append] at hpos
  have hfirst := reads_u16 1 ⟨x.packed.data, x.buf.pos⟩ ⟨_, hdata⟩
  have hdrop : x.packed.data.drop (x.buf.pos + (bytes (.u16 1)).length) =
      encode (wireVals x.layout).tail ++ rest := by
    rw [← drop_drop, ← hdata, drop_left]
  have hbody := reads_unpackLayout x
    ((Cursor.mk x.packed.data x.buf.pos).advance (bytes (.u16 1)).length) ⟨rest, hdrop.symm⟩
  rw [unpackSlurmStepLayout, if_pos x.supported, hfirst]
  dsimp only
  rw [if_neg (by decide), hbody, hpos, ← Nat.add_assoc]
  rfl

/-- The contract is met exactly when the other buffer can be read. -/
theorem layoutWireContract_iff (x : Exchange A) :
    LayoutWireContract x ↔ Readable x.ndebug x.alloc x.otherVersion x.other := by
  have hfine := @fine_iff A x.alloc x.extractNetCred x.ndebug x.otherVersion x.other x.size_lt
  rw [← hfine]
  constructor
  · intro h
    exact h.fine
  · intro h
    exact ⟨⟨x.received, unpack_packed x, same_received x⟩, h⟩

/-- A layout of one node with one task. -/
def oneTask : SlurmStepLayout Unit where
  nodeList := none
  nodeCnt := 1
  startProtocolVer := 0
  taskCnt := 1
  taskDist := 1
  tasks := some [1]
  tids := some [[0]]
  cptCompactArray := [1]
  cptCompactCnt := 1
  cptCompactReps := [1]
  aliasAddrs := none

theorem hasRoom_oneTask : HasRoom Slurm.Wire.smallBuf (wireVals oneTask) :=
  ⟨⟨rfl, rfl, Nat.zero_le _⟩, by decide, by decide⟩

/-- The other buffer ends after `node_cnt`. -/
def cutOff : Exchange Unit where
  createNetCred := fun _ _ => none
  extractNetCred := fun _ _ => none
  ndebug := true
  layout := oneTask
  length_tids := rfl
  tasks_eq := rfl
  length_array := rfl
  length_reps := rfl
  nodeList_le := Nat.zero_le _
  aliasAddrs_eq := rfl
  version := 44 * 256
  supported := Nat.le_of_ble_eq_true rfl
  buf := Slurm.Wire.smallBuf
  room := hasRoom_oneTask
  alloc := fun _ => true
  otherVersion := 44 * 256
  other := ⟨[0, 1, 0, 0, 0, 0, 0, 0, 0, 0, 0, 0, 0, 1], 0⟩
  size_lt := Nat.lt_of_sub_ne_zero (by decide)

/-- `tids` is `NULL` when `tids[0]` is freed. -/
theorem not_layoutWireContract_cutOff : ¬ LayoutWireContract cutOff := by
  intro h
  exact h.fine

end Slurm.LayoutWire
