import Slurm.JobResources.Merge
import Slurm.Lib.Blocks

/-!
# Cores by node (`common/job_resources.c`)

The functions that work on one node of a `job_resources_t`, given by its number in the
allocation, or on one core of it.  Each looks the node up with the same walk over the
run-length records, here `seekNode`, and adds up where its bits begin.

`nodeList` is what the records say: the sockets of each node and the cores of each socket.
`Hosted` are the structures that describe their nodes.  The records may go on behind them,
since `extract_job_resources_node` leaves such records, and the core bit string may have
room for more cores, since `job_resources_or` makes it so.

* `seekNode_of_lt`, `seekNode_of_le`: where the walk ends.
* `nodeCores_eq`: the bits of a node.
-/

namespace Slurm.JobResources

open Slurm.Bitstring List
open Lib.RunLength (expand seek seek_of_lt seek_of_le)
open Lib.Blocks

variable {h : Nat}

/-! ## The functions -/

section

variable (r : JobResources)

/-- The records that a walk over the nodes reads. -/
def hostReps : List Nat := r.sockCoreRepCount.take r.nhosts

/-- `for (i=0; i<job_resrcs_ptr->nhosts; i++)`: `bit_inx` of the records before the one of the
node, and that record with what is left of `node_id`. -/
def seekNode (nodeId : Nat) : Nat × Option (Nat × Nat) := seek r.cores (hostReps r) 0 nodeId 0

/-- The check of `bit_inx` against the size of the bit string. -/
def inBitmap (bitInx : Nat) : Option Nat :=
  if bitInx ≥ r.coreBitmap.nbits then none else some bitInx

/-- `get_job_resources_offset`.  `none` is `-1`. -/
def getJobResourcesOffset (nodeId socketId coreId : Nat) : Option Nat :=
  match seekNode r nodeId with
  | (bitInx, none) => inBitmap r bitInx
  | (bitInx, some (i, nodeId)) =>
    if socketId ≥ r.socketsPerNode.getD i 0 then none
    else if coreId ≥ r.coresPerSocket.getD i 0 then none
    else
      inBitmap r (bitInx + r.cores i * nodeId + r.coresPerSocket.getD i 0 * socketId + coreId)

/-- `get_job_resources_bit`.  `none` is `SLURM_ERROR`. -/
def getJobResourcesBit (nodeId socketId coreId : Nat) : Option Bool :=
  (getJobResourcesOffset r nodeId socketId coreId).map (bitTest r.coreBitmap)

/-- The bits of a node, as the functions for a node find them: the first one and how many.
It is an error when the node has no core, and when its bits are not in the bit string. -/
def nodeCores (nodeId : Nat) : Option (Nat × Nat) :=
  match seekNode r nodeId with
  | (_, none) => none
  | (bitInx, some (i, nodeId)) =>
    if r.cores i < 1 then none
    else if bitInx + r.cores i * nodeId + r.cores i > r.coreBitmap.nbits then none
    else some (bitInx + r.cores i * nodeId, r.cores i)

/-- `get_job_resources_node` -/
def getJobResourcesNode (nodeId : Nat) : Bool :=
  match nodeCores r nodeId with
  | none => false
  | some (bitInx, coreCnt) => (List.range coreCnt).any fun i => bitTest r.coreBitmap (bitInx + i)

/-- `_change_job_resources_node`, the return code and the structure after it. -/
def changeJobResourcesNode (nodeId : Nat) (newValue : Bool) : Bool × JobResources :=
  match nodeCores r nodeId with
  | none => (false, r)
  | some (bitInx, coreCnt) =>
    (true, { r with
      coreBitmap :=
        if newValue then setWhere (fun _ => true) bitInx coreCnt r.coreBitmap
        else clearAll bitInx coreCnt r.coreBitmap })

/-- `set_job_resources_node` -/
def setJobResourcesNode (nodeId : Nat) : Bool × JobResources := changeJobResourcesNode r nodeId true

/-- `clear_job_resources_node` -/
def clearJobResourcesNode (nodeId : Nat) : Bool × JobResources :=
  changeJobResourcesNode r nodeId false

/-- `count_job_resources_node` -/
def countJobResourcesNode (nodeId : Nat) : Nat :=
  match nodeCores r nodeId with
  | none => 0
  | some (bitInx, coreCnt) =>
    (List.range coreCnt).countP fun i => bitTest r.coreBitmap (bitInx + i)

/-- `copy_job_resources_node`.  `none` is `NULL`. -/
def copyJobResourcesNode (nodeId : Nat) : Option Bitstr :=
  match nodeCores r nodeId with
  | none => none
  | some (bitInx, coreCnt) =>
    if h : ValidSize coreCnt then
      some (setWhere (fun i => bitTest r.coreBitmap (bitInx + i)) 0 coreCnt (bitAlloc coreCnt h))
    else none

/-- `new_core_cnt` and `from_core_cnt` of `job_resources_bits_copy`. -/
def nodeCoreCnt (nodeOffset : Nat) : Nat :=
  match seekNode r nodeOffset with
  | (_, none) => 0
  | (_, some (i, _)) => r.cores i

end

/-- `job_resources_t` with `core_bitmap_used`. -/
structure UsedResources extends JobResources where
  coreBitmapUsed : Bitstr
  deriving DecidableEq

/-- `job_resources_bits_copy`, the return code and what `new_job_resrcs_ptr` becomes. -/
def jobResourcesBitsCopy (newRes : UsedResources) (newNodeOffset : Nat) (fromRes : UsedResources)
    (fromNodeOffset : Nat) : Bool × UsedResources :=
  if newNodeOffset ≥ newRes.nhosts then (false, newRes)
  else if fromNodeOffset ≥ fromRes.nhosts then (false, newRes)
  else
    (decide (nodeCoreCnt newRes.toJobResources newNodeOffset
        = nodeCoreCnt fromRes.toJobResources fromNodeOffset),
      { newRes with
        coreBitmap := bitOr newRes.coreBitmap fromRes.coreBitmap
        coreBitmapUsed := bitOr newRes.coreBitmapUsed fromRes.coreBitmapUsed })

/-! ## What the records say -/

section

variable (r : JobResources)

/-- The sockets of each node, and the cores of each of its sockets. -/
def nodeList : List (Nat × Nat) :=
  ((expand (hostReps r)).take r.nhosts).map fun k =>
    (r.socketsPerNode.getD k 0, r.coresPerSocket.getD k 0)

/-- The sockets of node `h`. -/
def sockets (h : Nat) : Nat := ((nodeList r).getD h (0, 0)).1

/-- The cores of a socket of node `h`. -/
def socketCores (h : Nat) : Nat := ((nodeList r).getD h (0, 0)).2

/-- The cores of each node. -/
def coreCounts : List Nat := (nodeList r).map fun p => p.2 * p.1

/-- Where the bits of node `h` begin. -/
def nodeStart (h : Nat) : Nat := start (coreCounts r) h

/-- The cores of node `h`. -/
def hostCores (h : Nat) : Nat := socketCores r h * sockets r h

/-- `total_cores` -/
def totalCores : Nat := (coreCounts r).sum

/-- The records describe the nodes: a walk over the nodes stays in the arrays and meets a
record for each of them, and the bit string has room for the cores.  All that the walk can
add up is an `int`. -/
structure Hosted : Prop where
  sockets_length : r.nhosts ≤ r.socketsPerNode.length
  cores_length : r.nhosts ≤ r.coresPerSocket.length
  reps_length : r.nhosts ≤ r.sockCoreRepCount.length
  records : r.nhosts ≤ (hostReps r).sum
  cores_fit : totalCores r ≤ r.coreBitmap.nbits
  int_fit : ((expand (hostReps r)).map r.cores).sum < 2 ^ 31

end

variable {r : JobResources}

theorem coreCounts_eq (r : JobResources) :
    coreCounts r = ((expand (hostReps r)).map r.cores).take r.nhosts := by
  unfold coreCounts nodeList
  rw [map_map, map_take]
  rfl

theorem getD_coreCounts (r : JobResources) (h : Nat) : (coreCounts r).getD h 0 = hostCores r h := by
  unfold coreCounts hostCores socketCores sockets
  rw [getD_eq_getElem?_getD, getD_eq_getElem?_getD, getElem?_map]
  cases (nodeList r)[h]? with
  | none => rfl
  | some p => rfl

theorem Hosted.length_nodeList (hr : Hosted r) : (nodeList r).length = r.nhosts := by
  unfold nodeList
  rw [length_map, length_take, Lib.RunLength.expand_length, Nat.min_eq_left hr.records]

theorem Hosted.length_coreCounts (hr : Hosted r) : (coreCounts r).length = r.nhosts := by
  unfold coreCounts
  rw [length_map, hr.length_nodeList]

theorem hostCores_of_le (hr : Hosted r) (hle : r.nhosts ≤ h) : hostCores r h = 0 := by
  rw [← getD_coreCounts, getD_eq_default]
  rw [hr.length_coreCounts]
  exact hle

theorem nodeStart_add_le (r : JobResources) (h : Nat) :
    nodeStart r h + hostCores r h ≤ totalCores r := by
  rw [← getD_coreCounts]
  exact start_add_le_sum _ h

/-! ## Where the walk ends -/

/-- Among all records, those behind the nodes too. -/
def allCores (r : JobResources) : List Nat := (expand (hostReps r)).map r.cores

/-- The walk comes to the record of the node. -/
theorem seekNode_of_lt (hlt : h < (hostReps r).sum) :
    ∃ w i place, seekNode r h = (w, some (i, place)) ∧ (expand (hostReps r))[h]? = some i ∧
      w + r.cores i * place = start (allCores r) h := by
  obtain ⟨w, i, place, hseek, hget, hweight⟩ := seek_of_lt r.cores hlt 0 0
  refine ⟨w, i, place, hseek, hget, ?_⟩
  rw [hweight, Nat.zero_add, start, allCores, ← map_take]
  rfl

/-- The walk passes all records. -/
theorem seekNode_of_le (hle : (hostReps r).sum ≤ h) : seekNode r h = ((allCores r).sum, none) := by
  unfold seekNode
  rw [seek_of_le r.cores hle, Nat.zero_add]
  rfl

/-- The walk comes to a node of the allocation. -/
theorem Hosted.seekNode (hr : Hosted r) (hlt : h < r.nhosts) :
    ∃ w i place, seekNode r h = (w, some (i, place)) ∧ r.socketsPerNode.getD i 0 = sockets r h ∧
      r.coresPerSocket.getD i 0 = socketCores r h ∧ r.cores i = hostCores r h ∧
      w + r.cores i * place = nodeStart r h := by
  obtain ⟨w, i, place, hseek, hget, hweight⟩ := seekNode_of_lt (Nat.lt_of_lt_of_le hlt hr.records)
  have hnode : (nodeList r).getD h (0, 0)
      = (r.socketsPerNode.getD i 0, r.coresPerSocket.getD i 0) := by
    unfold nodeList
    rw [getD_eq_getElem?_getD, getElem?_map, getElem?_take_of_lt hlt, hget]
    rfl
  refine ⟨w, i, place, hseek, ?_, ?_, ?_, ?_⟩
  · rw [sockets, hnode]
  · rw [socketCores, hnode]
  · rw [hostCores, sockets, socketCores, hnode]
    rfl
  · rw [hweight, nodeStart, coreCounts_eq, ← start_take _ (Nat.le_of_lt hlt)]
    rfl

/-- What lies behind the nodes begins behind their cores. -/
theorem totalCores_le_start (r : JobResources) (hle : r.nhosts ≤ h) :
    totalCores r ≤ start (allCores r) h := by
  unfold totalCores
  rw [coreCounts_eq]
  exact start_mono (allCores r) hle

/-- The bits of a node of the allocation. -/
theorem nodeCores_of_lt (hr : Hosted r) (hlt : h < r.nhosts) :
    nodeCores r h = if hostCores r h = 0 then none else some (nodeStart r h, hostCores r h) := by
  obtain ⟨w, i, place, hseek, -, -, hcores, hstart⟩ := hr.seekNode hlt
  have hfits := Nat.le_trans (nodeStart_add_le r h) hr.cores_fit
  unfold nodeCores
  rw [hseek]
  dsimp only
  rw [hstart, hcores, if_neg (Nat.not_lt_of_le hfits)]
  exact if_congr Nat.lt_one_iff rfl rfl

/-- Without room for more cores, a node that is not there has no bits. -/
theorem nodeCores_of_le (hexact : r.coreBitmap.nbits = totalCores r) (hle : r.nhosts ≤ h) :
    nodeCores r h = none := by
  unfold nodeCores
  by_cases hlt : h < (hostReps r).sum
  · obtain ⟨w, i, place, hseek, -, hweight⟩ := seekNode_of_lt hlt
    have htotal := totalCores_le_start r hle
    rw [hseek]
    dsimp only
    rw [hweight]
    split
    · rfl
    · exact if_pos (by omega)
  · rw [seekNode_of_le (Nat.le_of_not_lt hlt)]

end Slurm.JobResources
