import Slurm.JobResources.PerNode
import Slurm.JobResources.ClusterCores

/-!
# The steps of removing a node

What each part of `extract_job_resources_node` does.

* `nodeList_removeRecord`: the records then describe the other nodes.
* `bit_shiftBits`: the bits behind the node move down.
* `take_shiftArray`: so do the entries of an array.
* `nodesOf_bitClear`: the node is no longer among those of the bit string.
* `cpuArrayLoop_spec`: the CPU array repeats the CPUs of each node.
-/

/-!
## Removing a node (`common/job_resources.c`)

`extract_job_resources_node` takes a node out of a `job_resources_t`: out of the run-length
records, out of the two core bit strings, out of the arrays by node, and out of the node bit
string.  `build_job_resources_cpu_array` then makes the CPU array anew.

The names of the nodes are those that `bitmap2node_name` gives, a parameter here.  A result
of none is a failed assertion on the size of a bit string.
-/

namespace Slurm.JobResources

open Slurm.Bitstring
open Slurm.ClusterCores (NodeTable nodesOf)

/-! ## The structure -/

/-- A node of the node table, as far as it is read. -/
structure NodeRec where
  totCores : Nat
  tpc : Nat

/-- `job_resources_t`.  The CPU array has its values and how often each is repeated. -/
structure JobAlloc extends JobResources where
  coreBitmapUsed : Option Bitstr
  cpus : List Nat
  cpusUsed : List Nat
  memoryAllocated : List Nat
  memoryUsed : List Nat
  nodes : String
  ncpus : Nat
  cpuArray : List (Nat × Nat)
  crType : Nat
  threadsPerCore : Nat
  deriving DecidableEq

/-- The arrays of records. -/
structure Records where
  socketsPerNode : List Nat
  coresPerSocket : List Nat
  sockCoreRepCount : List Nat

/-- The arrays of records of a structure. -/
def JobAlloc.records (job : JobAlloc) : Records where
  socketsPerNode := job.socketsPerNode
  coresPerSocket := job.coresPerSocket
  sockCoreRepCount := job.sockCoreRepCount

/-- The structure with other records. -/
def JobAlloc.withRecords (job : JobAlloc) (recs : Records) : JobAlloc :=
  { job with
    socketsPerNode := recs.socketsPerNode
    coresPerSocket := recs.coresPerSocket
    sockCoreRepCount := recs.sockCoreRepCount }

/-! ## Records -/

/-- Record `i` becomes the one after it. -/
def Records.shift (recs : Records) (i : Nat) : Records where
  coresPerSocket := recs.coresPerSocket.set i (recs.coresPerSocket.getD (i + 1) 0)
  sockCoreRepCount := recs.sockCoreRepCount.set i (recs.sockCoreRepCount.getD (i + 1) 0)
  socketsPerNode := recs.socketsPerNode.set i (recs.socketsPerNode.getD (i + 1) 0)

/-- `for ( ; host_cnt > 0; i++)` -/
def shiftRecords : Nat → Nat → Int → Records → Records
  | 0, _, _, recs => recs
  | fuel + 1, i, hostCnt, recs =>
    if hostCnt > 0 then
      let recs := recs.shift i
      shiftRecords fuel (i + 1) (hostCnt - recs.sockCoreRepCount.getD i 0) recs
    else recs

/-- The records without a node of record `i`.  There are `hostCnt` nodes in the records behind
it. -/
def removeRecord (nhosts i : Nat) (hostCnt : Int) (recs : Records) : Records :=
  let recs := { recs with
    sockCoreRepCount := recs.sockCoreRepCount.set i (recs.sockCoreRepCount.getD i 0 - 1) }
  if recs.sockCoreRepCount.getD i 0 = 0 then shiftRecords nhosts i hostCnt recs else recs

/-! ## Bit strings and arrays -/

/-- `for (i = bit_inx; (i + core_cnt) < len; i++)`: bits are copied down by `coreCnt`. -/
def shiftBits (bitInx coreCnt len : Nat) (b : Bitstr) : Bitstr :=
  (List.range' bitInx (len - coreCnt - bitInx)).foldl
    (fun b i => if bitTest b (i + coreCnt) then bitSet b i else bitClear b i) b

/-- `for (i = n; i < job->nhosts; i++)` -/
def shiftArray (n nhosts : Nat) (l : List Nat) : List Nat :=
  (List.range' n (nhosts - n)).foldl (fun l i => l.set i (l.getD (i + 1) 0)) l

/-- `n` after the loop that looks for the node among `nodes`.  Where there are no nodes it is
`-1`, and `nhosts` stands for it: the arrays are not changed. -/
def nodeIndex (nodes : List Nat) (nodeId nhosts : Nat) : Nat :=
  if nodeId < nodes.length then nodeId
  else if nodes.length = 0 then nhosts
  else nodes.length - 1

/-! ## The CPU array -/

/-- `SELECT_CORE | SELECT_SOCKET | SELECT_LINEAR` -/
def selectMask : Nat := 4 ||| 2 ||| 32

section

variable (table : List (Option NodeRec))

/-- `node_record_table_ptr` as the walks over the nodes read it. -/
def nodeTable : NodeTable := table.map (Option.map NodeRec.totCores)

/-- `job_resources_get_node_cpu_cnt` -/
def jobResourcesGetNodeCpuCnt (job : JobAlloc) (jobNodeInx sysNodeInx : Nat) : Nat :=
  let cpuCount := job.cpus.getD jobNodeInx 0
  let tpc := ((table.getD sysNodeInx none).map NodeRec.tpc).getD 0
  if job.crType &&& selectMask ≠ 0 ∧ job.threadsPerCore < tpc then
    (cpuCount + (tpc - 1)) / tpc * job.threadsPerCore % 65536
  else cpuCount

/-- One node more in the CPU array. -/
def addCpuCount (a : List (Nat × Nat)) (count : Nat) : List (Nat × Nat) :=
  match a.getLast? with
  | none => a ++ [(count, 1)]
  | some (value, reps) => if value = count then a.dropLast ++ [(value, reps + 1)] else a ++ [(count, 1)]

/-- The loop of `build_job_resources_cpu_array`, from node `j` of the allocation on: the CPU
array and the CPUs that are counted. -/
def cpuArrayLoop (job : JobAlloc) : List Nat → Nat → List (Nat × Nat) × Nat → List (Nat × Nat) × Nat
  | [], _, acc => acc
  | i :: nodes, j, acc =>
    cpuArrayLoop job nodes (j + 1)
      (addCpuCount acc.1 (jobResourcesGetNodeCpuCnt table job j i), acc.2 + job.cpus.getD j 0)

/-- `build_job_resources_cpu_array`: the structure after it, and what it returns. -/
def buildJobResourcesCpuArray (job : JobAlloc) : JobAlloc × Nat :=
  if job.nhosts = 0 then (job, 0)
  else
    let res := cpuArrayLoop table job (nodesOf (nodeTable table) job.nodeBitmap) 0 ([], 0)
    ({ job with cpuArray := res.1 }, res.2)

/-! ## Removing a node -/

variable (bitmap2nodeName : Bitstr → String)

/-- What `extract_job_resources_node` does after the records, for a node with `coreCnt` bits
from `bitInx` on. -/
def removeNode (job : JobAlloc) (nodeId bitInx coreCnt : Nat)
    (h : ValidSize (job.coreBitmap.nbits - coreCnt)) : JobAlloc :=
  let len := job.coreBitmap.nbits
  let nodes := nodesOf (nodeTable table) job.nodeBitmap
  let nodeBitmap :=
    match nodes[nodeId]? with
    | some i => bitClear job.nodeBitmap i
    | none => job.nodeBitmap
  let n := nodeIndex nodes nodeId (job.nhosts - 1)
  let removed := { job with
    coreBitmap := bitRealloc (shiftBits bitInx coreCnt len job.coreBitmap) (len - coreCnt) h
    coreBitmapUsed := job.coreBitmapUsed.map fun used =>
      bitRealloc (shiftBits bitInx coreCnt len used) (len - coreCnt) h
    nodeBitmap := nodeBitmap
    nhosts := job.nhosts - 1
    cpus := shiftArray n (job.nhosts - 1) job.cpus
    cpusUsed := shiftArray n (job.nhosts - 1) job.cpusUsed
    memoryAllocated := shiftArray n (job.nhosts - 1) job.memoryAllocated
    memoryUsed := shiftArray n (job.nhosts - 1) job.memoryUsed
    nodes := bitmap2nodeName nodeBitmap }
  let built := buildJobResourcesCpuArray table removed
  { built.1 with ncpus := built.2 % 2 ^ 32 }

/-- `extract_job_resources_node`, the return code and the structure after it. -/
def extractJobResourcesNode (job : JobAlloc) (nodeId : Nat) : Option (Bool × JobAlloc) :=
  match seekNode job.toJobResources nodeId with
  | (_, none) => some (false, job)
  | (bitInx, some (i, nodeInx)) =>
    let hostCnt : Int := job.nhosts - (job.sockCoreRepCount.take (i + 1)).sum
    let coreCnt := job.cores i
    let shrunk := job.withRecords (removeRecord job.nhosts i hostCnt job.records)
    if coreCnt < 1 then some (false, shrunk)
    else if h : ValidSize (shrunk.coreBitmap.nbits - coreCnt) then
      some (true, removeNode table bitmap2nodeName shrunk nodeId (bitInx + coreCnt * nodeInx)
        coreCnt h)
    else none

end

end Slurm.JobResources

namespace Slurm.JobResources

open Slurm.Bitstring List
open Slurm.ClusterCores (NodeTable nodesOf nodesOf_eq hasNode)
open Lib.Runs

variable {lo : Nat} {hostCnt : Int} {b : Bitstr}

/-! ## Records -/

/-- Record `k`: how many nodes it is for, their sockets and the cores of a socket. -/
def Records.at (recs : Records) (k : Nat) : Nat × (Nat × Nat) :=
  (recs.sockCoreRepCount.getD k 0, recs.socketsPerNode.getD k 0, recs.coresPerSocket.getD k 0)

/-- The arrays have `n` entries. -/
structure Records.Room (recs : Records) (n : Nat) : Prop where
  sockets : n ≤ recs.socketsPerNode.length
  cores : n ≤ recs.coresPerSocket.length
  reps : n ≤ recs.sockCoreRepCount.length

variable {recs : Records} {i m n : Nat}

theorem getD_set {l : List Nat} (h : i < l.length) (v k : Nat) :
    (l.set i v).getD k 0 = if k = i then v else l.getD k 0 := by
  by_cases hk : k = i
  · rw [if_pos hk, hk, getD_set_self h]
  · rw [if_neg hk, getD_set_ne fun heq => hk heq.symm]

theorem Records.Room.shift (h : recs.Room n) : (recs.shift i).Room n := by
  constructor
  · exact h.sockets.trans (Nat.le_of_eq List.length_set.symm)
  · exact h.cores.trans (Nat.le_of_eq List.length_set.symm)
  · exact h.reps.trans (Nat.le_of_eq List.length_set.symm)

theorem Records.at_shift (h : recs.Room n) (hi : i < n) (k : Nat) :
    (recs.shift i).at k = if k = i then recs.at (i + 1) else recs.at k := by
  unfold Records.at Records.shift
  rw [getD_set (Nat.lt_of_lt_of_le hi h.reps), getD_set (Nat.lt_of_lt_of_le hi h.sockets),
    getD_set (Nat.lt_of_lt_of_le hi h.cores)]
  split <;> rfl

/-- The nodes of the records from `lo` on and before `hi`. -/
def nodesBetween (recs : Records) (lo hi : Nat) : Nat := ∑ j ∈ Finset.Ico lo hi, (recs.at j).1

theorem nodesBetween_self (recs : Records) (lo : Nat) : nodesBetween recs lo lo = 0 := by
  rw [nodesBetween, Finset.Ico_self, Finset.sum_empty]

theorem nodesBetween_cons (recs : Records) {hi : Nat} (h : lo < hi) :
    nodesBetween recs lo hi = (recs.at lo).1 + nodesBetween recs (lo + 1) hi :=
  Finset.sum_eq_sum_Ico_succ_bot h _

theorem nodesBetween_shift (h : recs.Room n) (hi : i < n) {hi' : Nat} (hlo : i < lo) :
    nodesBetween (recs.shift i) lo hi' = nodesBetween recs lo hi' := by
  refine Finset.sum_congr rfl fun j hj => ?_
  have hne : j ≠ i := by
    have hmem := Finset.mem_Ico.mp hj
    omega
  rw [Records.at_shift h hi, if_neg hne]

/-- The records behind record `i` up to `m`, where `hostCnt` nodes end, are moved down. -/
structure Shifted (recs recs' : Records) (i m : Nat) (hostCnt : Int) : Prop where
  le : i ≤ m
  at_eq : ∀ k, recs'.at k = if i ≤ k ∧ k < m then recs.at (k + 1) else recs.at k
  cover : hostCnt ≤ nodesBetween recs (i + 1) (m + 1)
  least : m = i ∨ nodesBetween recs (i + 1) m < hostCnt

theorem Shifted.refl (recs : Records) (i : Nat) (h : hostCnt ≤ 0) :
    Shifted recs recs i i hostCnt where
  le := Nat.le_refl i
  at_eq k := by rw [if_neg (by omega)]
  cover := by
    rw [nodesBetween_self]
    exact h
  least := Or.inl rfl

theorem Shifted.step {recs' : Records} {hostCnt : Int} (hroom : recs.Room n) (hi : i < n)
    (hcnt : 0 < hostCnt)
    (h : Shifted (recs.shift i) recs' (i + 1) m
      (hostCnt - (recs.shift i).sockCoreRepCount.getD i 0)) :
    Shifted recs recs' i m hostCnt := by
  have hrep : ((recs.shift i).at i).1 = (recs.at (i + 1)).1 := by
    rw [Records.at_shift hroom hi, if_pos rfl]
  have hsplit : ∀ hi', i + 1 < hi' → (nodesBetween recs (i + 1) hi' : Int)
      = (recs.shift i).sockCoreRepCount.getD i 0
        + nodesBetween (recs.shift i) (i + 1 + 1) hi' := by
    intro hi' hlt'
    rw [nodesBetween_cons recs hlt', nodesBetween_shift hroom hi (by omega), ← hrep]
    push_cast
    rfl
  obtain ⟨hle, hat, hcover, hleast⟩ := h
  refine { le := by omega, at_eq := fun k => ?_, cover := ?_, least := Or.inr ?_ }
  · rw [hat, Records.at_shift hroom hi, Records.at_shift hroom hi]
    by_cases hk : k = i
    · rw [if_neg (by omega), if_pos hk, if_pos (by omega), hk]
    · by_cases hin : i + 1 ≤ k ∧ k < m
      · rw [if_pos hin, if_neg (by omega), if_pos (by omega)]
      · rw [if_neg hin, if_neg hk, if_neg (by omega)]
  · rw [hsplit _ (by omega)]
    omega
  · rcases Nat.lt_or_eq_of_le hle with hlt | heq
    · have hdown := hleast.resolve_left (by omega)
      rw [hsplit _ hlt]
      omega
    · rw [← heq, nodesBetween_self]
      exact hcnt

/-- The records up to the one with the last node move down. -/
theorem shiftRecords_spec {fuel last : Nat} (hroom : recs.Room (last + 1)) (hle : i ≤ last)
    (hfuel : last ≤ i + fuel) (hcover : hostCnt ≤ nodesBetween recs (i + 1) (last + 1)) :
    ∃ m, m ≤ last ∧ Shifted recs (shiftRecords fuel i hostCnt recs) i m hostCnt := by
  induction fuel generalizing i hostCnt recs with
  | zero =>
    have hlast : last = i := by omega
    rw [hlast, nodesBetween_self] at hcover
    exact ⟨i, hle, Shifted.refl recs i hcover⟩
  | succ fuel ih =>
    rw [shiftRecords]
    by_cases hcnt : hostCnt > 0
    · have hlt : i < last := by
        by_contra hge
        have hlast : last = i := by omega
        rw [hlast, nodesBetween_self] at hcover
        omega
      have hi : i < last + 1 := Nat.lt_succ_of_lt hlt
      have hrep : ((recs.shift i).at i).1 = (recs.at (i + 1)).1 := by
        rw [Records.at_shift hroom hi, if_pos rfl]
      have hcover' : hostCnt - (recs.shift i).sockCoreRepCount.getD i 0
          ≤ nodesBetween (recs.shift i) (i + 1 + 1) (last + 1) := by
        rw [nodesBetween_cons recs (by omega), ← hrep] at hcover
        rw [nodesBetween_shift hroom hi (by omega)]
        push_cast at hcover
        exact Int.sub_left_le_of_le_add hcover
      obtain ⟨m, hml, hshifted⟩ := ih hroom.shift (by omega) (by omega) hcover'
      rw [if_pos hcnt]
      exact ⟨m, hml, hshifted.step hroom hi hcnt⟩
    · rw [if_neg hcnt]
      exact ⟨i, hle, Shifted.refl recs i (by omega)⟩

/-- Nothing moves when no node is behind. -/
theorem shiftRecords_of_le {fuel : Nat} (h : hostCnt ≤ 0) :
    shiftRecords fuel i hostCnt recs = recs := by
  cases fuel with
  | zero => rfl
  | succ fuel =>
    rw [shiftRecords]
    exact if_neg (by omega)

/-! ## The list of nodes -/

variable {r : JobResources}

/-- Record `k` of a structure. -/
def repAt (recs : Records) (k : Nat) : Nat := (recs.at k).1

/-- What record `k` of a structure says of a node. -/
def valAt (recs : Records) (k : Nat) : Nat × Nat := (recs.at k).2

/-- The nodes that the first `n` records describe. -/
def describes (recs : Records) (n : Nat) : List (Nat × Nat) :=
  (runs (repAt recs) (valAt recs) n).take n

theorem describes_congr {recs' : Records} (h : ∀ k, recs.at k = recs'.at k) :
    describes recs n = describes recs' n := by
  have hrep : repAt recs = repAt recs' := funext fun k => congrArg Prod.fst (h k)
  have hval : valAt recs = valAt recs' := funext fun k => congrArg Prod.snd (h k)
  rw [describes, describes, hrep, hval]

theorem JobAlloc.nodeList_eq (job : JobAlloc) :
    nodeList job.toJobResources = describes job.records job.nhosts := by
  unfold nodeList describes hostReps
  rw [map_take, expand_take]
  rfl

theorem before_repAt (recs : Records) (k : Nat) :
    before (repAt recs) k = (recs.sockCoreRepCount.take k).sum := by
  induction k with
  | zero => rfl
  | succ k ih =>
    rw [before_succ, ih, ← Lib.Blocks.start, ← Lib.Blocks.start, Lib.Blocks.start_succ]
    rfl

theorem nodesBetween_eq (recs : Records) {hi : Nat} (h : lo ≤ hi) :
    before (repAt recs) lo + nodesBetween recs lo hi = before (repAt recs) hi :=
  Finset.sum_range_add_sum_Ico _ h

/-- The records with one node of record `i` less. -/
def Records.countDown (recs : Records) (i : Nat) : Records :=
  { recs with sockCoreRepCount := recs.sockCoreRepCount.set i (recs.sockCoreRepCount.getD i 0 - 1) }

theorem Records.Room.countDown (h : recs.Room n) : (recs.countDown i).Room n :=
  ⟨h.sockets, h.cores, h.reps.trans (Nat.le_of_eq List.length_set.symm)⟩

theorem repAt_countDown (h : recs.Room n) (hi : i < n) :
    repAt (recs.countDown i) = decremented (repAt recs) i := by
  funext k
  show (recs.sockCoreRepCount.set i _).getD k 0 = _
  rw [getD_set (Nat.lt_of_lt_of_le hi h.reps), decremented, Function.update_apply]
  rfl

theorem valAt_countDown (recs : Records) (i : Nat) : valAt (recs.countDown i) = valAt recs := rfl

/-- The records then describe the other nodes. -/
theorem describes_removeRecord {place nhosts : Nat} (hroom : recs.Room nhosts)
    (htaken : Taken (repAt recs) i place nhosts) (hcover : nhosts ≤ before (repAt recs) nhosts)
    (hcnt : hostCnt = nhosts - (before (repAt recs) (i + 1) : Int)) :
    describes (removeRecord nhosts i hostCnt recs) (nhosts - 1)
      = (describes recs nhosts).eraseIdx (before (repAt recs) i + place) := by
  have hi := htaken.record_lt
  have hpos := htaken.pos
  have hrep := repAt_countDown hroom hi
  have hzero : (recs.countDown i).sockCoreRepCount.getD i 0 = repAt recs i - 1 := by
    have hself := congrFun hrep i
    rwa [decremented, Function.update_self] at hself
  have hkept : 1 < repAt recs i ∨ nhosts ≤ before (repAt recs) (i + 1) →
      describes (recs.countDown i) (nhosts - 1)
        = (describes recs nhosts).eraseIdx (before (repAt recs) i + place) := by
    intro hkeep
    rw [describes, hrep, valAt_countDown]
    exact htaken.kept hkeep
  show describes (if (recs.countDown i).sockCoreRepCount.getD i 0 = 0 then
    shiftRecords nhosts i hostCnt (recs.countDown i) else recs.countDown i) _ = _
  rw [hzero]
  by_cases hone : repAt recs i - 1 = 0
  · have hbetween : ∀ hi', nodesBetween (recs.countDown i) (i + 1) hi'
        = nodesBetween recs (i + 1) hi' := by
      intro hi'
      refine Finset.sum_congr rfl fun j hj => ?_
      have hne : j ≠ i := by
        have hmem := Finset.mem_Ico.mp hj
        omega
      have hself := congrFun hrep j
      rwa [decremented, Function.update_of_ne hne] at hself
    have hlast : nhosts - 1 + 1 = nhosts := by omega
    have hcover' : hostCnt ≤ nodesBetween (recs.countDown i) (i + 1) (nhosts - 1 + 1) := by
      have hsum := nodesBetween_eq recs (show i + 1 ≤ nhosts by omega)
      rw [hlast, hbetween]
      omega
    have hroom' : (recs.countDown i).Room (nhosts - 1 + 1) := by
      rw [hlast]
      exact hroom.countDown
    obtain ⟨m, hml, hle, hat, hup, hleast⟩ := shiftRecords_spec hroom'
      (show i ≤ nhosts - 1 by omega) (show nhosts - 1 ≤ i + nhosts by omega) hcover'
    have hupto := nodesBetween_eq recs (show i + 1 ≤ m + 1 by omega)
    rw [hbetween] at hup
    rw [if_pos hone]
    rcases Nat.lt_or_eq_of_le hle with hlt | rfl
    · have hdown := hleast.resolve_left (Nat.ne_of_gt hlt)
      have hbelow := nodesBetween_eq recs (show i + 1 ≤ m by omega)
      rw [hbetween] at hdown
      refine htaken.closed (by omega) hlt (by omega) (by omega) fun k hk => ?_
      rw [repAt, valAt, hat, ← hrep, skip]
      by_cases hki : k < i
      · rw [if_neg (by omega), if_pos hki]
        exact ⟨rfl, rfl⟩
      · rw [if_pos ⟨Nat.le_of_not_lt hki, hk⟩, if_neg hki]
        exact ⟨rfl, rfl⟩
    · have hsame : ∀ k, (shiftRecords nhosts i hostCnt (recs.countDown i)).at k
          = (recs.countDown i).at k := fun k => by rw [hat, if_neg (by omega)]
      rw [describes_congr hsame]
      exact hkept (Or.inr (by omega))
  · rw [if_neg hone]
    exact hkept (Or.inl (by omega))

/-! ## Core bits -/

/-- A bit gets a value. -/
theorem bit_write (hi : i < b.nbits) (v : Bool) :
    (if v then bitSet b i else bitClear b i).nbits = b.nbits ∧
      ∀ k, (if v then bitSet b i else bitClear b i).bit k = if k = i then v else b.bit k := by
  cases v with
  | true =>
    refine ⟨rfl, fun k => ?_⟩
    rw [if_pos rfl, bit_bitSet hi]
    by_cases hk : k = i <;> simp [hk]
  | false =>
    refine ⟨rfl, fun k => ?_⟩
    rw [if_neg Bool.false_ne_true, bit_bitClear hi]
    by_cases hk : k = i <;> simp [hk]

/-- Some steps of the loop that moves bits down. -/
theorem bit_moved {bitInx coreCnt steps : Nat} (h : bitInx + steps + coreCnt ≤ b.nbits) :
    ((List.range' bitInx steps).foldl (fun b i => if bitTest b (i + coreCnt) then bitSet b i
        else bitClear b i) b).nbits = b.nbits ∧
      ∀ k, ((List.range' bitInx steps).foldl (fun b i => if bitTest b (i + coreCnt) then bitSet b i
        else bitClear b i) b).bit k =
        if bitInx ≤ k ∧ k < bitInx + steps then b.bit (k + coreCnt) else b.bit k := by
  induction steps with
  | zero => exact ⟨rfl, fun k => by rw [if_neg (by omega)]; rfl⟩
  | succ steps ih =>
    obtain ⟨hsize, hbits⟩ := ih (by omega)
    rw [range'_1_concat, foldl_append, foldl_cons, foldl_nil]
    generalize (List.range' bitInx steps).foldl _ b = moved at hsize hbits ⊢
    have hi : bitInx + steps < moved.nbits := by
      rw [hsize]
      omega
    -- The bit that is read has not been written.
    have hread : bitTest moved (bitInx + steps + coreCnt) = b.bit (bitInx + steps + coreCnt) := by
      rw [bitTest_eq, hbits, if_neg (by omega)]
    obtain ⟨hsize', hbits'⟩ := bit_write hi (bitTest moved (bitInx + steps + coreCnt))
    refine ⟨hsize'.trans hsize, fun k => ?_⟩
    rw [hbits', hbits, hread]
    by_cases hk : k = bitInx + steps
    · rw [if_pos hk, if_pos (by omega), hk]
    · rw [if_neg hk]
      by_cases hin : bitInx ≤ k ∧ k < bitInx + steps
      · rw [if_pos hin, if_pos (by omega)]
      · rw [if_neg hin, if_neg (by omega)]

/-- The bits behind the node move down. -/
theorem bit_shiftBits {bitInx coreCnt : Nat} (h : bitInx + coreCnt ≤ b.nbits) :
    (shiftBits bitInx coreCnt b.nbits b).nbits = b.nbits ∧
      ∀ k, (shiftBits bitInx coreCnt b.nbits b).bit k =
        if bitInx ≤ k ∧ k + coreCnt < b.nbits then b.bit (k + coreCnt) else b.bit k := by
  have hfits : bitInx + (b.nbits - coreCnt - bitInx) + coreCnt ≤ b.nbits := by omega
  obtain ⟨hsize, hbits⟩ := bit_moved hfits
  refine ⟨hsize, fun k => ?_⟩
  rw [shiftBits, hbits]
  by_cases hin : bitInx ≤ k ∧ k + coreCnt < b.nbits
  · rw [if_pos hin, if_pos (by omega)]
  · rw [if_neg hin, if_neg (by omega)]

/-! ## Arrays -/

/-- The entries behind entry `j` move down. -/
theorem take_shiftArray {l : List Nat} {j nhosts : Nat} (hj : j ≤ nhosts)
    (hlen : nhosts < l.length) :
    (shiftArray j nhosts l).take nhosts = (l.take (nhosts + 1)).eraseIdx j := by
  have hsteps : ∀ steps, j + steps ≤ nhosts →
      ((List.range' j steps).foldl (fun l i => l.set i (l.getD (i + 1) 0)) l).length = l.length ∧
      ∀ k, ((List.range' j steps).foldl (fun l i => l.set i (l.getD (i + 1) 0)) l)[k]? =
        if j ≤ k ∧ k < j + steps then l[k + 1]? else l[k]? := by
    intro steps
    induction steps with
    | zero => exact fun _ => ⟨rfl, fun k => by rw [if_neg (by omega)]; rfl⟩
    | succ steps ih =>
      intro hle
      obtain ⟨hsize, hget⟩ := ih (by omega)
      rw [range'_1_concat, foldl_append, foldl_cons, foldl_nil]
      refine ⟨by rw [length_set, hsize], fun k => ?_⟩
      by_cases hk : k = j + steps
      · rw [hk, getElem?_set_self (by omega), if_pos (by omega), getD_eq_getElem?_getD,
          hget, if_neg (by omega), getElem?_eq_getElem (by omega)]
        rfl
      · rw [getElem?_set_ne fun heq => hk heq.symm, hget]
        by_cases hin : j ≤ k ∧ k < j + steps
        · rw [if_pos hin, if_pos (by omega)]
        · rw [if_neg hin, if_neg (by omega)]
  obtain ⟨-, hget⟩ := hsteps (nhosts - j) (by omega)
  apply ext_getElem?
  intro k
  rw [getElem?_eraseIdx, getElem?_take, getElem?_take, getElem?_take, shiftArray,
    hget]
  by_cases hk : k < nhosts
  · rw [if_pos hk]
    by_cases hkj : k < j
    · rw [if_neg (by omega), if_pos hkj, if_pos (by omega)]
    · rw [if_pos (by omega), if_neg hkj, if_pos (by omega)]
  · rw [if_neg hk, if_neg (by omega), if_neg (by omega)]

/-! ## The nodes of the bit string -/

/-- A node whose bit is cleared is left out. -/
theorem nodesOf_bitClear {table : NodeTable} (hsize : b.nbits = table.length) {h : Nat}
    (hnode : (nodesOf table b)[h]? = some i) :
    nodesOf table (bitClear b i) = (nodesOf table b).eraseIdx h := by
  have hnodup : (nodesOf table b).Nodup := by
    rw [nodesOf_eq hsize]
    exact List.Nodup.filter _ nodup_range'
  obtain ⟨hlt, hget⟩ := List.getElem?_eq_some_iff.mp hnode
  have hi : i < b.nbits := by
    have hmem := mem_of_getElem? hnode
    rw [nodesOf_eq hsize, Lib.Visit.mem_select] at hmem
    omega
  have herase := hnodup.erase_getElem h hlt
  rw [hget, hnodup.erase_eq_filter] at herase
  rw [← herase, nodesOf_eq (show (bitClear b i).nbits = table.length from hsize), nodesOf_eq hsize,
    Lib.Visit.select, Lib.Visit.select, filter_filter]
  refine filter_congr fun k _ => ?_
  unfold hasNode
  rw [bit_bitClear hi]
  by_cases hk : k = i
  · simp [hk]
  · simp [hk]

/-! ## The CPU array -/

/-- The CPUs of each node, as the array repeats them. -/
def repeated (a : List (Nat × Nat)) : List Nat := a.flatMap fun p => List.replicate p.2 p.1

theorem repeated_addCpuCount (a : List (Nat × Nat)) (count : Nat) :
    repeated (addCpuCount a count) = repeated a ++ [count] := by
  unfold addCpuCount repeated
  cases hlast : a.getLast? with
  | none => simp
  | some p =>
    obtain ⟨value, reps⟩ := p
    dsimp only
    split
    · rename_i hsame
      obtain ⟨init, rfl⟩ := List.getLast?_eq_some_iff.mp hlast
      rw [dropLast_concat, flatMap_append, flatMap_append, flatMap_singleton,
        flatMap_singleton, replicate_succ', hsame, append_assoc]
    · rw [flatMap_append, flatMap_singleton]
      rfl

/-- The CPU array repeats the CPUs of each node, and all CPUs are counted. -/
theorem cpuArrayLoop_spec (table : List (Option NodeRec)) (job : JobAlloc) (nodes : List Nat)
    (j : Nat) (acc : List (Nat × Nat) × Nat) :
    repeated (cpuArrayLoop table job nodes j acc).1 = repeated acc.1
        ++ nodes.mapIdx (fun k i => jobResourcesGetNodeCpuCnt table job (j + k) i) ∧
      (cpuArrayLoop table job nodes j acc).2
        = acc.2 + ((List.range nodes.length).map fun k => job.cpus.getD (j + k) 0).sum := by
  induction nodes generalizing j acc with
  | nil => exact ⟨(append_nil _).symm, rfl⟩
  | cons i nodes ih =>
    obtain ⟨harray, hcount⟩ := ih (j + 1)
      (addCpuCount acc.1 (jobResourcesGetNodeCpuCnt table job j i), acc.2 + job.cpus.getD j 0)
    have hnext : ∀ k, j + 1 + k = j + (k + 1) := fun k => by omega
    rw [cpuArrayLoop]
    constructor
    · rw [harray, repeated_addCpuCount, mapIdx_cons, append_assoc]
      simp only [hnext, Nat.add_zero, singleton_append]
    · rw [hcount, length_cons, range_succ_eq_map, map_cons, sum_cons,
        map_map, Nat.add_assoc]
      simp only [hnext, Function.comp_def, Nat.succ_eq_add_one, Nat.add_zero]

end Slurm.JobResources
