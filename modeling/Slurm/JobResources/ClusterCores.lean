import Slurm.JobResources.Merge

/-!
# The cores of the cluster (`common/job_resources.c`, `common/node_conf.c`)

A bit string over all cores of the cluster has the cores of each node from its
`cr_node_cores_offset` on.  `job_fits_into_cores` tests the cores of a job against such a bit
string, and `add_job_to_cores` sets them there.

The node table has the `tot_cores` of each node, and none for a blank entry.  The results are
none for a failed assertion and for a test of a bit in a bit string that is `NULL`.
-/

namespace Slurm.ClusterCores

open Slurm.Bitstring
open Slurm.JobResources (setWhere)
open Lib.Visit (visited)

/-! ## The node table -/

/-- `node_record_table_ptr` -/
abbrev NodeTable := List (Option Nat)

/-- `tot_cores` of a node, and 0 for a blank entry. -/
def totCores (table : NodeTable) (i : Nat) : Nat := (table.getD i none).getD 0

/-- `cr_node_num_cores` and `cr_node_cores_offset`, with `prev_index`. -/
structure GlobalCores where
  prevIndex : Nat
  nodeNumCores : List Nat
  nodeCoresOffset : List Nat

/-- Where the cores behind those of the node `prev_index` start. -/
def GlobalCores.behind (s : GlobalCores) : Nat :=
  s.nodeCoresOffset.getD s.prevIndex 0 + s.nodeNumCores.getD s.prevIndex 0

/-- One round of the loop of `cr_init_global_core_data`. -/
def initNode (table : NodeTable) (s : GlobalCores) (n : Nat) : GlobalCores :=
  match table.getD n none with
  | none => s
  | some cores =>
    let s := { s with nodeNumCores := s.nodeNumCores.set n cores }
    if 0 < n then { s with nodeCoresOffset := s.nodeCoresOffset.set n s.behind, prevIndex := n }
    else { s with nodeCoresOffset := s.nodeCoresOffset.set 0 0 }

/-- `cr_init_global_core_data` -/
def crInitGlobalCoreData (table : NodeTable) : GlobalCores :=
  let nodeCnt := table.length
  let s := (List.range nodeCnt).foldl (initNode table)
    ⟨0, List.replicate nodeCnt 0, List.replicate (nodeCnt + 1) 0⟩
  { s with nodeCoresOffset := s.nodeCoresOffset.set nodeCnt s.behind }

/-- `cr_node_cores_offset` -/
def crNodeCoresOffset (table : NodeTable) (i : Nat) : Nat :=
  (crInitGlobalCoreData table).nodeCoresOffset.getD i 0

/-- The loop of `next_node_bitmap`, which skips blank entries. -/
def nextFrom (table : NodeTable) (b : Bitstr) : Nat → Nat → Option Nat
  | 0, _ => none
  | fuel + 1, index =>
    match bitFfsFromBit b index with
    | none => none
    | some i => if (table.getD i none).isSome then some i else nextFrom table b fuel (i + 1)

/-- `next_node_bitmap` -/
def nextNodeBitmap (table : NodeTable) (b : Bitstr) (index : Nat) : Option Nat :=
  if table.length ≤ index then none else nextFrom table b (b.nbits + 1) index

/-- The nodes that the loop `for (i = 0; next_node_bitmap(b, &i); i++)` comes to. -/
def nodesOf (table : NodeTable) (b : Bitstr) : List Nat :=
  visited (nextNodeBitmap table b) (table.length + 1) 0

/-- `node_conf_create_cluster_core_bitmap` -/
def createClusterCoreBitmap (table : NodeTable) : Option Bitstr → Option Bitstr
  | some b => some b
  | none =>
    let cores := crNodeCoresOffset table table.length
    if h : ValidSize cores then some (bitAlloc cores h) else none

/-! ## Jobs -/

/-- `job_resources_t`, the fields that are read here. -/
structure JobRes where
  nodeBitmap : Bitstr
  coreBitmap : Option Bitstr
  wholeNode : BitVec 8

/-- `whole_node & WHOLE_NODE_REQUIRED` -/
def JobRes.whole (r : JobRes) : Bool := r.wholeNode &&& 0x01 ≠ 0

/-- `core_cnt` of `build_job_resources` -/
def coreCnt (table : NodeTable) (nodeBitmap : Bitstr) : Nat :=
  ((nodesOf table nodeBitmap).map (totCores table)).sum

/-- The core bit string that `build_job_resources` makes.  A job without cores has none. -/
def buildCoreBitmap (table : NodeTable) (nodeBitmap : Bitstr) : Option (Option Bitstr) :=
  let cores := coreCnt table nodeBitmap
  if cores = 0 then some none
  else if h : ValidSize cores then some (some (bitAlloc cores h))
  else none

/-! ## The conflict test -/

/-- Whether core `i` of the job is in use by it. -/
def JobRes.uses (r : JobRes) (i : Nat) : Option Bool :=
  if r.whole then some true else r.coreBitmap.map fun b => bitTest b i

/-- The cores of one node, until there is a conflict. -/
def conflict (r : JobRes) (full : Bitstr) (fullBitInx jobBitInx : Nat) : List Nat → Option Bool
  | [] => some false
  | core :: cores =>
    if bitTest full (fullBitInx + core) = false then conflict r full fullBitInx jobBitInx cores
    else do
      let used ← r.uses (jobBitInx + core)
      if used then pure true else conflict r full fullBitInx jobBitInx cores

/-- The nodes of the job, until there is a conflict. -/
def fitsLoop (table : NodeTable) (r : JobRes) (full : Bitstr) : List Nat → Nat → Option Bool
  | [], _ => some true
  | i :: nodes, jobBitInx => do
    let found ← conflict r full (crNodeCoresOffset table i) jobBitInx (List.range (totCores table i))
    if found then pure false else fitsLoop table r full nodes (jobBitInx + totCores table i)

/-- `job_fits_into_cores`, where `true` is 1. -/
def jobFitsIntoCores (table : NodeTable) (r : JobRes) : Option Bitstr → Option Bool
  | none => some true
  | some full => fitsLoop table r full (nodesOf table r.nodeBitmap) 0

/-! ## Adding a job -/

/-- The nodes of the job, whose cores are set. -/
def addLoop (table : NodeTable) (r : JobRes) (coreBitmap : Bitstr) : List Nat → Nat → Bitstr → Bitstr
  | [], _, full => full
  | i :: nodes, jobBitInx, full =>
    addLoop table r coreBitmap nodes (jobBitInx + totCores table i)
      (setWhere (fun core => r.whole || bitTest coreBitmap (jobBitInx + core))
        (crNodeCoresOffset table i) (totCores table i) full)

/-- `add_job_to_cores` -/
def addJobToCores (table : NodeTable) (r : JobRes) (full : Option Bitstr) : Option (Option Bitstr) :=
  match r.coreBitmap with
  | none => some full
  | some coreBitmap => do
    let full ← createClusterCoreBitmap table full
    pure (some (addLoop table r coreBitmap (nodesOf table r.nodeBitmap) 0 full))

/-! ## The nodes of a bit string -/

/-- The entry is a node of the bit string. -/
def hasNode (table : NodeTable) (b : Bitstr) (i : Nat) : Bool :=
  b.bit i && (table.getD i none).isSome

theorem nextFrom_isFirst (table : NodeTable) (b : Bitstr) {fuel index : Nat}
    (hfuel : b.nbits ≤ index + fuel) :
    Lib.Search.IsFirst (fun i => index ≤ i ∧ i < b.nbits ∧ hasNode table b i = true)
      (nextFrom table b fuel index) := by
  induction fuel generalizing index with
  | zero =>
    intro i hi
    omega
  | succ fuel ih =>
    have hfirst := bitFfsFromBit_isFirst b index
    unfold nextFrom
    cases hfind : bitFfsFromBit b index with
    | none =>
      rw [hfind] at hfirst
      intro i hi
      exact hfirst i ⟨hi.1, hi.2.1, (Bool.and_eq_true _ _ ▸ hi.2.2).1⟩
    | some i =>
      rw [hfind] at hfirst
      obtain ⟨⟨hle, hlt, hbit⟩, hbefore⟩ := hfirst
      dsimp only
      split
      · rename_i hnode
        refine ⟨⟨hle, hlt, ?_⟩, ?_⟩
        · unfold hasNode
          rw [hbit, hnode]
          rfl
        · intro j hj hj'
          exact hbefore j hj ⟨hj'.1, hj'.2.1, (Bool.and_eq_true _ _ ▸ hj'.2.2).1⟩
      · rename_i hblank
        apply (ih (by omega)).congr
        intro j
        constructor
        · intro hj
          exact ⟨by omega, hj.2⟩
        · intro hj
          refine ⟨?_, hj.2⟩
          have hj' := Bool.and_eq_true _ _ ▸ hj.2.2
          by_contra hji
          rcases Nat.lt_or_eq_of_le (Nat.le_of_lt_succ (Nat.lt_of_not_le hji)) with hlt' | heq
          · exact hbefore j hlt' ⟨hj.1, hj.2.1, hj'.1⟩
          · exact hblank (heq ▸ hj'.2)

/-- The loop comes to the nodes of the bit string in order. -/
theorem nodesOf_eq {table : NodeTable} {b : Bitstr} (h : b.nbits = table.length) :
    nodesOf table b = Lib.Visit.select (hasNode table b) 0 table.length := by
  apply Lib.Visit.visited_eq
  · intro k
    unfold nextNodeBitmap
    split
    · intro i hi
      omega
    · rw [← h]
      exact nextFrom_isFirst table b (by omega)
  · omega

end Slurm.ClusterCores
