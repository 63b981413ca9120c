import Slurm.JobResources.ExtractSteps

/-!
# The other nodes keep what they have

`ExtractContract` says that `extract_job_resources_node` takes one node out and leaves all
others as they are, and that it refuses a node that is not there.

`extractContract_iff` gives the condition: a number behind the last node is only refused
when no record is found for it.  The function itself leaves such records behind, since it
moves records down and does not clear the last one.
-/

namespace Slurm.JobResources

open Slurm.Bitstring List
open Slurm.ClusterCores (nodesOf)
open Lib.Runs
open Lib.Blocks

/-! ## The contract -/

/-- A structure with nodes, and the number of one. -/
structure ExtractCase where
  table : List (Option NodeRec)
  bitmap2nodeName : Bitstr → String
  job : JobAlloc
  nodeId : Nat
  hosted : Hosted job.toJobResources
  /-- The records count at least one node each, up to the last node. -/
  positive : ∀ k, (job.sockCoreRepCount.take k).sum < job.nhosts →
    0 < job.sockCoreRepCount.getD k 0
  has_cores : ∀ h, h < job.nhosts → 0 < hostCores job.toJobResources h
  used_size : ∀ used, job.coreBitmapUsed = some used → used.nbits = job.coreBitmap.nbits
  table_size : job.nodeBitmap.nbits = (nodeTable table).length
  nodes_length : (nodesOf (nodeTable table) job.nodeBitmap).length = job.nhosts
  cpus_length : job.nhosts ≤ job.cpus.length
  cpusUsed_length : job.nhosts ≤ job.cpusUsed.length
  memoryAllocated_length : job.nhosts ≤ job.memoryAllocated.length
  memoryUsed_length : job.nhosts ≤ job.memoryUsed.length
  two : 2 ≤ job.nhosts

/-- The core bits of the nodes of `res` in `b'` are those of the other nodes of `job` in `b`. -/
structure KeepsCores (job res : JobAlloc) (nodeId : Nat) (b b' : Bitstr) : Prop where
  size : b'.nbits + hostCores job.toJobResources nodeId = b.nbits
  bits : ∀ g, g < res.nhosts → ∀ c, c < hostCores res.toJobResources g →
    b'.bit (nodeStart res.toJobResources g + c)
      = b.bit (nodeStart job.toJobResources (skip nodeId g) + c)

/-- The entries for the nodes of `res` are those of the other nodes of `job`. -/
def KeepsEntries (job res : JobAlloc) (nodeId : Nat) (l l' : List Nat) : Prop :=
  l'.take res.nhosts = (l.take job.nhosts).eraseIdx nodeId

/-- `res` describes the nodes of `job` but one. -/
structure Removed (p : ExtractCase) (res : JobAlloc) : Prop where
  nhosts : res.nhosts + 1 = p.job.nhosts
  records : nodeList res.toJobResources = (nodeList p.job.toJobResources).eraseIdx p.nodeId
  cores : KeepsCores p.job res p.nodeId p.job.coreBitmap res.coreBitmap
  no_used : p.job.coreBitmapUsed = none → res.coreBitmapUsed = none
  used : ∀ used, p.job.coreBitmapUsed = some used →
    ∃ used', res.coreBitmapUsed = some used' ∧ KeepsCores p.job res p.nodeId used used'
  nodes : nodesOf (nodeTable p.table) res.nodeBitmap
    = (nodesOf (nodeTable p.table) p.job.nodeBitmap).eraseIdx p.nodeId
  names : res.nodes = p.bitmap2nodeName res.nodeBitmap
  cpus : KeepsEntries p.job res p.nodeId p.job.cpus res.cpus
  cpusUsed : KeepsEntries p.job res p.nodeId p.job.cpusUsed res.cpusUsed
  memoryAllocated : KeepsEntries p.job res p.nodeId p.job.memoryAllocated res.memoryAllocated
  memoryUsed : KeepsEntries p.job res p.nodeId p.job.memoryUsed res.memoryUsed
  cpuArray : repeated res.cpuArray = (nodesOf (nodeTable p.table) res.nodeBitmap).mapIdx
    fun k i => jobResourcesGetNodeCpuCnt p.table res k i
  ncpus : res.ncpus = (res.cpus.take res.nhosts).sum % 2 ^ 32

/-- A node is taken out, and one that is not there is refused. -/
structure ExtractContract (p : ExtractCase) : Prop where
  removed : p.nodeId < p.job.nhosts → ∃ res,
    extractJobResourcesNode p.table p.bitmap2nodeName p.job p.nodeId = some (true, res) ∧
      Removed p res
  refused : p.job.nhosts ≤ p.nodeId →
    extractJobResourcesNode p.table p.bitmap2nodeName p.job p.nodeId = some (false, p.job)

/-! ## A node that is there -/

theorem nodeStart_add_le_start (r : JobResources) {g h : Nat} (hlt : g < h) :
    nodeStart r g + hostCores r g ≤ nodeStart r h := by
  rw [← getD_coreCounts]
  exact start_add_le _ hlt

/-- The record that the walk comes to. -/
theorem seekNode_record {job : JobAlloc} {h w i place : Nat}
    (hseek : seekNode job.toJobResources h = (w, some (i, place))) :
    i < job.nhosts ∧ place < repAt job.records i ∧ before (repAt job.records) i + place = h := by
  obtain ⟨i', hi', hsum, hplace⟩ := Lib.RunLength.seek_place hseek
  rw [Nat.zero_add] at hi'
  subst hi'
  have hi : i < job.nhosts := by
    by_contra hge
    rw [hostReps, getD_eq_default] at hplace
    · exact Nat.not_lt_zero place hplace
    · exact Nat.le_trans (length_take_le _ _) (Nat.le_of_not_lt hge)
  have hrep : (hostReps job.toJobResources).getD i 0 = repAt job.records i := by
    rw [hostReps, getD_eq_getElem?_getD, getElem?_take_of_lt hi,
      ← getD_eq_getElem?_getD]
    rfl
  refine ⟨hi, hrep ▸ hplace, ?_⟩
  rw [before_repAt, ← hsum, hostReps, take_take, Nat.min_eq_left (Nat.le_of_lt hi)]
  rfl

namespace ExtractCase

variable (p : ExtractCase)

theorem room : p.job.records.Room p.job.nhosts :=
  ⟨p.hosted.sockets_length, p.hosted.cores_length, p.hosted.reps_length⟩

/-- What the walk comes to. -/
theorem seek (hlt : p.nodeId < p.job.nhosts) : ∃ w i place,
    seekNode p.job.toJobResources p.nodeId = (w, some (i, place)) ∧
      p.job.cores i = hostCores p.job.toJobResources p.nodeId ∧
      w + p.job.cores i * place = nodeStart p.job.toJobResources p.nodeId ∧
      Taken (repAt p.job.records) i place p.job.nhosts ∧
      before (repAt p.job.records) i + place = p.nodeId := by
  obtain ⟨w, i, place, hseek, -, -, hcores, hstart⟩ := p.hosted.seekNode hlt
  obtain ⟨-, hplace, hbefore⟩ := seekNode_record hseek
  refine ⟨w, i, place, hseek, hcores, hstart, ?_, hbefore⟩
  refine { positive := fun k hk => ?_, place_lt := hplace, elem_lt := hbefore ▸ hlt }
  rw [before_repAt] at hk
  exact p.positive k hk

/-- There is another node with cores. -/
theorem hostCores_lt :
    hostCores p.job.toJobResources p.nodeId < p.job.coreBitmap.nbits := by
  have hfits := p.hosted.cores_fit
  have htwo := p.two
  rcases Nat.eq_zero_or_pos p.nodeId with hzero | hpos
  · have hother := p.has_cores 1 (by omega)
    have hle := nodeStart_add_le p.job.toJobResources 1
    have hstart := nodeStart_add_le_start p.job.toJobResources (Nat.zero_lt_one)
    rw [hzero]
    omega
  · have hother := p.has_cores 0 (by omega)
    have hle := nodeStart_add_le p.job.toJobResources p.nodeId
    have hstart := nodeStart_add_le_start p.job.toJobResources hpos
    omega

end ExtractCase

/-- The bits of a bit string of cores, moved down and cut off. -/
theorem keepsCores_shiftBits {p : ExtractCase} {res : JobAlloc}
    (hlist : nodeList res.toJobResources = (nodeList p.job.toJobResources).eraseIdx p.nodeId)
    {b : Bitstr} {len : Nat} (hlen : b.nbits = len) (hb : len = p.job.coreBitmap.nbits)
    (hvalid : ValidSize (len - hostCores p.job.toJobResources p.nodeId)) :
    KeepsCores p.job res p.nodeId b
      (bitRealloc (shiftBits (nodeStart p.job.toJobResources p.nodeId)
        (hostCores p.job.toJobResources p.nodeId) len b)
        (len - hostCores p.job.toJobResources p.nodeId) hvalid) := by
  subst hlen
  have hfits := p.hosted.cores_fit
  have hblock := nodeStart_add_le p.job.toJobResources p.nodeId
  obtain ⟨hsize, hbits⟩ := bit_shiftBits
    (show nodeStart p.job.toJobResources p.nodeId + hostCores p.job.toJobResources p.nodeId
      ≤ b.nbits by omega)
  have hcounts : coreCounts res.toJobResources
      = (coreCounts p.job.toJobResources).eraseIdx p.nodeId := by
    unfold coreCounts
    rw [hlist, eraseIdx_map]
  refine { size := ?_, bits := fun g hg c hc => ?_ }
  · show b.nbits - _ + _ = b.nbits
    omega
  · rw [← getD_coreCounts, hcounts, getD_eraseIdx, getD_coreCounts, getD_coreCounts] at hc
    have hstart : nodeStart res.toJobResources g = if g ≤ p.nodeId
        then nodeStart p.job.toJobResources g
        else nodeStart p.job.toJobResources (g + 1) - hostCores p.job.toJobResources p.nodeId := by
      rw [nodeStart, hcounts, start_eraseIdx, getD_coreCounts]
      rfl
    rw [bit_bitRealloc, hbits, skip]
    by_cases hgn : g < p.nodeId
    · have hle := nodeStart_add_le_start p.job.toJobResources hgn
      rw [if_pos hgn] at hc ⊢
      rw [if_pos (Nat.le_of_lt hgn)] at hstart
      rw [if_neg (by omega), hstart, decide_eq_true (by unfold bitstrWords; omega), Bool.true_and]
    · have hle := nodeStart_add_le p.job.toJobResources (g + 1)
      have hmoved : nodeStart res.toJobResources g + hostCores p.job.toJobResources p.nodeId
          = nodeStart p.job.toJobResources (g + 1) := by
        rcases Nat.lt_or_eq_of_le (Nat.le_of_not_lt hgn) with hlt' | rfl
        · have hbefore := nodeStart_add_le_start p.job.toJobResources
            (show p.nodeId < g + 1 by omega)
          rw [if_neg (Nat.not_le_of_lt hlt')] at hstart
          omega
        · rw [hstart, if_pos (Nat.le_refl _), nodeStart, nodeStart, start_succ, getD_coreCounts]
      have hbegins := nodeStart_add_le_start p.job.toJobResources
        (show p.nodeId < g + 1 by omega)
      rw [if_neg hgn] at hc ⊢
      rw [if_pos (by omega), Nat.add_right_comm, hmoved,
        decide_eq_true (by unfold bitstrWords; omega), Bool.true_and]

/-- A node that is there is taken out. -/
theorem extract_removed (p : ExtractCase) (hlt : p.nodeId < p.job.nhosts) : ∃ res,
    extractJobResourcesNode p.table p.bitmap2nodeName p.job p.nodeId = some (true, res) ∧
      Removed p res := by
  obtain ⟨w, i, place, hseek, hcores, hstart, htaken, hbefore⟩ := p.seek hlt
  have hhas := p.has_cores p.nodeId hlt
  have hfewer := p.hostCores_lt
  have hbound := p.job.coreBitmap.valid
  have hvalid : ValidSize (p.job.coreBitmap.nbits - hostCores p.job.toJobResources p.nodeId) := by
    unfold ValidSize at hbound ⊢
    omega
  obtain ⟨sys, hsys⟩ : ∃ sys,
      (nodesOf (nodeTable p.table) p.job.nodeBitmap)[p.nodeId]? = some sys :=
    ⟨_, getElem?_eq_getElem (by rw [p.nodes_length]; exact hlt)⟩
  have hindex : nodeIndex (nodesOf (nodeTable p.table) p.job.nodeBitmap) p.nodeId
      (p.job.nhosts - 1) = p.nodeId := by
    unfold nodeIndex
    rw [p.nodes_length, if_pos hlt]
  have hcount : p.job.nhosts - 1 + 1 = p.job.nhosts := by omega
  have hentries : ∀ l : List Nat, p.job.nhosts ≤ l.length →
      (shiftArray p.nodeId (p.job.nhosts - 1) l).take (p.job.nhosts - 1)
        = (l.take p.job.nhosts).eraseIdx p.nodeId := by
    intro l hl
    rw [take_shiftArray (by omega) (by omega), hcount]
  have hrecords : describes (removeRecord p.job.nhosts i
      (p.job.nhosts - (p.job.sockCoreRepCount.take (i + 1)).sum) p.job.records) (p.job.nhosts - 1)
        = (describes p.job.records p.job.nhosts).eraseIdx p.nodeId := by
    rw [describes_removeRecord p.room htaken ?_ ?_, hbefore]
    · rw [before_repAt]
      exact p.hosted.records
    · rw [before_repAt]
      rfl
  unfold extractJobResourcesNode
  rw [hseek]
  dsimp only
  rw [hcores] at hstart ⊢
  rw [if_neg (by omega), hstart]
  refine ⟨_, dif_pos hvalid, ?_⟩
  have hsome : ¬ p.job.nhosts - 1 = 0 := by
    have htwo := p.two
    omega
  unfold removeNode buildJobResourcesCpuArray
  simp only [JobAlloc.withRecords, hsys, hindex, if_neg hsome]
  have hnodes := nodesOf_bitClear p.table_size hsys
  have hleft : (nodesOf (nodeTable p.table) (bitClear p.job.nodeBitmap sys)).length
      = p.job.nhosts - 1 := by
    rw [hnodes, length_eraseIdx, p.nodes_length, if_pos hlt]
  have hlist := p.job.nodeList_eq ▸ hrecords
  refine
    { nhosts := hcount, records := (JobAlloc.nodeList_eq _).trans hlist
      cores := keepsCores_shiftBits (by exact (JobAlloc.nodeList_eq _).trans hlist) rfl rfl hvalid
      no_used := ?_, used := ?_, nodes := hnodes
      names := rfl, cpus := hentries _ p.cpus_length, cpusUsed := hentries _ p.cpusUsed_length
      memoryAllocated := hentries _ p.memoryAllocated_length
      memoryUsed := hentries _ p.memoryUsed_length, cpuArray := ?_, ncpus := ?_ }
  · intro hnone
    rw [hnone]
    rfl
  · intro used hused
    rw [hused]
    exact ⟨_, rfl, keepsCores_shiftBits (by exact (JobAlloc.nodeList_eq _).trans hlist)
      (p.used_size used hused) rfl hvalid⟩
  · refine (cpuArrayLoop_spec _ _ _ _ _).1.trans ?_
    simp only [Nat.zero_add]
    rfl
  · refine congrArg (· % 2 ^ 32) ((cpuArrayLoop_spec _ _ _ _ _).2.trans ?_)
    rw [hleft, Nat.zero_add]
    simp only [Nat.zero_add]
    exact sum_range_getD _ _

/-! ## A node that is not there -/

/-- Nothing happens when there is no record. -/
theorem extract_of_le (p : ExtractCase) (hle : (hostReps p.job.toJobResources).sum ≤ p.nodeId) :
    extractJobResourcesNode p.table p.bitmap2nodeName p.job p.nodeId = some (false, p.job) := by
  unfold extractJobResourcesNode
  rw [seekNode_of_le hle]

/-- A record that is found behind the nodes is counted down. -/
theorem extract_of_lt (p : ExtractCase) (hle : p.job.nhosts ≤ p.nodeId)
    (hlt : p.nodeId < (hostReps p.job.toJobResources).sum) :
    extractJobResourcesNode p.table p.bitmap2nodeName p.job p.nodeId ≠ some (false, p.job) := by
  obtain ⟨w, i, place, hseek, -, -⟩ := seekNode_of_lt hlt
  obtain ⟨hi, hplace, hbefore⟩ := seekNode_record hseek
  have hcnt : (p.job.nhosts : Int) - (p.job.sockCoreRepCount.take (i + 1)).sum ≤ 0 := by
    have hsucc := before_succ (repAt p.job.records) i
    rw [before_repAt p.job.records (i + 1)] at hsucc
    have hrecords : p.job.records.sockCoreRepCount = p.job.sockCoreRepCount := rfl
    rw [hrecords] at hsucc
    omega
  have hchanged : p.job.withRecords (removeRecord p.job.nhosts i
      (p.job.nhosts - (p.job.sockCoreRepCount.take (i + 1)).sum) p.job.records) ≠ p.job := by
    intro heq
    have hreps := congrFun (repAt_countDown p.room hi) i
    rw [decremented, Function.update_self] at hreps
    have hsame : (removeRecord p.job.nhosts i
        (p.job.nhosts - (p.job.sockCoreRepCount.take (i + 1)).sum) p.job.records)
          = p.job.records.countDown i := by
      show (if (p.job.records.countDown i).sockCoreRepCount.getD i 0 = 0 then _ else
        p.job.records.countDown i) = _
      rw [shiftRecords_of_le hcnt]
      exact ite_self _
    rw [hsame] at heq
    have hself : repAt (p.job.records.countDown i) i = repAt p.job.records i :=
      congrArg (fun job : JobAlloc => job.sockCoreRepCount.getD i 0) heq
    omega
  unfold extractJobResourcesNode
  rw [hseek]
  dsimp only
  intro heq
  split at heq
  · rw [Option.some.injEq, Prod.mk.injEq] at heq
    exact hchanged heq.2
  · split at heq
    · rw [Option.some.injEq, Prod.mk.injEq] at heq
      exact Bool.noConfusion heq.1
    · cases heq

/-- The contract holds exactly when no record is found for a node that is not there. -/
theorem extractContract_iff (p : ExtractCase) :
    ExtractContract p ↔
      (p.job.nhosts ≤ p.nodeId → (hostReps p.job.toJobResources).sum ≤ p.nodeId) := by
  constructor
  · intro h hle
    by_contra hlt
    exact extract_of_lt p hle (Nat.lt_of_not_le hlt) (h.refused hle)
  · intro h
    exact ⟨extract_removed p, fun hle => extract_of_le p (h hle)⟩

/-! ## A record that was left behind -/

/-- The nodes of a small cluster: one with two cores, and three with one. -/
def fourNodes : List (Option NodeRec) := [some ⟨2, 1⟩, some ⟨1, 1⟩, some ⟨1, 1⟩, some ⟨1, 1⟩]

theorem validSize_three : ValidSize 3 := by decide

theorem validSize_four : ValidSize 4 := by decide

theorem validSize_five : ValidSize 5 := by decide

/-- An allocation of all of them, with all cores. -/
def wholeCluster : JobAlloc where
  nodeBitmap := bitNset (bitAlloc 4 validSize_four) 0 3
  coreBitmap := bitNset (bitAlloc 5 validSize_five) 0 4
  socketsPerNode := [1, 1, 0, 0]
  coresPerSocket := [2, 1, 0, 0]
  sockCoreRepCount := [1, 3, 0, 0]
  nhosts := 4
  coreBitmapUsed := some (bitAlloc 5 validSize_five)
  cpus := [2, 1, 1, 1]
  cpusUsed := [0, 0, 0, 0]
  memoryAllocated := [20, 10, 10, 10]
  memoryUsed := [0, 0, 0, 0]
  nodes := ""
  ncpus := 5
  cpuArray := [(2, 1), (1, 3)]
  crType := 4
  threadsPerCore := 1

/-- What is left without the node with two cores.  The word of the core bits keeps two that
are no longer valid. -/
def withoutFirst : JobAlloc where
  nodeBitmap := bitNset (bitAlloc 4 validSize_four) 1 3
  coreBitmap := { nbits := 3, words := [0x1f], valid := validSize_three, length_eq := rfl }
  socketsPerNode := [1, 1, 0, 0]
  coresPerSocket := [1, 1, 0, 0]
  sockCoreRepCount := [3, 3, 0, 0]
  nhosts := 3
  coreBitmapUsed := some (bitAlloc 3 validSize_three)
  cpus := [1, 1, 1, 1]
  cpusUsed := [0, 0, 0, 0]
  memoryAllocated := [10, 10, 10, 10]
  memoryUsed := [0, 0, 0, 0]
  nodes := ""
  ncpus := 3
  cpuArray := [(1, 3)]
  crType := 4
  threadsPerCore := 1

/-- Node 3 of it, where there are nodes 0 to 2. -/
def fourthOfThree : ExtractCase where
  table := fourNodes
  bitmap2nodeName := fun _ => ""
  job := withoutFirst
  nodeId := 3
  hosted :=
    { sockets_length := by decide, cores_length := by decide, reps_length := by decide
      records := by decide, cores_fit := by decide, int_fit := by decide }
  positive := by
    intro k hk
    rcases Nat.eq_zero_or_pos k with rfl | hpos
    · decide
    · have hle := Lib.Blocks.start_mono withoutFirst.sockCoreRepCount hpos
      exact absurd hk (Nat.not_lt_of_le hle)
  has_cores := by decide
  used_size := by decide
  table_size := by decide
  nodes_length := by decide +kernel
  cpus_length := by decide
  cpusUsed_length := by decide
  memoryAllocated_length := by decide
  memoryUsed_length := by decide
  two := by decide

/-- After node 0 is taken out, node 3 is found in the record that was left behind. -/
theorem not_extractContract_stale :
    extractJobResourcesNode fourNodes (fun _ => "") wholeCluster 0 = some (true, withoutFirst) ∧
      ¬ ExtractContract fourthOfThree := by
  refine ⟨by decide +kernel, fun h => ?_⟩
  have hrefused := h.refused (by decide)
  revert hrefused
  decide +kernel

end Slurm.JobResources
