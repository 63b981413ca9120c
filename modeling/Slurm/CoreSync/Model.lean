import Mathlib

/-!
# The cores of a job, node by node

`src/plugins/select/cons_tres/dist_tasks.c`: what the two functions that sync the core bitmap read
of a job, and the bits of the core bitmap.

* `ones_append`: the set bits of two ranges that follow one another.
-/

namespace Slurm.CoreSync

open List

/-- A node of a job, with its entry of `cpus`.  `vpus` is what `job_mgr_determine_cpus_per_core`
answers for it.  The threads of a node are counted in 16 bits. -/
structure SyncNode where
  boards : Nat
  sockets : Nat
  cores : Nat
  tpc : Nat
  vpus : Nat
  cpus : Nat
  vpus_pos : 1 ≤ vpus
  vpus_le : vpus ≤ tpc
  threads_lt : sockets * cores * tpc < 2 ^ 16
  cpus_lt : cpus < 2 ^ 16

/-- The cores of a node. -/
def SyncNode.size (node : SyncNode) : Nat := node.sockets * node.cores

/-- The cores that a node needs. -/
def SyncNode.need (node : SyncNode) : Nat := (node.cpus + node.vpus - 1) / node.vpus

/-- `INFINITE16`, which stands for a number that is not set. -/
def infinite16 : Nat := 65535

/-- A job: the nodes of `node_bitmap`, `core_bitmap`, the flags of `cr_type`, and what is used of
`details`. -/
structure SyncJob where
  nodes : List SyncNode
  coreMap : List Bool
  crSocket : Bool
  crCore : Bool
  cpusPerTask : Nat
  ntasksPerCore : Nat
  ntasksPerSocket : Nat
  overcommit : Bool
  preemptMode : Bool
  size_eq : coreMap.length = (nodes.map SyncNode.size).sum

variable (job : SyncJob)

def SyncJob.allocSockets : Bool := job.crSocket

def SyncJob.allocCores : Bool := !job.crSocket && job.crCore

/-! ## Bits -/

/-- `bit_test` -/
def bitTest (coreMap : List Bool) (j : Nat) : Bool := coreMap.getD j false

/-- `bit_nclear` and `bit_nset`, of the bits from `start` on, before `stop`. -/
def bitFill (coreMap : List Bool) (start stop : Nat) (b : Bool) : List Bool :=
  coreMap.mapIdx fun j old => if start ≤ j ∧ j < stop then b else old

/-- The set bits from `start` on, before `stop`. -/
def ones (coreMap : List Bool) (start stop : Nat) : Nat :=
  (List.range' start (stop - start)).countP (bitTest coreMap)

variable {m m' : List Bool} {a b c j : Nat}

theorem length_bitFill (m : List Bool) (a b : Nat) (x : Bool) : (bitFill m a b x).length = m.length := by
  simp [bitFill]

theorem bitTest_clear (m : List Bool) (a b j : Nat) :
    bitTest (bitFill m a b false) j = (bitTest m j && !decide (a ≤ j ∧ j < b)) := by
  rw [bitTest, bitTest, bitFill, getD_eq_getElem?_getD, getElem?_mapIdx,
    getD_eq_getElem?_getD]
  cases m[j]? with
  | none => rfl
  | some old =>
    rw [Option.map_some, Option.getD_some, Option.getD_some]
    split
    · rename_i h
      simp [h]
    · rename_i h
      simp [h]

theorem ones_self (m : List Bool) (a : Nat) : ones m a a = 0 := by
  simp [ones]

theorem ones_append (m : List Bool) (hab : a ≤ b) (hbc : b ≤ c) :
    ones m a b + ones m b c = ones m a c := by
  obtain ⟨n, rfl⟩ := Nat.exists_eq_add_of_le hab
  obtain ⟨k, rfl⟩ := Nat.exists_eq_add_of_le hbc
  rw [ones, ones, ones, ← countP_append, Nat.add_sub_cancel_left, Nat.add_sub_cancel_left,
    Nat.add_assoc, Nat.add_sub_cancel_left, range'_append_1]

theorem ones_one (m : List Bool) (a : Nat) : ones m a (a + 1) = (bitTest m a).toNat := by
  rw [ones, Nat.add_sub_cancel_left, range'_one, countP_singleton]
  cases bitTest m a <;> rfl

theorem ones_congr (h : ∀ j, a ≤ j → j < b → bitTest m j = bitTest m' j) : ones m a b = ones m' a b := by
  refine countP_congr fun j hj => ?_
  rw [mem_range'_1] at hj
  rw [h j hj.1 (by omega)]

theorem ones_eq_zero (h : ∀ j, a ≤ j → j < b → bitTest m j = false) : ones m a b = 0 := by
  rw [ones, countP_eq_zero]
  intro j hj
  rw [mem_range'_1] at hj
  simp [h j hj.1 (by omega)]

theorem ones_le_sub (m : List Bool) (a b : Nat) : ones m a b ≤ b - a := by
  have h := countP_le_length (p := bitTest m) (l := List.range' a (b - a))
  rwa [length_range'] at h

end Slurm.CoreSync

/-!
## Selecting cores in turn

`src/plugins/select/cons_tres/dist_tasks.c`: `_cyclic_sync_core_bitmap`.  The arrays of the sockets
are one list of records here.  What an aborted job says in its log is left out.

* `seek_spec`: the next core that is available.
-/

namespace Slurm.CoreSync

variable (job : SyncJob)

/-! ## Sockets -/

/-- The entries of a socket: `sock_start`, `sock_end`, `sock_avoid` and `sock_used`. -/
structure Sock where
  start : Nat
  stop : Nat
  avoid : Bool
  used : Bool

/-- The CPUs that are still needed, and the cores that have been taken. -/
structure Count where
  cpus : Nat
  coreCnt : Nat

/-- The sockets of a node whose cores start at `c`. -/
def firstSocks (c : Nat) (node : SyncNode) : List Sock :=
  (List.range node.sockets).map fun s =>
    { start := c + s * node.cores, stop := c + s * node.cores + node.cores, avoid := false, used := false }

/-- The CPUs of the available cores of each socket. -/
def cpusCnt (coreMap : List Bool) (vpus : Nat) (socks : List Sock) : List Nat :=
  socks.map fun s => ones coreMap s.start s.stop * vpus

/-! ## Sockets to avoid -/

/-- The first loop: what sockets have above the limit is left out, while there are too many CPUs. -/
def clipSockets (limit cpus : Nat) : Nat → List Nat → Nat × List Nat
  | total, [] => (total, [])
  | total, cnt :: rest =>
    if total ≤ cpus then (total, cnt :: rest)
    else if limit < cnt then
      ((clipSockets limit cpus (total - (cnt - limit)) rest).1,
        limit :: (clipSockets limit cpus (total - (cnt - limit)) rest).2)
    else
      ((clipSockets limit cpus total rest).1, cnt :: (clipSockets limit cpus total rest).2)

/-- The other loop: sockets that are not needed are avoided. -/
def avoidSockets (limit cpus : Nat) : Nat → List Nat → List Bool
  | _, [] => []
  | total, cnt :: rest =>
    if total ≤ cpus then (cnt :: rest).map fun _ => false
    else if cnt ≤ limit ∧ cpus ≤ total - cnt then true :: avoidSockets limit cpus (total - cnt) rest
    else false :: avoidSockets limit cpus total rest

/-- The sockets with their marks, where a number of tasks for each socket is set. -/
def markSocks (limit cpus : Nat) (cnts : List Nat) (socks : List Sock) : List Sock :=
  List.zipWith (fun s avoid => { s with avoid }) socks
    (avoidSockets limit cpus (clipSockets limit cpus cnts.sum cnts).1
      (clipSockets limit cpus cnts.sum cnts).2)

/-! ## Packing the CPUs of tasks -/

/-- The state of the packing loop: `cnt` is `cpus_cnt` of the socket. -/
structure Pack where
  count : Count
  cnt : Nat
  tmpCpt : Nat
  sock : Sock

/-- The CPUs that a core is used for. -/
def usedCpus (vpus tmpCpt : Nat) : Nat :=
  if job.ntasksPerCore = 1 ∧ vpus < job.cpusPerTask then min tmpCpt vpus else vpus

/-- The CPUs that the task still needs after a core. -/
def nextCpt (vpus tmpCpt : Nat) : Nat :=
  if job.ntasksPerCore = 1 ∧ vpus < job.cpusPerTask then
    if tmpCpt ≤ usedCpus job vpus tmpCpt then job.cpusPerTask else tmpCpt - usedCpus job vpus tmpCpt
  else tmpCpt

/-- One core of a socket. -/
def packStep (coreMap : List Bool) (vpus : Nat) (p : Pack) : Pack :=
  if bitTest coreMap p.sock.start = true then
    { count :=
        { cpus := if p.count.cpus < vpus then 0 else p.count.cpus - usedCpus job vpus p.tmpCpt
          coreCnt := p.count.coreCnt + 1 }
      cnt := if p.cnt < vpus then 0 else p.cnt - usedCpus job vpus p.tmpCpt
      tmpCpt := nextCpt job vpus p.tmpCpt
      sock := { p.sock with start := p.sock.start + 1, used := true } }
  else { p with sock := { p.sock with start := p.sock.start + 1 } }

/-- The loop over the cores of a socket. -/
def packSocket (coreMap : List Bool) (vpus : Nat) : Nat → Pack → Pack
  | 0, p => p
  | left + 1, p =>
    if 0 < p.cnt ∧ 0 < p.count.cpus then packSocket coreMap vpus left (packStep job coreMap vpus p)
    else p

/-- The loop over the sockets. -/
def packSockets (coreMap : List Bool) (vpus : Nat) : Count → Nat → List Sock → Count × List Sock
  | h, _, [] => (h, [])
  | h, tmpCpt, s :: rest =>
    let cnt := ones coreMap s.start s.stop * vpus
    let p := packSocket job coreMap vpus (s.stop - s.start)
      ⟨h, cnt - cnt % job.cpusPerTask, tmpCpt, s⟩
    if h.cpus = 0 then (h, s :: rest)
    else
      ((packSockets coreMap vpus p.count p.tmpCpt rest).1,
        p.sock :: (packSockets coreMap vpus p.count p.tmpCpt rest).2)

/-! ## In turn -/

/-- The next available core of a socket, or its end: `left` cores are left. -/
def seek (coreMap : List Bool) : Nat → Nat → Nat
  | 0, start => start
  | left + 1, start => if bitTest coreMap start = true then start else seek coreMap left (start + 1)

/-- The turn of a socket. -/
def turn (coreMap : List Bool) (vpus : Nat) (h : Count) (s : Sock) : Count × Sock :=
  if s.avoid = true then (h, s)
  else if seek coreMap (s.stop - s.start) s.start = s.stop then (h, { s with start := s.stop })
  else
    ({ cpus := if h.cpus < vpus then 0 else h.cpus - vpus, coreCnt := h.coreCnt + 1 },
      { s with start := seek coreMap (s.stop - s.start) s.start + 1, used := true })

/-- A round over the sockets, while CPUs are needed. -/
def pass (coreMap : List Bool) (vpus : Nat) : Count → List Sock → Count × List Sock
  | h, [] => (h, [])
  | h, s :: rest =>
    if h.cpus = 0 then (h, s :: rest)
    else
      ((pass coreMap vpus (turn coreMap vpus h s).1 rest).1,
        (turn coreMap vpus h s).2 :: (pass coreMap vpus (turn coreMap vpus h s).1 rest).2)

/-- How the rounds end: `stuck` is a round that took nothing. -/
inductive Rounds where
  | spent
  | stuck
  | ended (h : Count) (socks : List Sock)

/-- The rounds, of which there are at most `fuel`. -/
def cyclicRounds (coreMap : List Bool) (vpus : Nat) : Nat → Count → List Sock → Rounds
  | 0, h, socks => if h.cpus = 0 then .ended h socks else .spent
  | fuel + 1, h, socks =>
    if h.cpus = 0 then .ended h socks
    else if (pass coreMap vpus h socks).1.cpus ≠ h.cpus then
      cyclicRounds coreMap vpus fuel (pass coreMap vpus h socks).1 (pass coreMap vpus h socks).2
    else if job.overcommit = true then
      .ended (pass coreMap vpus h socks).1 (pass coreMap vpus h socks).2
    else .stuck

/-! ## The rest of the cores -/

/-- The cores of a socket that are not taken are cleared, or all cores are set where sockets are
allocated. -/
def finishSock (r : List Bool × Nat) (s : Sock) : List Bool × Nat :=
  if s.start = s.stop then r
  else
    let cleared := if job.allocSockets = false ∨ s.used = false then bitFill r.1 s.start s.stop false
      else r.1
    if (job.allocSockets = true ∨ job.allocCores = true) ∧ s.used = true then
      let marked := if job.allocSockets = true then bitFill cleared s.start s.stop true else cleared
      (marked, r.2 + ones marked s.start s.stop)
    else (cleared, r.2)

/-! ## Nodes -/

/-- What becomes of a node: its core bits, and its entry of `cpus`. -/
inductive NodeEnd where
  | spent
  | stuck
  | synced (coreMap : List Bool) (cpus : Nat)

/-- The sockets of a node and the count before the rounds. -/
def beforeRounds (coreMap : List Bool) (c : Nat) (node : SyncNode) : Count × List Sock :=
  if job.ntasksPerSocket ≠ infinite16 then
    (⟨node.cpus, 0⟩, markSocks (job.ntasksPerSocket * job.cpusPerTask) node.cpus
      (cpusCnt coreMap node.vpus (firstSocks c node)) (firstSocks c node))
  else if 1 < job.cpusPerTask then
    packSockets job coreMap node.vpus ⟨node.cpus, 0⟩ job.cpusPerTask (firstSocks c node)
  else (⟨node.cpus, 0⟩, firstSocks c node)

/-- The entry of `cpus` for a number of cores, in 16 bits. -/
def cpusOf (node : SyncNode) (coreCnt : Nat) : Nat :=
  if job.allocCores = true ∨ job.allocSockets = true then coreCnt * node.tpc % 2 ^ 16 else node.cpus

/-- A node whose cores start at `c`. -/
def cyclicNode (coreMap : List Bool) (c : Nat) (node : SyncNode) : NodeEnd :=
  match cyclicRounds job coreMap node.vpus (node.cpus + 1) (beforeRounds job coreMap c node).1
    (beforeRounds job coreMap c node).2 with
  | .spent => .spent
  | .stuck => .stuck
  | .ended h socks =>
    .synced (socks.foldl (finishSock job) (coreMap, h.coreCnt)).1
      (cpusOf job node (socks.foldl (finishSock job) (coreMap, h.coreCnt)).2)

/-- The result: an error holds the job, unless it is called to preempt others. -/
structure SyncResult where
  success : Bool
  held : Bool
  coreMap : List Bool
  cpus : List Nat

/-- The loop over the nodes, with the entries of `cpus` so far. -/
def cyclicNodes : List SyncNode → Nat → List Bool → List Nat → Option SyncResult
  | [], _, coreMap, cpus => some ⟨true, false, coreMap, cpus⟩
  | node :: rest, c, coreMap, cpus =>
    if coreMap.length < c + node.size then
      some ⟨true, false, coreMap, cpus ++ (node :: rest).map SyncNode.cpus⟩
    else
      match cyclicNode job coreMap c node with
      | .spent => none
      | .stuck => some ⟨false, !job.preemptMode, coreMap, cpus ++ (node :: rest).map SyncNode.cpus⟩
      | .synced coreMap' entry => cyclicNodes rest (c + node.size) coreMap' (cpus ++ [entry])

/-- `_cyclic_sync_core_bitmap`. -/
def cyclicSyncCoreBitmap : Option SyncResult := cyclicNodes job job.nodes 0 job.coreMap []

end Slurm.CoreSync
