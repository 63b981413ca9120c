import Slurm.CoreSync.Model
import Slurm.Lib.Checked

/-!
# Selecting the cores that fit best

`src/plugins/select/cons_tres/dist_tasks.c`: `_block_sync_core_bitmap` and what it calls.  Every
array access is checked.  The loops that the code does not count take their number of turns from
`fuel`.  Where a compare function finds two entries equal, sorting keeps their order.

The arrays of sockets and of boards are shared by the nodes of a job: they grow, and they are
cleared for each node.
-/

namespace Slurm.CoreSync

open Lib.Checked

/-- `MAX_BOARDS` -/
def maxBoards : Nat := 8

/-- `comb_counts` -/
def combCounts : List (List Nat) :=
  [[1, 0, 0, 0, 0, 0, 0, 0], [2, 1, 0, 0, 0, 0, 0, 0], [3, 3, 1, 0, 0, 0, 0, 0],
    [4, 6, 4, 1, 0, 0, 0, 0], [5, 10, 10, 5, 1, 0, 0, 0], [6, 15, 20, 15, 6, 1, 0, 0],
    [7, 21, 35, 35, 21, 7, 1, 0], [8, 28, 56, 70, 56, 28, 8, 1]]

/-! ## Combinations -/

/-- A combination of `k` numbers is added to the list, from index `b` on. -/
def copyComb (comb : List Int) (k b : Nat) (combList : List Int) : Run (List Int) :=
  (List.range k).foldlM (fun l (i : Nat) => do write l (b + i : Nat) (← read comb i)) combList

/-- The inner loop.  Its `i` is one less than the third argument; the result has the last one. -/
def carry (n k : Int) : Nat → List Int → Run (Int × List Int)
  | 0, comb => return (-1, comb)
  | i + 1, comb => do
    if (← read comb i) ≥ n - k + 1 + i then
      carry n k i (← write comb (i - 1 : Int) ((← read comb (i - 1 : Int)) + 1))
    else return (i, comb)

/-- The entries after `i` follow one another. -/
def refill (k : Nat) (i : Int) (comb : List Int) : Run (List Int) :=
  (List.range' (i + 1).toNat (k - (i + 1).toNat)).foldlM
    (fun comb (j : Nat) => do write comb j ((← read comb (j - 1 : Int)) + 1)) comb

/-- The outer loop. -/
def combsLoop (n k : Nat) : Nat → Nat → List Int → List Int → Run (List Int)
  | 0, _, _, _ => throw .spent
  | fuel + 1, b, comb, combList => do
    let combList ← copyComb comb k b combList
    let comb ← write comb (k - 1 : Int) ((← read comb (k - 1 : Int)) + 1)
    let (i, comb) ← carry n k k comb
    if (← read comb 0) > (n : Int) - k then return combList
    else combsLoop n k fuel (b + k) (← refill k i comb) combList

/-- `_gen_combs`. -/
def genCombs (fuel : Nat) (combList : List Int) (n k : Nat) : Run (List Int) :=
  combsLoop n k fuel 0 ((List.range k).map Int.ofNat) combList

/-! ## Counting -/

/-- The arrays that the nodes share. -/
structure Scratch where
  socketsCoreCnt : List Int
  socketsUsed : List Bool
  boardsCoreCnt : List Int
  sortBrdsCoreCnt : List Int

/-- The arrays for the first node. -/
def firstScratch (node : SyncNode) : Scratch where
  socketsCoreCnt := List.replicate node.sockets 0
  socketsUsed := List.replicate node.sockets false
  boardsCoreCnt := List.replicate node.boards 0
  sortBrdsCoreCnt := List.replicate node.boards 0

/-- The number of boards that is used for a node. -/
def nboardsOf (node : SyncNode) : Nat := if maxBoards < node.boards then 1 else node.boards

/-- The arrays, with room for another node. -/
def Scratch.room (node : SyncNode) (t : Scratch) : Scratch where
  socketsCoreCnt := grow t.socketsCoreCnt node.sockets 0
  socketsUsed := grow t.socketsUsed node.sockets false
  boardsCoreCnt := grow t.boardsCoreCnt (nboardsOf node) 0
  sortBrdsCoreCnt := grow t.sortBrdsCoreCnt (nboardsOf node) 0

/-- The entries of a board are cleared. -/
def clearBoard (t : Scratch) (b : Nat) : Run Scratch := do
  let boards ← write t.boardsCoreCnt b 0
  let sorted ← write t.sortBrdsCoreCnt b 0
  return { t with boardsCoreCnt := boards, sortBrdsCoreCnt := sorted }

/-- A core of socket `s` on board `b` is counted if it is available. -/
def countCore (coreMap : List Bool) (s b : Nat) (t : Scratch) (j : Nat) : Run Scratch := do
  if (← read coreMap j) = true then
    let sockets ← write t.socketsCoreCnt s ((← read t.socketsCoreCnt s) + 1)
    let boards ← write t.boardsCoreCnt b ((← read t.boardsCoreCnt b) + 1)
    let sorted ← write t.sortBrdsCoreCnt b ((← read t.sortBrdsCoreCnt b) + 1)
    return { t with socketsCoreCnt := sockets, boardsCoreCnt := boards, sortBrdsCoreCnt := sorted }
  else return t

/-- The cores of a socket are counted. -/
def countSocket (coreMap : List Bool) (c : Nat) (node : SyncNode) (sockPerBrd : Nat) (t : Scratch)
    (s : Nat) : Run Scratch := do
  let sockets ← write t.socketsCoreCnt s 0
  let used ← write t.socketsUsed s false
  if sockPerBrd = 0 then throw .divisionByZero
  else
    (List.range' (c + s * node.cores) node.cores).foldlM (countCore coreMap s (s / sockPerBrd))
      { t with socketsCoreCnt := sockets, socketsUsed := used }

/-- The available cores of each socket and of each board of a node.  The boards are also sorted by
them, the largest first. -/
def countNode (coreMap : List Bool) (c : Nat) (node : SyncNode) (sockPerBrd : Nat) (t : Scratch) :
    Run Scratch := do
  let t ← (List.range (nboardsOf node)).foldlM clearBoard t
  let t ← (List.range node.sockets).foldlM (countSocket coreMap c node sockPerBrd) t
  let sorted ← sortPart (fun x y => decide (y ≤ x)) t.sortBrdsCoreCnt 0 (nboardsOf node)
  return { t with sortBrdsCoreCnt := sorted }

/-- The loop that adds up numbers from index `b` on, at most `left` of them, up to the first sum that
is enough.  The result is the index where it ends. -/
def firstEnough (get : Nat → Run Int) (req : Int) : Nat → Nat → Int → Run Nat
  | 0, b, _ => return b
  | left + 1, b, count => do
    let count := count + (← get b)
    if count ≥ req then return b else firstEnough get req left (b + 1) count

/-- `req_cores`.  It is never more than `cpus`. -/
def reqCores (job : SyncJob) (node : SyncNode) : Nat :=
  if job.ntasksPerCore = 1 ∧ node.vpus < job.cpusPerTask then
    node.cpus / job.cpusPerTask * ((job.cpusPerTask + (node.vpus - 1)) / node.vpus)
  else if node.cpus % node.vpus = 0 then node.cpus / node.vpus
  else node.cpus / node.vpus + 1

/-! ## Combinations of boards -/

/-- The combinations that have enough cores: `elig_brd_combs`, `elig_core_cnt` and `elig`. -/
structure Elig where
  brdCombs : List Int
  coreCnt : List Int
  elig : Nat

/-- One combination of `bMin` boards. -/
def eligStep (boardCombs boardsCoreCnt : List Int) (bMin : Nat) (req : Int) (e : Elig) (combIdx : Nat) :
    Run Elig := do
  let count ← (List.range bMin).foldlM
    (fun count (idx : Nat) => do
      return count + (← read boardsCoreCnt (← read boardCombs (combIdx * bMin + idx : Nat)))) 0
  if count ≥ req then
    let brdCombs ← write e.brdCombs e.elig combIdx
    let coreCnt ← write e.coreCnt e.elig count
    return { brdCombs, coreCnt, elig := e.elig + 1 }
  else return e

/-- What the search for the best combination has found. -/
structure Best where
  socketList : List Int
  sMin : Int
  combMin : Nat
  coreMin : Int

/-- The sockets of a board are added to the list of a combination. -/
def listBoard (boardCombs : List Int) (bMin sockPerBrd eligIdx combIdx : Nat) (socketList : List Int)
    (idx : Nat) : Run (List Int) := do
  let boardNum ← read boardCombs (combIdx * bMin + idx : Nat)
  (List.range sockPerBrd).foldlM
    (fun l (sock : Nat) => write l (eligIdx * (bMin * sockPerBrd) + idx * sockPerBrd + sock : Nat)
      (boardNum * sockPerBrd + sock)) socketList

/-- The sockets of a combination, with their numbers of cores, the largest first: `_cmp_sock`. -/
def sortSocks (socketsCoreCnt socketList : List Int) (start len : Nat) : Run (List Int) := do
  let keyed ← socketList.mapM fun s => do return (s, ← read socketsCoreCnt s)
  let sorted ← sortPart (fun x y => decide (y.2 ≤ x.2)) keyed start len
  return sorted.map Prod.fst

/-- One combination with enough cores. -/
def bestStep (boardCombs : List Int) (bMin sockPerBrd : Nat) (req : Int) (socketsCoreCnt : List Int)
    (e : Elig) (best : Best) (eligIdx : Nat) : Run Best := do
  let combIdx ← read e.brdCombs eligIdx
  let l ← (List.range bMin).foldlM
    (listBoard boardCombs bMin sockPerBrd eligIdx combIdx.toNat) best.socketList
  let l ← sortSocks socketsCoreCnt l (eligIdx * (bMin * sockPerBrd)) (bMin * sockPerBrd)
  let b ← firstEnough
    (fun b => do read socketsCoreCnt (← read l (eligIdx * (bMin * sockPerBrd) + b : Nat))) req
    (bMin * sockPerBrd) 0 0
  let coreCnt ← read e.coreCnt eligIdx
  if (b + 1 : Nat) < best.sMin ∨ ((b + 1 : Nat) = best.sMin ∧ coreCnt ≤ best.coreMin) then
    return { socketList := l, sMin := (b + 1 : Nat), combMin := eligIdx, coreMin := coreCnt }
  else return { best with socketList := l }

/-- The sockets of the best combination of `bMin` boards, in ascending order. -/
def bestSockets (fuel : Nat) (node : SyncNode) (bMin sockPerBrd : Nat) (req : Int) (t : Scratch) :
    Run (List Int) := do
  let ncomb ← read (← read combCounts (nboardsOf node - 1 : Int)) (bMin - 1 : Int)
  let boardCombs ← genCombs fuel (List.replicate (ncomb * bMin) 0) (nboardsOf node) bMin
  let e ← (List.range ncomb).foldlM (eligStep boardCombs t.boardsCoreCnt bMin req)
    { brdCombs := List.replicate ncomb 0, coreCnt := List.replicate ncomb 0, elig := 0 }
  let best ← (List.range e.elig).foldlM
    (bestStep boardCombs bMin sockPerBrd req t.socketsCoreCnt e)
    { socketList := List.replicate (e.elig * (bMin * sockPerBrd)) 0
      sMin := (bMin * sockPerBrd : Nat)
      combMin := 0
      coreMin := (bMin * sockPerBrd * node.cores : Nat) }
  let l ← sortPart (fun x y => decide (x ≤ y)) best.socketList (best.combMin * (bMin * sockPerBrd))
    (bMin * sockPerBrd)
  (List.range (bMin * sockPerBrd)).mapM fun z =>
    read l (best.combMin * (bMin * sockPerBrd) + z : Nat)

/-! ## Picking sockets -/

/-- What the search for a socket has found. -/
structure Fit where
  cores : Int
  location : Int
  sufficient : Bool

/-- One socket. -/
def fitStep (socketsCoreCnt : List Int) (req : Int) (fit : Fit) (s : Int) : Run Fit := do
  let cnt ← read socketsCoreCnt s
  let sufficient := decide (cnt ≥ req)
  if fit.cores = 0 ∨ (sufficient = true ∧ fit.sufficient = false) ∨
      (sufficient = true ∧ cnt < fit.cores) ∨ (sufficient = false ∧ cnt > fit.cores) then
    return { cores := cnt, location := s, sufficient }
  else return fit

/-- What changes while cores are taken. -/
structure Taken where
  coreMap : List Bool
  socketsCoreCnt : List Int
  socketsUsed : List Bool
  cpus : Nat
  coreCnt : Nat
  tmpCpt : Nat

/-- The CPUs that are still needed after a core, and the ones of its task. -/
def takeCpus (job : SyncJob) (node : SyncNode) (t : Taken) : Nat × Nat :=
  if t.cpus < node.vpus then (0, t.tmpCpt)
  else if job.ntasksPerCore = 1 ∧ node.vpus < job.cpusPerTask then
    (t.cpus - min t.tmpCpt node.vpus,
      if t.tmpCpt ≤ min t.tmpCpt node.vpus then job.cpusPerTask
      else t.tmpCpt - min t.tmpCpt node.vpus)
  else (t.cpus - node.vpus, t.tmpCpt)

/-- One core of socket `s`. -/
def takeCore (job : SyncJob) (node : SyncNode) (s : Int) (t : Taken) (j : Nat) : Run Taken := do
  if t.cpus = 0 then
    if job.allocSockets = true then
      return { t with coreMap := ← write t.coreMap j true, coreCnt := t.coreCnt + 1 }
    else return { t with coreMap := ← write t.coreMap j false }
  else if (← read t.coreMap j) = true then
    let cnt ← write t.socketsCoreCnt s ((← read t.socketsCoreCnt s) - 1)
    return { t with
      socketsCoreCnt := cnt
      coreCnt := t.coreCnt + 1
      cpus := (takeCpus job node t).1
      tmpCpt := (takeCpus job node t).2 }
  else if job.allocSockets = true then
    return { t with coreMap := ← write t.coreMap j true, coreCnt := t.coreCnt + 1 }
  else return t

/-- The cores of a socket that is not used are released. -/
def releaseSocket (c : Nat) (node : SyncNode) (socketsUsed : List Bool) (coreMap : List Bool)
    (s : Nat) : Run (List Bool) := do
  if (← read socketsUsed s) = true then return coreMap
  else
    (List.range' (c + s * node.cores) node.cores).foldlM (fun m (j : Nat) => write m j false) coreMap

/-- The loop that picks one socket after the other, until no more CPUs are needed. -/
def takeSockets (job : SyncJob) (c : Nat) (node : SyncNode) (sockets : List Int) :
    Nat → Taken → Run Taken
  | 0, t => if t.cpus = 0 then return t else throw .spent
  | fuel + 1, t => do
    if t.cpus = 0 then return t
    else
      let fit ← sockets.foldlM (fitStep t.socketsCoreCnt (reqCores job node))
        { cores := 0, location := 0, sufficient := false }
      if fit.cores = 0 then return t
      else
        let used ← write t.socketsUsed fit.location true
        let t ← (List.range' (c + fit.location.toNat * node.cores) node.cores).foldlM
          (takeCore job node fit.location) { t with socketsUsed := used }
        if t.cpus = 0 then
          let coreMap ← (List.range node.sockets).foldlM (releaseSocket c node t.socketsUsed) t.coreMap
          return { t with coreMap }
        else takeSockets job c node sockets fuel t

/-! ## Nodes -/

/-- What becomes of a node: an error ends the loop over the nodes. -/
inductive BlockEnd where
  | stopped (coreMap : List Bool)
  | next (coreMap : List Bool) (t : Scratch) (cpus : Nat)

/-- The entry of `cpus` for a number of cores, in 16 bits. -/
def blockCpus (job : SyncJob) (node : SyncNode) (coreCnt : Nat) : Nat :=
  if (job.allocCores = true ∨ job.allocSockets = true) ∧ 1 ≤ node.tpc then
    coreCnt * node.tpc % 2 ^ 16
  else node.cpus

/-- A node whose cores start at `c`, with the fewest boards that have enough cores. -/
def blockBoards (fuel : Nat) (job : SyncJob) (coreMap : List Bool) (c : Nat) (node : SyncNode)
    (t : Scratch) (bMin : Nat) : Run BlockEnd := do
  let sockets ← bestSockets fuel node bMin (node.sockets / nboardsOf node) (reqCores job node) t
  let taken ← takeSockets job c node sockets fuel
    { coreMap
      socketsCoreCnt := t.socketsCoreCnt
      socketsUsed := t.socketsUsed
      cpus := node.cpus
      coreCnt := 0
      tmpCpt := job.cpusPerTask }
  if 0 < taken.cpus then return .stopped taken.coreMap
  else
    return .next taken.coreMap
      { t with socketsCoreCnt := taken.socketsCoreCnt, socketsUsed := taken.socketsUsed }
      (blockCpus job node taken.coreCnt)

/-- A node whose cores start at `c`. -/
def blockNode (fuel : Nat) (job : SyncJob) (coreMap : List Bool) (c : Nat) (node : SyncNode)
    (t : Scratch) : Run BlockEnd := do
  if coreMap.length < c + node.size then return .stopped coreMap
  else if nboardsOf node = 0 then throw .divisionByZero
  else
    let t ← countNode coreMap c node (node.sockets / nboardsOf node) (t.room node)
    let b ← firstEnough (fun b => read t.sortBrdsCoreCnt b) (reqCores job node) (nboardsOf node) 0 0
    if nboardsOf node < b + 1 then return .stopped coreMap
    else blockBoards fuel job coreMap c node t (b + 1)

/-- The core bitmap and the entries of `cpus`. -/
structure BlockResult where
  coreMap : List Bool
  cpus : List Nat

/-- The loop over the nodes, with the entries of `cpus` so far. -/
def blockNodes (fuel : Nat) (job : SyncJob) :
    List SyncNode → Nat → List Bool → Scratch → List Nat → Run BlockResult
  | [], _, coreMap, _, cpus => return ⟨coreMap, cpus⟩
  | node :: rest, c, coreMap, t, cpus => do
    match ← blockNode fuel job coreMap c node t with
    | .stopped coreMap' => return ⟨coreMap', cpus ++ (node :: rest).map SyncNode.cpus⟩
    | .next coreMap' t' entry =>
      blockNodes fuel job rest (c + node.size) coreMap' t' (cpus ++ [entry])

/-- `_block_sync_core_bitmap`. -/
def blockSyncCoreBitmap (fuel : Nat) (job : SyncJob) : Run BlockResult :=
  if job.coreMap.any id = false then return ⟨job.coreMap, job.nodes.map SyncNode.cpus⟩
  else
    match job.nodes with
    | [] => return ⟨job.coreMap, []⟩
    | node :: rest => blockNodes fuel job (node :: rest) 0 job.coreMap (firstScratch node) []

end Slurm.CoreSync
