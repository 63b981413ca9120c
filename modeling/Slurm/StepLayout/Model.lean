import Slurm.Lib.Dealing

/-!
# Task layout of a step (`common/slurm_step_layout.c`)

`initTaskLayout` works out how many tasks each node of a step can take, and hands
the tasks out by the step's distribution: `taskLayoutBlock`, `taskLayoutCyclic`
or `taskLayoutPlane`.  All three go over the nodes in loops of the same form, the
loops of `Lib.Dealing`.  What differs is a `Turn` for each loop: how often a node
is asked, when it takes a task, and when it has `space_remaining`.

`tasks[i]` is a `uint16_t`.  The layouts take the modulus of that counter as an
argument `w`: the code has `w = taskCounter`, and `w = 0` is a counter without a
bound, which tells how many tasks land on a node.

The `while` of the second pass of a packed block layout is a `Turn` with `cpus`
attempts: a node that refuses a task refuses all the later ones of the loop.

`arbitrary` distributions are laid out from a file of hosts and are not modelled.
-/

namespace Slurm.StepLayout

open Lib.Dealing (Turn Hand sweep rounds)

/-! ## Distributions -/

/-- `SLURM_DIST_STATE_BASE`, the mask of a distribution without its flags. -/
def distStateBase : Nat := 0x00FFFF

/-- `SLURM_DIST_NODEMASK` -/
def distNodeMask : Nat := 0xF00F

/-- `SLURM_DIST_NODECYCLIC` -/
def distNodeCyclic : Nat := 0x0001

/-- `SLURM_DIST_ARBITRARY` -/
def distArbitrary : Nat := 0x0003

/-- `SLURM_DIST_PLANE` -/
def distPlane : Nat := 0x0004

/-- `SLURM_DIST_PACK_NODES` -/
def distPackNodes : Nat := 0x800000

/-- `SLURM_DIST_NO_PACK_NODES` -/
def distNoPackNodes : Nat := 0x400000

/-- `SELECT_PACK_NODES` of `select_type_param`. -/
def selectPackNodes : Nat := 1 <<< 9

/-- `NO_VAL16` -/
def noVal16 : Nat := 0xfffe

/-! ## Nodes -/

/-- `cpus[i]`, `tasks[i]` and `tids[i]` of one node. -/
structure Node where
  cpus : Nat
  tasks : Nat
  tids : List Nat
  deriving DecidableEq, Repr

/-- A node before any task is placed. -/
def Node.idle (cpus : Nat) : Node := ⟨cpus, 0, []⟩

/-- The modulus of `tasks[i]++`. -/
def taskCounter : Nat := 2 ^ 16

/-- How a layout ends.  `running` is a layout that was given too little fuel. -/
inductive Outcome where
  | running
  | error
  | success (nodes : List Node)
  deriving DecidableEq, Repr

variable (w taskCnt : Nat)

/-- `tasks[i]++` -/
def addTask (_ : Nat) (n : Node) : Node := { n with tasks := (n.tasks + 1) % w }

/-- `tids[i]` grows to `tasks[i] + 1` entries, and its last one is the task. -/
def addTaskId (taskid : Nat) (n : Node) : Node :=
  { n with tids := n.tids.take n.tasks ++ [taskid], tasks := (n.tasks + 1) % w }

/-! ## Block distribution -/

/-- Pass 1 of a packed layout: one task on each node. -/
def packFirst : Turn Node where
  turns := fun _ => 1
  accept := fun n => decide (n.tasks < n.cpus)
  put := addTask w
  room := fun _ => false

/-- Pass 2 of a packed layout: the remaining CPUs, node by node. -/
def packFill : Turn Node where
  turns := fun n => n.cpus
  accept := fun n => decide (n.tasks < n.cpus)
  put := addTask w
  room := fun _ => false

/-- Pass 3 of a packed layout: one more task on each node, whatever its CPUs. -/
def packSpread : Turn Node where
  turns := fun _ => 1
  accept := fun _ => true
  put := addTask w
  room := fun _ => false

/-- Cycle `j` of the cyclic distribution that an unpacked layout counts with. -/
def fakeCyclic (j : Nat) (overSubscribe : Bool) : Turn Node where
  turns := fun _ => 1
  accept := fun n => decide (j < n.cpus) || overSubscribe
  put := addTask w
  room := fun n => decide (j + 1 < n.cpus)

/-- `pack_nodes` -/
def packNodes (selectTypeParam taskDist : Nat) : Bool :=
  if taskDist &&& distPackNodes ≠ 0 then true
  else if taskDist &&& distNoPackNodes ≠ 0 then false
  else decide (selectTypeParam &&& selectPackNodes ≠ 0)

/-- The tasks of every node, packed. -/
def countPacked (fuel : Nat) (nodes : List Node) : Option (Nat × List Node) :=
  let first := sweep taskCnt (packFirst w) ⟨0, false⟩ nodes
  let fill := sweep taskCnt (packFill w) first.1 first.2
  rounds taskCnt (fun _ _ t ns => sweep taskCnt (packSpread w) ⟨t, false⟩ ns) fuel 0 false
    fill.1.item fill.2

/-- The tasks of every node, unpacked. -/
def countUnpacked (fuel : Nat) (nodes : List Node) : Option (Nat × List Node) :=
  rounds taskCnt (fun j overSub t ns => sweep taskCnt (fakeCyclic w j overSub) ⟨t, false⟩ ns) fuel 0
    false 0 nodes

/-- `Now distribute the tasks`: consecutive task ids, node after node. -/
def distributeBlock (taskId : Nat) : List Node → List Node
  | [] => []
  | n :: ns =>
    { n with tids := List.range' taskId n.tasks } :: distributeBlock (taskId + n.tasks) ns

/-- `_task_layout_block` -/
def taskLayoutBlock (selectTypeParam taskDist fuel : Nat) (nodes : List Node) : Outcome :=
  let counted :=
    if packNodes selectTypeParam taskDist then countPacked w taskCnt fuel nodes
    else countUnpacked w taskCnt fuel nodes
  match counted with
  | none => .running
  | some r => .success (distributeBlock 0 r.2)

/-! ## Cyclic distribution -/

/-- Cycle `j` of a cyclic layout. -/
def cyclicTurn (maxOverSubscribe j : Nat) (overSubscribe : Bool) : Turn Node where
  turns := fun _ => 1
  accept := fun n =>
    decide (j < n.cpus) || (overSubscribe && decide (j < n.cpus + maxOverSubscribe))
  put := addTaskId w
  room := fun n => decide (j + 1 < n.cpus)

/-- `total_cpus` -/
def totalCpus (nodes : List Node) : Nat := (nodes.map Node.cpus).sum

/-- `max_over_subscribe`, rounded up. -/
def maxOverSubscribe (nodes : List Node) : Nat :=
  if totalCpus nodes < taskCnt then
    (taskCnt - totalCpus nodes + (nodes.length - 1)) / nodes.length
  else 0

/-- `_task_layout_cyclic` -/
def taskLayoutCyclic (fuel : Nat) (nodes : List Node) : Outcome :=
  let counted :=
    rounds taskCnt
      (fun j overSub t ns =>
        sweep taskCnt (cyclicTurn w (maxOverSubscribe taskCnt nodes) j overSub) ⟨t, false⟩ ns)
      fuel 0 (decide (totalCpus nodes < taskCnt)) 0 nodes
  match counted with
  | none => .running
  | some r => .success r.2

/-! ## Plane distribution -/

/-- The first task on each node. -/
def planeFirst : Turn Node where
  turns := fun _ => 1
  accept := fun _ => true
  put := addTask w
  room := fun _ => false

/-- A block of tasks on each node, from `plane_start` on. -/
def planeBlock (planeSize planeStart : Nat) (overSubscribe : Bool) : Turn Node where
  turns := fun _ => planeSize - planeStart
  accept := fun n => decide (n.cpus ≠ n.tasks) || overSubscribe
  put := addTask w
  room := fun n => decide (n.tasks + 1 ≤ n.cpus)

/-- One cycle of the count.  The first one starts with a task on each node. -/
def planeRound (planeSize j : Nat) (overSub : Bool) (t : Nat) (nodes : List Node) :
    Hand × List Node :=
  if j = 0 then
    let first := sweep taskCnt (planeFirst w) ⟨t, false⟩ nodes
    sweep taskCnt (planeBlock w planeSize 1 overSub) first.1 first.2
  else sweep taskCnt (planeBlock w planeSize 0 overSub) ⟨t, false⟩ nodes

/-- A block of `plane_size` task ids to each node that still lacks some. -/
def planeDistribute (planeSize : Nat) : Turn Node where
  turns := fun _ => planeSize
  accept := fun n => decide (n.tids.length < n.tasks)
  put := fun taskid n => { n with tids := n.tids ++ [taskid] }
  room := fun _ => false

/-- `_task_layout_plane` -/
def taskLayoutPlane (planeSize fuel : Nat) (nodes : List Node) : Outcome :=
  if planeSize = 0 then .error
  else
    match rounds taskCnt (planeRound w taskCnt planeSize) fuel 0 false 0 nodes with
    | none => .running
    | some counted =>
      match rounds taskCnt (fun _ _ t ns => sweep taskCnt (planeDistribute planeSize) ⟨t, false⟩ ns)
          fuel 0 false 0 counted.2 with
      | none => .running
      | some placed => if placed.1 = taskCnt then .success placed.2 else .error

/-! ## The layout of a step -/

/-- What `_init_task_layout` reads of the request and of the layout.  The compact
arrays hold a value for each group of consecutive nodes, and `...Reps` the size of
the group.  `hostCount` is the number of hosts named by `node_list`. -/
structure StepLayoutReq where
  cpusPerNode : List Nat
  cpuCountReps : List Nat
  cpusPerTask : Option (List Nat)
  cpusTaskReps : List Nat
  numHosts : Nat
  hostCount : Nat
  numTasks : Nat
  planeSize : Nat
  taskDist : Nat
  deriving DecidableEq, Repr

/-- `cpus_per_task` and its group sizes, where 1 stands for a missing or invalid
first value. -/
def cpusPerTaskOf (req : StepLayoutReq) : List Nat × List Nat :=
  match req.cpusPerTask with
  | none => ([1], [req.numHosts])
  | some perTask =>
    if perTask.headD 0 < 1 ∨ perTask.headD 0 = noVal16 then
      (1 :: perTask.tail, req.numHosts :: req.cpusTaskReps.tail)
    else (perTask, req.cpusTaskReps)

/-- `++cnt >= reps[inx]`: the next place in a compact array. -/
def nextRecord (reps : List Nat) (inx cnt : Nat) : Nat × Nat :=
  if cnt + 1 ≥ reps.getD inx 0 then (inx + 1, 0) else (inx, cnt + 1)

/-- `cpus[i]` from the CPUs of the node and the CPUs of a task.  A `plane_size` of
any other distribution is the number of tasks asked for on a node. -/
def nodeCpus (req : StepLayoutReq) (perNode perTask : Nat) : Nat :=
  let cpus := if perNode / perTask = 0 then 1 else perNode / perTask
  if req.planeSize ≠ 0 ∧ req.planeSize ≠ noVal16 ∧
      req.taskDist &&& distStateBase ≠ distPlane then
    min cpus (req.planeSize * perTask % 2 ^ 16)
  else cpus

/-- The loop over the nodes, with a place in each compact array. -/
def cpusFrom (req : StepLayoutReq) (perTask taskReps : List Nat) :
    Nat → Nat × Nat → Nat × Nat → List Nat
  | 0, _, _ => []
  | n + 1, cpu, task =>
    nodeCpus req (req.cpusPerNode.getD cpu.1 0) (perTask.getD task.1 0)
      :: cpusFrom req perTask taskReps n (nextRecord req.cpuCountReps cpu.1 cpu.2)
          (nextRecord taskReps task.1 task.2)

/-- `cpus`, for the nodes of the layout. -/
def layoutCpus (req : StepLayoutReq) : List Nat :=
  cpusFrom req (cpusPerTaskOf req).1 (cpusPerTaskOf req).2 (min req.numHosts req.hostCount)
    (0, 0) (0, 0)

/-- The layout by the distribution. -/
def taskLayout (selectTypeParam fuel : Nat) (req : StepLayoutReq) (cpus : List Nat) : Outcome :=
  let nodes := cpus.map Node.idle
  if req.taskDist &&& distNodeMask = distNodeCyclic then
    taskLayoutCyclic w req.numTasks fuel nodes
  else if req.taskDist &&& distStateBase = distArbitrary then .error
  else if req.taskDist &&& distStateBase = distPlane then
    taskLayoutPlane w req.numTasks req.planeSize fuel nodes
  else taskLayoutBlock w req.numTasks selectTypeParam req.taskDist fuel nodes

/-- `_init_task_layout` of a step that has no layout yet. -/
def initTaskLayout (selectTypeParam fuel : Nat) (req : StepLayoutReq) : Outcome :=
  if min req.numHosts req.hostCount = 0 then .error
  else taskLayout w selectTypeParam fuel req (layoutCpus req)

end Slurm.StepLayout
