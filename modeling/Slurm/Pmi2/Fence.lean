import Slurm.Lib.Forest

/-!
# Key-value pairs

* `TempKvs`, `tempKvsAdd`, `tempKvsMerge`: the buffer with the pairs of a fence, and its size.
* `kvsPut`, `kvsGet`: the hash table of the pairs that were answered.
* `Stores`: what the table holds after pairs with different keys were put; `Stores.get_eq_some` and
  `Stores.get_eq_none` say what is found.
-/

namespace Slurm.Pmi2

open List

/-- The bytes of a string, without the `NUL`. -/
abbrev Str := List (BitVec 8)

/-- A key with its value. -/
abbrev Pair := Str × Str

/-! ## The buffer of a fence -/

/-- The size of a string in a buffer (`packstr`). -/
def strSize (s : Str) : Nat := 4 + (s.length + 1)

/-- The size of a pair in a buffer. -/
def packedSize (p : Pair) : Nat := strSize p.1 + strSize p.2

/-- `TEMP_KVS_SIZE_INC` -/
def tempKvsSizeInc : Nat := 2048

/-- `temp_kvs_buf`: the sequence number in its header and the pairs, with `temp_kvs_cnt` and
`temp_kvs_size`. -/
structure TempKvs where
  seq : Nat
  pairs : List Pair
  cnt : Nat
  size : Nat

/-- `temp_kvs_init`, with a header of `header` bytes. -/
def tempKvsInit (header seq : Nat) : TempKvs where
  seq := seq
  pairs := []
  cnt := header
  size := if header > tempKvsSizeInc then tempKvsSizeInc + tempKvsSizeInc else tempKvsSizeInc

/-- `temp_kvs_add`.  It is `none` where the pair is copied past the end of the buffer. -/
def tempKvsAdd (t : TempKvs) (p : Pair) : Option TempKvs :=
  let size := if t.cnt + packedSize p > t.size then t.size + tempKvsSizeInc else t.size
  if t.cnt + packedSize p ≤ size then
    some { t with pairs := t.pairs ++ [p], cnt := t.cnt + packedSize p, size }
  else none

/-- `temp_kvs_merge`, likewise. -/
def tempKvsMerge (t : TempKvs) (pairs : List Pair) : Option TempKvs :=
  let added := (pairs.map packedSize).sum
  let size := if t.cnt + added > t.size then t.size + added else t.size
  if t.cnt + added ≤ size then
    some { t with pairs := t.pairs ++ pairs, cnt := t.cnt + added, size }
  else none

variable {p : Pair}

theorem tempKvsAdd_eq {t : TempKvs} (ht : t.cnt ≤ t.size) (hp : packedSize p ≤ 2048) :
    ∃ t', tempKvsAdd t p = some t' ∧ t'.seq = t.seq ∧ t'.pairs = t.pairs ++ [p] ∧ t'.cnt ≤ t'.size := by
  have hfits : t.cnt + packedSize p ≤
      (if t.cnt + packedSize p > t.size then t.size + tempKvsSizeInc else t.size) := by
    rw [tempKvsSizeInc]
    split <;> omega
  refine ⟨_, if_pos hfits, rfl, rfl, hfits⟩

theorem tempKvsMerge_eq {t : TempKvs} (ht : t.cnt ≤ t.size) (pairs : List Pair) :
    ∃ t', tempKvsMerge t pairs = some t' ∧ t'.seq = t.seq ∧ t'.pairs = t.pairs ++ pairs ∧
      t'.cnt ≤ t'.size := by
  have hfits : t.cnt + (pairs.map packedSize).sum ≤
      (if t.cnt + (pairs.map packedSize).sum > t.size then t.size + (pairs.map packedSize).sum
        else t.size) := by
    split <;> omega
  exact ⟨_, if_pos hfits, rfl, rfl, hfits⟩

/-! ## The hash table -/

/-- `_hash` -/
def hash (key : Str) : BitVec 32 :=
  key.foldl (fun hash c =>
    let shift : BitVec 8 := (hash >>> 24).setWidth 8
    (hash <<< 8) ||| (shift ^^^ c).setWidth 32) 0

/-- `kvs_hash` with `hash_size` buckets, and `no_dup_keys`. -/
structure KvsTable where
  hashSize : Nat
  noDupKeys : Bool
  buckets : Nat → List Pair

/-- `HASH` -/
def KvsTable.inx (t : KvsTable) (key : Str) : Nat := (hash key).toNat % t.hashSize

/-- The first pair with the key gets another value. -/
def replaceVal (p : Pair) : List Pair → List Pair
  | [] => []
  | q :: rest => if q.1 = p.1 then p :: rest else q :: replaceVal p rest

/-- `kvs_put` -/
def kvsPut (t : KvsTable) (p : Pair) : KvsTable :=
  let bucket := t.buckets (t.inx p.1)
  let bucket' :=
    if t.noDupKeys = false ∧ bucket.any (fun q => q.1 == p.1) then replaceVal p bucket
    else bucket ++ [p]
  { t with buckets := Function.update t.buckets (t.inx p.1) bucket' }

/-- `kvs_get` -/
def kvsGet (t : KvsTable) (key : Str) : Option Str :=
  ((t.buckets (t.inx key)).find? fun q => q.1 == key).map Prod.snd

/-- The pairs of an answer are put one by one. -/
def putAll (t : KvsTable) (pairs : List Pair) : KvsTable := pairs.foldl kvsPut t

/-- An empty table. -/
def kvsInit (hashSize : Nat) (noDupKeys : Bool) : KvsTable := ⟨hashSize, noDupKeys, fun _ => []⟩

/-- The buckets hold the pairs `pairs`, in their order. -/
structure Stores (t : KvsTable) (pairs : List Pair) : Prop where
  bucket : ∀ i, t.buckets i = pairs.filter fun p => t.inx p.1 == i

theorem stores_init (hashSize : Nat) (noDupKeys : Bool) : Stores (kvsInit hashSize noDupKeys) [] :=
  ⟨fun _ => rfl⟩

variable {t : KvsTable} {pairs : List Pair}

/-- A pair with a new key comes last. -/
theorem Stores.put (h : Stores t pairs) (hp : p.1 ∉ pairs.map Prod.fst) :
    Stores (kvsPut t p) (pairs ++ [p]) := by
  have hnone : (t.buckets (t.inx p.1)).any (fun q => q.1 == p.1) = false := by
    rw [h.bucket, any_eq_false]
    intro q hq hkey
    exact hp (List.mem_map.mpr ⟨q, (List.mem_filter.mp hq).1, eq_of_beq hkey⟩)
  constructor
  intro i
  simp only [kvsPut, hnone, Bool.false_eq_true, and_false, if_false]
  rw [filter_append, filter_singleton]
  by_cases hi : i = t.inx p.1
  · rw [hi, Function.update_self, h.bucket]
    simp [KvsTable.inx]
  · rw [Function.update_of_ne hi, h.bucket]
    have hne : ¬ t.inx p.1 = i := fun heq => hi heq.symm
    show _ = _ ++ bif t.inx p.1 == i then [p] else []
    rw [beq_eq_false_iff_ne.mpr hne]
    simp [KvsTable.inx]

theorem Stores.putAll {new : List Pair} (h : Stores t pairs)
    (hnodup : ((pairs ++ new).map Prod.fst).Nodup) : Stores (putAll t new) (pairs ++ new) := by
  induction new generalizing t pairs with
  | nil =>
    rw [append_nil]
    exact h
  | cons p new ih =>
    have hp : p.1 ∉ pairs.map Prod.fst := by
      rw [map_append, nodup_append] at hnodup
      exact fun hmem => hnodup.2.2 _ hmem p.1 mem_cons_self rfl
    rw [append_cons] at hnodup ⊢
    exact ih (h.put hp) hnodup

theorem find_filter {key : Str} {P : Pair → Bool} (hP : ∀ q : Pair, q.1 = key → P q = true) :
    (pairs.filter P).find? (fun q => q.1 == key) = pairs.find? fun q => q.1 == key := by
  rw [find?_filter]
  congr 1
  funext q
  by_cases hq : q.1 = key
  · simp [hq, hP q hq]
  · simp [hq]

/-- What is found is the pair with the key. -/
theorem Stores.get_eq_some (h : Stores t pairs) (hnodup : (pairs.map Prod.fst).Nodup)
    (hp : p ∈ pairs) : kvsGet t p.1 = some p.2 := by
  rw [kvsGet, h.bucket, find_filter fun q hq => by simp [hq]]
  cases hfind : pairs.find? fun q => q.1 == p.1 with
  | none => exact absurd (List.find?_eq_none.mp hfind p hp) (by simp)
  | some q =>
    have hq := mem_of_find?_eq_some hfind
    have hkey := find?_some hfind
    rw [inj_on_of_nodup_map hnodup hq hp (eq_of_beq hkey)]
    rfl

theorem Stores.get_eq_none (h : Stores t pairs) {key : Str} (hkey : key ∉ pairs.map Prod.fst) :
    kvsGet t key = none := by
  rw [kvsGet, h.bucket, find_filter fun q hq => by simp [hq], List.find?_eq_none.mpr]
  · rfl
  · intro q hq hqkey
    exact hkey (List.mem_map.mpr ⟨q, hq, eq_of_beq hqkey⟩)

end Slurm.Pmi2

/-!
## The fence of a step

The daemons of a step (the stepds) form a tree below `srun`.  Pairs that tasks put go up the tree with
`KVS_FENCE` messages and come back from `srun` to all stepds with `KVS_FENCE_RESP` messages.

* `Node`: the variables of a stepd or of `srun`, which is the node `none` here.
* `Net`: all nodes, the messages between them, where the tasks are, and what happened so far.
* `Action` and `exec`: a request of a task or the delivery of a message.
-/

namespace Slurm.Pmi2

open Lib.Forest

/-- A step: the tree of its stepds, with the name of the host and the number of tasks of each. -/
structure Step (n : Nat) where
  tree : Rooted (Fin n)
  thisNode : Fin n → Str
  thisNode_lt : ∀ v, (thisNode v).length < 256
  ltasks : Fin n → Nat
  ltasks_pos : ∀ v, 0 < ltasks v
  noDupKeys : Bool

/-- The variables of a node. -/
structure Node (n : Nat) where
  tasksToWait : Int
  childrenToWait : Int
  kvsSeq : Nat
  waitingKvsResp : Bool
  childrenKvsSeq : Fin n → Nat
  temp : TempKvs
  kvs : KvsTable

/-- `TREE_CMD_KVS_FENCE` -/
structure FenceMsg (n : Nat) where
  dest : Option (Fin n)
  fromNodeid : Fin n
  numChildren : Nat
  seq : Nat
  pairs : List Pair

/-- `TREE_CMD_KVS_FENCE_RESP` -/
structure RespMsg (n : Nat) where
  dest : Fin n
  seq : Nat
  pairs : List Pair

/-- A pair that was put: by which task, and before which of its fences. -/
structure Put (n : Nat) where
  node : Fin n
  task : Nat
  round : Nat
  pair : Pair

/-- All there is: the nodes, all `KVS_FENCE` messages, the `KVS_FENCE_RESP` messages that were not
delivered, and for each task how often it fenced and whether it waits for the response.  The last four
are history: what was put, what `srun` answered, which `KVS_FENCE` messages were delivered, and the
number of answers that a stepd handled.  `killed` is set by `slurm_kill_job_step`. -/
structure Net (n : Nat) where
  node : Option (Fin n) → Node n
  fences : List (FenceMsg n)
  resps : List (RespMsg n)
  fenced : Fin n → Nat → Nat
  blocked : Fin n → Nat → Bool
  killed : Bool
  puts : List (Put n)
  answers : List (Nat × List Pair)
  delivered : List Nat
  handled : Fin n → Nat

variable {n : Nat} (st : Step n)

/-- `job_info.ltasks` -/
def Step.tasks : Option (Fin n) → Nat
  | none => 0
  | some v => st.ltasks v

/-- `tree_info.num_children`: all offspring. -/
def Step.numChildren (x : Option (Fin n)) : Nat := (st.tree.below x).card

/-- The size of the header that `temp_kvs_init` writes. -/
def Step.header : Option (Fin n) → Nat
  | none => 2 + 4
  | some v => 2 + 4 + strSize (st.thisNode v) + 4 + 4

/-- `hash_size` -/
def Step.hashSize : Nat := ((∑ v, st.ltasks v) + 7) / 8

/-! ## Before the first message -/

/-- A node after its setup. -/
def Node.init (x : Option (Fin n)) : Node n where
  tasksToWait := 0
  childrenToWait := 0
  kvsSeq := 1
  waitingKvsResp := false
  childrenKvsSeq := fun _ => 0
  temp := tempKvsInit (st.header x) 1
  kvs := kvsInit st.hashSize st.noDupKeys

def Net.init : Net n where
  node := Node.init st
  fences := []
  resps := []
  fenced := fun _ _ => 0
  blocked := fun _ _ => false
  killed := false
  puts := []
  answers := []
  delivered := []
  handled := fun _ => 0

/-! ## The handlers -/

/-- The node `x` is written. -/
def Net.put (s : Net n) (x : Option (Fin n)) (nd : Node n) : Net n :=
  { s with node := Function.update s.node x nd }

/-- The counters are set at the first message of a round. -/
def Node.arm (x : Option (Fin n)) (nd : Node n) : Node n :=
  if nd.tasksToWait = 0 ∧ nd.childrenToWait = 0 then
    { nd with tasksToWait := st.tasks x, childrenToWait := st.numChildren x }
  else nd

/-- `temp_kvs_send`, with what `temp_kvs_init` does to the variables of the node. -/
def tempKvsSend (s : Net n) (x : Option (Fin n)) : Net n :=
  let nd := s.node x
  let seq := nd.kvsSeq + 1
  let s := s.put x { nd with
    kvsSeq := seq
    temp := tempKvsInit (st.header x) seq
    tasksToWait := 0
    childrenToWait := 0 }
  match x with
  | some v =>
    { s with
      fences := s.fences ++
        [⟨st.tree.parent v, v, st.numChildren (some v) + 1, nd.temp.seq, nd.temp.pairs⟩] }
  | none =>
    { s with
      resps := s.resps ++ (List.finRange n).map fun v => ⟨v, nd.temp.seq, nd.temp.pairs⟩
      answers := s.answers ++ [(nd.temp.seq, nd.temp.pairs)] }

/-- The end of the handlers of fences: the buffer is sent when nothing is left to wait for. -/
def sendIfComplete (s : Net n) (x : Option (Fin n)) : Net n :=
  let nd := s.node x
  if nd.childrenToWait = 0 ∧ nd.tasksToWait = 0 then
    let s := tempKvsSend st s x
    match x with
    | some v => s.put (some v) { s.node (some v) with waitingKvsResp := true }
    | none => s
  else s

/-- `_handle_kvs_put` -/
def handleKvsPut (s : Net n) (v : Fin n) (task : Nat) (p : Pair) : Option (Net n) :=
  let nd := s.node (some v)
  (tempKvsAdd nd.temp p).map fun temp =>
    let s := s.put (some v) { nd with temp }
    { s with puts := s.puts ++ [⟨v, task, s.fenced v task + 1, p⟩] }

/-- `_handle_kvs_fence` of a task. -/
def handleKvsFence (s : Net n) (v : Fin n) (task : Nat) : Net n :=
  let nd := Node.arm st (some v) (s.node (some v))
  let s := s.put (some v) { nd with tasksToWait := nd.tasksToWait - 1 }
  let s := { s with
    fenced := Function.update s.fenced v (Function.update (s.fenced v) task (s.fenced v task + 1))
    blocked := Function.update s.blocked v (Function.update (s.blocked v) task true) }
  sendIfComplete st s (some v)

/-- `_handle_kvs_fence` of a message. -/
def handleFenceMsg (s : Net n) (m : FenceMsg n) : Option (Net n) :=
  let x := m.dest
  let nd := s.node x
  if m.seq ≠ nd.kvsSeq then some s
  else if m.seq = nd.childrenKvsSeq m.fromNodeid then some s
  else
    let nd := { nd with childrenKvsSeq := Function.update nd.childrenKvsSeq m.fromNodeid m.seq }
    let nd := Node.arm st x nd
    let nd := { nd with childrenToWait := nd.childrenToWait - m.numChildren }
    (tempKvsMerge nd.temp m.pairs).map fun temp => sendIfComplete st (s.put x { nd with temp }) x

/-- `send_kvs_fence_resp_to_clients` -/
def respToClients (s : Net n) (v : Fin n) : Net n :=
  { s with blocked := Function.update s.blocked v fun _ => false }

/-- `_handle_kvs_fence_resp` -/
def handleFenceResp (s : Net n) (m : RespMsg n) : Net n :=
  let v := m.dest
  let nd := s.node (some v)
  if m.seq + 2 = nd.kvsSeq then s
  else if m.seq + 1 ≠ nd.kvsSeq then { respToClients s v with killed := true }
  else if nd.waitingKvsResp = false then s
  else
    let s := s.put (some v) { nd with waitingKvsResp := false, kvs := putAll nd.kvs m.pairs }
    let s := respToClients s v
    { s with handled := Function.update s.handled v (s.handled v + 1) }

/-! ## Runs -/

/-- A task puts a pair or fences, or a message is delivered: a `KVS_FENCE` message any number of times,
a `KVS_FENCE_RESP` message once. -/
inductive Action (n : Nat) where
  | put (v : Fin n) (task : Nat) (p : Pair)
  | fence (v : Fin n) (task : Nat)
  | deliver (i : Nat)
  | respond (i : Nat)

/-- The step ends where a sequence number or the size of a buffer does not fit in an `int`. -/
def Net.inRange (s : Net n) (x : Option (Fin n)) : Bool :=
  (s.node x).kvsSeq < 2 ^ 31 && (s.node x).temp.size < 2 ^ 31

/-- One action; `none` is no action or undefined. -/
def exec (s : Net n) : Action n → Option (Net n)
  | .put v task p =>
    (handleKvsPut s v task p).bind fun s => if s.inRange (some v) then some s else none
  | .fence v task =>
    let s := handleKvsFence st s v task
    if s.inRange (some v) then some s else none
  | .deliver i =>
    s.fences[i]?.bind fun m =>
      (handleFenceMsg st s m).bind fun s =>
        if s.inRange m.dest then some { s with delivered := s.delivered ++ [i] } else none
  | .respond i =>
    s.resps[i]?.map fun m => handleFenceResp { s with resps := s.resps.eraseIdx i } m

end Slurm.Pmi2
