import Slurm.Lib.Buckets
import Slurm.Lib.Run

/-!
# Arbitrary hash tables (`common/xahash.c`)

The table has a chain of entries for each index: the head of the chain is part of the table,
and the others are allocated.  An entry is named by its address.  The head of a chain stays
when its entry is freed, and is not set then.

The functions of the client are in `Funcs`; they see the bytes of an entry, the key with its
length, and the state of the table.  What an operation returns is in `Done`, with the calls
of `on_insert_func` and `on_free_func` that it made.  The log and the checks of magic numbers
are left out.
-/

namespace Slurm.Xahash

variable {κ β σ α : Type}

/-! ## Data -/

/-- `fentry_header_t`, with the bytes behind it. -/
structure Fentry (β : Type) where
  addr : Nat
  /-- `FENTRY_FLAG_SET` -/
  set : Bool
  blob : β

/-- What the client gives to `xahash_new_table`, and what is in memory that is allocated. -/
structure Funcs (κ β σ : Type) where
  hashFunc : κ → σ → BitVec 32
  matchFunc : β → κ → σ → Bool
  onInsertFunc : Option (β → κ → σ → β × σ)
  onFreeFunc : Option (β → σ → σ)
  memory : Nat → β

/-- `xahash_table_t` -/
structure Table (β σ : Type) where
  /-- The chain of each index. -/
  slots : List (List (Fentry β))
  state : σ
  /-- The address of the entry that is allocated next. -/
  fresh : Nat

/-- A call of a function of the client. -/
inductive Call (κ β : Type) where
  | onInsert (addr : Nat) (key : κ)
  | onFree (addr : Nat) (blob : β)

/-- What an operation returns, the table after it, and the calls that it made. -/
structure Done (κ β σ ρ : Type) where
  ret : ρ
  table : Table β σ
  calls : List (Call κ β)

/-- `_init_fentry` of an entry that is new. -/
def initFentry (f : Funcs κ β σ) (addr : Nat) : Fentry β :=
  { addr := addr, set := false, blob := f.memory addr }

/-- `_new_fixed_table` -/
def newFixedTable (f : Funcs κ β σ) (state : σ) (fixedTableSize : Nat) : Table β σ :=
  { slots := (List.range fixedTableSize).map fun i => [initFentry f i]
    state := state
    fresh := fixedTableSize }

variable (f : Funcs κ β σ)

/-! ## Finding -/

/-- `_fixed_hash_to_index` -/
def fixedHashToIndex (t : Table β σ) (hash : BitVec 32) : Nat := hash.toNat % t.slots.length

/-- `_get_fentry`: the chain that begins there. -/
def getFentry (t : Table β σ) (index : Nat) : List (Fentry β) := t.slots.getD index []

/-- `_match_fixed_entry` -/
def matchFixedEntry (key : κ) (state : σ) (fe : Fentry β) : Bool :=
  fe.set && f.matchFunc fe.blob key state

/-- The chain of a key. -/
def chainOf (t : Table β σ) (key : κ) : List (Fentry β) :=
  getFentry t (fixedHashToIndex t (f.hashFunc key t.state))

/-- `_find_fixed_entry` -/
def findFixedEntry (t : Table β σ) (key : κ) : Option (Fentry β) :=
  (chainOf f t key).find? (matchFixedEntry f key t.state)

/-- `xahash_find_entry` -/
def findEntry (t : Table β σ) (key : κ) : Option (Fentry β) := findFixedEntry f t key

/-! ## Inserting -/

/-- `_append_fentry`: the chain with an entry that is not set, the place of this entry, and
the next address. -/
def appendFentry (fresh : Nat) : List (Fentry β) → List (Fentry β) × Nat × Nat
  | [] => ([], 0, fresh)
  | fe :: rest =>
    if !fe.set then (fe :: rest, 0, fresh)
    else if rest.isEmpty then ([fe, initFentry f fresh], 1, fresh + 1)
    else
      let (chain, depth, fresh) := appendFentry fresh rest
      (fe :: chain, depth + 1, fresh)

/-- The place for a new entry in a chain: the head where it is not set, or one behind it. -/
def placeFentry (fresh : Nat) (chain : List (Fentry β)) : List (Fentry β) × Nat × Nat :=
  if chain.head?.any (·.set) then appendFentry f fresh chain else (chain, 0, fresh)

/-- The call of `on_insert_func`, if there is one: the bytes and the state after it. -/
def callOnInsert (fe : Fentry β) (key : κ) (state : σ) : β × σ × List (Call κ β) :=
  match f.onInsertFunc with
  | none => (fe.blob, state, [])
  | some onInsert =>
    let (blob, state) := onInsert fe.blob key state
    (blob, state, [.onInsert fe.addr key])

/-- `_insert_fixed_entry`, which is `xahash_insert_entry`: the address of the entry. -/
def insertEntry (t : Table β σ) (key : κ) : Done κ β σ (Option Nat) :=
  match findFixedEntry f t key with
  | some fe => { ret := some fe.addr, table := t, calls := [] }
  | none =>
    let index := fixedHashToIndex t (f.hashFunc key t.state)
    let (chain, depth, fresh) := placeFentry f t.fresh (getFentry t index)
    match chain[depth]? with
    | none => { ret := none, table := t, calls := [] }
    | some fe =>
      let (blob, state, calls) := callOnInsert f fe key t.state
      let chain := chain.set depth { fe with set := true, blob := blob }
      { ret := some fe.addr
        table := { slots := t.slots.set index chain, state := state, fresh := fresh }
        calls := calls }

/-! ## Freeing -/

/-- The call of `on_free_func`, if there is one and the entry is set: the state after it. -/
def callOnFree (fe : Fentry β) (state : σ) : σ × List (Call κ β) :=
  match f.onFreeFunc with
  | none => (state, [])
  | some onFree => if fe.set then (onFree fe.blob state, [.onFree fe.addr fe.blob]) else (state, [])

/-- What `_free_fentry` leaves of a chain: a linked entry is dropped, the head is not set. -/
def unlinkFentry (chain : List (Fentry β)) (depth : Nat) : List (Fentry β) :=
  if depth = 0 then chain.modify 0 fun fe => { fe with set := false } else chain.eraseIdx depth

/-- `_find_and_free_fentry`, which is `xahash_free_entry`. -/
def freeEntry (t : Table β σ) (key : κ) : Done κ β σ Bool :=
  let index := fixedHashToIndex t (f.hashFunc key t.state)
  let chain := getFentry t index
  let depth := chain.findIdx (matchFixedEntry f key t.state)
  match chain[depth]? with
  | none => { ret := false, table := t, calls := [] }
  | some fe =>
    let (state, calls) := callOnFree f fe t.state
    { ret := true
      table := { t with slots := t.slots.set index (unlinkFentry chain depth), state := state }
      calls := calls }

/-- `_free_fentry` of one entry after the other: the calls. -/
def freeFentries : List (Fentry β) → σ → σ × List (Call κ β)
  | [], state => (state, [])
  | fe :: rest, state =>
    let (state, calls) := callOnFree f fe state
    let (state, calls') := freeFentries rest state
    (state, calls ++ calls')

/-- `_free_fixed_table_members`: the entries behind the head of each chain, and then the head. -/
def freeFixedTableMembers : List (List (Fentry β)) → σ → σ × List (Call κ β)
  | [], state => (state, [])
  | chain :: slots, state =>
    let (state, calls) := freeFentries f (chain.tail ++ chain.head?.toList) state
    let (state, calls') := freeFixedTableMembers slots state
    (state, calls ++ calls')

/-- `xahash_free_table`: the calls. -/
def freeTable (t : Table β σ) : List (Call κ β) := (freeFixedTableMembers f t.slots t.state).2

/-! ## Walking -/

/-- `xahash_foreach_control_t` -/
inductive Control where
  | cont
  | stop
  | fail
  deriving DecidableEq

/-- `xahash_foreach_func_t`: what it returns, and the bytes, the state and its argument after
it. -/
abbrev ForeachFunc (β σ α : Type) := β → σ → α → Control × β × σ × α

/-- A walk: the state and the argument, the entries that were seen, and what ended it. -/
structure Walk (β σ α : Type) where
  state : σ
  arg : α
  count : BitVec 32
  seen : List (Fentry β)
  ended : Option Control

/-- The walk of one entry. -/
def walkFentry (callback : ForeachFunc β σ α) (w : Walk β σ α) (fe : Fentry β) :
    Fentry β × Walk β σ α :=
  if w.ended.isSome ∨ fe.set = false then (fe, w)
  else
    let (rc, blob, state, arg) := callback fe.blob w.state w.arg
    ({ fe with blob := blob },
      { state := state, arg := arg, count := w.count + 1, seen := w.seen ++ [fe]
        ended := if rc = .cont then none else some rc })

/-- The walk of a chain. -/
def walkChain (callback : ForeachFunc β σ α) :
    Walk β σ α → List (Fentry β) → List (Fentry β) × Walk β σ α
  | w, [] => ([], w)
  | w, fe :: rest =>
    let (fe, w) := walkFentry callback w fe
    let (rest, w) := walkChain callback w rest
    (fe :: rest, w)

/-- The walk of the chains. -/
def walkSlots (callback : ForeachFunc β σ α) :
    Walk β σ α → List (List (Fentry β)) → List (List (Fentry β)) × Walk β σ α
  | w, [] => ([], w)
  | w, chain :: slots =>
    let (chain, w) := walkChain callback w chain
    let (slots, w) := walkSlots callback w slots
    (chain :: slots, w)

/-- `_foreach_fentry`, which is `xahash_foreach_entry`: what it returns, the table, and the
walk. -/
def foreachEntry (t : Table β σ) (callback : ForeachFunc β σ α) (arg : α) :
    Int × Table β σ × Walk β σ α :=
  let w : Walk β σ α := { state := t.state, arg := arg, count := 0, seen := [], ended := none }
  let (slots, w) := walkSlots callback w t.slots
  let ret := if w.ended = some .fail then (-w.count).toInt else w.count.toInt
  (ret, { t with slots := slots, state := w.state }, w)

end Slurm.Xahash

/-!
## The hash table as a finite map (`common/xahash.c`)

`XahashContract` is about every run of insertions, searches, walks and frees: the table is a
finite map from the classes of the keys that match to the entries, and its client is called
once for every entry that is put into the table or taken from it.

* `Inv`: what every table of a run has.  Only the head of a chain may be unset.
* `Inv.find_eq`: what matches a key in its chain is what the map has for it.
* `toMap_cons`, `toMap_erase`: the map with an entry more and an entry less.
* `Inv.set_chain`: a change of one chain that keeps the invariant.
-/

namespace Slurm.Xahash

open Lib.Buckets Lib.Run List Function

variable {κ β σ α χ : Type} [DecidableEq χ]
variable {fe : Fentry β}

/-! ## The client -/

/-- A client whose match function compares classes of keys, and whose hash function is
consistent with it; and the size of its table. -/
structure Client (κ β σ χ : Type) [DecidableEq χ] where
  funcs : Funcs κ β σ
  keyClass : κ → χ
  entryClass : β → χ
  hashOf : χ → BitVec 32
  onInsert : β → κ → σ → β × σ
  match_eq : ∀ b k s, funcs.matchFunc b k s = decide (entryClass b = keyClass k)
  hash_eq : ∀ k s, funcs.hashFunc k s = hashOf (keyClass k)
  onInsert_eq : funcs.onInsertFunc = some onInsert
  insert_class : ∀ b k s, entryClass (onInsert b k s).1 = keyClass k
  state : σ
  size : Nat
  size_pos : 1 ≤ size

/-- A function for a walk, which leaves the keys of the entries as they are. -/
structure Visitor (p : Client κ β σ χ) (α : Type) where
  call : ForeachFunc β σ α
  keeps : ∀ b s a, p.entryClass (call b s a).2.1 = p.entryClass b

/-- An operation. -/
inductive Op (p : Client κ β σ χ) (α : Type) where
  | insert (key : κ)
  | find (key : κ)
  | free (key : κ)
  | foreach (visitor : Visitor p α) (arg : α)

variable (p : Client κ β σ χ)

/-- `xahash_new_table` -/
def newTable : Table β σ := newFixedTable p.funcs p.state p.size

/-- The table after an operation. -/
def exec (t : Table β σ) : Op p α → Option (Table β σ)
  | .insert key => some (insertEntry p.funcs t key).table
  | .find _ => some t
  | .free key => some (freeEntry p.funcs t key).table
  | .foreach visitor arg => some (foreachEntry t visitor.call arg).2.1

/-! ## The contract -/

/-- The entries of a chain that are set. -/
def liveOf (chain : List (Fentry β)) : List (Fentry β) := chain.filter (·.set)

/-- The entries of the table that are set, in order. -/
def live (t : Table β σ) : List (Fentry β) := (t.slots.map liveOf).flatten

/-- The class of an entry. -/
def Client.classOf (fe : Fentry β) : χ := p.entryClass fe.blob

/-- The table as a map. -/
def toMap (t : Table β σ) (c : χ) : Option (Fentry β) :=
  (live t).find? fun fe => decide (p.classOf fe = c)

/-- `xahash_insert_entry` -/
structure InsertHolds (t : Table β σ) (key : κ) (r : Done κ β σ (Option Nat)) : Prop where
  present : ∀ fe, toMap p t (p.keyClass key) = some fe →
    r.ret = some fe.addr ∧ r.table = t ∧ r.calls = []
  absent : toMap p t (p.keyClass key) = none →
    ∃ fe, r.ret = some fe.addr ∧ (∀ e ∈ live t, e.addr ≠ fe.addr) ∧
      toMap p r.table = Function.update (toMap p t) (p.keyClass key) (some fe) ∧
      r.calls = [.onInsert fe.addr key]
  reuse : toMap p t (p.keyClass key) = none →
    ∀ head rest, chainOf p.funcs t key = head :: rest → head.set = false →
      r.ret = some head.addr ∧ r.table.fresh = t.fresh

/-- The call for an entry that is freed. -/
def freeCalls (fe : Fentry β) : List (Call κ β) :=
  if p.funcs.onFreeFunc.isSome then [.onFree fe.addr fe.blob] else []

/-- `xahash_free_entry` -/
structure FreeHolds (t : Table β σ) (key : κ) (r : Done κ β σ Bool) : Prop where
  absent : toMap p t (p.keyClass key) = none → r.ret = false ∧ r.table = t ∧ r.calls = []
  present : ∀ fe, toMap p t (p.keyClass key) = some fe →
    r.ret = true ∧ r.calls = freeCalls p fe ∧
      toMap p r.table = Function.update (toMap p t) (p.keyClass key) none
  hole : ∀ head rest, chainOf p.funcs t key = head :: rest →
    toMap p t (p.keyClass key) = some head →
      chainOf p.funcs r.table key = { head with set := false } :: rest

/-- `xahash_foreach_entry` -/
structure ForeachHolds (t : Table β σ) (visitor : Visitor p α) (r : Int × Table β σ × Walk β σ α) :
    Prop where
  once : (r.2.2.seen.map Fentry.addr).Nodup
  seen : r.2.2.seen <+: live t
  all : r.2.2.ended = none → r.2.2.seen = live t
  cont : (∀ b s a, (visitor.call b s a).1 = .cont) → r.2.2.ended = none
  ret : r.1 =
    if r.2.2.ended = some .fail then (-BitVec.ofNat 32 r.2.2.seen.length).toInt
    else (BitVec.ofNat 32 r.2.2.seen.length).toInt
  kept : ∀ c, (toMap p r.2.1 c).map Fentry.addr = (toMap p t c).map Fentry.addr

/-- What each operation must do. -/
def StepHolds (t : Table β σ) : Op p α → Prop
  | .insert key => InsertHolds p t key (insertEntry p.funcs t key)
  | .find key => findEntry p.funcs t key = toMap p t (p.keyClass key)
  | .free key => FreeHolds p t key (freeEntry p.funcs t key)
  | .foreach visitor arg => ForeachHolds p t visitor (foreachEntry t visitor.call arg)

/-- What every table of a run has: no key is twice in a chain or in the table, and to free the
table frees every entry once. -/
structure StateHolds (t : Table β σ) : Prop where
  chains : ∀ chain ∈ t.slots, ((liveOf chain).map p.classOf).Nodup
  nodup : ((live t).map p.classOf).Nodup
  free : (freeTable p.funcs t).Perm ((live t).flatMap (freeCalls p))

/-- The hash table is a finite map, in every run. -/
structure XahashContract (ops : List (Op p α)) : Prop where
  start : ∀ c, toMap p (newTable p) c = none
  states : Always (exec p) (StateHolds p) (newTable p) ops
  steps : EachStep (exec p) (fun t op _ => StepHolds p t op) (newTable p) ops

/-! ## The invariant -/

/-- A chain has a head, and only that may be unset. -/
def ChainOk (chain : List (Fentry β)) : Prop :=
  ∃ head rest, chain = head :: rest ∧ ∀ fe ∈ rest, fe.set = true

/-- Where a class has its home. -/
def home (c : χ) : Nat := (p.hashOf c).toNat % p.size

/-- What every table of a run has. -/
structure Inv (t : Table β σ) : Prop where
  length : t.slots.length = p.size
  chainOk : ∀ chain ∈ t.slots, ChainOk chain
  placed : Placed p.classOf (home p) (t.slots.map liveOf)
  addrs : (t.slots.flatten.map Fentry.addr).Nodup
  lt_fresh : ∀ fe ∈ t.slots.flatten, fe.addr < t.fresh

variable {p} {t : Table β σ}

theorem live_sublist (t : Table β σ) : (live t).Sublist t.slots.flatten := by
  unfold live
  generalize t.slots = slots
  induction slots with
  | nil => exact List.Sublist.refl _
  | cons chain slots ih =>
    rw [map_cons, flatten_cons, flatten_cons]
    exact List.filter_sublist.append ih

/-- The index of a key, and its chain. -/
theorem Inv.chain (h : Inv p t) (key : κ) :
    fixedHashToIndex t (p.funcs.hashFunc key t.state) = home p (p.keyClass key) ∧
      t.slots[home p (p.keyClass key)]? = some (chainOf p.funcs t key) ∧
      ChainOk (chainOf p.funcs t key) := by
  have hindex : fixedHashToIndex t (p.funcs.hashFunc key t.state) = home p (p.keyClass key) := by
    rw [fixedHashToIndex, p.hash_eq, h.length]
    rfl
  have hlt : home p (p.keyClass key) < t.slots.length := by
    rw [h.length]
    exact Nat.mod_lt _ p.size_pos
  have hget : t.slots[home p (p.keyClass key)]? = some (chainOf p.funcs t key) := by
    unfold chainOf getFentry
    rw [hindex, getD_eq_getElem?_getD, getElem?_eq_getElem hlt]
    rfl
  exact ⟨hindex, hget, h.chainOk _ (mem_of_getElem? hget)⟩

theorem Inv.nodup (h : Inv p t) : ((live t).map p.classOf).Nodup := h.placed.nodup_flatten

/-- What matches a key in its chain is what the map has for it. -/
theorem Inv.find_eq (h : Inv p t) (key : κ) :
    (chainOf p.funcs t key).find? (matchFixedEntry p.funcs key t.state) =
      toMap p t (p.keyClass key) := by
  have hbucket : (t.slots.map liveOf)[home p (p.keyClass key)]? =
      some (liveOf (chainOf p.funcs t key)) := by
    rw [getElem?_map, (h.chain key).2.1]
    rfl
  unfold toMap live
  rw [← h.placed.find?_home hbucket, liveOf, find?_filter]
  congr 1
  funext fe
  rw [matchFixedEntry, p.match_eq, Bool.decide_and, Bool.decide_eq_true, Bool.decide_eq_true]
  rfl

theorem findEntry_eq (h : Inv p t) (key : κ) :
    findEntry p.funcs t key = toMap p t (p.keyClass key) :=
  h.find_eq key

theorem toMap_mem (c : χ) (h : toMap p t c = some fe) : fe ∈ live t ∧ p.classOf fe = c :=
  find?_spec h

/-- An entry more. -/
theorem toMap_cons {t' : Table β σ} (h : ((live t').map p.classOf).Nodup)
    (hperm : (live t').Perm (fe :: live t)) :
    toMap p t' = Function.update (toMap p t) (p.classOf fe) (some fe) := by
  funext c
  have hnodup : ((fe :: live t).map p.classOf).Nodup := (hperm.map p.classOf).nodup_iff.mp h
  show (live t').find? _ = _
  rw [← find?_perm h hperm c]
  by_cases hc : c = p.classOf fe
  · rw [hc, update_self, find?_cons_of_pos (by simp)]
  · rw [update_of_ne hc, find?_cons_of_neg (by simpa using fun h => hc h.symm)]
    rfl

/-- An entry less. -/
theorem toMap_erase {t' : Table β σ} (h : ((live t).map p.classOf).Nodup)
    (hperm : (live t).Perm (fe :: live t')) :
    toMap p t' = Function.update (toMap p t) (p.classOf fe) none := by
  have hnodup := (hperm.map p.classOf).nodup_iff.mp h
  rw [map_cons, nodup_cons] at hnodup
  have hcons : toMap p t = Function.update (toMap p t') (p.classOf fe) (some fe) :=
    toMap_cons h hperm
  have hnone : toMap p t' (p.classOf fe) = none := find?_eq_none.mpr hnodup.1
  rw [hcons, update_idem, ← hnone, update_eq_self]

/-- A change of one chain, in the tables of all and of the live entries. -/
theorem set_chain {slots : List (List (Fentry β))} {i : Nat} {chain : List (Fentry β)}
    (hget : slots[i]? = some chain) (chain' : List (Fentry β)) :
    (∃ rest, slots.flatten.Perm (chain ++ rest) ∧
        (slots.set i chain').flatten.Perm (chain' ++ rest)) ∧
      ∃ rest, (slots.map liveOf).flatten.Perm (liveOf chain ++ rest) ∧
        ((slots.set i chain').map liveOf).flatten.Perm (liveOf chain' ++ rest) := by
  have hlive : (slots.map liveOf)[i]? = some (liveOf chain) := by
    rw [getElem?_map, hget]
    rfl
  obtain ⟨rest, hperm, hset⟩ := flatten_set hget
  obtain ⟨rest', hperm', hset'⟩ := flatten_set hlive
  refine ⟨⟨rest, hperm, hset chain'⟩, rest', hperm', ?_⟩
  rw [map_set]
  exact hset' (liveOf chain')

/-- A chain is changed, and only has entries of its home then. -/
theorem Inv.set_chain (h : Inv p t) {i : Nat} {chain chain' : List (Fentry β)}
    (hget : t.slots[i]? = some chain) (hok : ChainOk chain')
    (hhome : ∀ fe ∈ liveOf chain', home p (p.classOf fe) = i)
    (hnodup : ((liveOf chain').map p.classOf).Nodup) {fresh : Nat} (hfresh : t.fresh ≤ fresh)
    (haddrs : ∀ rest, (chain ++ rest : List (Fentry β)).Perm t.slots.flatten →
      ((chain' ++ rest).map Fentry.addr).Nodup ∧ ∀ fe ∈ chain', fe.addr < fresh) (state : σ) :
    Inv p { slots := t.slots.set i chain', state := state, fresh := fresh } := by
  obtain ⟨⟨rest, hperm, hset⟩, -⟩ := Xahash.set_chain hget chain'
  obtain ⟨hnodup', hlt⟩ := haddrs rest hperm.symm
  exact {
    length := by
      rw [length_set, h.length]
    chainOk := by
      intro c hc
      rcases mem_or_eq_of_mem_set hc with hc | rfl
      · exact h.chainOk c hc
      · exact hok
    placed := by
      show Placed _ _ ((t.slots.set i chain').map liveOf)
      rw [map_set]
      exact h.placed.set hhome hnodup
    addrs := ((hset.map Fentry.addr).nodup_iff).mpr hnodup'
    lt_fresh := by
      intro fe hfe
      rcases List.mem_append.mp (hset.mem_iff.mp hfe) with hfe | hfe
      · exact hlt fe hfe
      · have hold := h.lt_fresh fe (hperm.mem_iff.mpr (mem_append_right _ hfe))
        exact Nat.lt_of_lt_of_le hold hfresh }

end Slurm.Xahash
