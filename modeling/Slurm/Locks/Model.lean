import Slurm.Lib.OrderedLocks

/-!
# The read and write locks of slurmctld

Model of `src/slurmctld/locks.c` and of the locks of `src/common/assoc_mgr.c`: two tables of
locks, with a call to take locks and one to release them, and the levels each thread remembers
to check its calls with.  Threads run handlers, and take and release one lock at a time.
-/

namespace Slurm.Locks

open Lib.OrderedLocks Function

/-- `lock_level_t` -/
inductive LockLevel where
  | noLock | readLock | writeLock
  deriving DecidableEq

/-- How a lock of the level is held. -/
def LockLevel.mode : LockLevel → Option Bool
  | noLock => none
  | readLock => some false
  | writeLock => some true

/-- `slurmctld_locks` and `assoc_mgr_locks` -/
inductive Table where
  | slurmctld | assocMgr
  deriving DecidableEq

/-- `lock_datatype_t` and, from `assocLock` on, `assoc_mgr_lock_datatype_t`. -/
inductive Lock where
  | confLock | jobLock | nodeLock | partLock | fedLock
  | assocLock | fileLock | qosLock | resLock | tresLock | userLock | wckeyLock
  deriving DecidableEq

instance : Fintype Lock :=
  ⟨{.confLock, .jobLock, .nodeLock, .partLock, .fedLock, .assocLock, .fileLock, .qosLock, .resLock,
    .tresLock, .userLock, .wckeyLock}, fun k => by cases k <;> decide⟩

instance : Preorder Lock := Preorder.lift Lock.ctorIdx

instance : DecidableLT Lock := fun k l => inferInstanceAs (Decidable (k.ctorIdx < l.ctorIdx))

/-- The locks of a table, in the order in which they are taken. -/
def Table.locks : Table → List Lock
  | slurmctld => [.confLock, .jobLock, .nodeLock, .partLock, .fedLock]
  | assocMgr =>
    [.assocLock, .fileLock, .qosLock, .resLock, .tresLock, .userLock, .wckeyLock]

def Lock.table (k : Lock) : Table := if k ∈ Table.slurmctld.locks then .slurmctld else .assocMgr

/-- `slurmctld_lock_t` and `assoc_mgr_lock_t`: levels for the locks of one table. -/
structure LockLevels (t : Table) where
  level : Lock → LockLevel
  own : ∀ k, k.table ≠ t → level k = .noLock
  deriving DecidableEq

def LockLevels.none {t : Table} : LockLevels t := ⟨fun _ => .noLock, fun _ _ => rfl⟩

variable {t : Table}

/-! ## The calls -/

def lockTable (levels : LockLevels t) : List (Request Lock) :=
  acquireAll t.locks fun k => (levels.level k).mode

def unlockTable (levels : LockLevels t) : List (Request Lock) :=
  releaseAll t.locks.reverse fun k => (levels.level k).mode

/-- `lock_slurmctld` -/
def lockSlurmctld (levels : LockLevels .slurmctld) : List (Request Lock) := lockTable levels

/-- `unlock_slurmctld` -/
def unlockSlurmctld (levels : LockLevels .slurmctld) : List (Request Lock) := unlockTable levels

/-- `assoc_mgr_lock` -/
def assocMgrLock (levels : LockLevels .assocMgr) : List (Request Lock) := lockTable levels

/-- `assoc_mgr_unlock` -/
def assocMgrUnlock (levels : LockLevels .assocMgr) : List (Request Lock) := unlockTable levels

/-- `slurmctld_locked` or `assoc_mgr_locked`, and `thread_locks`: the levels are cleared with
the flag. -/
structure ThreadLocks (t : Table) where
  locked : Bool
  levels : LockLevels t
  cleared : locked = false → levels = .none

def ThreadLocks.clear : ThreadLocks t := ⟨false, .none, fun _ => rfl⟩

/-- `_store_locks`, or `none` where the assertion on it fails. -/
def storeLocks (s : ThreadLocks t) (levels : LockLevels t) : Option (ThreadLocks t) :=
  if s.locked then none else some ⟨true, levels, fun h => by cases h⟩

/-- `_clear_locks`, or `none` where the assertion on it fails. -/
def clearLocks (s : ThreadLocks t) (levels : LockLevels t) : Option (ThreadLocks t) :=
  if s.locked = true ∧ s.levels = levels then some .clear else none

/-- `verify_lock` and `verify_assoc_lock` -/
def verifyLock (s : ThreadLocks t) (datatype : Lock) (level : LockLevel) : Bool :=
  level.ctorIdx ≤ (s.levels.level datatype).ctorIdx

inductive Call where
  | lock (t : Table) (levels : LockLevels t)
  | unlock (t : Table) (levels : LockLevels t)

def Call.requests : Call → List (Request Lock)
  | lock .slurmctld levels => lockSlurmctld levels
  | lock .assocMgr levels => assocMgrLock levels
  | unlock .slurmctld levels => unlockSlurmctld levels
  | unlock .assocMgr levels => assocMgrUnlock levels

/-- What a thread remembers. -/
abbrev Local := ∀ t, ThreadLocks t

/-- The assertion at the start of a call. -/
def Local.call (l : Local) : Call → Option Local
  | .lock t levels => (storeLocks (l t) levels).map (update l t)
  | .unlock t levels => (clearLocks (l t) levels).map (update l t)

/-- The note of `locks.h`: `lock_slurmctld` comes before `assoc_mgr_lock`. -/
def Noted (l : Local) : Call → Prop
  | .lock .slurmctld _ => (l .assocMgr).locked = false
  | _ => True

/-- The calls keep to the note, pass the assertions and leave nothing locked. -/
def Follows : Local → List Call → Prop
  | l, [] => ∀ t, (l t).locked = false
  | l, c :: calls => Noted l c ∧ ∃ l', l.call c = some l' ∧ Follows l' calls

/-- The calls that a thread makes for a request that it handles. -/
structure Handler where
  calls : List Call
  follows : Follows (fun _ => .clear) calls

/-! ## The threads -/

structure Thread where
  remembered : Local
  held : Held Lock
  /-- What is left of the call that the thread is in. -/
  now : List (Request Lock)
  /-- The calls after it. -/
  calls : List Call

def Thread.start : Thread := ⟨fun _ => .clear, fun _ => none, [], []⟩

def Thread.Idle (th : Thread) : Prop := th.now = [] ∧ th.calls = []

variable {n : Nat}

/-- `slurm_rwlock_rdlock` or `slurm_rwlock_wrlock` returns.  With `writers`, a reader also
gives way to the writers that wait. -/
def Granted (writers : Bool) (s : Fin n → Thread) (i : Fin n) (r : Request Lock) : Prop :=
  Free (fun j => (s j).held) i r ∧
    ∀ k, r = .acquire k false → writers = true → ∀ j, (s j).now.head? ≠ some (.acquire k true)

instance (writers : Bool) (s : Fin n → Thread) (i : Fin n) (r : Request Lock) :
    Decidable (Granted writers s i r) := by
  unfold Granted
  infer_instance

inductive Command (n : Nat) where
  /-- A thread with nothing to do starts a handler. -/
  | start (i : Fin n) (h : Handler)
  /-- A thread takes or releases its next lock, or starts its next call. -/
  | go (i : Fin n)

def exec (writers : Bool) (s : Fin n → Thread) : Command n → Option (Fin n → Thread)
  | .start i h =>
    if (s i).now = [] ∧ (s i).calls.isEmpty then
      some (update s i { s i with calls := h.calls })
    else none
  | .go i =>
    match (s i).now, (s i).calls with
    | r :: now, _ =>
      if Granted writers s i r then
        some (update s i { s i with held := r.after (s i).held, now := now })
      else none
    | [], c :: calls => ((s i).remembered.call c).map fun l =>
        update s i { s i with remembered := l, now := c.requests, calls := calls }
    | [], [] => none

/-- `_report_lock_set` -/
def reportLockSet (writers : Bool) (s : Fin n → Thread) (datatype : Lock) : String :=
  if ∃ i, (s i).held datatype = some true ∨
      writers = true ∧ (s i).now.head? = some (.acquire datatype true) then "W"
  else if ∃ i, (s i).held datatype ≠ none then "R"
  else ""

/-- `report_locks_set` -/
def reportLocksSet (writers : Bool) (s : Fin n → Thread) : Nat :=
  (Table.slurmctld.locks.map fun datatype => (reportLockSet writers s datatype).length).sum

end Slurm.Locks
