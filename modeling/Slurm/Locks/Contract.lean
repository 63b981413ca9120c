import Slurm.Lib.Run
import Slurm.Locks.Model

/-!
# Threads that lock in order do not block each other

* `call_spec`: a call takes what the thread then remembers to hold, in the order of the locks.
* `Inv.exec`: the invariant of the threads.
* `locksContract_always`: in every run the locks are held as they should be, and while a handler
  runs some thread can go on.
-/

namespace Slurm.Locks

open Lib.OrderedLocks Lib.Run Function Option

variable {n : Nat} {writers : Bool} {s s' : Fin n → Thread}

/-- What is to hold of the threads at any time. -/
structure LocksContract (writers : Bool) (s : Fin n → Thread) : Prop where
  exclusive : Exclusive fun i => (s i).held
  /-- Between its calls a thread holds what it remembers. -/
  verified : ∀ i, (s i).now = [] → ∀ k,
    (verifyLock ((s i).remembered k.table) k .readLock = true ↔ (s i).held k ≠ none) ∧
    (verifyLock ((s i).remembered k.table) k .writeLock = true ↔ (s i).held k = some true)
  /-- There is no deadlock, and no assertion fails. -/
  live : (∃ i, ¬(s i).Idle) → ∃ i, (exec writers s (.go i)).isSome
  /-- Nothing is left locked. -/
  free : (∀ i, (s i).Idle) → (∀ i k, (s i).held k = none) ∧ reportLocksSet writers s = 0

/-! ## The calls of a thread -/

def Local.held (l : Local) : Held Lock := fun k => ((l k.table).levels.level k).mode

theorem mem_locks (t : Table) (k : Lock) : k ∈ t.locks ↔ k.table = t := by
  revert k
  cases t <;> decide

theorem lt_of_table : ∀ k m : Lock, k.table = .slurmctld → m.table = .assocMgr → k < m := by
  decide

theorem locks_nodup (t : Table) : t.locks.Nodup := by
  cases t <;> decide

theorem Local.held_of_clear {l : Local} {k : Lock} (h : (l k.table).locked = false) :
    l.held k = none := by
  rw [held, (l k.table).cleared h]
  rfl

/-- The requests change what is held as it is remembered, in the order of the locks. -/
def Leads (l : Local) (rs : List (Request Lock)) (l' : Local) : Prop :=
  holds l.held rs = l'.held ∧ ∀ todo, Ordered l'.held todo → Ordered l.held (rs ++ todo)

theorem lock_spec {l : Local} {t : Table} {a : ThreadLocks t} (levels : LockLevels t)
    (hnoted : Noted l (.lock t levels)) (hstore : storeLocks (l t) levels = some a) :
    Leads l (lockTable levels) (update l t a) := by
  rw [storeLocks, ite_none_left_eq_some] at hstore
  obtain ⟨hlocked, ha⟩ := hstore
  cases ha
  have hfree : (l t).locked = false := Bool.eq_false_iff.mpr hlocked
  have heq : holds l.held (lockTable levels) =
      Local.held (update l t ⟨true, levels, fun h => by cases h⟩) := by
    funext k
    simp only [lockTable, holds_acquireAll (locks_nodup t), mem_locks]
    by_cases hk : k.table = t
    · subst hk
      rw [if_pos rfl, Local.held_of_clear hfree, or_none, Local.held, update_self]
    · rw [if_neg hk, Local.held, Local.held, update_of_ne hk]
  refine ⟨heq, fun todo htodo => ordered_acquireAll ?_ ?_ (heq ▸ htodo)⟩
  · cases t <;> decide
  · intro k hk m hm
    rw [mem_locks] at hm
    -- a lock that is held is one of the other table, which comes first
    have hother : (l k.table).locked ≠ false := fun h => hk (Local.held_of_clear h)
    cases t <;> cases hkt : k.table <;> rw [hkt] at hother
    · exact absurd hfree hother
    · exact absurd hnoted hother
    · exact lt_of_table k m hkt hm
    · exact absurd hfree hother

theorem unlock_spec {l : Local} {t : Table} {a : ThreadLocks t} {levels : LockLevels t}
    (hclear : clearLocks (l t) levels = some a) :
    Leads l (unlockTable levels) (update l t a) := by
  rw [clearLocks, ite_none_right_eq_some] at hclear
  obtain ⟨⟨-, rfl⟩, ha⟩ := hclear
  cases ha
  have heq : holds l.held (unlockTable (l t).levels) = Local.held (update l t .clear) := by
    funext k
    simp only [unlockTable, holds_releaseAll, List.mem_reverse, mem_locks]
    by_cases hk : k.table = t
    · subst hk
      rw [Local.held_of_clear (l := update l _ _) (by rw [update_self]; rfl)]
      split
      · rfl
      · rename_i hnone
        exact not_not.mp fun hne => hnone ⟨rfl, hne⟩
    · rw [if_neg fun h => hk h.1, Local.held, Local.held, update_of_ne hk]
  refine ⟨heq, fun todo htodo => ordered_releaseAll (List.nodup_reverse.mpr (locks_nodup t)) ?_
    (heq ▸ htodo)⟩
  intro k hk hlevel
  rw [List.mem_reverse, mem_locks] at hk
  subst hk
  exact hlevel

theorem call_spec {l l' : Local} {c : Call} (hnoted : Noted l c) (hcall : l.call c = some l') :
    Leads l c.requests l' := by
  cases c with
  | lock t levels =>
    obtain ⟨a, hstore, rfl⟩ := Option.map_eq_some_iff.mp hcall
    cases t <;> exact lock_spec levels hnoted hstore
  | unlock t levels =>
    obtain ⟨a, hclear, rfl⟩ := Option.map_eq_some_iff.mp hcall
    cases t <;> exact unlock_spec hclear

theorem ordered_of_follows {calls : List Call} {l : Local} (h : Follows l calls) :
    Ordered l.held (calls.flatMap Call.requests) := by
  induction calls generalizing l with
  | nil => exact fun k => Local.held_of_clear (h k.table)
  | cons c calls ih =>
    obtain ⟨hnoted, l', hcall, hrest⟩ := h
    exact (call_spec hnoted hcall).2 _ (ih hrest)

/-! ## The invariant -/

/-- All that a thread has to request. -/
def Thread.todo (th : Thread) : List (Request Lock) := th.now ++ th.calls.flatMap Call.requests

structure Thread.Ok (th : Thread) : Prop where
  ordered : Ordered th.held th.todo
  remembers : holds th.held th.now = th.remembered.held
  follows : Follows th.remembered th.calls

structure Inv (s : Fin n → Thread) : Prop where
  exclusive : Exclusive fun i => (s i).held
  ok : ∀ i, (s i).Ok

/-- One thread goes on, to where it is as it should be. -/
theorem Inv.update (h : Inv s) {i : Fin n} {th : Thread} (hth : th.Ok)
    (hheld : Exclusive (update (fun j => (s j).held) i th.held)) : Inv (update s i th) where
  exclusive := by
    rwa [show (fun j => (Function.update s i th j).held) = _ from
      funext (apply_update (fun _ => Thread.held) s i th)]
  ok := (forall_update_iff s _).mpr ⟨hth, fun j _ => h.ok j⟩

theorem Inv.same (h : Inv s) (i : Fin n) :
    Exclusive (Function.update (fun j => (s j).held) i (s i).held) := by
  rw [update_eq_self_iff.mpr rfl]
  exact h.exclusive

theorem Thread.Ok.idle {th : Thread} (h : th.Ok) (hidle : th.Idle) :
    (∀ t, (th.remembered t).locked = false) ∧ th.held = fun _ => none := by
  obtain ⟨hordered, -, hfollows⟩ := h
  rw [todo, hidle.1, hidle.2] at hordered
  rw [hidle.2] at hfollows
  exact ⟨hfollows, funext hordered⟩

theorem eq_clear {t : Table} {a : ThreadLocks t} (h : a.locked = false) : a = .clear := by
  have hlevels := a.cleared h
  cases a
  cases h
  cases hlevels
  rfl

theorem Inv.exec {c : Command n} (h : Inv s) (hexec : exec writers s c = some s') : Inv s' := by
  cases c with
  | start i handler =>
    rw [Locks.exec, ite_none_right_eq_some] at hexec
    obtain ⟨⟨hnow, hcalls⟩, hs'⟩ := hexec
    cases hs'
    obtain ⟨hclear, hnone⟩ := (h.ok i).idle ⟨hnow, List.isEmpty_iff.mp hcalls⟩
    refine h.update ⟨?_, (h.ok i).remembers, ?_⟩ (h.same i)
    · rw [Thread.todo, hnow, hnone]
      exact ordered_of_follows handler.follows
    · rw [show (s i).remembered = fun _ => .clear from funext fun t => eq_clear (hclear t)]
      exact handler.follows
  | go i =>
    obtain ⟨hordered, hremembers, hfollows⟩ := h.ok i
    rw [Locks.exec] at hexec
    split at hexec
    next r now hnow =>
      rw [ite_none_right_eq_some] at hexec
      obtain ⟨hgranted, hs'⟩ := hexec
      cases hs'
      simp only [Thread.todo, hnow] at hordered hremembers
      exact h.update ⟨hordered.after, hremembers, hfollows⟩ (exclusive_next h.exclusive hgranted.1)
    next c calls hnow hcalls =>
      obtain ⟨l, hcall, hs'⟩ := Option.map_eq_some_iff.mp hexec
      subst hs'
      simp only [Thread.todo, hnow, hcalls] at hordered hremembers hfollows
      obtain ⟨hnoted, l', hl', hrest⟩ := hfollows
      rw [hcall, Option.some.injEq] at hl'
      subst hl'
      have hholds := (call_spec hnoted hcall).1
      exact h.update ⟨hordered, (congrArg (holds · _) hremembers).trans hholds, hrest⟩ (h.same i)
    next => cases hexec

/-! ## The contract -/

/-- Between two calls a thread can start the next one, and else the thread that any table of
locks lets go on can. -/
theorem Inv.live (h : Inv s) (hbusy : ∃ i, ¬(s i).Idle) :
    ∃ i, (Locks.exec writers s (.go i)).isSome := by
  by_cases hcalls : ∀ i, (s i).now = [] → (s i).calls = []
  · obtain ⟨i, hi⟩ := hbusy
    have hnow : (s i).now ≠ [] := fun hnow => hi ⟨hnow, hcalls i hnow⟩
    obtain ⟨j, r, todo, htodo, hfree, hwait⟩ :=
      exists_granted (s := fun j => ⟨(s j).held, (s j).todo⟩) (fun j => (h.ok j).ordered) (t := i)
        (List.append_ne_nil_of_left_ne_nil hnow _)
    change (s j).now ++ _ = _ at htodo
    rcases hnow : (s j).now with _ | ⟨r', now⟩ <;> rw [hnow] at htodo
    · rw [hcalls j hnow] at htodo
      cases htodo
    · obtain ⟨rfl, -⟩ := List.cons.inj htodo
      have hgranted : Granted writers s j r' := by
        refine ⟨hfree, fun k hr _ m hm => ?_⟩
        obtain ⟨rest, hrest⟩ := List.head?_eq_some_iff.mp hm
        exact hwait k hr m _ (congrArg (· ++ _) hrest)
      refine ⟨j, ?_⟩
      simp only [Locks.exec, hnow, if_pos hgranted]
      rfl
  · push Not at hcalls
    obtain ⟨i, hnow, hne⟩ := hcalls
    obtain ⟨c, calls, hcalls⟩ := List.exists_cons_of_ne_nil hne
    obtain ⟨-, l, hl, -⟩ := hcalls ▸ (h.ok i).follows
    exact ⟨i, by simp [Locks.exec, hnow, hcalls, hl]⟩

theorem Inv.contract (h : Inv s) : LocksContract writers s where
  exclusive := h.exclusive
  verified i hnow k := by
    have hheld := (h.ok i).remembers
    rw [hnow] at hheld
    rw [show (s i).held k = _ from congrFun hheld k, Local.held, verifyLock, verifyLock]
    cases ((s i).remembered k.table).levels.level k <;> decide
  live := h.live
  free hidle := by
    have hnone : ∀ i k, (s i).held k = none := fun i => congrFun ((h.ok i).idle (hidle i)).2
    have hreport : ∀ k, reportLockSet writers s k = "" := by
      intro k
      have hnow : ∀ i, (s i).now = [] := fun i => (hidle i).1
      simp [reportLockSet, hnone, hnow]
    exact ⟨hnone, by simp [reportLocksSet, hreport]⟩

/-- Whatever the handlers lock, in whatever order the threads go on, and whether or not a
waiting writer comes before a reader. -/
theorem locksContract_always (writers : Bool) (cs : List (Command n)) :
    Always (exec writers) (LocksContract writers) (fun _ => .start) cs := by
  have hinv : Inv fun _ : Fin n => Thread.start := by
    refine ⟨?_, fun _ => ⟨fun _ => rfl, rfl, fun _ => rfl⟩⟩
    intro i j _ k hk
    cases hk
  exact (always_eachStep_of_inv (Q := fun _ _ _ => True) (fun _ h => h.contract)
    (fun _ _ _ h hexec => ⟨h.exec hexec, trivial⟩) hinv cs).1

end Slurm.Locks
