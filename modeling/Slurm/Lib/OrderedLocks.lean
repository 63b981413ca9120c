import Mathlib

/-!
# Read and write locks taken in a fixed order

A thread has the locks it holds, each to read or to write, and the requests it has left.  It
is `Ordered` when each lock it takes is greater than all it holds, and all are released.

* `exclusive_next`: a lock held to write is held by one thread only.
* `exists_granted`: while a thread has a request left, there is a thread whose request is
  granted, also where a reader gives way to the writers that wait.
* `ordered_acquireAll`, `ordered_releaseAll`: a list of locks taken in its order, and released.
-/

namespace Lib.OrderedLocks

open Option Function

variable {T L : Type} [DecidableEq L]

/-- What a thread asks for. -/
inductive Request (L : Type) where
  | acquire (l : L) (write : Bool)
  | release (l : L)
  deriving DecidableEq

/-- The locks a thread holds: `some true` to write, `some false` to read. -/
abbrev Held (L : Type) := L → Option Bool

variable {held levels : Held L} {order : List L} {todo : List (Request L)}

/-- The locks held after a request. -/
def Request.after (held : Held L) : Request L → Held L
  | .acquire l write => Function.update held l (some write)
  | .release l => Function.update held l none

structure Thread (L : Type) where
  held : Held L
  todo : List (Request L)

/-- No other thread holds a lock that is in the way of the request. -/
def Free (held : T → Held L) (t : T) : Request L → Prop
  | .acquire l true => ∀ u, u ≠ t → held u l = none
  | .acquire l false => ∀ u, u ≠ t → held u l ≠ some true
  | .release _ => True

instance [Fintype T] [DecidableEq T] (held : T → Held L) (t : T) (r : Request L) : Decidable (Free held t r) := by
  unfold Free
  split <;> infer_instance

/-- A lock that one thread holds to write, no other thread holds. -/
def Exclusive (held : T → Held L) : Prop :=
  ∀ t u, t ≠ u → ∀ l, held t l = some true → held u l = none

theorem exclusive_next [DecidableEq T] {held : T → Held L} {t : T} {r : Request L}
    (h : Exclusive held) (hfree : Free held t r) :
    Exclusive (Function.update held t (r.after (held t))) := by
  intro a b hab l hl
  cases r with
  | acquire k write =>
    simp only [Request.after, update_apply, ite_apply] at hl ⊢
    -- where it is read no other thread writes it, and where it is written none has it
    cases write <;> grind [Exclusive, Free]
  | release k =>
    simp only [Request.after, update_apply, ite_apply] at hl ⊢
    grind [Exclusive]

/-! ## Lists of locks -/

/-- The requests for the locks of a list that `levels` has. -/
def acquireAll (order : List L) (levels : Held L) : List (Request L) :=
  order.filterMap fun l => (levels l).map fun write => .acquire l write

/-- The releases of the locks of a list that `levels` has. -/
def releaseAll (order : List L) (levels : Held L) : List (Request L) :=
  order.filterMap fun l => (levels l).map fun _ => .release l

/-- The locks held after a list of requests. -/
def holds (held : Held L) (rs : List (Request L)) : Held L := rs.foldl Request.after held

theorem holds_acquireAll (hnodup : order.Nodup) (k : L) :
    holds held (acquireAll order levels) k =
      if k ∈ order then (levels k).or (held k) else held k := by
  induction order generalizing held with
  | nil => rfl
  | cons l order ih =>
    obtain ⟨hl, hnodup⟩ := List.nodup_cons.mp hnodup
    rcases eq_or_ne k l with rfl | hkl
    · cases hlevel : levels k <;> simp_all [acquireAll, holds, Request.after]
    · cases hlevel : levels l <;> simp_all [acquireAll, holds, Request.after]

theorem holds_releaseAll (k : L) :
    holds held (releaseAll order levels) k =
      if k ∈ order ∧ levels k ≠ none then none else held k := by
  induction order generalizing held with
  | nil => simp [holds, releaseAll]
  | cons l order ih =>
    rcases eq_or_ne k l with rfl | hkl
    · cases hlevel : levels k <;> simp_all [releaseAll, holds, Request.after]
    · cases hlevel : levels l <;> simp_all [releaseAll, holds, Request.after]

/-! ## The order -/

variable [Preorder L]

/-- Every lock is taken after the smaller ones, only locks that are held are released, and
all are at the end. -/
def Ordered : Held L → List (Request L) → Prop
  | held, [] => ∀ l, held l = none
  | held, .acquire l write :: todo =>
    (∀ k, held k ≠ none → k < l) ∧ Ordered (Function.update held l (some write)) todo
  | held, .release l :: todo => held l ≠ none ∧ Ordered (Function.update held l none) todo

theorem Ordered.after {r : Request L} (h : Ordered held (r :: todo)) : Ordered (r.after held) todo := by
  cases r with
  | acquire l write => exact h.2
  | release l => exact h.2

/-- The next request is granted, whether or not a reader gives way to the writers that wait. -/
def Granted (s : T → Thread L) (t : T) : Prop :=
  ∃ r todo, (s t).todo = r :: todo ∧ Free (fun u => (s u).held) t r ∧
    ∀ l, r = .acquire l false → ∀ u rest, (s u).todo ≠ .acquire l true :: rest

/-- A thread that waits for a lock waits in the end for a thread that holds a greater one. -/
theorem exists_granted_of_waits [WellFoundedGT L] {s : T → Thread L}
    (hord : ∀ t, Ordered (s t).held (s t).todo) (l : L) :
    ∀ t write todo, (s t).todo = .acquire l write :: todo → ∃ u, Granted s u := by
  induction l using WellFoundedGT.induction with
  | ind l ih =>
    -- a thread that holds the lock can go on, or waits for a greater lock
    have hholder : ∀ u, (s u).held l ≠ none → ∃ v, Granted s v := by
      intro u hu
      have hou := hord u
      cases htodo : (s u).todo with
      | nil =>
        rw [htodo] at hou
        exact absurd (hou l) hu
      | cons r rest =>
        cases r with
        | release k =>
          exact ⟨u, _, _, htodo, trivial, fun _ hr => by cases hr⟩
        | acquire k write =>
          rw [htodo] at hou
          exact ih k (hou.1 l hu) u write rest htodo
    have hwriter : ∀ t todo, (s t).todo = .acquire l true :: todo → ∃ u, Granted s u := by
      intro t todo htodo
      by_cases hfree : ∀ u, u ≠ t → (s u).held l = none
      · exact ⟨t, _, _, htodo, hfree, fun _ hr => by cases hr⟩
      · push Not at hfree
        obtain ⟨u, -, hu⟩ := hfree
        exact hholder u hu
    intro t write todo htodo
    cases write with
    | true => exact hwriter t todo htodo
    | false =>
      by_cases hwait : ∃ u rest, (s u).todo = .acquire l true :: rest
      · obtain ⟨u, rest, hu⟩ := hwait
        exact hwriter u rest hu
      · by_cases hfree : ∀ u, u ≠ t → (s u).held l ≠ some true
        · refine ⟨t, _, _, htodo, hfree, fun k hk u rest hu => hwait ⟨u, rest, ?_⟩⟩
          rw [hu, (Request.acquire.inj hk).1]
        · push Not at hfree
          obtain ⟨u, -, hu⟩ := hfree
          exact hholder u (by rw [hu]; exact some_ne_none _)

/-- There is no deadlock. -/
theorem exists_granted [WellFoundedGT L] {s : T → Thread L}
    (hord : ∀ t, Ordered (s t).held (s t).todo) {t : T} (ht : (s t).todo ≠ []) :
    ∃ u, Granted s u := by
  obtain ⟨r, todo, htodo⟩ := List.exists_cons_of_ne_nil ht
  cases r with
  | acquire l write => exact exists_granted_of_waits hord l t write todo htodo
  | release l => exact ⟨t, _, _, htodo, trivial, fun _ hr => by cases hr⟩

theorem ordered_acquireAll (hsorted : order.Pairwise (· < ·))
    (hheld : ∀ k, held k ≠ none → ∀ l ∈ order, k < l)
    (htodo : Ordered (holds held (acquireAll order levels)) todo) :
    Ordered held (acquireAll order levels ++ todo) := by
  induction order generalizing held with
  | nil => exact htodo
  | cons l order ih =>
    obtain ⟨hl, hsorted⟩ := List.pairwise_cons.mp hsorted
    cases hlevel : levels l with
    | none =>
      simp only [acquireAll, List.filterMap_cons, hlevel, map_none] at htodo ⊢
      exact ih hsorted (fun k hk l' hl' => hheld k hk l' (List.mem_cons_of_mem _ hl')) htodo
    | some write =>
      simp only [acquireAll, List.filterMap_cons, hlevel, map_some] at htodo ⊢
      refine ⟨fun k hk => hheld k hk l List.mem_cons_self, ih hsorted (fun k hk l' hl' => ?_) htodo⟩
      rcases eq_or_ne k l with rfl | hkl
      · exact hl l' hl'
      · rw [update_of_ne hkl] at hk
        exact hheld k hk l' (List.mem_cons_of_mem _ hl')

theorem ordered_releaseAll (hnodup : order.Nodup)
    (hheld : ∀ l ∈ order, levels l ≠ none → held l ≠ none)
    (htodo : Ordered (holds held (releaseAll order levels)) todo) :
    Ordered held (releaseAll order levels ++ todo) := by
  induction order generalizing held with
  | nil => exact htodo
  | cons l order ih =>
    obtain ⟨hl, hnodup⟩ := List.nodup_cons.mp hnodup
    cases hlevel : levels l with
    | none =>
      simp only [releaseAll, List.filterMap_cons, hlevel, map_none] at htodo ⊢
      exact ih hnodup (fun k hk => hheld k (List.mem_cons_of_mem _ hk)) htodo
    | some write =>
      simp only [releaseAll, List.filterMap_cons, hlevel, map_some] at htodo ⊢
      refine ⟨hheld l List.mem_cons_self (by rw [hlevel]; exact some_ne_none _),
        ih hnodup (fun k hk hlevel => ?_) htodo⟩
      rw [update_of_ne (ne_of_mem_of_not_mem hk hl)]
      exact hheld k (List.mem_cons_of_mem _ hk) hlevel

end Lib.OrderedLocks
