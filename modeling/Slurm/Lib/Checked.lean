import Mathlib

/-!
# Arrays with checked indices

A program that reads or writes an array outside of its bounds ends with a fault.  An index is an
integer, since it may be below zero.

* `read_eq_ok`, `write_eq_ok`: what an access that does not fail does.
* `foldlM_inv`: a property that every turn of a loop keeps.
* `foldlM_sum`: a quantity that every turn of a loop adds to.
-/

namespace Lib.Checked

open List

variable {i : Int}

/-- Why a run ends before its result: `spent` is a loop that was given too few turns. -/
inductive Fault where
  | outOfBounds
  | divisionByZero
  | spent
  deriving DecidableEq

/-- A run. -/
abbrev Run (α : Type) : Type := Except Fault α

variable {α β : Type}

/-- The entry of an array at an index. -/
def read (a : List α) (i : Int) : Run α :=
  if 0 ≤ i then
    match a[i.toNat]? with
    | some x => .ok x
    | none => .error .outOfBounds
  else .error .outOfBounds

/-- An array with another entry at an index. -/
def write (a : List α) (i : Int) (x : α) : Run (List α) :=
  if 0 ≤ i ∧ i < a.length then .ok (a.set i.toNat x) else .error .outOfBounds

/-- An array that is made larger. -/
def grow (a : List α) (n : Nat) (x : α) : List α := a ++ List.replicate (n - a.length) x

/-- An array with a part of its entries sorted. -/
def sortPart (le : α → α → Bool) (a : List α) (start len : Nat) : Run (List α) :=
  if start + len ≤ a.length then
    pure (a.take start ++ (((a.drop start).take len).mergeSort le ++ (a.drop start).drop len))
  else .error .outOfBounds

variable {a : List α} {x : α}

theorem read_eq_ok : read a i = .ok x ↔ 0 ≤ i ∧ a[i.toNat]? = some x := by
  rw [read]
  split
  · rename_i hi
    cases a[i.toNat]? <;> simp [hi]
  · rename_i hi
    simp [hi]

variable {a' : List α}

theorem write_eq_ok : write a i x = .ok a' ↔ (0 ≤ i ∧ i < a.length) ∧ a' = a.set i.toNat x := by
  rw [write]
  split
  · rename_i hi
    simp [hi, eq_comm]
  · rename_i hi
    simp [hi]

theorem write_length (h : write a i x = .ok a') : a'.length = a.length := by
  rw [(write_eq_ok.mp h).2, length_set]

/-- An entry that is written elsewhere. -/
theorem write_getElem? (h : write a i x = .ok a') {j : Nat} (hj : i ≠ j) : a'[j]? = a[j]? := by
  obtain ⟨hi, rfl⟩ := write_eq_ok.mp h
  exact getElem?_set_ne (by omega)

variable {b : β}

/-- The first part of a run is a result where the whole run is. -/
theorem bind_eq_ok {x : Run α} {f : α → Run β} :
    (x >>= f) = .ok b ↔ ∃ a, x = .ok a ∧ f a = .ok b := by
  cases x with
  | error e => simp [bind, Except.bind]
  | ok a => simp [bind, Except.bind]

theorem pure_eq_ok {a b : α} : (pure a : Run α) = .ok b ↔ a = b := by
  simp [pure, Except.pure]

/-- A property that every turn of a loop keeps. -/
theorem foldlM_inv {f : β → α → Run β} {P : β → Prop} {l : List α}
    (h : ∀ x ∈ l, ∀ b b', P b → f b x = .ok b' → P b') {b' : β} (hb : P b)
    (hrun : l.foldlM f b = .ok b') : P b' := by
  induction l generalizing b with
  | nil =>
    rw [foldlM_nil, pure_eq_ok] at hrun
    rwa [← hrun]
  | cons x l ih =>
    rw [foldlM_cons, bind_eq_ok] at hrun
    obtain ⟨b₁, hstep, hrest⟩ := hrun
    exact ih (fun y hy => h y (mem_cons_of_mem x hy)) (h x mem_cons_self b b₁ hb hstep) hrest

/-- A quantity that every turn of a loop adds to. -/
theorem foldlM_sum (size : β → Int) (w : α → Int) (P : β → Prop) {f : β → α → Run β} {l : List α}
    (h : ∀ x ∈ l, ∀ b b', P b → f b x = .ok b' → P b' ∧ size b' = size b + w x) {b' : β} (hb : P b)
    (hrun : l.foldlM f b = .ok b') : P b' ∧ size b' = size b + (l.map w).sum := by
  induction l generalizing b with
  | nil =>
    rw [foldlM_nil, pure_eq_ok] at hrun
    rw [← hrun]
    simpa using hb
  | cons x l ih =>
    rw [foldlM_cons, bind_eq_ok] at hrun
    obtain ⟨b₁, hstep, hrest⟩ := hrun
    obtain ⟨hb₁, hsize⟩ := h x mem_cons_self b b₁ hb hstep
    obtain ⟨hb', hsize'⟩ := ih (fun y hy => h y (mem_cons_of_mem x hy)) hb₁ hrest
    refine ⟨hb', ?_⟩
    rw [hsize', hsize, map_cons, sum_cons, Int.add_assoc]

theorem sum_set_add {a : List Int} {n : Nat} {x : Int} (y : Int) (h : a[n]? = some x) :
    (a.set n (x + y)).sum = a.sum + y := by
  induction a generalizing n with
  | nil => simp at h
  | cons z a ih =>
    cases n with
    | zero =>
      simp only [getElem?_cons_zero, Option.some.injEq] at h
      rw [set_cons_zero, sum_cons, sum_cons, h]
      omega
    | succ n =>
      rw [set_cons_succ, sum_cons, sum_cons, ih (by simpa using h)]
      omega

/-- Adding to an entry adds to the sum. -/
theorem sum_add {a a' : List Int} {x : Int} (y : Int) (hread : read a i = .ok x)
    (hwrite : write a i (x + y) = .ok a') : a'.sum = a.sum + y := by
  rw [(write_eq_ok.mp hwrite).2]
  exact sum_set_add y (read_eq_ok.mp hread).2

/-- The entries that are sorted stay the same up to their order. -/
theorem sortPart_perm {le : α → α → Bool} {start len : Nat} (h : sortPart le a start len = .ok a') :
    a'.Perm a := by
  rw [sortPart] at h
  split at h
  · rw [pure_eq_ok] at h
    have hsplit : a = a.take start ++ ((a.drop start).take len ++ (a.drop start).drop len) := by
      rw [take_append_drop, take_append_drop]
    rw [← h]
    conv_rhs => rw [hsplit]
    exact .append_left _ (.append_right _ (mergeSort_perm _ le))
  · cases h

end Lib.Checked
