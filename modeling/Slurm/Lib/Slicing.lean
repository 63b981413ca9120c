import Mathlib

/-!
# Time slices

In each slice some of the parties of a queue run.  Then those that ran go to the back of the
queue, and all keep their order (`requeue`).  Who runs next is found from the front on: everyone
runs who can join those that were found before (`Greedy`).

* `fair`: when the first of the queue always runs, everyone has run after as many slices as
  there are parties.
* `Greedy.pairwise`: those who run are compatible with each other.
* `Greedy.maximal`: nobody else can join them.
-/

namespace Lib.Slicing

open List

variable {α β : Type}
variable {y : β}

/-! ## The queue -/

/-- Those that ran go to the back. -/
def requeue (ran : β → Bool) (ys : List β) : List β :=
  ys.filter (fun y => !ran y) ++ ys.filter ran

theorem requeue_perm (ran : β → Bool) (ys : List β) : (requeue ran ys).Perm ys := by
  unfold requeue
  exact List.perm_append_comm.trans (filter_append_perm ran ys)

/-- A run of the queue over the slices, in which the first one always runs. -/
structure Rotates (key : β → α) (ran : β → Bool) (queue : Nat → List β) : Prop where
  requeued : ∀ k, (queue (k + 1)).map key = (requeue ran (queue k)).map key
  first_runs : ∀ k y ys, queue (k + 1) = y :: ys → ran y = true

variable {key : β → α} {ran : β → Bool} {queue : Nat → List β}

theorem Rotates.perm (h : Rotates key ran queue) (k : Nat) :
    ((queue (k + 1)).map key).Perm ((queue k).map key) := by
  rw [h.requeued]
  exact (requeue_perm ran (queue k)).map key

theorem Rotates.length (h : Rotates key ran queue) (k : Nat) :
    (queue k).length = (queue 0).length := by
  induction k with
  | zero => rfl
  | succ k ih =>
    have hlen := (h.perm k).length_eq
    simp only [length_map] at hlen
    rw [hlen, ih]

/-- One who did not run comes forward by those before him that ran. -/
theorem Rotates.forward (h : Rotates key ran queue) {k : Nat} {front back : List β}
    (hqueue : queue k = front ++ y :: back) (hy : ran y = false) :
    ∃ front' y' back', queue (k + 1) = front' ++ y' :: back' ∧ key y' = key y ∧
      front'.length = (front.filter fun x => !ran x).length := by
  have hmap := h.requeued k
  unfold requeue at hmap
  rw [hqueue, filter_append, filter_cons_of_pos (by simp [hy])] at hmap
  simp only [append_assoc, cons_append, map_append, map_cons] at hmap
  obtain ⟨front', rest, hsplit, hfront, hrest⟩ := List.map_eq_append_iff.mp hmap
  obtain ⟨y', back', hcons, hkey, -⟩ := List.map_eq_cons_iff.mp hrest
  refine ⟨front', y', back', ?_, hkey, ?_⟩
  · rw [hsplit, hcons]
  · have hlen := congrArg List.length hfront
    simpa using hlen

/-- Who has no more than `m` before him runs within the next `m` slices. -/
theorem Rotates.runs_within (h : Rotates key ran queue) {m k : Nat} {front back : List β}
    (hqueue : queue (k + 1) = front ++ y :: back) (hm : front.length ≤ m) :
    ∃ i, i ≤ m ∧ ∃ y' ∈ queue (k + 1 + i), key y' = key y ∧ ran y' = true := by
  induction m generalizing k front y back with
  | zero =>
    have hnil : front = [] := List.length_eq_zero_iff.mp (Nat.le_zero.mp hm)
    subst hnil
    exact ⟨0, le_refl _, y, by simp [hqueue], rfl, h.first_runs k y back hqueue⟩
  | succ m ih =>
    cases hy : ran y with
    | true => exact ⟨0, Nat.zero_le _, y, by simp [hqueue], rfl, hy⟩
    | false =>
      obtain ⟨front', y', back', hqueue', hkey, hlen⟩ := h.forward hqueue hy
      have hless : front'.length ≤ m := by
        cases front with
        | nil => simp [hlen]
        | cons x front =>
          have hx : ran x = true := h.first_runs k x _ (by rw [hqueue]; rfl)
          rw [hlen, filter_cons_of_neg (by simp [hx])]
          have hle := length_filter_le (fun x => !ran x) front
          simp only [length_cons] at hm
          omega
      obtain ⟨i, hi, z, hz, hzkey, hzran⟩ := ih hqueue' hless
      refine ⟨i + 1, by omega, z, ?_, hzkey.trans hkey, hzran⟩
      rw [show k + 1 + (i + 1) = k + 1 + 1 + i by omega]
      exact hz

/-- Within as many slices as there are parties everyone runs, from any slice `s` on. -/
theorem Rotates.fair (h : Rotates key ran queue) (s : Nat) (hy : y ∈ queue s) :
    ∃ k, s < k ∧ k ≤ s + (queue 0).length ∧
      ∃ y' ∈ queue k, key y' = key y ∧ ran y' = true := by
  have hkey : key y ∈ (queue (s + 1)).map key :=
    (h.perm s).mem_iff.mpr (mem_map_of_mem hy)
  obtain ⟨y₁, hmem, hkey₁⟩ := List.mem_map.mp hkey
  obtain ⟨front, back, hqueue⟩ := append_of_mem hmem
  have hlen := h.length (s + 1)
  rw [hqueue] at hlen
  simp only [length_append, length_cons] at hlen
  obtain ⟨i, hi, z, hz, hzkey, hzran⟩ := h.runs_within hqueue (le_refl _)
  exact ⟨s + 1 + i, by omega, by omega, z, hz, hzkey.trans hkey₁, hzran⟩

/-! ## Who runs -/

/-- From the front on everyone runs who can join those who were found to run before. -/
inductive Greedy (joins : List α → α → Prop) (key : β → α) (ran : β → Bool) :
    List α → List β → Prop
  | nil (held : List α) : Greedy joins key ran held []
  | join {held : List α} {y : β} {ys : List β} : joins held (key y) → ran y = true →
      Greedy joins key ran (held ++ [key y]) ys → Greedy joins key ran held (y :: ys)
  | wait {held : List α} {y : β} {ys : List β} : ¬ joins held (key y) → ran y = false →
      Greedy joins key ran held ys → Greedy joins key ran held (y :: ys)

/-- Those of the queue who run. -/
def running (key : β → α) (ran : β → Bool) (ys : List β) : List α := (ys.filter ran).map key

@[simp]
theorem running_cons_of_pos {ys : List β} (h : ran y = true) :
    running key ran (y :: ys) = key y :: running key ran ys := by
  simp [running, h]

@[simp]
theorem running_cons_of_neg {ys : List β} (h : ran y = false) :
    running key ran (y :: ys) = running key ran ys := by
  simp [running, h]

variable {joins : List α → α → Prop} {held : List α} {ys : List β}

theorem Greedy.map {f : β → β} (hkey : ∀ y, key (f y) = key y)
    (hran : ∀ y ∈ ys, ran (f y) = ran y) (h : Greedy joins key ran held ys) :
    Greedy joins key ran held (ys.map f) := by
  induction h with
  | nil held => exact Greedy.nil held
  | @join held y ys hjoins hy _ ih =>
    refine Greedy.join (by rwa [hkey]) ((hran y mem_cons_self).trans hy) ?_
    rw [hkey]
    exact ih fun z hz => hran z (mem_cons_of_mem y hz)
  | @wait held y ys hno hy _ ih =>
    refine Greedy.wait (by rwa [hkey]) ((hran y mem_cons_self).trans hy) ?_
    exact ih fun z hz => hran z (mem_cons_of_mem y hz)

/-- The first one runs when anyone can run alone. -/
theorem Greedy.first_runs (halone : ∀ a, joins [] a) (h : Greedy joins key ran [] (y :: ys)) :
    ran y = true := by
  cases h with
  | join _ hran _ => exact hran
  | wait hno _ _ => exact absurd (halone _) hno

/-- Who joins is compatible with all those before, so all who run are compatible. -/
theorem Greedy.pairwise {compatible : α → α → Prop}
    (hcompatible : ∀ held a, joins held a → ∀ b ∈ held, compatible b a)
    (h : Greedy joins key ran held ys) (hheld : held.Pairwise compatible) :
    (held ++ running key ran ys).Pairwise compatible := by
  induction h with
  | nil held => simpa [running] using hheld
  | @join held y ys hjoins hran _ ih =>
    have hnext : (held ++ [key y]).Pairwise compatible := by
      rw [pairwise_append]
      refine ⟨hheld, pairwise_singleton _ _, fun b hb a ha => ?_⟩
      rw [List.mem_singleton.mp ha]
      exact hcompatible held _ hjoins b hb
    have hall := ih hnext
    rw [running_cons_of_pos hran]
    simpa using hall
  | wait _ hran _ ih =>
    rw [running_cons_of_neg hran]
    exact ih hheld

/-- Who does not run cannot join those who do. -/
theorem Greedy.maximal (hfewer : ∀ held more a, joins (held ++ more) a → joins held a)
    (h : Greedy joins key ran held ys) :
    ∀ y ∈ ys, ran y = false → ¬ joins (held ++ running key ran ys) (key y) := by
  induction h with
  | nil held => simp
  | @join held y ys _ hran _ ih =>
    intro z hz hzran
    have hne : z ≠ y := by
      intro heq
      rw [heq, hran] at hzran
      cases hzran
    rw [running_cons_of_pos hran]
    simpa using ih z ((List.mem_cons.mp hz).resolve_left hne) hzran
  | @wait held y ys hno hran _ ih =>
    intro z hz hzran
    rw [running_cons_of_neg hran]
    rcases List.mem_cons.mp hz with heq | hz
    · rw [heq]
      exact fun hjoins => hno (hfewer held _ _ hjoins)
    · exact ih z hz hzran

end Lib.Slicing
