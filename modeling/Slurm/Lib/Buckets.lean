import Mathlib

/-!
# Tables of buckets

Elements have classes, and each class has its home among the buckets of a table.

* `Placed cls home bs`: every element is in the bucket of its class, and no class is twice in
  a bucket.  Then no class is twice in the table (`Placed.nodup_flatten`), and a search of the
  home finds what a search of the table does (`Placed.find?_home`).
* `flatten_set`: what a change of one bucket does to the table.
* `Placed.set`, `Placed.map`: a bucket is changed, or all elements are and keep their classes.
* `find?_perm`: the order does not matter to a search for a class.
-/

namespace Lib.Buckets

open List

variable {α χ : Type} {cls : α → χ} {home : χ → Nat} {bs : List (List α)}
variable {i : Nat} {b l : List α} {a : α} {c : χ}

/-- Every element is in the home of its class, and no class is twice in a bucket. -/
structure Placed (cls : α → χ) (home : χ → Nat) (bs : List (List α)) : Prop where
  home_eq : ∀ (i : Nat) (b : List α), bs[i]? = some b → ∀ a ∈ b, home (cls a) = i
  nodup : ∀ (i : Nat) (b : List α), bs[i]? = some b → (b.map cls).Nodup

/-- What a change of one bucket does to the table. -/
theorem flatten_set (hb : bs[i]? = some b) :
    ∃ rest, bs.flatten.Perm (b ++ rest) ∧ ∀ b', (bs.set i b').flatten.Perm (b' ++ rest) := by
  obtain ⟨hi, rfl⟩ := List.getElem?_eq_some_iff.mp hb
  refine ⟨(bs.take i).flatten ++ (bs.drop (i + 1)).flatten, ?_, fun b' => ?_⟩
  · have hsplit : bs = bs.take i ++ bs[i] :: bs.drop (i + 1) := by
      rw [cons_getElem_drop_succ, take_append_drop]
    have hflat : bs.flatten = (bs.take i).flatten ++ (bs[i] ++ (bs.drop (i + 1)).flatten) := by
      conv_lhs => rw [hsplit]
      rw [flatten_append, flatten_cons]
    rw [hflat, ← append_assoc, ← append_assoc]
    exact List.perm_append_comm.append_right _
  · rw [set_eq_take_append_cons_drop, if_pos hi, flatten_append, flatten_cons,
      ← append_assoc, ← append_assoc]
    exact List.perm_append_comm.append_right _

/-- An element of the table is in its home. -/
theorem Placed.mem_home (h : Placed cls home bs) (ha : a ∈ bs.flatten) :
    ∃ b, bs[home (cls a)]? = some b ∧ a ∈ b := by
  obtain ⟨b, hb, hab⟩ := List.mem_flatten.mp ha
  obtain ⟨i, hi⟩ := mem_iff_getElem?.mp hb
  refine ⟨b, ?_, hab⟩
  rw [h.home_eq i b hi a hab]
  exact hi

theorem mem_flatten_of_getElem? (hb : bs[i]? = some b) (ha : a ∈ b) : a ∈ bs.flatten :=
  List.mem_flatten.mpr ⟨b, mem_of_getElem? hb, ha⟩

/-- No class is twice in the table. -/
theorem Placed.nodup_flatten (h : Placed cls home bs) : (bs.flatten.map cls).Nodup := by
  rw [map_flatten, List.nodup_flatten]
  constructor
  · intro l hl
    obtain ⟨b, hb, rfl⟩ := List.mem_map.mp hl
    obtain ⟨i, hi⟩ := mem_iff_getElem?.mp hb
    exact h.nodup i b hi
  · rw [pairwise_map, pairwise_iff_getElem]
    intro i j hi hj hij c hci hcj
    obtain ⟨a, ha, rfl⟩ := List.mem_map.mp hci
    obtain ⟨a', ha', heq⟩ := List.mem_map.mp hcj
    have hhome := h.home_eq i _ (getElem?_eq_getElem hi) a ha
    have hhome' := h.home_eq j _ (getElem?_eq_getElem hj) a' ha'
    rw [heq, hhome] at hhome'
    omega

variable [DecidableEq χ]

/-- Where each class occurs once, a search for a class finds its element. -/
theorem find?_eq_some (h : (l.map cls).Nodup) (ha : a ∈ l) :
    l.find? (fun x => decide (cls x = cls a)) = some a := by
  induction l with
  | nil => exact absurd ha not_mem_nil
  | cons b l ih =>
    rw [map_cons, nodup_cons] at h
    rcases List.mem_cons.mp ha with rfl | hal
    · exact find?_cons_of_pos (by simp)
    · have hne : cls b ≠ cls a := fun heq => h.1 (heq ▸ mem_map_of_mem hal)
      rw [find?_cons_of_neg (by simpa using hne)]
      exact ih h.2 hal

/-- A class is not found exactly where it does not occur. -/
theorem find?_eq_none : l.find? (fun x => decide (cls x = c)) = none ↔ c ∉ l.map cls := by
  simp [List.find?_eq_none]

theorem find?_spec (h : l.find? (fun x => decide (cls x = c)) = some a) : a ∈ l ∧ cls a = c :=
  ⟨mem_of_find?_eq_some h,
    of_decide_eq_true (@find?_some _ (fun x => decide (cls x = c)) _ _ h)⟩

/-- The order does not matter to a search for a class. -/
theorem find?_perm {l' : List α} (h : (l.map cls).Nodup) (hperm : l.Perm l') (c : χ) :
    l'.find? (fun x => decide (cls x = c)) = l.find? fun x => decide (cls x = c) := by
  cases hfind : l.find? (fun x => decide (cls x = c)) with
  | none =>
    rw [find?_eq_none] at hfind ⊢
    rwa [← (hperm.map cls).mem_iff]
  | some a =>
    obtain ⟨ha, rfl⟩ := find?_spec hfind
    exact find?_eq_some ((hperm.map cls).nodup_iff.mp h) (hperm.mem_iff.mp ha)

/-- A search of the home finds what a search of the table does. -/
theorem Placed.find?_home (h : Placed cls home bs) (hb : bs[home c]? = some b) :
    b.find? (fun x => decide (cls x = c)) = bs.flatten.find? fun x => decide (cls x = c) := by
  cases hfind : bs.flatten.find? (fun x => decide (cls x = c)) with
  | none =>
    rw [find?_eq_none] at hfind ⊢
    intro hc
    obtain ⟨a, ha, rfl⟩ := List.mem_map.mp hc
    exact hfind (mem_map_of_mem (mem_flatten_of_getElem? hb ha))
  | some a =>
    obtain ⟨ha, rfl⟩ := find?_spec hfind
    obtain ⟨b', hb', hab⟩ := h.mem_home ha
    have hsame : b = b' := Option.some_inj.mp (hb.symm.trans hb')
    rw [hsame]
    exact find?_eq_some (h.nodup _ _ hb') hab

omit [DecidableEq χ] in
/-- A bucket is changed. -/
theorem Placed.set (h : Placed cls home bs) {b' : List α} (hhome : ∀ a ∈ b', home (cls a) = i)
    (hnodup : (b'.map cls).Nodup) : Placed cls home (bs.set i b') := by
  have hget : ∀ (j : Nat) (b : List α), (bs.set i b')[j]? = some b → j = i ∧ b = b' ∨ bs[j]? = some b := by
    intro j b hb
    rw [getElem?_set] at hb
    split at hb
    · rename_i hij
      split at hb
      · exact Or.inl ⟨hij.symm, (Option.some_inj.mp hb).symm⟩
      · cases hb
    · exact Or.inr hb
  constructor
  · intro j b hb a ha
    rcases hget j b hb with ⟨rfl, rfl⟩ | hb
    · exact hhome a ha
    · exact h.home_eq j b hb a ha
  · intro j b hb
    rcases hget j b hb with ⟨rfl, rfl⟩ | hb
    · exact hnodup
    · exact h.nodup j b hb

omit [DecidableEq χ] in
/-- All elements are changed and keep their classes, bucket by bucket. -/
theorem Placed.of_map_cls (h : Placed cls home bs) {bs' : List (List α)}
    (hcls : bs'.map (List.map cls) = bs.map (List.map cls)) : Placed cls home bs' := by
  have hget : ∀ (j : Nat) (b' : List α), bs'[j]? = some b' →
      ∃ b, bs[j]? = some b ∧ b.map cls = b'.map cls := by
    intro j b' hb'
    have hj : (bs'.map (List.map cls))[j]? = some (b'.map cls) := by
      rw [getElem?_map, hb']
      rfl
    rw [hcls, getElem?_map] at hj
    exact Option.map_eq_some_iff.mp hj
  constructor
  · intro j b' hb' a ha
    obtain ⟨b, hb, heq⟩ := hget j b' hb'
    obtain ⟨a', ha', hcls'⟩ := List.mem_map.mp (heq ▸ mem_map_of_mem ha)
    rw [← hcls']
    exact h.home_eq j b hb a' ha'
  · intro j b' hb'
    obtain ⟨b, hb, heq⟩ := hget j b' hb'
    rw [← heq]
    exact h.nodup j b hb

end Lib.Buckets
