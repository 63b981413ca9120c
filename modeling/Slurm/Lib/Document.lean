import Mathlib

/-!
# Trees of lists and dictionaries

A tree has values at its leaves; the other nodes are lists, or dictionaries from keys to trees.  A
relation of values is lifted to trees: lists are related item by item, dictionaries key by key.

* `Doc.induction`: induction on trees.
* `Doc.lift_dict_iff`: two dictionaries are related when they have as many entries, and each entry
  of the one has its counterpart.
* `Doc.Lift.leaves`, `Doc.Lift.of_leaves`: a lifted relation is one of the leaves at each place.
-/

namespace Lib.Document

open List

/-- Trees with keys in `κ` and values in `α`. -/
inductive Doc (κ α : Type) where
  | leaf (value : α)
  | list (items : List (Doc κ α))
  | dict (entries : List (κ × Doc κ α))

variable {κ α : Type}

variable {P : List (κ × Doc κ α) → Prop} {entries : List (κ × Doc κ α)} {x a b : Doc κ α}

namespace Doc

/-- Induction on a tree, with the parts of a list and of a dictionary as members. -/
theorem induction {motive : Doc κ α → Prop} (leaf : ∀ value, motive (.leaf value))
    (list : ∀ items, (∀ x ∈ items, motive x) → motive (.list items))
    (dict : ∀ entries, (∀ e ∈ entries, motive e.2) → motive (.dict entries)) (d : Doc κ α) :
    motive d := by
  apply @Doc.rec κ α motive (fun items => ∀ x ∈ items, motive x)
    (fun entries => ∀ e ∈ entries, motive e.2) (fun e => motive e.2)
  · exact leaf
  · exact list
  · exact dict
  · simp
  · intro x items hx hitems
    simpa using ⟨hx, hitems⟩
  · simp
  · intro e entries he hentries e' he'
    rcases List.mem_cons.mp he' with rfl | hrest
    · exact he
    · exact hentries e' hrest
  · intro k x hx
    exact hx

/-- Every dictionary of a tree satisfies `P`. -/
inductive All (P : List (κ × Doc κ α) → Prop) : Doc κ α → Prop
  | leaf (value : α) : All P (.leaf value)
  | list (items : List (Doc κ α)) (h : ∀ x ∈ items, All P x) : All P (.list items)
  | dict (entries : List (κ × Doc κ α)) (here : P entries) (h : ∀ e ∈ entries, All P e.2) :
      All P (.dict entries)

/-- The keys of a dictionary. -/
def keys (entries : List (κ × Doc κ α)) : List κ := entries.map Prod.fst

/-- No dictionary of a tree has a key twice. -/
def Distinct : Doc κ α → Prop := All fun entries => (keys entries).Nodup

theorem All.of_list {items : List (Doc κ α)} (h : All P (.list items)) : ∀ x ∈ items, All P x := by
  cases h
  assumption

theorem All.of_dict (h : All P (.dict entries)) : P entries ∧ ∀ e ∈ entries, All P e.2 := by
  cases h
  exact ⟨by assumption, by assumption⟩

variable [DecidableEq κ]

/-- What a dictionary has under a key. -/
def find (entries : List (κ × Doc κ α)) (key : κ) : Option (Doc κ α) :=
  (entries.find? fun e => decide (e.1 = key)).map Prod.snd

theorem find_isSome (entries : List (κ × Doc κ α)) (key : κ) :
    (find entries key).isSome = true ↔ key ∈ keys entries := by
  simp [find, keys, find?_isSome]

theorem find_mem {key : κ} (h : find entries key = some x) : (key, x) ∈ entries := by
  rw [find, Option.map_eq_some_iff] at h
  obtain ⟨e, hfind, rfl⟩ := h
  have hkey := find?_some hfind
  rw [decide_eq_true_eq] at hkey
  rw [← hkey]
  exact mem_of_find?_eq_some hfind

theorem mem_find (hnodup : (keys entries).Nodup) {e : κ × Doc κ α} (he : e ∈ entries) :
    find entries e.1 = some e.2 := by
  induction entries with
  | nil => cases he
  | cons head rest ih =>
    rw [keys, map_cons, nodup_cons] at hnodup
    rw [find]
    rcases List.mem_cons.mp he with heq | hrest
    · rw [heq, find?_cons_of_pos (by simp)]
      rfl
    · have hne : head.1 ≠ e.1 := fun heq => hnodup.1 (heq ▸ mem_map_of_mem hrest)
      rw [find?_cons_of_neg (by simpa using hne)]
      exact ih hnodup.2 hrest

/-- A relation of values, lifted to trees. -/
inductive Lift (R : α → α → Prop) : Doc κ α → Doc κ α → Prop
  | leaf {x y : α} (h : R x y) : Lift R (.leaf x) (.leaf y)
  | list {xs ys : List (Doc κ α)} (len : xs.length = ys.length)
      (h : ∀ (i : Nat) (x y : Doc κ α), xs[i]? = some x → ys[i]? = some y → Lift R x y) :
      Lift R (.list xs) (.list ys)
  | dict {as bs : List (κ × Doc κ α)}
      (same : ∀ key, (find as key).isSome = true ↔ (find bs key).isSome = true)
      (h : ∀ (key : κ) (x y : Doc κ α), find as key = some x → find bs key = some y → Lift R x y) :
      Lift R (.dict as) (.dict bs)

variable {R S : α → α → Prop}

theorem lift_leaf_iff {x y : α} : Lift R (.leaf x : Doc κ α) (.leaf y) ↔ R x y := by
  constructor
  · intro h
    cases h
    assumption
  · exact .leaf

theorem lift_list_nil : Lift R (.list [] : Doc κ α) (.list []) :=
  .list rfl fun i x y hx => by simp at hx

theorem lift_list_cons {y : Doc κ α} {xs ys : List (Doc κ α)} :
    Lift R (.list (x :: xs)) (.list (y :: ys)) ↔ Lift R x y ∧ Lift R (.list xs) (.list ys) := by
  constructor
  · intro h
    cases h
    rename_i hlen h
    refine ⟨h 0 x y rfl rfl, .list (by simpa using hlen) fun i x' y' hx hy => ?_⟩
    exact h (i + 1) x' y' (by simpa using hx) (by simpa using hy)
  · intro h
    obtain ⟨hhead, htail⟩ := h
    cases htail
    rename_i hlen h
    refine .list (by simpa using hlen) fun i x' y' hx hy => ?_
    cases i with
    | zero =>
      simp only [getElem?_cons_zero, Option.some.injEq] at hx hy
      rw [← hx, ← hy]
      exact hhead
    | succ i => exact h i x' y' (by simpa using hx) (by simpa using hy)

theorem not_lift_list_nil_cons {y : Doc κ α} {ys : List (Doc κ α)} :
    ¬ Lift R (.list []) (.list (y :: ys)) := by
  intro h
  cases h
  rename_i hlen h
  cases hlen

theorem not_lift_list_cons_nil {xs : List (Doc κ α)} : ¬ Lift R (.list (x :: xs)) (.list []) := by
  intro h
  cases h
  rename_i hlen h
  cases hlen

/-- The entries of a dictionary have as many counterparts: this is all of the other one. -/
theorem lift_dict_iff {as bs : List (κ × Doc κ α)} (has : (keys as).Nodup) (hbs : (keys bs).Nodup) :
    Lift R (.dict as) (.dict bs) ↔
      as.length = bs.length ∧ ∀ e ∈ as, ∃ y, find bs e.1 = some y ∧ Lift R e.2 y := by
  constructor
  · intro h
    cases h
    rename_i hsame h
    constructor
    · have hperm : (keys as).Perm (keys bs) := (perm_ext_iff_of_nodup has hbs).mpr fun key => by
        rw [← find_isSome, ← find_isSome]
        exact hsame key
      simpa [keys] using hperm.length_eq
    · intro e he
      have hfind := mem_find has he
      have hsome : (find bs e.1).isSome = true := (hsame e.1).mp (by rw [hfind]; rfl)
      obtain ⟨y, hy⟩ := Option.isSome_iff_exists.mp hsome
      exact ⟨y, hy, h e.1 e.2 y hfind hy⟩
  · intro h
    obtain ⟨hlen, h⟩ := h
    have hsub : keys as ⊆ keys bs := by
      intro key hkey
      obtain ⟨e, he, rfl⟩ := List.mem_map.mp hkey
      obtain ⟨y, hy, -⟩ := h e he
      rw [← find_isSome, hy]
      rfl
    have hperm : (keys as).Perm (keys bs) :=
      (has.subperm hsub).perm_of_length_le (by simp [keys, hlen])
    refine .dict (fun key => ?_) fun key x y hx hy => ?_
    · rw [find_isSome, find_isSome]
      exact hperm.mem_iff
    · obtain ⟨y', hy', hlift⟩ := h _ (find_mem hx)
      rw [hy] at hy'
      rw [Option.some.inj hy']
      exact hlift

theorem Lift.mono (hRS : ∀ x y, R x y → S x y) (h : Lift R a b) : Lift S a b := by
  induction h with
  | leaf h => exact .leaf (hRS _ _ h)
  | list hlen _ ih => exact .list hlen ih
  | dict hsame _ ih => exact .dict hsame ih

/-! ## Places -/

/-- A step down a tree. -/
inductive Step (κ : Type) where
  | item (i : Nat)
  | entry (key : κ)

/-- What a tree has at a place. -/
def place : Doc κ α → List (Step κ) → Option (Doc κ α)
  | d, [] => some d
  | .list items, .item i :: p => items[i]?.bind fun x => x.place p
  | .dict entries, .entry key :: p => (find entries key).bind fun x => x.place p
  | _, _ :: _ => none

/-- Leaves of two trees that are at the same place are related. -/
def Leaves (R : α → α → Prop) (a b : Doc κ α) : Prop :=
  ∀ p x y, a.place p = some (.leaf x) → b.place p = some (.leaf y) → R x y

theorem Lift.leaves (h : Lift R a b) : Leaves R a b := by
  induction h with
  | leaf h =>
    intro p x y hx hy
    cases p with
    | nil =>
      simp only [place, Option.some.injEq, Doc.leaf.injEq] at hx hy
      rw [← hx, ← hy]
      exact h
    | cons s p => simp [place] at hx
  | list hlen _ ih =>
    intro p x y hx hy
    match p with
    | [] => simp [place] at hx
    | .entry key :: p => simp [place] at hx
    | .item i :: p =>
      simp only [place, Option.bind_eq_some_iff] at hx hy
      obtain ⟨x', hx', hx⟩ := hx
      obtain ⟨y', hy', hy⟩ := hy
      exact ih i x' y' hx' hy' p x y hx hy
  | dict hsame _ ih =>
    intro p x y hx hy
    match p with
    | [] => simp [place] at hx
    | .item i :: p => simp [place] at hx
    | .entry key :: p =>
      simp only [place, Option.bind_eq_some_iff] at hx hy
      obtain ⟨x', hx', hx⟩ := hx
      obtain ⟨y', hy', hy⟩ := hy
      exact ih key x' y' hx' hy' p x y hx hy

theorem Lift.of_leaves (h : Lift R a b) (hleaves : Leaves S a b) : Lift S a b := by
  induction h with
  | leaf h => exact .leaf (hleaves [] _ _ rfl rfl)
  | list hlen _ ih =>
    refine .list hlen fun i x y hx hy => ih i x y hx hy fun p x' y' hx' hy' => ?_
    exact hleaves (.item i :: p) x' y' (by simp [place, hx, hx']) (by simp [place, hy, hy'])
  | dict hsame _ ih =>
    refine .dict hsame fun key x y hx hy => ih key x y hx hy fun p x' y' hx' hy' => ?_
    exact hleaves (.entry key :: p) x' y' (by simp [place, hx, hx']) (by simp [place, hy, hy'])

/-- A relation that a lifted one implies on leaves of the same place. -/
theorem lift_iff_leaves (hSR : ∀ x y, S x y → R x y) : Lift S a b ↔ Lift R a b ∧ Leaves S a b :=
  ⟨fun h => ⟨h.mono hSR, h.leaves⟩, fun h => h.1.of_leaves h.2⟩

/-- What a tree has at the end of a path of numbers, of items and of entries. -/
def node : Doc κ α → List Nat → Option (Doc κ α)
  | d, [] => some d
  | .list items, i :: p => items[i]?.bind fun x => x.node p
  | .dict entries, i :: p => entries[i]?.bind fun e => e.2.node p
  | .leaf _, _ :: _ => none

end Doc

end Lib.Document
