import Slurm.Lib.FirstMatch

/-!
# Finite maps in lists

A list of keys and values is a map, in which the first value of a key counts.  `upsert f l e`
adds the entry `e`: where its key is there already, the new value is made by `f` from both.

* `lookup_upsert`, `lookup_foldl_upsert`: one entry, and all entries of a second list.
* `lookup_foldl_upsert_gathered`, `lookup_foldl_upsert_sum`: values that are gathered, or added, where
  keys may occur more than once; `mem_foldl_upsert_gathered` has the entries themselves.
* `nodup_foldl_upsert`: each key occurs once.
* `lookup_perm`: the order of the entries does not matter then.
-/

namespace Lib.Upsert

open List

open Lib.FirstMatch (modifyFirst modifyFirst_cases map_modifyFirst)

variable {κ ν : Type} [DecidableEq κ]
variable {l : List (κ × ν)} {k : κ} {f : ν → ν → ν}

/-- An entry is added. -/
def upsert (f : ν → ν → ν) (l : List (κ × ν)) (e : κ × ν) : List (κ × ν) :=
  if e.1 ∈ l.map Prod.fst then modifyFirst (fun a => a.1 == e.1) (fun a => (a.1, f a.2 e.2)) l
  else l ++ [e]

theorem lookup_cons_eq (a : κ × ν) (l : List (κ × ν)) (k : κ) :
    (a :: l).lookup k = if k = a.1 then some a.2 else l.lookup k := by
  rw [lookup_cons]
  by_cases hk : k = a.1
  · rw [beq_iff_eq.mpr hk, if_pos hk]
  · rw [beq_eq_false_iff_ne.mpr hk, if_neg hk]

theorem lookup_of_not_mem (h : k ∉ l.map Prod.fst) : l.lookup k = none := by
  rw [lookup_eq_none_iff]
  intro a ha
  have hne : k ≠ a.1 := fun heq => h (heq ▸ mem_map_of_mem ha)
  simpa using hne

theorem lookup_isSome_iff_mem : (l.lookup k).isSome = true ↔ k ∈ l.map Prod.fst := by
  rw [lookup_isSome_iff, mem_map]
  constructor
  · intro h
    obtain ⟨a, ha, heq⟩ := h
    exact ⟨a, ha, (eq_of_beq heq).symm⟩
  · intro h
    obtain ⟨a, ha, heq⟩ := h
    exact ⟨a, ha, by simp [heq]⟩

/-- The keys, after an entry was added. -/
theorem map_fst_upsert (f : ν → ν → ν) (l : List (κ × ν)) (e : κ × ν) :
    (upsert f l e).map Prod.fst =
      if e.1 ∈ l.map Prod.fst then l.map Prod.fst else l.map Prod.fst ++ [e.1] := by
  unfold upsert
  split
  · exact map_modifyFirst (f := fun a => (a.1, f a.2 e.2)) (fun _ _ => rfl) l
  · rw [map_append]
    rfl

theorem nodup_upsert (f : ν → ν → ν) (e : κ × ν) (h : (l.map Prod.fst).Nodup) :
    ((upsert f l e).map Prod.fst).Nodup := by
  rw [map_fst_upsert]
  split
  · exact h
  · rename_i hnew
    exact List.nodup_append.mpr ⟨h, nodup_singleton _, fun a ha b hb heq =>
      hnew ((List.mem_singleton.mp hb) ▸ heq ▸ ha)⟩

theorem nodup_foldl_upsert (f : ν → ν → ν) (l' : List (κ × ν)) (h : (l.map Prod.fst).Nodup) :
    ((l'.foldl (upsert f) l).map Prod.fst).Nodup := by
  induction l' generalizing l with
  | nil => exact h
  | cons e l' ih => exact ih (nodup_upsert f e h)

/-- The value of the first entry of a key is changed. -/
theorem lookup_modifyFirst (f : ν → ν) (l : List (κ × ν)) (j k : κ) :
    (modifyFirst (fun a => a.1 == j) (fun a => (a.1, f a.2)) l).lookup k =
      if k = j then (l.lookup k).map f else l.lookup k := by
  induction l with
  | nil => simp [modifyFirst]
  | cons a l ih =>
    rw [modifyFirst]
    by_cases haj : a.1 = j
    · rw [if_pos (beq_iff_eq.mpr haj), lookup_cons_eq, lookup_cons_eq]
      by_cases hk : k = j
      · rw [if_pos (hk.trans haj.symm), if_pos hk, if_pos (hk.trans haj.symm)]
        rfl
      · have hka : k ≠ a.1 := fun h => hk (h.trans haj)
        rw [if_neg hka, if_neg hk, if_neg hka]
    · rw [if_neg (by simpa using haj), lookup_cons_eq, lookup_cons_eq, ih]
      by_cases hka : k = a.1
      · have hk : k ≠ j := fun h => haj (hka.symm.trans h)
        rw [if_pos hka, if_neg hk, if_pos hka]
      · rw [if_neg hka, if_neg hka]

/-- One entry: its key has the new value, and all other keys keep theirs. -/
theorem lookup_upsert (f : ν → ν → ν) (l : List (κ × ν)) (e : κ × ν) (k : κ) :
    (upsert f l e).lookup k =
      if k = e.1 then Option.merge f (l.lookup k) (some e.2) else l.lookup k := by
  unfold upsert
  split
  · rename_i hmem
    rw [lookup_modifyFirst fun v => f v e.2]
    split
    · rename_i hk
      obtain ⟨v, hv⟩ := Option.isSome_iff_exists.mp (lookup_isSome_iff_mem.mpr (hk ▸ hmem))
      rw [hv]
      rfl
    · rfl
  · rename_i hnew
    rw [lookup_append]
    split
    · rename_i hk
      rw [lookup_of_not_mem (hk ▸ hnew)]
      simp [lookup_cons_eq, hk]
    · rename_i hk
      simp [lookup_cons_eq, hk]

/-- All entries of a list in which each key occurs once. -/
theorem lookup_foldl_upsert (f : ν → ν → ν) (l l' : List (κ × ν)) (h : (l'.map Prod.fst).Nodup)
    (k : κ) :
    (l'.foldl (upsert f) l).lookup k = Option.merge f (l.lookup k) (l'.lookup k) := by
  induction l' generalizing l with
  | nil => simp
  | cons e l' ih =>
    rw [map_cons, nodup_cons] at h
    rw [foldl_cons, ih _ h.2, lookup_upsert, lookup_cons_eq]
    by_cases hk : k = e.1
    · have hnone : l'.lookup k = none := lookup_of_not_mem (hk ▸ h.1)
      rw [hnone, if_pos hk, if_pos hk, Option.merge_none_right]
    · rw [if_neg hk, if_neg hk]

/-- Where `g` gathers values one after another, a key has what it makes of all values of the key. -/
theorem lookup_foldl_upsert_gathered {β : Type} {v : β → ν} {g : List β → Option ν}
    (hnil : g [] = none) (happend : ∀ bs b, g (bs ++ [b]) = Option.merge f (g bs) (some (v b)))
    (l : List (κ × β)) (k : κ) :
    ((l.map fun e => (e.1, v e.2)).foldl (upsert f) []).lookup k =
      g ((l.filter (·.1 = k)).map Prod.snd) := by
  induction l using List.reverseRecOn with
  | nil => exact hnil.symm
  | append_singleton l e ih =>
    rw [map_append, map_singleton, foldl_append, foldl_cons, foldl_nil,
      lookup_upsert, ih, filter_append, map_append]
    by_cases hk : k = e.1
    · have hself : [e].filter (·.1 = k) = [e] := by simp [hk]
      rw [if_pos hk, hself, map_singleton, happend]
    · have hother : [e].filter (·.1 = k) = [] := by
        simpa using fun h => hk h.symm
      rw [if_neg hk, hother, map_nil, append_nil]

/-- Where values are added, a key has the sum of its values. -/
theorem lookup_foldl_upsert_sum {g : Nat → ν} (hg : ∀ a b, f (g a) (g b) = g (a + b))
    (l : List (κ × Nat)) (k : κ) :
    ((l.map fun e => (e.1, g e.2)).foldl (upsert f) []).lookup k =
      if k ∈ l.map Prod.fst then some (g ((l.filter (·.1 = k)).map Prod.snd).sum) else none := by
  induction l using List.reverseRecOn with
  | nil => rfl
  | append_singleton l e ih =>
    rw [map_append, map_singleton, foldl_append, foldl_cons, foldl_nil,
      lookup_upsert, ih, map_append, filter_append, map_append, sum_append]
    by_cases hk : k = e.1
    · have hself : [e].filter (·.1 = k) = [e] := by simp [hk]
      have hmem : k ∈ l.map Prod.fst ++ [e].map Prod.fst :=
        mem_append_right _ (by simp [hk])
      rw [if_pos hk, if_pos hmem, hself]
      by_cases hold : k ∈ l.map Prod.fst
      · rw [if_pos hold]
        show some (f _ (g e.2)) = _
        rw [hg]
        simp
      · have hnone : l.filter (·.1 = k) = [] := by
          rw [filter_eq_nil_iff]
          intro a ha hak
          exact hold (of_decide_eq_true hak ▸ mem_map_of_mem ha)
        rw [if_neg hold, hnone]
        simp
    · have hother : [e].filter (·.1 = k) = [] := by
        simpa using fun h => hk h.symm
      have hmem : k ∈ l.map Prod.fst ++ [e].map Prod.fst ↔ k ∈ l.map Prod.fst := by
        simp [hk]
      rw [if_neg hk, hother]
      simp only [hmem, map_nil, sum_nil, Nat.add_zero]

/-- The value of an entry whose key occurs once. -/
theorem lookup_of_mem {e : κ × ν} (h : (l.map Prod.fst).Nodup) (he : e ∈ l) :
    l.lookup e.1 = some e.2 := by
  induction l with
  | nil => cases he
  | cons a l ih =>
    rw [map_cons, nodup_cons] at h
    rw [lookup_cons_eq]
    rcases List.mem_cons.mp he with rfl | he
    · exact if_pos rfl
    · have hne : e.1 ≠ a.1 := fun heq => h.1 (heq ▸ mem_map_of_mem he)
      rw [if_neg hne, ih h.2 he]

/-- Where each key occurs once, the entries are what a search finds. -/
theorem mem_iff_lookup (h : (l.map Prod.fst).Nodup) {v : ν} : (k, v) ∈ l ↔ l.lookup k = some v := by
  constructor
  · exact fun hmem => lookup_of_mem h hmem
  · intro hfound
    rw [lookup_eq_some_iff] at hfound
    obtain ⟨l₁, l₂, rfl, -⟩ := hfound
    exact mem_append_right _ mem_cons_self

/-- The entries that gathering makes. -/
theorem mem_foldl_upsert_gathered {β : Type} {v : β → ν} {g : List β → Option ν}
    (hnil : g [] = none) (happend : ∀ bs b, g (bs ++ [b]) = Option.merge f (g bs) (some (v b)))
    (l : List (κ × β)) (k : κ) (x : ν) :
    (k, x) ∈ (l.map fun e => (e.1, v e.2)).foldl (upsert f) [] ↔
      g ((l.filter (·.1 = k)).map Prod.snd) = some x := by
  have hnodup := nodup_foldl_upsert f (l.map fun e => (e.1, v e.2)) (l := []) nodup_nil
  rw [mem_iff_lookup hnodup, lookup_foldl_upsert_gathered hnil happend]

/-- New keys are added at the end. -/
theorem foldl_upsert_nil (f : ν → ν → ν) (l : List (κ × ν)) (h : (l.map Prod.fst).Nodup) :
    l.foldl (upsert f) [] = l := by
  have hmore : ∀ l l' : List (κ × ν), ((l ++ l').map Prod.fst).Nodup →
      l'.foldl (upsert f) l = l ++ l' := by
    intro l l'
    induction l' generalizing l with
    | nil => simp
    | cons e l' ih =>
      intro hnodup
      have hnew : e.1 ∉ l.map Prod.fst := by
        rw [map_append, nodup_append] at hnodup
        exact fun hmem => hnodup.2.2 _ hmem _ mem_cons_self rfl
      rw [foldl_cons, upsert, if_neg hnew, ih _ (by simpa using hnodup)]
      simp
  exact hmore [] l h

/-- The order of the entries does not matter where each key occurs once. -/
theorem lookup_perm {l' : List (κ × ν)} (hperm : l.Perm l') (h : (l.map Prod.fst).Nodup) (k : κ) :
    l.lookup k = l'.lookup k := by
  induction hperm with
  | nil => rfl
  | cons e _ ih =>
    rw [map_cons, nodup_cons] at h
    rw [lookup_cons_eq, lookup_cons_eq, ih h.2]
  | swap a b l =>
    rw [map_cons, map_cons, nodup_cons, mem_cons, not_or] at h
    simp only [lookup_cons_eq]
    by_cases hka : k = a.1
    · have hkb : k ≠ b.1 := fun hkb => h.1.1 (hkb.symm.trans hka)
      rw [if_neg hkb, if_pos hka, if_pos hka]
    · rw [if_neg hka, if_neg hka]
  | trans hab _ ih ih' =>
    rw [ih h, ih' ((hab.map Prod.fst).nodup_iff.mp h)]

end Lib.Upsert

/-!
## Lists of records with keys

`lookup key val k l` is the value of the first record of `l` with the key `k`.
`Held a b` is a comparison made from one side: what each record of `a` holds is what
a search in `b` finds for its key.  `held_iff` takes it apart, and `held_symm_iff`
says when it gives the same from the other side.  Lists that match from both sides give
the same to every search (`lookup_eq_of_held`).
-/

namespace Lib.Keyed

open List

variable {ρ κ ν : Type} [DecidableEq κ] (key : ρ → κ) (val : ρ → ν)
variable {v : ν}

/-- The value of the first record with a key. -/
def lookup (k : κ) (l : List ρ) : Option ν := (l.find? fun x => decide (key x = k)).map val

/-- What each record of `a` holds is found in `b`. -/
def Held (a b : List ρ) : Prop := ∀ x ∈ a, lookup key val (key x) b = some (val x)

/-- No record has another one of its key with another value before it. -/
def Clear (l : List ρ) : Prop := Held key val l l

/-- Some key has two values. -/
def Conflict (a b : List ρ) : Prop :=
  ∃ k u v, lookup key val k a = some u ∧ lookup key val k b = some v ∧ u ≠ v

variable {key val} {a b l : List ρ} {k : κ}

/-! ## Searches -/

/-- What a search finds is in a record. -/
theorem exists_of_lookup (h : lookup key val k l = some v) : ∃ x ∈ l, key x = k ∧ val x = v := by
  unfold lookup at h
  rw [Option.map_eq_some_iff] at h
  obtain ⟨x, hx, hv⟩ := h
  have hkey := find?_some hx
  rw [decide_eq_true_eq] at hkey
  exact ⟨x, mem_of_find?_eq_some hx, hkey, hv⟩

theorem mem_keys_of_lookup (h : lookup key val k l = some v) : k ∈ l.map key := by
  obtain ⟨x, hx, hkey, -⟩ := exists_of_lookup h
  exact List.mem_map.mpr ⟨x, hx, hkey⟩

/-- A search for a key of the list finds something. -/
theorem exists_lookup (val : ρ → ν) (h : k ∈ l.map key) : ∃ v, lookup key val k l = some v := by
  obtain ⟨x, hx, hkey⟩ := List.mem_map.mp h
  have hfound : (l.find? fun y => decide (key y = k)).isSome = true := by
    rw [find?_isSome]
    exact ⟨x, hx, decide_eq_true hkey⟩
  obtain ⟨y, hy⟩ := Option.isSome_iff_exists.mp hfound
  unfold lookup
  rw [hy]
  exact ⟨val y, rfl⟩

/-- With each key once, nothing is hidden. -/
theorem clear_of_nodup (h : (l.map key).Nodup) : Clear key val l := by
  intro x hx
  have hmem : key x ∈ l.map key := mem_map_of_mem hx
  obtain ⟨v, hv⟩ := exists_lookup val hmem
  obtain ⟨y, hy, hkey, hval⟩ := exists_of_lookup hv
  have hyx : y = x := inj_on_of_nodup_map h hy hx hkey
  rw [hv, ← hval, hyx]

theorem Conflict.symm (h : Conflict key val a b) : Conflict key val b a := by
  obtain ⟨k, u, v, hu, hv, hne⟩ := h
  exact ⟨k, v, u, hv, hu, hne.symm⟩

/-! ## The comparison -/

/-- A search that finds something in `a` finds it in `b`. -/
theorem Held.lookup (h : Held key val a b) (hv : lookup key val k a = some v) :
    lookup key val k b = some v := by
  obtain ⟨x, hx, hkey, hval⟩ := exists_of_lookup hv
  rw [← hkey, ← hval]
  exact h x hx

theorem lookup_eq_of_held (hab : Held key val a b) (hba : Held key val b a) (k : κ) :
    lookup key val k a = lookup key val k b := by
  cases ha : Keyed.lookup key val k a with
  | some v => exact (hab.lookup ha).symm
  | none =>
    cases hb : Keyed.lookup key val k b with
    | none => rfl
    | some v =>
      rw [hba.lookup hb] at ha
      cases ha

/-- What the comparison says of the two lists. -/
theorem held_iff :
    Held key val a b ↔
      Clear key val a ∧ a.map key ⊆ b.map key ∧ ¬ Conflict key val a b := by
  constructor
  · intro h
    refine ⟨fun x hx => ?_, fun k hk => ?_, fun hconflict => ?_⟩
    · have hmem : key x ∈ a.map key := mem_map_of_mem hx
      obtain ⟨v, hv⟩ := exists_lookup val hmem
      rw [hv, ← h.lookup hv]
      exact h x hx
    · obtain ⟨x, hx, hkey⟩ := List.mem_map.mp hk
      rw [← hkey]
      exact mem_keys_of_lookup (h x hx)
    · obtain ⟨k, u, v, hu, hv, hne⟩ := hconflict
      rw [h.lookup hu] at hv
      exact hne (Option.some.inj hv)
  · intro h x hx
    obtain ⟨hclear, hkeys, hconflict⟩ := h
    obtain ⟨v, hv⟩ := exists_lookup val (hkeys (mem_map_of_mem hx))
    by_contra hne
    refine hconflict ⟨key x, val x, v, hclear x hx, hv, fun heq => hne ?_⟩
    rw [hv, heq]

/-- When the comparison gives the same from both sides. -/
theorem held_symm_iff :
    (Held key val a b ↔ Held key val b a) ↔
      Conflict key val a b ∨
        (Clear key val a ∧ a.map key ⊆ b.map key ↔ Clear key val b ∧ b.map key ⊆ a.map key) := by
  rw [held_iff, held_iff]
  by_cases hconflict : Conflict key val a b
  · have hconflict' := hconflict.symm
    simp only [hconflict, hconflict', not_true, and_false, true_or]
  · have hconflict' : ¬ Conflict key val b a := fun h => hconflict h.symm
    simp only [hconflict, hconflict', not_false_eq_true, and_true, false_or]

end Lib.Keyed
