import Mathlib

/-!
# Records linked by their indices

`LinkedTo next p t` says that following `next` from the first index of `p` visits the
indices of `p` in order and comes to `t`.

* `linkedTo_append` splits a path and `linkedTo_congr` is its frame rule.
* `linkedTo_insert` and `linkedTo_remove` are what an insertion and a removal do;
  `linkedTo_put` and `linkedTo_take` are the same for updates of `next`, where the place is
  given by the index before it.
* `linkedTo_range'`: consecutive indices.
* `indices_eq`: following `next` as often as a path is long gives the path.
* `split_of_getLastD` and `split_of_headD`: an index says where a path is divided.
* `LinkedTo.unique`: two paths from one index to an index that neither visits are equal.
-/

namespace Lib.Linked

open List Function

variable {p q : List Nat} {c t a : Nat}

/-- From the first index of `p` through those of `p` to `t`. -/
def LinkedTo (next : Nat → Nat) : List Nat → Nat → Prop
  | [], _ => True
  | i :: p, t => next i = p.headD t ∧ LinkedTo next p t

/-- The first `k` indices from `a` on. -/
def indices (next : Nat → Nat) : Nat → Nat → List Nat
  | 0, _ => []
  | k + 1, a => a :: indices next k (next a)

variable {next next' : Nat → Nat}

theorem linkedTo_append (p q : List Nat) (t : Nat) :
    LinkedTo next (p ++ q) t ↔ LinkedTo next p (q.headD t) ∧ LinkedTo next q t := by
  induction p with
  | nil => exact ⟨fun h => ⟨trivial, h⟩, fun h => h.2⟩
  | cons i p ih =>
    have hhead : (p ++ q).headD t = p.headD (q.headD t) := by
      cases p <;> rfl
    rw [cons_append, LinkedTo, LinkedTo, ih, hhead, and_assoc]

/-- Only the links of the indices of a path matter. -/
theorem linkedTo_congr (h : ∀ i ∈ p, next' i = next i) (t : Nat) :
    LinkedTo next' p t ↔ LinkedTo next p t := by
  induction p with
  | nil => rfl
  | cons i p ih =>
    rw [LinkedTo, LinkedTo, h i mem_cons_self, ih fun j hj => h j (mem_cons_of_mem _ hj)]

/-- A new index after one of a path. -/
theorem linkedTo_insert {j : Nat} (h : LinkedTo next (p ++ j :: q) t) (hj : next' j = c)
    (hc : next' c = next j) (hp : ∀ i ∈ p, next' i = next i) (hq : ∀ i ∈ q, next' i = next i) :
    LinkedTo next' (p ++ j :: c :: q) t := by
  rw [linkedTo_append, LinkedTo] at h
  obtain ⟨hbefore, hnext, hafter⟩ := h
  rw [linkedTo_append, LinkedTo, LinkedTo]
  exact ⟨(linkedTo_congr hp _).mpr hbefore, hj, hc.trans hnext, (linkedTo_congr hq _).mpr hafter⟩

/-- The index after one of a path is passed over. -/
theorem linkedTo_remove {i j : Nat} (h : LinkedTo next (p ++ i :: j :: q) t) (hi : next' i = next j)
    (hp : ∀ k ∈ p, next' k = next k) (hq : ∀ k ∈ q, next' k = next k) :
    LinkedTo next' (p ++ i :: q) t := by
  rw [linkedTo_append, LinkedTo, LinkedTo] at h
  obtain ⟨hbefore, -, hnext, hafter⟩ := h
  rw [linkedTo_append, LinkedTo]
  exact ⟨(linkedTo_congr hp _).mpr hbefore, hi.trans hnext, (linkedTo_congr hq _).mpr hafter⟩

/-- What comes after an index of a path. -/
theorem LinkedTo.next_eq {p q : List Nat} {i t : Nat} (h : LinkedTo next (p ++ i :: q) t) :
    next i = q.headD t := by
  rw [linkedTo_append, LinkedTo] at h
  exact h.2.1

/-- An index with what follows it, as what comes before the last of them and the last. -/
theorem cons_eq_concat (a : Nat) (p : List Nat) : a :: p = (a :: p).dropLast ++ [p.getLastD a] := by
  have h := dropLast_append_getLast (cons_ne_nil a p)
  rw [getLast_eq_getLastD] at h
  exact h.symm

theorem getLastD_append_cons (p : List Nat) (i : Nat) (q : List Nat) (a : Nat) :
    (p ++ i :: q).getLastD a = q.getLastD i := by
  induction p generalizing a with
  | nil => rw [nil_append, getLastD_cons]
  | cons j p ih => rw [cons_append, getLastD_cons, ih]

/-- What comes after the last index of the first part of a path. -/
theorem LinkedTo.next_getLastD (h : LinkedTo next (a :: (p ++ q)) t) :
    next (p.getLastD a) = q.headD t := by
  rw [← cons_append, cons_eq_concat, append_assoc] at h
  exact h.next_eq

theorem indices_eq (h : LinkedTo next (a :: p) t) : indices next p.length (next a) = p := by
  induction p generalizing a with
  | nil => rfl
  | cons i p ih =>
    have hi : next a = i := h.1
    rw [hi, length_cons, indices, ih h.2]

/-- Consecutive indices, each linked to the next one. -/
theorem linkedTo_range' {k : Nat} (hnext : ∀ i, a ≤ i → i + 1 < a + k → next i = i + 1)
    (hlast : 0 < k → next (a + k - 1) = t) : LinkedTo next (List.range' a k) t := by
  induction k generalizing a with
  | zero => trivial
  | succ k ih =>
    rw [range'_succ]
    refine ⟨?_, ih (fun i hi hk => hnext i (by omega) (by omega)) fun hk => ?_⟩
    · cases k with
      | zero => exact hlast Nat.zero_lt_one
      | succ k => exact hnext a le_rfl (by omega)
    · rw [← hlast (by omega)]
      congr 1
      omega

theorem linkedTo_update (hc : c ∉ p) (v t : Nat) :
    LinkedTo (Function.update next c v) p t ↔ LinkedTo next p t := by
  refine linkedTo_congr (fun i hi => update_of_ne ?_ v next) t
  rintro rfl
  exact hc hi

/-- The last index of a part of a path is not in the rest. -/
theorem getLastD_notMem (h : (a :: (p ++ q)).Nodup) : p.getLastD a ∉ q := by
  rw [← cons_append, cons_eq_concat, append_assoc] at h
  have h' := (List.nodup_append.mp h).2.1
  exact (List.nodup_cons.mp h').1

/-- A new index is put between two parts of a path. -/
theorem linkedTo_put (h : LinkedTo next (a :: (p ++ q)) t) (hnodup : (a :: (p ++ q)).Nodup)
    (hc : c ∉ a :: (p ++ q)) :
    LinkedTo (Function.update (Function.update next c (next (p.getLastD a))) (p.getLastD a) c)
      (a :: (p ++ c :: q)) t := by
  have hq := getLastD_notMem hnodup
  rw [← cons_append, cons_eq_concat, append_assoc] at h hnodup hc ⊢
  have hbefore := (List.nodup_append.mp hnodup).2.2
  have hlast : c ≠ p.getLastD a := fun heq =>
    hc (heq ▸ mem_append_right _ (mem_append_left _ (mem_singleton_self _)))
  refine linkedTo_insert h (update_self _ _ _) ?_ (fun i hi => ?_) fun i hi => ?_
  · rw [update_of_ne hlast, update_self]
  · rw [update_of_ne, update_of_ne]
    · rintro rfl
      exact hc (mem_append_left _ hi)
    · exact hbefore i hi _ (mem_append_left _ (mem_singleton_self _))
  · rw [update_of_ne, update_of_ne]
    · rintro rfl
      exact hc (mem_append_right _ (mem_append_right _ hi))
    · rintro rfl
      exact hq hi

/-- The index between two parts of a path is taken. -/
theorem linkedTo_take (h : LinkedTo next (a :: (p ++ c :: q)) t)
    (hnodup : (a :: (p ++ c :: q)).Nodup) :
    LinkedTo (Function.update next (p.getLastD a) (next c)) (a :: (p ++ q)) t := by
  have hq := getLastD_notMem hnodup
  rw [← cons_append, cons_eq_concat, append_assoc] at h hnodup ⊢
  have hbefore := (List.nodup_append.mp hnodup).2.2
  refine linkedTo_remove h (update_self _ _ _) (fun i hi => ?_) fun i hi => ?_
  · refine update_of_ne ?_ _ _
    exact hbefore i hi _ (mem_append_left _ (mem_singleton_self _))
  · refine update_of_ne ?_ _ _
    rintro rfl
    exact hq (mem_cons_of_mem _ hi)

/-- The next index is the target exactly at the end of a path that does not visit it. -/
theorem LinkedTo.next_eq_target {i : Nat} (h : LinkedTo next (p ++ i :: q) t) (hq : t ∉ q) :
    next i = t ↔ q = [] := by
  rw [h.next_eq]
  cases q with
  | nil => exact iff_of_true rfl rfl
  | cons j q =>
    refine iff_of_false (fun heq => hq ?_) (cons_ne_nil j q)
    exact heq ▸ mem_cons_self

theorem LinkedTo.unique (hp : LinkedTo next p t) (hq : LinkedTo next q t) (hpt : t ∉ p)
    (hqt : t ∉ q) (hhead : p.headD t = q.headD t) : p = q := by
  induction p generalizing q with
  | nil =>
    cases q with
    | nil => rfl
    | cons j q =>
      have hj : t = j := hhead
      exact absurd (hj ▸ mem_cons_self) hqt
  | cons i p ih =>
    cases q with
    | nil =>
      have hi : i = t := hhead
      exact absurd (hi ▸ mem_cons_self) hpt
    | cons j q =>
      have hij : i = j := hhead
      subst hij
      refine congrArg _ (ih hp.2 hq.2 (fun h => hpt (mem_cons_of_mem _ h))
        (fun h => hqt (mem_cons_of_mem _ h)) (hp.1.symm.trans hq.1))

/-! ## Where a path is divided -/

/-- A path is divided in one place only after a given index. -/
theorem split_of_getLastD {A B P Q : List Nat} {a : Nat} (hnodup : (a :: (A ++ B)).Nodup)
    (heq : A ++ B = P ++ Q) (hlast : A.getLastD a = P.getLastD a) : A = P ∧ B = Q := by
  have hP : P.getLastD a ∉ Q := getLastD_notMem (heq ▸ hnodup)
  have hA := getLastD_notMem hnodup
  have hmem : ∀ m : List Nat, ∀ R : List Nat, m ≠ [] → (R ++ m).getLastD a ∈ m := by
    intro m R hm
    obtain ⟨m, z, rfl⟩ := (eq_nil_or_concat m).resolve_left hm
    rw [concat_eq_append, ← append_assoc, getLastD_concat]
    exact mem_append_right _ (mem_singleton_self z)
  rcases List.append_eq_append_iff.mp heq with ⟨m, rfl, rfl⟩ | ⟨m, rfl, rfl⟩
  · by_cases hm : m = []
    · rw [hm, append_nil]
      exact ⟨rfl, rfl⟩
    · rw [hlast] at hA
      exact absurd (mem_append_left Q (hmem m A hm)) hA
  · by_cases hm : m = []
    · rw [hm, append_nil]
      exact ⟨rfl, rfl⟩
    · rw [← hlast] at hP
      exact absurd (mem_append_left B (hmem m P hm)) hP

/-- A path is divided in one place only before a given index. -/
theorem split_of_headD {A B P Q : List Nat} (hnodup : (a :: (A ++ B)).Nodup) (heq : A ++ B = P ++ Q)
    (hhead : B.headD a = Q.headD a) : A = P ∧ B = Q := by
  -- The index before which one part is longer than the other would be there twice.
  have hshort : ∀ m R S : List Nat, (a :: (R ++ (m ++ S))).Nodup →
      (m ++ S).headD a = S.headD a → m = [] := by
    intro m R S hnodup hhead
    cases m with
    | nil => rfl
    | cons z m =>
      have hz : z = S.headD a := hhead
      have hall := List.nodup_cons.mp hnodup
      have hzm := (List.nodup_cons.mp (List.nodup_append.mp hall.2).2.1).1
      cases S with
      | nil =>
        have hza : z = a := hz
        exact absurd (hza ▸ mem_append_right R mem_cons_self) hall.1
      | cons y S =>
        have hzy : z = y := hz
        exact absurd (hzy ▸ mem_append_right m mem_cons_self) hzm
  rcases List.append_eq_append_iff.mp heq with ⟨m, rfl, rfl⟩ | ⟨m, rfl, rfl⟩
  · rw [hshort m A Q hnodup hhead, append_nil]
    exact ⟨rfl, rfl⟩
  · rw [hshort m P B (by rwa [append_assoc] at hnodup) hhead.symm, append_nil]
    exact ⟨rfl, rfl⟩

end Lib.Linked

/-!
## Hash tables with chains

A table has a chain for each bucket: the index of its first entry, `0` for none, and for each entry
the index of the next one.

* `Hashed`: the entries of a table, each in the chain of its bucket.
* `Hashed.search_eq` and `Hashed.search_eq_zero`: what a search of a chain comes to.
* `Hashed.add` and `Hashed.remove`: an entry is added to the front of its chain or taken out.
* `Hashed.congr`: the frame rule.
-/

namespace Lib.Chains

open Lib.Linked List Function

/-! ## Walking a chain -/

/-- The first index from `i` on that passes a test, `0` where there is none. -/
def search (next : Nat → Nat) (test : Nat → Bool) : Nat → Nat → Nat
  | 0, _ => 0
  | fuel + 1, i => if i = 0 then 0 else if test i then i else search next test fuel (next i)

/-- What is linked to the index `i` in the chain from `cur` on: nothing, the bucket or `prev`, or an
index of the chain. -/
def linkTo (next : Nat → Nat) (i : Nat) : Nat → Option Nat → Nat → Option (Option Nat)
  | 0, _, _ => none
  | fuel + 1, prev, cur =>
    if cur = 0 then none else if cur = i then some prev
    else linkTo next i fuel (some cur) (next cur)

variable {next next' inx inx' table : Nat → Nat} {test : Nat → Bool} {p q : List Nat}

theorem search_linked (h : LinkedTo next p 0) (hp : 0 ∉ p) {fuel : Nat} (hfuel : p.length ≤ fuel) :
    search next test fuel (p.headD 0) = (p.find? test).getD 0 := by
  induction p generalizing fuel with
  | nil => cases fuel <;> rfl
  | cons i p ih =>
    cases fuel with
    | zero => simp at hfuel
    | succ fuel =>
      have hi : i ≠ 0 := fun heq => hp (heq ▸ mem_cons_self)
      have hrest := ih h.2 (fun hmem => hp (mem_cons_of_mem i hmem)) (Nat.le_of_succ_le_succ hfuel)
      rw [search, headD_cons, if_neg hi, find?_cons]
      cases test i with
      | true => rfl
      | false =>
        rw [h.1]
        exact hrest

theorem linkTo_linked {i : Nat} (h : LinkedTo next (p ++ i :: q) 0) (hp : i ∉ p)
    (hzero : 0 ∉ p ++ i :: q) {fuel : Nat} (hfuel : p.length < fuel) (prev : Option Nat) :
    linkTo next i fuel prev ((p ++ i :: q).headD 0) = some (p.getLast?.or prev) := by
  induction p generalizing fuel prev with
  | nil =>
    cases fuel with
    | zero => simp at hfuel
    | succ fuel =>
      have hi : i ≠ 0 := fun heq => hzero (heq ▸ mem_cons_self)
      simp [linkTo, hi]
  | cons j p ih =>
    cases fuel with
    | zero => simp at hfuel
    | succ fuel =>
      have hj : j ≠ 0 := fun heq => hzero (heq ▸ mem_cons_self)
      have hji : j ≠ i := fun heq => hp (heq ▸ mem_cons_self)
      have hrest := ih h.2 (fun hmem => hp (mem_cons_of_mem j hmem))
        (fun hmem => hzero (mem_cons_of_mem j hmem)) (Nat.lt_of_succ_lt_succ hfuel) (some j)
      have hnext : next j = (p ++ i :: q).headD 0 := h.1
      rw [cons_append, headD_cons, linkTo, if_neg hj, if_neg hji, hnext, hrest,
        getLast?_cons]
      cases p.getLast? <;> rfl

/-! ## Tables -/

/-- The entries of a table, with indices up to `n`: each is in the chain of its bucket. -/
structure Hashed (next inx table : Nat → Nat) (entries : Set Nat) (n : Nat) : Prop where
  bound : ∀ i ∈ entries, 0 < i ∧ i ≤ n
  chains : ∀ b, ∃ c : List Nat, table b = c.headD 0 ∧ LinkedTo next c 0 ∧ c.Nodup ∧
    ∀ i, i ∈ c ↔ i ∈ entries ∧ inx i = b

variable {entries : Set Nat} {n b i : Nat}

theorem length_le_of_bound {c : List Nat} (hc : c.Nodup) (h : ∀ i ∈ c, 0 < i ∧ i ≤ n) :
    c.length ≤ n := by
  have hsub : c ⊆ List.range' 1 n := by
    intro i hi
    have := h i hi
    rw [mem_range'_1]
    omega
  have hlen := (subperm_of_subset hc hsub).length_le
  rwa [length_range'] at hlen

/-- A search finds the first entry of the chain that passes. -/
theorem Hashed.search_chain (h : Hashed next inx table entries n) (test : Nat → Bool) (b : Nat) :
    ∃ c : List Nat, (∀ i, i ∈ c ↔ i ∈ entries ∧ inx i = b) ∧
      search next test n (table b) = (c.find? test).getD 0 := by
  obtain ⟨c, htable, hlinked, hnodup, hmem⟩ := h.chains b
  have hbound : ∀ i ∈ c, 0 < i ∧ i ≤ n := fun i hi => h.bound i ((hmem i).mp hi).1
  refine ⟨c, hmem, ?_⟩
  rw [htable]
  exact search_linked hlinked (fun hzero => Nat.lt_irrefl 0 (hbound 0 hzero).1)
    (length_le_of_bound hnodup hbound)

theorem Hashed.search_eq_zero (h : Hashed next inx table entries n)
    (hnone : ∀ i ∈ entries, inx i = b → test i = false) : search next test n (table b) = 0 := by
  obtain ⟨c, hmem, hsearch⟩ := h.search_chain test b
  rw [hsearch, List.find?_eq_none.mpr]
  · rfl
  · intro i hi
    have hi' := (hmem i).mp hi
    simp [hnone i hi'.1 hi'.2]

theorem Hashed.search_eq (h : Hashed next inx table entries n) (hi : i ∈ entries) (hb : inx i = b)
    (htest : test i = true) (hunique : ∀ j ∈ entries, inx j = b → test j = true → j = i) :
    search next test n (table b) = i := by
  obtain ⟨c, hmem, hsearch⟩ := h.search_chain test b
  have hic := (hmem i).mpr ⟨hi, hb⟩
  obtain ⟨j, hj⟩ := Option.isSome_iff_exists.mp (List.find?_isSome.mpr ⟨i, hic, htest⟩)
  have hjc := (hmem j).mp (mem_of_find?_eq_some hj)
  rw [hsearch, hj, Option.getD_some]
  exact hunique j hjc.1 hjc.2 (find?_some hj)

/-- What a search finds is an entry that passes. -/
theorem Hashed.search_found (h : Hashed next inx table entries n)
    (hfound : search next test n (table b) ≠ 0) :
    search next test n (table b) ∈ entries ∧ inx (search next test n (table b)) = b ∧
      test (search next test n (table b)) = true := by
  obtain ⟨c, hmem, hsearch⟩ := h.search_chain test b
  rw [hsearch] at hfound ⊢
  cases hj : c.find? test with
  | none => simp [hj] at hfound
  | some j =>
    have hjc := (hmem j).mp (mem_of_find?_eq_some hj)
    exact ⟨hjc.1, hjc.2, find?_some hj⟩

/-- Only the links and buckets of the entries matter. -/
theorem Hashed.congr (h : Hashed next inx table entries n) (hnext : ∀ i ∈ entries, next' i = next i)
    (hinx : ∀ i ∈ entries, inx' i = inx i) {n' : Nat} (hn : n ≤ n') :
    Hashed next' inx' table entries n' := by
  refine ⟨fun i hi => ⟨(h.bound i hi).1, (h.bound i hi).2.trans hn⟩, fun b => ?_⟩
  obtain ⟨c, htable, hlinked, hnodup, hmem⟩ := h.chains b
  refine ⟨c, htable, ?_, hnodup, fun i => ?_⟩
  · rw [linkedTo_congr fun i hi => hnext i ((hmem i).mp hi).1]
    exact hlinked
  · rw [hmem]
    exact and_congr_right fun hi => by rw [hinx i hi]

/-- An entry is added in front of the chain of its bucket. -/
theorem Hashed.add (h : Hashed next inx table entries n) (hi : i ∉ entries) (hpos : 0 < i)
    (hn : i ≤ n) :
    Hashed (Function.update next i (table (inx i))) inx (Function.update table (inx i) i)
      (insert i entries) n := by
  constructor
  · intro j hj
    cases hj with
    | inl heq => exact heq ▸ ⟨hpos, hn⟩
    | inr hj => exact h.bound j hj
  · intro b
    obtain ⟨c, htable, hlinked, hnodup, hmem⟩ := h.chains b
    have hic : i ∉ c := fun hic => hi ((hmem i).mp hic).1
    by_cases hb : inx i = b
    · refine ⟨i :: c, ?_, ?_, List.nodup_cons.mpr ⟨hic, hnodup⟩, fun j => ?_⟩
      · rw [hb, update_self]
        rfl
      · refine ⟨?_, (linkedTo_update hic _ _).mpr hlinked⟩
        rw [update_self, hb, htable]
      · rw [mem_cons, hmem, Set.mem_insert_iff]
        by_cases hj : j = i
        · simp [hj, hb]
        · simp [hj]
    · refine ⟨c, ?_, (linkedTo_update hic _ _).mpr hlinked, hnodup, fun j => ?_⟩
      · rw [update_of_ne (Ne.symm hb), htable]
      · rw [hmem, Set.mem_insert_iff]
        by_cases hj : j = i
        · simp [hj, hb, hi]
        · simp [hj]

/-- The links after the entry that `prev` stands for is linked to `v`. -/
def relink (next : Nat → Nat) (v : Nat) : Option Nat → Nat → Nat
  | none => next
  | some j => Function.update next j v

/-- The table after the bucket is linked to `v`, where `prev` stands for it. -/
def rehead (table : Nat → Nat) (b v : Nat) : Option Nat → Nat → Nat
  | none => Function.update table b v
  | some _ => table

/-- An entry is taken out of its chain. -/
theorem Hashed.remove (h : Hashed next inx table entries n) (hi : i ∈ entries) :
    ∃ prev, linkTo next i n none (table (inx i)) = some prev ∧ (∀ j ∈ prev, j ∈ entries ∧ j ≠ i) ∧
      Hashed (Function.update (relink next (next i) prev) i 0) inx
        (rehead table (inx i) (next i) prev) (entries \ {i}) n := by
  obtain ⟨c, htable, hlinked, hnodup, hmem⟩ := h.chains (inx i)
  have hbound : ∀ i ∈ c, 0 < i ∧ i ≤ n := fun i hi => h.bound i ((hmem i).mp hi).1
  have hlen := length_le_of_bound hnodup hbound
  have hzero : 0 ∉ c := fun hzero => Nat.lt_irrefl 0 (hbound 0 hzero).1
  obtain ⟨p, q, rfl⟩ := append_of_mem ((hmem i).mpr ⟨hi, rfl⟩)
  have hsplit := List.nodup_append.mp hnodup
  have hip : i ∉ p := fun hip => hsplit.2.2 i hip i mem_cons_self rfl
  have hiq : i ∉ q := (List.nodup_cons.mp hsplit.2.1).1
  have hpq : (p ++ q).Nodup := hnodup.sublist ((sublist_cons_self i q).append_left p)
  refine ⟨p.getLast?, ?_, ?_, ?_⟩
  · rw [htable, linkTo_linked hlinked hip hzero (by simp at hlen; omega), Option.or_none]
  · intro j hj
    have hjp := mem_of_getLast? hj
    exact ⟨((hmem j).mp (mem_append_left _ hjp)).1, fun heq => hip (heq ▸ hjp)⟩
  · refine ⟨fun j hj => h.bound j hj.1, fun b => ?_⟩
    have hsame : ∀ j, j ∉ p → j ≠ i →
        Function.update (relink next (next i) p.getLast?) i 0 j = next j := by
      intro j hjp hji
      rw [update_of_ne hji]
      cases hlast : p.getLast? with
      | none => rfl
      | some k =>
        have hjk : j ≠ k := fun heq => hjp (heq ▸ mem_of_getLast? hlast)
        exact update_of_ne hjk _ _
    by_cases hb : b = inx i
    · rw [hb]
      refine ⟨p ++ q, ?_, ?_, hpq, fun j => ?_⟩
      · cases hlast : p.getLast? with
        | none =>
          rw [List.getLast?_eq_none_iff.mp hlast] at hlinked ⊢
          exact (update_self _ _ _).trans hlinked.1
        | some k =>
          obtain ⟨p', rfl⟩ := List.getLast?_eq_some_iff.mp hlast
          show table (inx i) = _
          rw [htable]
          cases p' <;> rfl
      · cases hlast : p.getLast? with
        | none =>
          rw [List.getLast?_eq_none_iff.mp hlast] at hlinked ⊢
          exact (linkedTo_update hiq _ _).mpr hlinked.2
        | some k =>
          obtain ⟨p', rfl⟩ := List.getLast?_eq_some_iff.mp hlast
          rw [linkedTo_update fun hmem => (List.mem_append.mp hmem).elim hip hiq]
          rw [append_assoc, singleton_append] at hlinked ⊢
          have hk : ∀ j, j ∈ p' ∨ j ∈ q → j ≠ k := by
            rw [append_assoc, singleton_append] at hpq
            have hpq' := List.nodup_append.mp hpq
            intro j hj heq
            cases hj with
            | inl hj => exact hpq'.2.2 j hj k mem_cons_self heq
            | inr hj => exact (List.nodup_cons.mp hpq'.2.1).1 (heq ▸ hj)
          exact linkedTo_remove hlinked (update_self _ _ _)
            (fun j hj => update_of_ne (hk j (Or.inl hj)) _ _)
            fun j hj => update_of_ne (hk j (Or.inr hj)) _ _
      · rw [Set.mem_sdiff, Set.mem_singleton_iff, and_right_comm, ← hmem, mem_append,
          mem_append, mem_cons]
        constructor
        · intro hj
          refine ⟨by tauto, fun heq => ?_⟩
          rw [heq] at hj
          exact hj.elim hip hiq
        · tauto
    · obtain ⟨c, htable', hlinked', hnodup', hmem'⟩ := h.chains b
      have hother : ∀ j ∈ c, inx j ≠ inx i := fun j hj => by rw [((hmem' j).mp hj).2]; exact hb
      refine ⟨c, ?_, ?_, hnodup', fun j => ?_⟩
      · rw [← htable']
        cases p.getLast? with
        | none => exact update_of_ne hb _ _
        | some k => rfl
      · rw [linkedTo_congr fun j hj => hsame j ?_ ?_]
        · exact hlinked'
        · intro hjp
          exact hother j hj ((hmem j).mp (mem_append_left _ hjp)).2
        · intro heq
          exact hother j hj (by rw [heq])
      · rw [hmem', Set.mem_sdiff, Set.mem_singleton_iff]
        refine ⟨fun hj => ⟨⟨hj.1, fun heq => hb ?_⟩, hj.2⟩, fun hj => ⟨hj.1.1, hj.2⟩⟩
        rw [← hj.2, heq]

end Lib.Chains
