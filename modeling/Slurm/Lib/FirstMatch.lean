import Mathlib

/-!
# The first match in a list

`modifyFirst p f l` changes the first element of `l` that passes `p`.
`modifyFirst_cases` says all that it can do; the other lemmas are about what it keeps,
what a search finds after it, and what it does to a part of the list.
`foldl_absent` is about lists to which only what is not there yet is added.
-/

namespace Lib.FirstMatch

open List

variable {α β : Type} {p : α → Bool} {f : α → α}
variable {q : α → Bool} {l : List α}

/-- The first element that passes `p` is changed by `f`. -/
def modifyFirst (p : α → Bool) (f : α → α) : List α → List α
  | [] => []
  | a :: l => if p a then f a :: l else a :: modifyFirst p f l

/-- Nothing passes, or there is a first element that does. -/
theorem modifyFirst_cases (p : α → Bool) (f : α → α) (l : List α) :
    ((∀ a ∈ l, p a = false) ∧ modifyFirst p f l = l) ∨
      ∃ l₁ a l₂, l = l₁ ++ a :: l₂ ∧ p a = true ∧ (∀ b ∈ l₁, p b = false) ∧
        modifyFirst p f l = l₁ ++ f a :: l₂ := by
  induction l with
  | nil => exact Or.inl ⟨fun a ha => absurd ha not_mem_nil, rfl⟩
  | cons x l ih =>
    cases hx : p x with
    | true =>
      refine Or.inr ⟨[], x, l, rfl, hx, fun b hb => absurd hb not_mem_nil, ?_⟩
      rw [modifyFirst, if_pos hx]
      rfl
    | false =>
      have hskip : modifyFirst p f (x :: l) = x :: modifyFirst p f l := by
        rw [modifyFirst, if_neg (by rw [hx]; exact Bool.false_ne_true)]
      rcases ih with ⟨hnone, heq⟩ | ⟨l₁, a, l₂, rfl, ha, hbefore, heq⟩
      · refine Or.inl ⟨fun a ha => ?_, by rw [hskip, heq]⟩
        rcases List.mem_cons.mp ha with rfl | ha
        · exact hx
        · exact hnone a ha
      · refine Or.inr ⟨x :: l₁, a, l₂, rfl, ha, fun b hb => ?_, by rw [hskip, heq]; rfl⟩
        rcases List.mem_cons.mp hb with rfl | hb
        · exact hx
        · exact hbefore b hb

/-- What `f` does not change stays as it is in the whole list. -/
theorem map_modifyFirst {g : α → β} (hg : ∀ a, p a = true → g (f a) = g a) (l : List α) :
    (modifyFirst p f l).map g = l.map g := by
  rcases modifyFirst_cases p f l with ⟨-, heq⟩ | ⟨l₁, a, l₂, rfl, ha, -, heq⟩
  · rw [heq]
  · rw [heq, map_append, map_append, map_cons, map_cons, hg a ha]

/-- The change of a list seen in the images of its elements. -/
theorem map_modifyFirst_image {q : β → Bool} {k : β → β} {g : α → β} (hq : ∀ a, q (g a) = p a)
    (hf : ∀ a, g (f a) = k (g a)) (l : List α) :
    (modifyFirst p f l).map g = modifyFirst q k (l.map g) := by
  induction l with
  | nil => rfl
  | cons a l ih =>
    rw [modifyFirst, map_cons, modifyFirst, hq a]
    split
    · rw [map_cons, hf a]
    · rw [map_cons, ih]

/-- The first element that passes decides; where it passes `q` too, `q` may be used. -/
theorem modifyFirst_congr (hqp : ∀ a ∈ l, q a = true → p a = true)
    (hfirst : ∀ a, l.find? p = some a → q a = true) : modifyFirst p f l = modifyFirst q f l := by
  induction l with
  | nil => rfl
  | cons a l ih =>
    rw [modifyFirst, modifyFirst]
    cases hp : p a with
    | true =>
      have hq : q a = true := hfirst a (find?_cons_of_pos hp)
      rw [hq]
      rfl
    | false =>
      have hq : q a = false := by
        apply Bool.eq_false_of_not_eq_true
        intro hq
        rw [hqp a mem_cons_self hq] at hp
        exact Bool.noConfusion hp
      have hrest := ih (fun b hb => hqp b (mem_cons_of_mem _ hb)) fun b hb => by
        refine hfirst b ?_
        rw [find?_cons, hp]
        exact hb
      rw [hq, hrest]

theorem mem_modifyFirst {b : α} (h : b ∈ modifyFirst p f l) :
    b ∈ l ∨ ∃ a ∈ l, p a = true ∧ b = f a := by
  rcases modifyFirst_cases p f l with ⟨-, heq⟩ | ⟨l₁, a, l₂, rfl, ha, -, heq⟩
  · rw [heq] at h
    exact Or.inl h
  · rw [heq, mem_append, mem_cons] at h
    rcases h with h | rfl | h
    · exact Or.inl (mem_append_left _ h)
    · exact Or.inr ⟨a, mem_append_right _ mem_cons_self, ha, rfl⟩
    · exact Or.inl (mem_append_right _ (mem_cons_of_mem a h))

/-- An element that does not pass is kept. -/
theorem mem_modifyFirst_of_mem {b : α} (h : b ∈ l) (hb : p b = false) : b ∈ modifyFirst p f l := by
  rcases modifyFirst_cases p f l with ⟨-, heq⟩ | ⟨l₁, a, l₂, rfl, ha, -, heq⟩
  · rwa [heq]
  · rw [heq]
    rw [mem_append, mem_cons] at h ⊢
    rcases h with h | rfl | h
    · exact Or.inl h
    · exact absurd (hb.symm.trans ha) Bool.false_ne_true
    · exact Or.inr (Or.inr h)

theorem find?_modifyFirst_some {a : α} (h : l.find? p = some a) : f a ∈ modifyFirst p f l := by
  rcases modifyFirst_cases p f l with ⟨hnone, -⟩ | ⟨l₁, b, l₂, rfl, hb, hbefore, heq⟩
  · rw [List.find?_eq_none.mpr fun x hx => by rw [hnone x hx]; exact Bool.false_ne_true] at h
    cases h
  · rw [find?_append, List.find?_eq_none.mpr fun x hx => by
      rw [hbefore x hx]; exact Bool.false_ne_true, Option.none_or, find?_cons_of_pos hb,
      Option.some.injEq] at h
    rw [heq, h]
    exact mem_append_right _ mem_cons_self

theorem find?_modifyFirst_same (hf : ∀ a, p (f a) = p a) (l : List α) :
    (modifyFirst p f l).find? p = (l.find? p).map f := by
  induction l with
  | nil => rfl
  | cons a l ih =>
    rw [modifyFirst]
    by_cases ha : p a = true
    · rw [if_pos ha, find?_cons_of_pos ((hf a).trans ha), find?_cons_of_pos ha]
      rfl
    · rw [if_neg ha, find?_cons_of_neg ha, find?_cons_of_neg ha, ih]

/-- A change of elements that another search passes over. -/
theorem find?_modifyFirst_other (hf : ∀ a, q (f a) = q a) (hpq : ∀ a, p a = true → q a = false)
    (l : List α) : (modifyFirst p f l).find? q = l.find? q := by
  induction l with
  | nil => rfl
  | cons a l ih =>
    rw [modifyFirst]
    by_cases ha : p a = true
    · have hq : ¬ q a = true := by
        rw [hpq a ha]
        exact Bool.false_ne_true
      have hqf : ¬ q (f a) = true := by
        rw [hf a]
        exact hq
      rw [if_pos ha, find?_cons_of_neg hqf, find?_cons_of_neg hq]
    · rw [if_neg ha, find?_cons, find?_cons, ih]

/-- The first match is changed in a part of the list when it is in that part. -/
theorem filter_modifyFirst (hf : ∀ a, q (f a) = q a) (l : List α) :
    (modifyFirst p f l).filter q =
      if (l.find? p).any q then modifyFirst p f (l.filter q) else l.filter q := by
  induction l with
  | nil => rfl
  | cons a l ih =>
    rw [modifyFirst, find?_cons]
    by_cases ha : p a = true
    · rw [if_pos ha, ha, Option.any_some, filter_cons, filter_cons, hf a]
      by_cases hq : q a = true
      · rw [if_pos hq, if_pos hq, if_pos hq, modifyFirst, if_pos ha]
      · rw [if_neg hq, if_neg hq, if_neg hq]
    · rw [if_neg ha, Bool.eq_false_iff.mpr ha, filter_cons, filter_cons, ih]
      by_cases hq : q a = true
      · rw [if_pos hq, if_pos hq, modifyFirst, if_neg ha]
        split <;> rfl
      · rw [if_neg hq, if_neg hq]

/-- The first match is the first match of every part of the list that it is in. -/
theorem find?_filter_of_find? {a : α} (h : l.find? p = some a) (hq : q a = true) :
    (l.filter q).find? p = some a := by
  rw [find?_eq_some_iff_append] at h
  obtain ⟨ha, before, after, rfl, hbefore⟩ := h
  rw [filter_append, filter_cons_of_pos hq, find?_eq_some_iff_append]
  refine ⟨ha, _, _, rfl, fun x hx => ?_⟩
  exact hbefore x (mem_of_mem_filter hx)

/-! ## Positions -/

/-- Only the position of the first match changes. -/
theorem getElem?_modifyFirst (l : List α) (i : Nat) :
    (modifyFirst p f l)[i]? = if i = l.findIdx p then l[i]?.map f else l[i]? := by
  induction l generalizing i with
  | nil => simp [modifyFirst]
  | cons a l ih =>
    rw [modifyFirst, findIdx_cons]
    cases ha : p a with
    | true => cases i <;> simp
    | false => cases i <;> simp [ih]

/-- Two changes of the first match. -/
theorem modifyFirst_modifyFirst {g : α → α} (hf : ∀ a, p (f a) = p a) (l : List α) :
    modifyFirst p g (modifyFirst p f l) = modifyFirst p (fun a => g (f a)) l := by
  induction l with
  | nil => rfl
  | cons a l ih =>
    simp only [modifyFirst]
    by_cases ha : p a = true
    · rw [if_pos ha, if_pos ha, modifyFirst, if_pos ((hf a).trans ha)]
    · rw [if_neg ha, if_neg ha, modifyFirst, if_neg ha, ih]

/-- A change that the first match does not notice. -/
theorem modifyFirst_eq_self (h : ∀ a, l.find? p = some a → f a = a) : modifyFirst p f l = l := by
  induction l with
  | nil => rfl
  | cons a l ih =>
    rw [modifyFirst]
    by_cases ha : p a = true
    · rw [if_pos ha, h a (find?_cons_of_pos ha)]
    · rw [if_neg ha, ih fun b hb => h b ((find?_cons_of_neg ha).trans hb)]

/-- The list at the first match, and what is before it. -/
theorem first_of_any (h : l.any p = true) :
    ∃ before a after, l = before ++ a :: after ∧ p a = true ∧ (∀ x ∈ before, p x = false) ∧
      l.takeWhile (fun x => !p x) = before := by
  obtain ⟨a, ha⟩ := Option.isSome_iff_exists.mp (List.find?_isSome.mpr (List.any_eq_true.mp h))
  obtain ⟨hp, before, after, rfl, hbefore⟩ := List.find?_eq_some_iff_append.mp ha
  refine ⟨before, a, after, rfl, hp, fun x hx => ?_, ?_⟩
  · have hx' := hbefore x hx
    rwa [Bool.not_eq_eq_eq_not, Bool.not_true] at hx'
  · rw [takeWhile_append_of_pos hbefore, takeWhile_cons_of_neg (by simp [hp]),
      append_nil]

/-! ## The first of each kind -/

/-- The elements of a list, added one by one where there is none like them yet. -/
theorem foldl_absent (r : α → α → Bool) (xs : List α) :
    xs.foldl (fun l x => if l.any (r x) then l else l ++ [x]) [] = xs.eraseDupsBy r := by
  have hloop (kept : List α) :
      xs.foldl (fun l x => if l.any (r x) then l else l ++ [x]) kept.reverse =
        List.eraseDupsBy.loop r xs kept := by
    induction xs generalizing kept with
    | nil => rfl
    | cons x xs ih =>
      rw [foldl_cons, any_reverse]
      unfold List.eraseDupsBy.loop
      cases kept.any (r x) with
      | true => exact ih kept
      | false =>
        have hstep : kept.reverse ++ [x] = (x :: kept).reverse := (reverse_cons).symm
        simp only [Bool.false_eq_true, if_false, hstep]
        exact ih (x :: kept)
  exact hloop []

theorem map_eraseDupsBy {r : α → α → Bool} {q : β → β → Bool} {f : α → β}
    (h : ∀ a b, q (f a) (f b) = r a b) (xs : List α) :
    (xs.eraseDupsBy r).map f = (xs.map f).eraseDupsBy q := by
  rw [← foldl_absent, ← foldl_absent, foldl_map]
  have hloop (kept : List α) :
      (xs.foldl (fun l x => if l.any (r x) then l else l ++ [x]) kept).map f =
        xs.foldl (fun l x => if l.any (q (f x)) then l else l ++ [f x]) (kept.map f) := by
    induction xs generalizing kept with
    | nil => rfl
    | cons x xs ih =>
      have hany : (kept.map f).any (q (f x)) = kept.any (r x) := by
        rw [any_map]
        exact congrArg kept.any (funext fun a => h x a)
      rw [foldl_cons, foldl_cons, ih, hany]
      split
      · rfl
      · rw [map_append]
        rfl
  exact hloop []

/-- All are added if no two are alike. -/
theorem foldl_absent_distinct {r : α → α → Bool} {xs : List α}
    (h : xs.Pairwise fun a b => r b a = false) :
    xs.foldl (fun l x => if l.any (r x) then l else l ++ [x]) [] = xs := by
  have hloop (kept : List α) (hkept : ∀ a ∈ kept, ∀ x ∈ xs, r x a = false) :
      xs.foldl (fun l x => if l.any (r x) then l else l ++ [x]) kept = kept ++ xs := by
    induction xs generalizing kept with
    | nil => simp
    | cons x xs ih =>
      obtain ⟨hx, hxs⟩ := List.pairwise_cons.mp h
      have hnone : kept.any (r x) = false := by
        rw [any_eq_false]
        intro a ha
        rw [hkept a ha x mem_cons_self]
        exact Bool.false_ne_true
      rw [foldl_cons, hnone]
      simp only [Bool.false_eq_true, if_false]
      rw [ih hxs, append_assoc, singleton_append]
      intro a ha y hy
      rcases List.mem_append.mp ha with ha | ha
      · exact hkept a ha y (mem_cons_of_mem x hy)
      · rw [mem_singleton] at ha
        rw [ha]
        exact hx y hy
  rw [hloop [] (fun a ha => absurd ha not_mem_nil), nil_append]

end Lib.FirstMatch
