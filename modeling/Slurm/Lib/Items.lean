import Mathlib

/-!
# Loops that read items

A loop goes over a string: some elements are skipped, and from any other one on an item is read, with
which the state is changed.  A `Reader` says which elements are skipped and how an item is read; what
is left of the string then is shorter.

`Lists s l` says that `l` are the items of `s`, and `Comes s t` that an item is read from the rest
`t` on.

* `fold_eq_ok`: the loop ends with the state that all items make.
* `fold_eq_error`: it fails where it comes to a rest from which no item can be read.
* `Lists.unique`: there is only one list of items.
-/

namespace Lib.Items

/-- What is skipped, and how an item is read. -/
structure Reader (α β ε : Type) where
  skip : β → Bool
  read : List β → Except ε (α × List β)
  shorter : ∀ c t a rest, read (c :: t) = .ok (a, rest) → rest.length ≤ t.length

variable {α β ε σ : Type}

/-- The loop. -/
def Reader.fold (r : Reader α β ε) (f : σ → α → σ) : List β → σ → Except ε σ
  | [], st => .ok st
  | c :: t, st =>
    if r.skip c then r.fold f t st
    else
      match _ : r.read (c :: t) with
      | .error e => .error e
      | .ok (a, rest) => r.fold f rest (f st a)
termination_by s => s.length
decreasing_by
  · exact Nat.lt_succ_self _
  · rename_i hread
    exact Nat.lt_succ_of_le (r.shorter _ _ _ _ hread)

/-- The items of a string. -/
inductive Reader.Lists (r : Reader α β ε) : List β → List α → Prop
  | nil : r.Lists [] []
  | skip {c : β} {t : List β} {l : List α} (hc : r.skip c = true) (h : r.Lists t l) :
      r.Lists (c :: t) l
  | item {c : β} {t rest : List β} {a : α} {l : List α} (hc : r.skip c = false)
      (hread : r.read (c :: t) = .ok (a, rest)) (h : r.Lists rest l) : r.Lists (c :: t) (a :: l)

/-- The rests of a string from which an item is read. -/
inductive Reader.Comes (r : Reader α β ε) : List β → List β → Prop
  | here {c : β} {t : List β} (hc : r.skip c = false) : r.Comes (c :: t) (c :: t)
  | skip {c : β} {t u : List β} (hc : r.skip c = true) (h : r.Comes t u) : r.Comes (c :: t) u
  | item {c : β} {t rest u : List β} {a : α} (hc : r.skip c = false)
      (hread : r.read (c :: t) = .ok (a, rest)) (h : r.Comes rest u) : r.Comes (c :: t) u

variable {r : Reader α β ε} {f : σ → α → σ} {c : β} {t rest s : List β} {a : α} {e : ε} {st st' : σ}

/-! ## One turn -/

theorem fold_nil : r.fold f [] st = .ok st := by
  rw [Reader.fold]

theorem fold_skip (hc : r.skip c = true) : r.fold f (c :: t) st = r.fold f t st := by
  rw [Reader.fold, if_pos hc]

theorem fold_item (hc : r.skip c = false) (hread : r.read (c :: t) = .ok (a, rest)) :
    r.fold f (c :: t) st = r.fold f rest (f st a) := by
  rw [Reader.fold, hc, if_neg Bool.noConfusion]
  split
  · rename_i e h
    rw [hread] at h
    cases h
  · rename_i a' rest' h
    rw [hread] at h
    cases h
    rfl

theorem fold_error (hc : r.skip c = false) (hread : r.read (c :: t) = .error e) :
    r.fold f (c :: t) st = .error e := by
  rw [Reader.fold, hc, if_neg Bool.noConfusion]
  split
  · rename_i e' h
    rw [hread] at h
    cases h
    rfl
  · rename_i a' rest' h
    rw [hread] at h
    cases h

/-- What is skipped has no part in the items. -/
theorem lists_skip_iff {l : List α} (hc : r.skip c = true) : r.Lists (c :: t) l ↔ r.Lists t l := by
  constructor
  · intro h
    cases h with
    | skip _ h => exact h
    | item hskip _ _ => exact Bool.noConfusion (hc.symm.trans hskip)
  · exact .skip hc

theorem comes_skip_iff (hc : r.skip c = true) : r.Comes (c :: t) s ↔ r.Comes t s := by
  constructor
  · intro h
    cases h with
    | here hskip => exact Bool.noConfusion (hc.symm.trans hskip)
    | skip _ h => exact h
    | item hskip _ _ => exact Bool.noConfusion (hc.symm.trans hskip)
  · exact .skip hc

/-! ## All turns -/

theorem fold_of_lists {l : List α} (h : r.Lists s l) (st : σ) :
    r.fold f s st = .ok (l.foldl f st) := by
  induction h generalizing st with
  | nil => exact fold_nil
  | skip hc _ ih => rw [fold_skip hc, ih]
  | item hc hread _ ih => rw [fold_item hc hread, ih, List.foldl_cons]

theorem fold_of_comes (h : r.Comes s t) (hread : r.read t = .error e) (st : σ) :
    r.fold f s st = .error e := by
  induction h generalizing st with
  | here hc => exact fold_error hc hread
  | skip hc _ ih => rw [fold_skip hc, ih hread]
  | item hc hread' _ ih => rw [fold_item hc hread', ih hread]

/-- A string has a list of items, or the loop comes to where no item can be read. -/
theorem lists_or_comes (r : Reader α β ε) (s : List β) :
    (∃ l, r.Lists s l) ∨ ∃ t e, r.Comes s t ∧ r.read t = .error e := by
  induction hn : s.length using Nat.strong_induction_on generalizing s with
  | _ n ih =>
    cases s with
    | nil => exact Or.inl ⟨[], .nil⟩
    | cons c t =>
      have hlt : t.length < n := by
        rw [← hn]
        exact Nat.lt_succ_self _
      cases hc : r.skip c with
      | true =>
        rcases ih t.length hlt t rfl with ⟨l, hl⟩ | ⟨u, e, hu, hread⟩
        · exact Or.inl ⟨l, .skip hc hl⟩
        · exact Or.inr ⟨u, e, .skip hc hu, hread⟩
      | false =>
        rcases hread : r.read (c :: t) with e | ⟨a, rest⟩
        · exact Or.inr ⟨c :: t, e, .here hc, hread⟩
        · have hle := r.shorter c t a rest hread
          rcases ih rest.length (by omega) rest rfl with ⟨l, hl⟩ | ⟨u, e, hu, hread'⟩
          · exact Or.inl ⟨a :: l, .item hc hread hl⟩
          · exact Or.inr ⟨u, e, .item hc hread hu, hread'⟩

/-- The loop ends exactly when the string has items, with the state that they make. -/
theorem fold_eq_ok : r.fold f s st = .ok st' ↔ ∃ l, r.Lists s l ∧ l.foldl f st = st' := by
  constructor
  · intro h
    rcases lists_or_comes r s with ⟨l, hl⟩ | ⟨t, e, ht, hread⟩
    · rw [fold_of_lists hl] at h
      exact ⟨l, hl, Except.ok.inj h⟩
    · rw [fold_of_comes ht hread] at h
      cases h
  · intro ⟨l, hl, heq⟩
    rw [fold_of_lists hl, heq]

/-- The loop fails exactly where it comes to a rest from which no item can be read. -/
theorem fold_eq_error : r.fold f s st = .error e ↔ ∃ t, r.Comes s t ∧ r.read t = .error e := by
  constructor
  · intro h
    rcases lists_or_comes r s with ⟨l, hl⟩ | ⟨t, e', ht, hread⟩
    · rw [fold_of_lists hl] at h
      cases h
    · rw [fold_of_comes ht hread] at h
      cases h
      exact ⟨t, ht, hread⟩
  · intro ⟨t, ht, hread⟩
    exact fold_of_comes ht hread st

theorem Reader.Lists.unique {l l' : List α} (h : r.Lists s l) (h' : r.Lists s l') : l = l' := by
  have hall : ∀ l : List α, l.foldl (fun l a => l ++ [a]) [] = l := by
    intro l
    rw [List.foldl_append_eq_append, List.nil_append, ← List.flatMap_def, List.flatMap_singleton']
  have hfold := fold_of_lists (f := fun l a => l ++ [a]) h []
  have hfold' := fold_of_lists (f := fun l a => l ++ [a]) h' []
  rw [hall] at hfold hfold'
  exact Except.ok.inj (hfold.symm.trans hfold')

/-- What holds of each item that is read from a string, if it is passed on to the rests. -/
theorem Reader.Lists.forall {P : List β → Prop} {Q : α → Prop} {l : List α} (h : r.Lists s l)
    (htail : ∀ c t, P (c :: t) → P t)
    (hread : ∀ c t a rest, P (c :: t) → r.read (c :: t) = .ok (a, rest) → Q a ∧ P rest)
    (hs : P s) : ∀ a ∈ l, Q a := by
  induction h with
  | nil => exact fun a ha => absurd ha List.not_mem_nil
  | skip _ _ ih => exact ih (htail _ _ hs)
  | item _ hitem _ ih =>
    have hstep := hread _ _ _ _ hs hitem
    exact List.forall_mem_cons.mpr ⟨hstep.1, ih hstep.2⟩

end Lib.Items
