import Mathlib

/-!
# Acyclic relations

A relation is acyclic when no chain of its steps comes back to where it started.

* `setOut r a s` is `r` with other steps out of one element `a`: to the elements of `s`.
* `acyclic_setOut_iff`: it is acyclic, when `r` is, exactly when no element of `s` leads to
  `a` without a step out of `a`.
-/

namespace Lib.Cycles

open Relation

variable {α : Type} {r : α → α → Prop} {a : α} {s : α → Prop}

/-- No chain of steps comes back. -/
def Acyclic (r : α → α → Prop) : Prop := ∀ x, ¬ TransGen r x x

/-- The steps that are not out of `a`. -/
def off (r : α → α → Prop) (a : α) : α → α → Prop := fun x y => x ≠ a ∧ r x y

/-- The steps out of `a` are to `s`, and the others are as in `r`. -/
def setOut (r : α → α → Prop) (a : α) (s : α → Prop) : α → α → Prop :=
  fun x y => (x = a ∧ s y) ∨ off r a x y

theorem off_le_setOut : off r a ≤ setOut r a s := fun _ _ h => Or.inr h

/-- A chain of the other relation to `a` is one of `r` up to the first step out of `a`, or
its last part is one from `s`. -/
theorem transGen_setOut {x : α} (h : TransGen (setOut r a s) x a) :
    (∃ y, s y ∧ ReflTransGen (off r a) y a) ∨ TransGen (off r a) x a := by
  induction h using TransGen.head_induction_on with
  | single h =>
    rcases h with ⟨-, hs⟩ | h
    · exact Or.inl ⟨a, hs, .refl⟩
    · exact Or.inr (.single h)
  | head h _ ih =>
    rcases ih with ih | ih
    · exact Or.inl ih
    · rcases h with ⟨-, hs⟩ | h
      · exact Or.inl ⟨_, hs, ih.to_reflTransGen⟩
      · exact Or.inr (.head h ih)

/-- A chain either comes past `a`, or is one of `r`. -/
theorem passes_or_off {x y : α} (h : TransGen (setOut r a s) x y) :
    (ReflTransGen (setOut r a s) x a ∧ TransGen (setOut r a s) a y) ∨ TransGen (off r a) x y := by
  induction h using TransGen.head_induction_on with
  | single h =>
    rcases h with ⟨rfl, hs⟩ | h
    · exact Or.inl ⟨.refl, .single (Or.inl ⟨rfl, hs⟩)⟩
    · exact Or.inr (.single h)
  | head h hrest ih =>
    rcases ih with ⟨hto, hfrom⟩ | ih
    · exact Or.inl ⟨.head h hto, hfrom⟩
    · rcases h with ⟨rfl, hs⟩ | h
      · exact Or.inl ⟨.refl, .head (Or.inl ⟨rfl, hs⟩) hrest⟩
      · exact Or.inr (.head h ih)

/-- From `s` back to `a` closes a chain. -/
theorem transGen_of_reach {y : α} (hy : s y) (h : ReflTransGen (off r a) y a) :
    TransGen (setOut r a s) a a :=
  TransGen.head' (Or.inl ⟨rfl, hy⟩) (ReflTransGen.mono off_le_setOut _ _ h)

theorem acyclic_setOut_iff (hr : Acyclic r) :
    Acyclic (setOut r a s) ↔ ∀ y, s y → ¬ ReflTransGen (off r a) y a := by
  have hoff : Acyclic (off r a) := fun x h =>
    hr x (TransGen.mono (fun _ _ h => h.2) _ _ h)
  constructor
  · intro h y hy hreach
    exact h a (transGen_of_reach hy hreach)
  · intro h x hx
    have hclosed : ¬ TransGen (setOut r a s) a a := by
      intro haa
      rcases transGen_setOut haa with ⟨y, hy, hreach⟩ | haa
      · exact h y hy hreach
      · exact hoff a haa
    rcases passes_or_off hx with ⟨hto, hfrom⟩ | hx
    · exact hclosed (hfrom.trans_left hto)
    · exact hoff x hx

end Lib.Cycles
