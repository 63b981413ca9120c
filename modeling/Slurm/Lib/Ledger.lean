import Mathlib

/-!
# Accounts that are changed once each

Books hold an account for each key, and a flag that is raised once and for all when something is
wrong with a change.

* `applyAll f ks`: the accounts of the keys `ks` are changed, one after the other.
* `applyAll_account` and `applyAll_wrong`: without duplicates each of them is changed
  as if it were the only one; `applyAll_adjusted` says so with a predicate for the keys.
-/

namespace Lib.Ledger

variable {κ υ : Type}

structure Books (κ υ : Type) where
  account : κ → υ
  wrong : Bool

variable [DecidableEq κ]

/-- One account is changed; `f` also says whether something is wrong. -/
def Books.apply (f : υ → υ × Bool) (b : Books κ υ) (k : κ) : Books κ υ :=
  { account := Function.update b.account k (f (b.account k)).1
    wrong := b.wrong || (f (b.account k)).2 }

/-- The accounts of the keys are changed. -/
def Books.applyAll (f : κ → υ → υ × Bool) (ks : List κ) (b : Books κ υ) : Books κ υ :=
  ks.foldl (fun b k => b.apply (f k) k) b

variable {f : κ → υ → υ × Bool} {ks ls : List κ} {b : Books κ υ} {k : κ}

@[simp] theorem applyAll_nil : b.applyAll f [] = b := rfl

@[simp] theorem applyAll_cons : b.applyAll f (k :: ks) = (b.apply (f k) k).applyAll f ks := rfl

theorem applyAll_append : b.applyAll f (ks ++ ls) = (b.applyAll f ks).applyAll f ls :=
  List.foldl_append

theorem apply_account_of_ne {g : υ → υ × Bool} {l : κ} (h : l ≠ k) :
    (b.apply g k).account l = b.account l := Function.update_of_ne h _ _

theorem apply_account_self {g : υ → υ × Bool} : (b.apply g k).account k = (g (b.account k)).1 :=
  Function.update_self _ _ _

theorem applyAll_account_of_notMem (h : k ∉ ks) : (b.applyAll f ks).account k = b.account k := by
  induction ks generalizing b with
  | nil => rfl
  | cons l ks ih =>
    rw [List.mem_cons, not_or] at h
    rw [applyAll_cons, ih h.2, apply_account_of_ne h.1]

/-- Each account is changed once. -/
theorem applyAll_account (hks : ks.Nodup) (h : k ∈ ks) :
    (b.applyAll f ks).account k = (f k (b.account k)).1 := by
  induction ks generalizing b with
  | nil => exact absurd h List.not_mem_nil
  | cons l ks ih =>
    obtain ⟨hl, hks⟩ := List.nodup_cons.mp hks
    rw [applyAll_cons]
    rcases List.mem_cons.mp h with rfl | hk
    · rw [applyAll_account_of_notMem hl, apply_account_self]
    · have hne : k ≠ l := fun heq => hl (heq ▸ hk)
      rw [ih hks hk, apply_account_of_ne hne]

/-- Something is wrong when it is wrong with one of the changes. -/
theorem applyAll_wrong (hks : ks.Nodup) :
    (b.applyAll f ks).wrong = false ↔
      b.wrong = false ∧ ∀ k ∈ ks, (f k (b.account k)).2 = false := by
  induction ks generalizing b with
  | nil => simp
  | cons l ks ih =>
    obtain ⟨hl, hks⟩ := List.nodup_cons.mp hks
    have hrest : ∀ k ∈ ks, (b.apply (f l) l).account k = b.account k := fun k hk =>
      apply_account_of_ne fun heq => hl (heq ▸ hk)
    rw [applyAll_cons, ih hks, Books.apply, Bool.or_eq_false_iff, List.forall_mem_cons, and_assoc]
    refine and_congr_right fun _ => and_congr_right fun _ => forall₂_congr fun k hk => ?_
    rw [← hrest k hk]
    rfl

/-- The accounts with `C` are changed once each, and the others are not. -/
structure Adjusted (f : κ → υ → υ × Bool) (C : κ → Prop) (b b' : Books κ υ) : Prop where
  account : ∀ k, C k → b'.account k = (f k (b.account k)).1
  other : ∀ k, ¬ C k → b'.account k = b.account k
  wrong : b'.wrong = false ↔ b.wrong = false ∧ ∀ k, C k → (f k (b.account k)).2 = false

theorem applyAll_adjusted (hks : ks.Nodup) {C : κ → Prop} (hC : ∀ k, k ∈ ks ↔ C k) :
    Adjusted f C b (b.applyAll f ks) := by
  constructor
  · exact fun k hk => applyAll_account hks ((hC k).mpr hk)
  · exact fun k hk => applyAll_account_of_notMem fun hmem => hk ((hC k).mp hmem)
  · rw [applyAll_wrong hks]
    exact and_congr_right fun _ => forall_congr' fun k => by rw [hC k]

end Lib.Ledger
