import Mathlib

/-!
# Operands joined by `and` and `or`

A `Row α` is a row of operands with an operator between each two.  It can be read in two ways:
`Tight` lets `and` bind tighter, so that the row is an or of its `alternatives`, and `FromLeft` takes
one operator after the other.

A list of sets stands for the or of the sets, each an and: `Covers sets F`.

* `tight_cons_and`, `tight_cons_or`: the first operand taken off.
* `fromLeft_congr`: only the values of the operands matter.
* `tight_iff_fromLeft`: the two ways are one where no `and` comes behind an `or`.
* `covers_append`, `covers_flatMap_map`: the or of two lists of sets, and their and.
* `tight_ofList_or`, `tight_ofList_and`: rows with one operator.
-/

namespace Lib.Joined

open List

/-- The operators. -/
inductive Op where
  | and
  | or
  deriving DecidableEq

/-- A row of operands: each but the last with the operator behind it. -/
structure Row (α : Type) where
  init : List (α × Op)
  last : α

variable {α β : Type}

/-- An operand more, in front. -/
def Row.cons (x : α) (op : Op) (e : Row α) : Row α := ⟨(x, op) :: e.init, e.last⟩

/-- The first alternative of a row, and the others. -/
def split : List (α × Op) → α → List α × List (List α)
  | [], y => ([y], [])
  | (x, .and) :: r, y => (x :: (split r y).1, (split r y).2)
  | (x, .or) :: r, y => ([x], (split r y).1 :: (split r y).2)

/-- The operands between the `or`s. -/
def Row.alternatives (e : Row α) : List (List α) := (split e.init e.last).1 :: (split e.init e.last).2

/-- `and` binds tighter: one of the alternatives holds. -/
def Tight (v : α → Prop) (e : Row α) : Prop := ∃ a ∈ e.alternatives, ∀ x ∈ a, v x

/-- An operator between two values. -/
def Op.apply : Op → Prop → Prop → Prop
  | .and, P, Q => P ∧ Q
  | .or, P, Q => P ∨ Q

/-- The operators of a row one after the other, behind a value `P` and its operator. -/
def fold (v : α → Prop) (P : Prop) (op : Op) : List (α × Op) → α → Prop
  | [], y => op.apply P (v y)
  | (x, op') :: r, y => fold v (op.apply P (v x)) op' r y

/-- The row is read from left to right. -/
def FromLeft (v : α → Prop) : Row α → Prop
  | ⟨[], y⟩ => v y
  | ⟨(x, op) :: r, y⟩ => fold v (v x) op r y

/-- No `and` comes behind an `or`. -/
def AndsFirst (e : Row α) : Prop := (e.init.map Prod.snd).Pairwise fun a b => a = .or → b = .or

variable {v w : α → Prop} {P Q : Prop} {x y : α} {op : Op} {r : List (α × Op)}

/-! ## Readings -/

theorem tight_single (v : α → Prop) (y : α) : Tight v ⟨[], y⟩ ↔ v y := by
  simp [Tight, Row.alternatives, split]

theorem tight_iff (e : Row α) :
    Tight v e ↔ (∀ x ∈ (split e.init e.last).1, v x) ∨
      ∃ a ∈ (split e.init e.last).2, ∀ x ∈ a, v x := by
  simp [Tight, Row.alternatives]

/-- The first alternative, with a condition of its own. -/
def TightWith (v : α → Prop) (P : Prop) (e : Row α) : Prop :=
  P ∧ (∀ x ∈ (split e.init e.last).1, v x) ∨ ∃ a ∈ (split e.init e.last).2, ∀ x ∈ a, v x

theorem tightWith_true (e : Row α) : TightWith v True e ↔ Tight v e := by
  simp [TightWith, tight_iff]

theorem tightWith_single : TightWith v P ⟨[], y⟩ ↔ P ∧ v y := by
  simp [TightWith, split]

theorem tightWith_and : TightWith v P ⟨(x, .and) :: r, y⟩ ↔ TightWith v (P ∧ v x) ⟨r, y⟩ := by
  simp [TightWith, split, and_assoc]

theorem tightWith_or : TightWith v P ⟨(x, .or) :: r, y⟩ ↔ P ∧ v x ∨ Tight v ⟨r, y⟩ := by
  simp [TightWith, tight_iff, split]

/-- An operand and an `and` in front. -/
theorem tight_cons_and : Tight v ⟨(x, .and) :: r, y⟩ ↔ TightWith v (v x) ⟨r, y⟩ := by
  rw [← tightWith_true, tightWith_and, true_and]

/-- An operand and an `or` in front. -/
theorem tight_cons_or : Tight v ⟨(x, .or) :: r, y⟩ ↔ v x ∨ Tight v ⟨r, y⟩ := by
  rw [← tightWith_true, tightWith_or, true_and]

/-- Where every operand holds. -/
theorem tight_of_forall (h : ∀ x, v x) (e : Row α) : Tight v e :=
  ⟨_, mem_cons_self, fun x _ => h x⟩

/-- The operands of a row. -/
def Row.operands (e : Row α) : List α := e.init.map Prod.fst ++ [e.last]

theorem fold_congr (hv : ∀ x ∈ r.map Prod.fst ++ [y], v x ↔ w x) (h : P ↔ Q) :
    fold v P op r y ↔ fold w Q op r y := by
  induction r generalizing P Q op with
  | nil =>
    have hy := hv y mem_cons_self
    unfold fold
    rw [propext h, propext hy]
  | cons e r ih =>
    have hx := hv e.1 mem_cons_self
    refine ih (fun x hx => hv x (mem_cons_of_mem _ hx)) ?_
    rw [propext h, propext hx]

/-- The values of the operands are all that matters. -/
theorem fromLeft_congr {e : Row α} (h : ∀ x ∈ e.operands, v x ↔ w x) :
    FromLeft v e ↔ FromLeft w e := by
  rcases e with ⟨_ | ⟨x, r⟩, y⟩
  · exact h y mem_cons_self
  · exact fold_congr (fun z hz => h z (mem_cons_of_mem _ hz)) (h x.1 mem_cons_self)

/-- A true value and an `and` in front. -/
theorem fold_true (r : List (α × Op)) (y : α) : fold v True .and r y ↔ FromLeft v ⟨r, y⟩ := by
  rcases r with _ | ⟨x, r⟩
  · exact iff_of_eq (true_and _)
  · exact fold_congr (fun z _ => Iff.rfl) (iff_of_eq (true_and _))

/-- Where there are only `or`s. -/
theorem fold_or (hall : ∀ e ∈ r, e.2 = .or) : fold v P .or r y ↔ P ∨ Tight v ⟨r, y⟩ := by
  induction r generalizing P with
  | nil => rw [tight_single]; rfl
  | cons e r ih =>
    rcases e with ⟨x, op⟩
    have hop : op = .or := hall _ mem_cons_self
    subst hop
    show fold v (P ∨ v x) .or r y ↔ _
    rw [ih (fun e he => hall e (mem_cons_of_mem _ he)), tight_cons_or, or_assoc]

/-- Where no `and` comes behind an `or`, one operator after the other is the tight reading. -/
theorem fold_and (h : (r.map Prod.snd).Pairwise fun a b => a = Op.or → b = .or) :
    fold v P .and r y ↔ TightWith v P ⟨r, y⟩ := by
  induction r generalizing P with
  | nil => rw [tightWith_single]; rfl
  | cons e r ih =>
    rcases e with ⟨x, op⟩
    rw [map_cons, pairwise_cons] at h
    cases op with
    | and => exact (ih h.2).trans tightWith_and.symm
    | or =>
      have hall : ∀ e ∈ r, e.2 = .or := fun e he => h.1 _ (mem_map_of_mem he) rfl
      exact (fold_or hall).trans tightWith_or.symm

theorem tight_iff_fromLeft {e : Row α} (h : AndsFirst e) : Tight v e ↔ FromLeft v e := by
  rcases e with ⟨_ | ⟨⟨x, op⟩, r⟩, y⟩
  · exact tight_single v y
  · have h' := h
    unfold AndsFirst at h'
    rw [map_cons, pairwise_cons] at h'
    cases op with
    | and => exact tight_cons_and.trans (fold_and h'.2).symm
    | or =>
      have hall : ∀ e ∈ r, e.2 = .or := fun e he => h'.1 _ (mem_map_of_mem he) rfl
      exact tight_cons_or.trans (fold_or hall).symm

/-! ## Lists of sets -/

/-- One of the sets is covered by `F`. -/
def Covers (sets : List (List α)) (F : Set α) : Prop := ∃ s ∈ sets, ∀ x ∈ s, x ∈ F

theorem covers_nil (F : Set α) : ¬ Covers [] F := by
  simp [Covers]

theorem covers_cons (s : List α) (sets : List (List α)) (F : Set α) :
    Covers (s :: sets) F ↔ (∀ x ∈ s, x ∈ F) ∨ Covers sets F := by
  simp [Covers]

theorem covers_append (sets more : List (List α)) (F : Set α) :
    Covers (sets ++ more) F ↔ Covers sets F ∨ Covers more F := by
  simp [Covers, or_and_right, exists_or]

/-- Each set with each of the others, where `F` covers what `join` makes of two sets if it covers
both. -/
theorem covers_flatMap_map {join : List α → List α → List α} {F : Set α}
    (hjoin : ∀ s t, (∀ x ∈ join s t, x ∈ F) ↔ (∀ x ∈ s, x ∈ F) ∧ ∀ x ∈ t, x ∈ F)
    (sets more : List (List α)) :
    Covers (sets.flatMap fun s => more.map (join s)) F ↔ Covers sets F ∧ Covers more F := by
  unfold Covers
  constructor
  · intro h
    obtain ⟨u, hu, hF⟩ := h
    obtain ⟨s, hs, hu⟩ := List.mem_flatMap.mp hu
    obtain ⟨t, ht, rfl⟩ := List.mem_map.mp hu
    have hboth := (hjoin s t).mp hF
    exact ⟨⟨s, hs, hboth.1⟩, ⟨t, ht, hboth.2⟩⟩
  · intro h
    obtain ⟨⟨s, hs, hsF⟩, t, ht, htF⟩ := h
    exact ⟨join s t, List.mem_flatMap.mpr ⟨s, hs, mem_map_of_mem ht⟩,
      (hjoin s t).mpr ⟨hsF, htF⟩⟩

/-! ## Rows with one operator -/

/-- A row of all elements of a list that is not empty. -/
def ofList (op : Op) : α → List α → Row α
  | x, [] => ⟨[], x⟩
  | x, y :: l => (ofList op y l).cons x op

theorem tight_ofList_or (v : α → Prop) (x : α) (l : List α) :
    Tight v (ofList .or x l) ↔ ∃ y ∈ x :: l, v y := by
  induction l generalizing x with
  | nil => simp [ofList, tight_single]
  | cons y l ih =>
    show Tight v ⟨(x, .or) :: (ofList .or y l).init, (ofList .or y l).last⟩ ↔ _
    rw [tight_cons_or, exists_mem_cons_iff]
    exact or_congr_right (ih y)

theorem tightWith_ofList_and (v : α → Prop) (P : Prop) (x : α) (l : List α) :
    TightWith v P (ofList .and x l) ↔ P ∧ ∀ y ∈ x :: l, v y := by
  induction l generalizing x P with
  | nil => simp [ofList, tightWith_single]
  | cons y l ih =>
    show TightWith v P ⟨(x, .and) :: (ofList .and y l).init, (ofList .and y l).last⟩ ↔ _
    rw [tightWith_and, forall_mem_cons, ← and_assoc]
    exact ih (P ∧ v x) y

theorem tight_ofList_and (v : α → Prop) (x : α) (l : List α) :
    Tight v (ofList .and x l) ↔ ∀ y ∈ x :: l, v y := by
  rw [← tightWith_true, tightWith_ofList_and, true_and]

end Lib.Joined
