import Mathlib

/-!
# Runs of a partial step function

`exec s c` is the state after the command `c`, or `none` where the command is not
allowed.  A run is a list of commands, each allowed where it is executed.

* `Guarded guard s cs`: every command of the run is executed in a state that meets
  `guard`.
* `Always P s cs`: every state of the run has `P`; `always_of_guarded` is the
  invariant rule, and `always_iff_guarded` the one for a guard that is exact.
* `EachStep Q s cs`: every step of the run has `Q`; `always_eachStep_iff` is the rule
  for states and steps, with an invariant and a guard that is exact, and
  `always_eachStep_of_inv` the one without a guard.
* `Tracks R s a cs`: the run is followed step by step by a run of another step
  function, through states related by `R`; `tracks_of_guarded` is the simulation
  rule and `tracks_iff_guarded` the rule for a guard that is exact.
-/

namespace Lib.Run

variable {S A C : Type} (exec : S → C → Option S) (aexec : A → C → Option A)
variable {s s' : S} {cs : List C} {I : S → Prop} {a : A}

/-- The state after a run. -/
def run (s : S) : List C → Option S
  | [] => some s
  | c :: cs => (exec s c).bind fun s' => run s' cs

/-- Every command of the run meets the guard where it is executed. -/
def Guarded (guard : S → C → Prop) : S → List C → Prop
  | _, [] => True
  | s, c :: cs => ∀ s', exec s c = some s' → guard s c ∧ Guarded guard s' cs

/-- Every state of the run has the property. -/
def Always (P : S → Prop) : S → List C → Prop
  | s, [] => P s
  | s, c :: cs => P s ∧ ∀ s', exec s c = some s' → Always P s' cs

/-- Every step of the run has the property. -/
def EachStep (Q : S → C → S → Prop) : S → List C → Prop
  | _, [] => True
  | s, c :: cs => ∀ s', exec s c = some s' → Q s c s' ∧ EachStep Q s' cs

/-- Every state of the run is related to the state of a second run, by the second
step function, of the same commands. -/
def Tracks (R : S → A → Prop) : S → A → List C → Prop
  | s, a, [] => R s a
  | s, a, c :: cs =>
    R s a ∧ ∀ s', exec s c = some s' → ∃ a', aexec a c = some a' ∧ Tracks R s' a' cs

variable {exec aexec} {guard : S → C → Prop} {P : S → Prop} {Q : S → C → S → Prop}
  {R : S → A → Prop}

theorem guarded_cons_none {c : C} (h : exec s c = none) : Guarded exec guard s (c :: cs) := by
  intro s' hs'
  rw [h] at hs'
  cases hs'

theorem guarded_cons_some {c : C} (h : exec s c = some s') :
    Guarded exec guard s (c :: cs) ↔ guard s c ∧ Guarded exec guard s' cs := by
  constructor
  · exact fun hguard => hguard s' h
  · intro hguard s₁ hs₁
    rw [h] at hs₁
    exact Option.some.inj hs₁ ▸ hguard

/-- On one run a guard that can be decided is checked step by step. -/
instance decidableGuarded [∀ s c, Decidable (guard s c)] : ∀ s cs, Decidable (Guarded exec guard s cs)
  | _, [] => isTrue trivial
  | s, c :: cs =>
    match h : exec s c with
    | none => isTrue (guarded_cons_none h)
    | some s' =>
      have : Decidable (Guarded exec guard s' cs) := decidableGuarded s' cs
      decidable_of_iff _ (guarded_cons_some h).symm

/-- The invariant rule. -/
theorem always_of_guarded (hstep : ∀ s c s', P s → guard s c → exec s c = some s' → P s') (hs : P s)
    (hguard : Guarded exec guard s cs) : Always exec P s cs := by
  induction cs generalizing s with
  | nil => exact hs
  | cons c cs ih =>
    refine ⟨hs, fun s' hs' => ?_⟩
    obtain ⟨hc, hrest⟩ := hguard s' hs'
    exact ih (hstep s c s' hs hc hs') hrest

/-- The last state of a run has what every state of it has. -/
theorem Always.run (h : Always exec P s cs) (hrun : run exec s cs = some s') : P s' := by
  induction cs generalizing s with
  | nil =>
    cases hrun
    exact h
  | cons c cs ih =>
    rw [Run.run, Option.bind_eq_some_iff] at hrun
    obtain ⟨s₁, hs₁, hrun⟩ := hrun
    exact ih (h.2 s₁ hs₁) hrun

theorem Always.imp {Q : S → Prop} (himp : ∀ s, P s → Q s) (h : Always exec P s cs) :
    Always exec Q s cs := by
  induction cs generalizing s with
  | nil => exact himp s h
  | cons c cs ih => exact ⟨himp s h.1, fun s' hs' => ih (h.2 s' hs')⟩

/-- The totality rule: no command of a run is refused. -/
theorem run_isSome (hstep : ∀ s c, P s → ∃ s', exec s c = some s' ∧ P s') (hs : P s) (cs : List C) :
    (run exec s cs).isSome := by
  induction cs generalizing s with
  | nil => rfl
  | cons c cs ih =>
    obtain ⟨s', hs', hP⟩ := hstep s c hs
    rw [run, hs']
    exact ih hP

theorem Always.start (h : Always exec P s cs) : P s := by
  cases cs with
  | nil => exact h
  | cons c cs => exact h.1

/-- The invariant `I` is kept where the guard is met, and the guard is met where the
step and the state after it are as they should be.  Then so is the whole run exactly
when all its steps meet the guard. -/
theorem always_eachStep_iff (hP : ∀ s, I s → P s) (hstep : ∀ s c s', I s → exec s c = some s' →
      (guard s c → I s') ∧ (P s' ∧ Q s c s' ↔ guard s c)) (hs : I s) :
    Always exec P s cs ∧ EachStep exec Q s cs ↔ Guarded exec guard s cs := by
  induction cs generalizing s with
  | nil => exact ⟨fun _ => trivial, fun _ => ⟨hP s hs, trivial⟩⟩
  | cons c cs ih =>
    constructor
    · rintro ⟨halways, heach⟩ s' hs'
      obtain ⟨hI, hiff⟩ := hstep s c s' hs hs'
      have hrest := halways.2 s' hs'
      have hc : guard s c := hiff.mp ⟨hrest.start, (heach s' hs').1⟩
      exact ⟨hc, (ih (hI hc)).mp ⟨hrest, (heach s' hs').2⟩⟩
    · intro hguard
      have hnext : ∀ s', exec s c = some s' →
          Q s c s' ∧ Always exec P s' cs ∧ EachStep exec Q s' cs := by
        intro s' hs'
        obtain ⟨hI, hiff⟩ := hstep s c s' hs hs'
        obtain ⟨hc, hrest⟩ := hguard s' hs'
        exact ⟨(hiff.mpr hc).2, (ih (hI hc)).mpr hrest⟩
      exact ⟨⟨hP s hs, fun s' hs' => (hnext s' hs').2.1⟩,
        fun s' hs' => ⟨(hnext s' hs').1, (hnext s' hs').2.2⟩⟩

/-- The rule for states alone. -/
theorem always_iff_guarded (hP : ∀ s, I s → P s)
    (hstep : ∀ s c s', I s → exec s c = some s' → (guard s c → I s') ∧ (P s' ↔ guard s c))
    (hs : I s) : Always exec P s cs ↔ Guarded exec guard s cs := by
  induction cs generalizing s with
  | nil => exact ⟨fun _ => trivial, fun _ => hP s hs⟩
  | cons c cs ih =>
    constructor
    · rintro ⟨-, hrest⟩ s' hs'
      obtain ⟨hI, hiff⟩ := hstep s c s' hs hs'
      have hc : guard s c := hiff.mp (hrest s' hs').start
      exact ⟨hc, (ih (hI hc)).mp (hrest s' hs')⟩
    · intro hguard
      refine ⟨hP s hs, fun s' hs' => ?_⟩
      obtain ⟨hc, hrest⟩ := hguard s' hs'
      exact (ih ((hstep s c s' hs hs').1 hc)).mpr hrest

/-- The rule for states and steps, with an invariant that every step keeps. -/
theorem always_eachStep_of_inv (hP : ∀ s, I s → P s)
    (hstep : ∀ s c s', I s → exec s c = some s' → I s' ∧ Q s c s') (hs : I s) (cs : List C) :
    Always exec P s cs ∧ EachStep exec Q s cs := by
  induction cs generalizing s with
  | nil => exact ⟨hP s hs, trivial⟩
  | cons c cs ih =>
    have hrest := fun s' hs' => ih (hstep s c s' hs hs').1
    exact ⟨⟨hP s hs, fun s' hs' => (hrest s' hs').1⟩,
      fun s' hs' => ⟨(hstep s c s' hs hs').2, (hrest s' hs').2⟩⟩

theorem Tracks.imp {R' : S → A → Prop} (himp : ∀ s a, R s a → R' s a)
    (h : Tracks exec aexec R s a cs) : Tracks exec aexec R' s a cs := by
  induction cs generalizing s a with
  | nil => exact himp s a h
  | cons c cs ih =>
    refine ⟨himp s a h.1, fun s' hs' => ?_⟩
    obtain ⟨a', ha', hrest⟩ := h.2 s' hs'
    exact ⟨a', ha', ih hrest⟩

/-- The last states of two runs are related. -/
theorem Tracks.run (h : Tracks exec aexec R s a cs) (hrun : run exec s cs = some s') :
    ∃ a', run aexec a cs = some a' ∧ R s' a' := by
  induction cs generalizing s a with
  | nil =>
    cases hrun
    exact ⟨a, rfl, h⟩
  | cons c cs ih =>
    rw [Run.run, Option.bind_eq_some_iff] at hrun
    obtain ⟨s₁, hs₁, hrun⟩ := hrun
    obtain ⟨a₁, ha₁, hrest⟩ := h.2 s₁ hs₁
    obtain ⟨a', ha', hR⟩ := ih hrest hrun
    refine ⟨a', ?_, hR⟩
    rw [Run.run, ha₁]
    exact ha'

theorem Tracks.related (h : Tracks exec aexec R s a cs) : R s a := by
  cases cs with
  | nil => exact h
  | cons c cs => exact h.1

/-- The simulation rule for an exact guard: a step that does not meet it ends in a
state that is not related.  Then a run is tracked when all its steps meet the
guard, and only then. -/
theorem tracks_iff_guarded (hstep : ∀ s a c s', R s a → exec s c = some s' →
      ∃ a', aexec a c = some a' ∧ (R s' a' ↔ guard s c)) (hR : R s a) :
    Tracks exec aexec R s a cs ↔ Guarded exec guard s cs := by
  induction cs generalizing s a with
  | nil => exact ⟨fun _ => trivial, fun _ => hR⟩
  | cons c cs ih =>
    constructor
    · intro h s' hs'
      obtain ⟨a₁, ha₁, htracks⟩ := h.2 s' hs'
      obtain ⟨a', ha', hiff⟩ := hstep s a c s' hR hs'
      rw [ha₁, Option.some.injEq] at ha'
      subst ha'
      exact ⟨hiff.mp htracks.related, (ih htracks.related).mp htracks⟩
    · intro h
      refine ⟨hR, fun s' hs' => ?_⟩
      obtain ⟨hc, hrest⟩ := h s' hs'
      obtain ⟨a', ha', hiff⟩ := hstep s a c s' hR hs'
      exact ⟨a', ha', (ih (hiff.mpr hc)).mpr hrest⟩

end Lib.Run

/-!
## Messages in flight

Messages that were sent and not delivered are a list; a delivery takes one of them out.  What is known of
the messages of one kind is the list that a filter leaves.
-/

namespace Lib.InFlight

open List

variable {M : Type} {l : List M} {i : Nat} {m : M}

theorem filter_split (hm : l[i]? = some m) (P : M → Bool) :
    l.filter P = (l.take i).filter P ++ (m :: l.drop (i + 1)).filter P := by
  obtain ⟨hi, hget⟩ := List.getElem?_eq_some_iff.mp hm
  rw [← filter_append, ← hget, ← drop_eq_getElem_cons hi, take_append_drop]

/-- The only message of its kind is delivered. -/
theorem filter_eraseIdx_self (hm : l[i]? = some m) {P : M → Bool} (hP : P m = true) {m' : M}
    (hl : l.filter P = [m']) : m' = m ∧ (l.eraseIdx i).filter P = [] := by
  rw [eraseIdx_eq_take_drop_succ, filter_append]
  rw [filter_split hm, filter_cons_of_pos hP] at hl
  rcases List.append_eq_singleton_iff.mp hl with ⟨hnil, hcons⟩ | ⟨-, hcons⟩
  · obtain ⟨hm', hnil'⟩ := List.cons.inj hcons
    exact ⟨hm'.symm, by rw [hnil, hnil']; rfl⟩
  · exact absurd hcons (cons_ne_nil _ _)

/-- A message of another kind is delivered. -/
theorem filter_eraseIdx_other (hm : l[i]? = some m) {P : M → Bool} (hP : P m = false) :
    (l.eraseIdx i).filter P = l.filter P := by
  rw [eraseIdx_eq_take_drop_succ, filter_append, filter_split hm,
    filter_cons_of_neg (by rw [hP]; exact Bool.false_ne_true)]

end Lib.InFlight
