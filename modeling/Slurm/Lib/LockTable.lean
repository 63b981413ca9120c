import Mathlib

/-!
# Lock tables and the programs of their clients

A table has an entry for each location, which at most one client owns.  A client runs a
program of requests, `Prog`: to own an entry, or to give one up.  A request may be refused.
No client changes what the others own (`SetTo.owned_of_ne`, `UnsetTo.owned_of_ne`), so a
program is reasoned about with nothing but what its own client owns:

* `Spec post p H`: run by a client that owns `H`, the program ends with `post`, whatever
  is answered and whatever the other clients do.
* `spec_bind`, `Spec.mono`: the rules for programs in sequence.

`Protocol` is a program to take a lock and one to release it, with what a client owns while it
holds the lock.  `Step` is a step of a client in a system of clients that take and release the
lock over and over.

* `Step.inv`: the invariant of the system.
* `Inv.exclusive`: no two clients hold the lock.
-/

namespace Lib.LockTable

variable {ω κ σ ι α β : Type}

/-! ## Programs -/

/-- A program of requests, which also changes a variable of its client. -/
inductive Prog (κ σ α : Type) where
  | ret (a : α)
  /-- Ask to own an entry. -/
  | set (t : κ) (k : Bool → Prog κ σ α)
  /-- Give up an entry. -/
  | unset (t : κ) (k : Bool → Prog κ σ α)
  | store (f : σ → σ) (k : Prog κ σ α)

namespace Prog

/-- One program after another. -/
def bind : Prog κ σ α → (α → Prog κ σ β) → Prog κ σ β
  | ret a, f => f a
  | set t k, f => set t fun b => (k b).bind f
  | unset t k, f => unset t fun b => (k b).bind f
  | store g k, f => store g (k.bind f)

instance : Monad (Prog κ σ) where
  pure := ret
  bind := bind

end Prog

/-- Ask to own an entry, and return the answer. -/
def askSet (t : κ) : Prog κ σ Bool := .set t .ret

/-- Give up an entry, and return the answer. -/
def askUnset (t : κ) : Prog κ σ Bool := .unset t .ret

/-! ## What a program makes sure of -/

/-- Run by a client that owns `H`, the program ends with `post`. -/
def Spec (post : α → Set κ → Prop) : Prog κ σ α → Set κ → Prop
  | .ret a, H => post a H
  | .set t k, H => Spec post (k true) (insert t H) ∧ Spec post (k false) H
  | .unset t k, H => Spec post (k true) (H \ {t}) ∧ (t ∉ H → Spec post (k false) H)
  | .store _ k, H => Spec post k H

variable {post post' : α → Set κ → Prop} {H : Set κ}

theorem spec_pure (a : α) : Spec post (pure a : Prog κ σ α) H ↔ post a H := Iff.rfl

theorem spec_askSet {post : Bool → Set κ → Prop} (t : κ) :
    Spec post (askSet t : Prog κ σ Bool) H ↔ post true (insert t H) ∧ post false H := Iff.rfl

theorem spec_askUnset {post : Bool → Set κ → Prop} (t : κ) :
    Spec post (askUnset t : Prog κ σ Bool) H ↔
      post true (H \ {t}) ∧ (t ∉ H → post false H) := Iff.rfl

theorem spec_bind {post : β → Set κ → Prop} (p : Prog κ σ α) (f : α → Prog κ σ β) :
    Spec post (p >>= f) H ↔ Spec (fun a => Spec post (f a)) p H := by
  show Spec post (p.bind f) H ↔ _
  induction p generalizing H with
  | ret a => rfl
  | set t k ih => exact and_congr (ih true) (ih false)
  | unset t k ih => exact and_congr (ih true) (imp_congr_right fun _ => ih false)
  | store g k ih => exact ih

theorem Spec.mono {p : Prog κ σ α} (h : Spec post p H) (hpost : ∀ a H', post a H' → post' a H') :
    Spec post' p H := by
  induction p generalizing H with
  | ret a => exact hpost a H h
  | set t k ih => exact ⟨ih true h.1, ih false h.2⟩
  | unset t k ih => exact ⟨ih true h.1, fun ht => ih false (h.2 ht)⟩
  | store g k ih => exact ih h

/-! ## Tables -/

/-- What a client owns. -/
def owned (T : κ → Option ω) (c : ω) : Set κ := {t | T t = some c}

variable {T T' : κ → Option ω} {c d : ω} {t : κ} {b : Bool}

theorem free_ne (hcd : c ≠ d) (h : T t = none ∨ T t = some c) : T t ≠ some d := by
  rcases h with h | h
  · rw [h]
    exact nofun
  · rw [h]
    exact fun hd => hcd (Option.some.inj hd)

section

variable [DecidableEq κ]

/-- The answer to a request to own an entry, and the table after it. -/
inductive SetTo (T : κ → Option ω) (c : ω) (t : κ) : Bool → (κ → Option ω) → Prop where
  | granted (h : T t = none ∨ T t = some c) :
      SetTo T c t true (Function.update T t (some c))
  | refused : SetTo T c t false T

/-- The answer to a client that gives up an entry, and the table after it. -/
inductive UnsetTo (T : κ → Option ω) (c : ω) (t : κ) : Bool → (κ → Option ω) → Prop where
  | released (h : T t = none ∨ T t = some c) : UnsetTo T c t true (Function.update T t none)
  | refused (h : T t ≠ some c) : UnsetTo T c t false T

theorem owned_update_some (T : κ → Option ω) (c : ω) (t : κ) :
    owned (Function.update T t (some c)) c = insert t (owned T c) := by
  ext u
  by_cases hu : u = t
  · simp [owned, hu]
  · simp [owned, hu]

theorem owned_update_none (T : κ → Option ω) (c : ω) (t : κ) :
    owned (Function.update T t none) c = owned T c \ {t} := by
  ext u
  by_cases hu : u = t
  · simp [owned, hu]
  · simp [owned, hu]

/-- Only the owner of an entry sees it change. -/
theorem owned_update_of_ne (h : T t ≠ some d) {o : Option ω} (ho : o ≠ some d) :
    owned (Function.update T t o) d = owned T d := by
  ext u
  by_cases hu : u = t
  · simp [owned, hu, h, ho]
  · simp [owned, hu]

theorem SetTo.owned_of_ne (hcd : c ≠ d) (h : SetTo T c t b T') : owned T' d = owned T d := by
  cases h with
  | granted h =>
    exact owned_update_of_ne (free_ne hcd h) fun hd => hcd (Option.some.inj hd)
  | refused => rfl

theorem UnsetTo.owned_of_ne (hcd : c ≠ d) (h : UnsetTo T c t b T') : owned T' d = owned T d := by
  cases h with
  | released h => exact owned_update_of_ne (free_ne hcd h) nofun
  | refused => rfl

/-- A request goes on with what the program makes sure of. -/
theorem Spec.set {k : Bool → Prog κ σ α} (h : Spec post (.set t k) (owned T c))
    (hset : SetTo T c t b T') : Spec post (k b) (owned T' c) := by
  cases hset with
  | granted =>
    rw [owned_update_some]
    exact h.1
  | refused => exact h.2

theorem Spec.unset {k : Bool → Prog κ σ α} (h : Spec post (.unset t k) (owned T c))
    (hunset : UnsetTo T c t b T') : Spec post (k b) (owned T' c) := by
  cases hunset with
  | released =>
    rw [owned_update_none]
    exact h.1
  | refused hne => exact h.2 hne

/-- A request of a program, or a change of its client's variable. -/
inductive Request (c : ω) :
    (κ → Option ω) → Prog κ σ α → (κ → Option ω) → Prog κ σ α → Prop where
  | set {T T' : κ → Option ω} {t : κ} {k : Bool → Prog κ σ α} {b : Bool}
      (h : SetTo T c t b T') : Request c T (.set t k) T' (k b)
  | unset {T T' : κ → Option ω} {t : κ} {k : Bool → Prog κ σ α} {b : Bool}
      (h : UnsetTo T c t b T') : Request c T (.unset t k) T' (k b)
  | store {T : κ → Option ω} {f : σ → σ} {k : Prog κ σ α} : Request c T (.store f k) T k

theorem Request.owned_of_ne {p p' : Prog κ σ α} (hcd : c ≠ d) (h : Request c T p T' p') :
    owned T' d = owned T d := by
  cases h with
  | set h => exact h.owned_of_ne hcd
  | unset h => exact h.owned_of_ne hcd
  | store => rfl

theorem Spec.request {p p' : Prog κ σ α} (h : Spec post p (owned T c))
    (hreq : Request c T p T' p') : Spec post p' (owned T' c) := by
  cases hreq with
  | set hset => exact h.set hset
  | unset hunset => exact h.unset hunset
  | store => exact h

end

/-! ## Clients that take and release a lock -/

/-- A program to take a lock, which returns whether it was taken, and one to release it, for the
clients that run them. -/
structure Protocol (ω κ σ ι : Type) where
  Runs : ω → Prop
  lock : ω → ι → Prog κ σ Bool
  unlock : ω → Prog κ σ Bool
  /-- What a client may own while it holds the lock. -/
  Held : ω → Set κ → Prop
  lock_spec : ∀ c i, Runs c →
    Spec (fun ok H => if ok then Held c H else H = ∅) (lock c i) ∅
  unlock_spec : ∀ c H, Runs c → Held c H → Spec (fun _ H => H = ∅) (unlock c) H
  conflict : ∀ c d H H', Runs c → Runs d → Held c H → Held d H' → ∃ t, t ∈ H ∧ t ∈ H'

/-- Where a client is. -/
inductive Phase (κ σ : Type) where
  | idle
  | locking (p : Prog κ σ Bool)
  | held
  | unlocking (p : Prog κ σ Bool)

structure State (ω κ σ : Type) where
  table : κ → Option ω
  phase : ω → Phase κ σ

variable {P : Protocol ω κ σ ι} {s s' : State ω κ σ}

/-- What a client owns at its place. -/
def PhaseOk (P : Protocol ω κ σ ι) (c : ω) : Phase κ σ → Set κ → Prop
  | .idle, H => H = ∅
  | .locking p, H => P.Runs c ∧ Spec (fun ok H => if ok then P.Held c H else H = ∅) p H
  | .held, H => P.Runs c ∧ P.Held c H
  | .unlocking p, H => P.Runs c ∧ Spec (fun _ H => H = ∅) p H

/-- The invariant of the system. -/
def Inv (P : Protocol ω κ σ ι) (s : State ω κ σ) : Prop :=
  ∀ c, PhaseOk P c (s.phase c) (owned s.table c)

/-- Nobody owns anything. -/
def State.start : State ω κ σ := { table := fun _ => none, phase := fun _ => .idle }

theorem inv_start (P : Protocol ω κ σ ι) : Inv P State.start := by
  intro c
  exact Set.eq_empty_of_forall_notMem fun t ht => nomatch ht

/-- No two clients hold the lock. -/
theorem Inv.exclusive (h : Inv P s) (hc : s.phase c = .held) (hd : s.phase d = .held) : c = d := by
  have hcHeld := h c
  have hdHeld := h d
  rw [hc] at hcHeld
  rw [hd] at hdHeld
  obtain ⟨t, htc, htd⟩ := P.conflict c d _ _ hcHeld.1 hdHeld.1 hcHeld.2 hdHeld.2
  exact Option.some.inj ((show s.table t = some c from htc).symm.trans htd)

/-- A client that does nothing owns nothing. -/
theorem Inv.idle (h : Inv P s) (hc : s.phase c = .idle) (t : κ) : s.table t ≠ some c := by
  have hidle := h c
  rw [hc] at hidle
  intro ht
  have hmem : t ∈ owned s.table c := ht
  rw [show owned s.table c = ∅ from hidle] at hmem
  exact hmem

/-- A client that does something is one that runs the programs. -/
theorem Inv.runs (h : Inv P s) (hc : s.phase c ≠ .idle) : P.Runs c := by
  have hphase := h c
  cases hp : s.phase c with
  | idle => exact absurd hp hc
  | locking p =>
    rw [hp] at hphase
    exact hphase.1
  | held =>
    rw [hp] at hphase
    exact hphase.1
  | unlocking p =>
    rw [hp] at hphase
    exact hphase.1

/-! ## Steps -/

variable [DecidableEq ω]

/-- A client's place moves. -/
def State.setPhase (s : State ω κ σ) (c : ω) (phase : Phase κ σ) : State ω κ σ :=
  { s with phase := Function.update s.phase c phase }

/-- A client's step keeps the invariant, when its new place is in order and the others own what
they owned. -/
theorem Inv.setPhase (h : Inv P s) {T' : κ → Option ω} {phase : Phase κ σ}
    (hothers : ∀ d, c ≠ d → owned T' d = owned s.table d) (hc : PhaseOk P c phase (owned T' c)) :
    Inv P (State.setPhase { s with table := T' } c phase) := by
  intro d
  by_cases hcd : c = d
  · subst hcd
    simpa [State.setPhase] using hc
  · have hd := h d
    simpa [State.setPhase, Function.update_of_ne (Ne.symm hcd), hothers d hcd] using hd

variable [DecidableEq κ]

/-- A step of a client. -/
inductive Step (P : Protocol ω κ σ ι) (s : State ω κ σ) (c : ω) : State ω κ σ → Prop where
  | beginLock (i : ι) (hrun : P.Runs c) (h : s.phase c = .idle) :
      Step P s c (s.setPhase c (.locking (P.lock c i)))
  | locking {p p' : Prog κ σ Bool} {T' : κ → Option ω} (h : s.phase c = .locking p)
      (hreq : Request c s.table p T' p') :
      Step P s c (State.setPhase { s with table := T' } c (.locking p'))
  | endLock {ok : Bool} (h : s.phase c = .locking (.ret ok)) :
      Step P s c (s.setPhase c (if ok then .held else .idle))
  | beginUnlock (h : s.phase c = .held) : Step P s c (s.setPhase c (.unlocking (P.unlock c)))
  | unlocking {p p' : Prog κ σ Bool} {T' : κ → Option ω} (h : s.phase c = .unlocking p)
      (hreq : Request c s.table p T' p') :
      Step P s c (State.setPhase { s with table := T' } c (.unlocking p'))
  | endUnlock {ok : Bool} (h : s.phase c = .unlocking (.ret ok)) :
      Step P s c (s.setPhase c .idle)

theorem Step.inv (h : Inv P s) (hstep : Step P s c s') : Inv P s' := by
  have hc := h c
  cases hstep with
  | beginLock i hrun hphase =>
    rw [hphase] at hc
    refine h.setPhase (fun _ _ => rfl) ⟨hrun, ?_⟩
    rw [show owned s.table c = ∅ from hc]
    exact P.lock_spec c i hrun
  | locking hphase hreq =>
    rw [hphase] at hc
    exact h.setPhase (fun _ hcd => hreq.owned_of_ne hcd) ⟨hc.1, hc.2.request hreq⟩
  | @endLock ok hphase =>
    rw [hphase] at hc
    refine h.setPhase (fun _ _ => rfl) ?_
    cases ok with
    | false => exact hc.2
    | true => exact hc
  | beginUnlock hphase =>
    rw [hphase] at hc
    exact h.setPhase (fun _ _ => rfl) ⟨hc.1, P.unlock_spec c _ hc.1 hc.2⟩
  | unlocking hphase hreq =>
    rw [hphase] at hc
    exact h.setPhase (fun _ hcd => hreq.owned_of_ne hcd) ⟨hc.1, hc.2.request hreq⟩
  | endUnlock hphase =>
    rw [hphase] at hc
    exact h.setPhase (fun _ _ => rfl) hc.2

end Lib.LockTable
