import Mathlib

/-!
# Scans of a string with a mark at its end

`look mark s i` is the element at place `i`: behind the last one there is the mark, and a place
behind the mark must not be read.  `scan` is a loop over places; its body may move the place on.

`Inside m Q` is a postcondition: `m` reads no place behind the mark, and its result satisfies `Q`.
`Reaches` are the places and states at which a loop reads an element.

* `inside_bind`, `inside_look`: the rules.
* `inside_scan_iff`: a loop stays inside exactly when its body does, at every place that it reaches.
* `reaches_of_scan_ok`, `reaches_of_scan_failed`: what the loop reached when it has a result, and when
  it gave up.
* `Reaches.inv`, `Reaches.passes`: an invariant, and the turn in which a place was passed.
-/

namespace Lib.Scanning

variable {i pos : Nat}

/-- Why a scan has no result. -/
inductive Stop (ε : Type) where
  /-- It gives up. -/
  | failed (e : ε)
  /-- It has read a place behind the mark. -/
  | outside
  /-- The number of turns was not enough. -/
  | fuel
  deriving DecidableEq

variable {α β γ ε σ : Type}

/-- The element at a place. -/
def look (mark : β) (s : List β) (i : Nat) : Except (Stop ε) β :=
  match s[i]? with
  | some c => .ok c
  | none => if i = s.length then .ok mark else .error .outside

/-- No place behind the mark is read, and the result satisfies `Q`. -/
def Inside (m : Except (Stop ε) α) (Q : α → Prop) : Prop :=
  match m with
  | .ok a => Q a
  | .error (.failed _) => True
  | .error .outside => False
  | .error .fuel => False

/-! ## Rules -/

@[simp] theorem inside_ok (a : α) (Q : α → Prop) :
    Inside (.ok a : Except (Stop ε) α) Q ↔ Q a := Iff.rfl

@[simp] theorem inside_failed (e : ε) (Q : α → Prop) :
    Inside (.error (.failed e) : Except (Stop ε) α) Q := trivial

@[simp] theorem not_inside_outside (Q : α → Prop) :
    ¬ Inside (.error .outside : Except (Stop ε) α) Q := id

@[simp] theorem not_inside_fuel (Q : α → Prop) :
    ¬ Inside (.error .fuel : Except (Stop ε) α) Q := id

variable {m : Except (Stop ε) α} {Q : α → Prop}

theorem Inside.imp {Q' : α → Prop} (h : Inside m Q) (hQ : ∀ a, Q a → Q' a) : Inside m Q' := by
  rcases m with (e | _ | _) | a
  · trivial
  · exact h
  · exact h
  · exact hQ a h

theorem inside_bind {f : α → Except (Stop ε) γ} {Q' : γ → Prop} (hm : Inside m Q)
    (hf : ∀ a, Q a → Inside (f a) Q') : Inside (m >>= f) Q' := by
  rcases m with (e | _ | _) | a
  · trivial
  · exact hm
  · exact hm
  · exact hf a hm

/-- A result that is only converted. -/
theorem inside_map_iff {g : α → γ} {Q : γ → Prop} :
    Inside (m >>= fun a => pure (g a)) Q ↔ Inside m fun a => Q (g a) := by
  rcases m with (e | _ | _) | a <;> rfl

theorem inside_ite {p : Prop} [Decidable p] {m' : Except (Stop ε) α} (hm : p → Inside m Q)
    (hm' : ¬ p → Inside m' Q) : Inside (if p then m else m') Q := by
  split
  · rename_i hp
    exact hm hp
  · rename_i hp
    exact hm' hp

variable {c : β}

/-- What was read behind the last element is the mark. -/
theorem look_eq_ok {mark : β} {s : List β} :
    (look mark s i : Except (Stop ε) β) = .ok c ↔ s[i]? = some c ∨ i = s.length ∧ mark = c := by
  unfold look
  split
  · rename_i d hd
    have hlt := (List.getElem?_eq_some_iff.mp hd).1
    simp [hd, Nat.ne_of_lt hlt]
  · rename_i hnone
    split <;> simp_all

theorem look_of_lt {s : List β} (mark : β) (h : s[i]? = some c) :
    (look mark s i : Except (Stop ε) β) = .ok c := look_eq_ok.mpr (Or.inl h)

theorem look_length (mark : β) (s : List β) :
    (look mark s s.length : Except (Stop ε) β) = .ok mark := look_eq_ok.mpr (Or.inr ⟨rfl, rfl⟩)

theorem look_of_length_lt {s : List β} (mark : β) (h : s.length < i) :
    (look mark s i : Except (Stop ε) β) = .error .outside := by
  unfold look
  rw [List.getElem?_eq_none h.le]
  exact if_neg (Nat.ne_of_gt h)

/-- A place up to the mark can be read. -/
theorem exists_look {s : List β} {i : Nat} (mark : β) (h : i ≤ s.length) :
    ∃ c, (look mark s i : Except (Stop ε) β) = .ok c := by
  rcases Nat.lt_or_eq_of_le h with hlt | heq
  · exact ⟨s[i], look_of_lt mark (List.getElem?_eq_getElem hlt)⟩
  · exact ⟨mark, heq ▸ look_length mark s⟩

/-- What is read there is the mark only at the end. -/
theorem inside_look {s : List β} {i : Nat} (mark : β) (h : i ≤ s.length) :
    Inside (look mark s i : Except (Stop ε) β)
      fun c => s[i]? = some c ∨ i = s.length ∧ mark = c := by
  obtain ⟨c, hc⟩ := @exists_look β ε s i mark h
  rw [hc]
  exact look_eq_ok.mp hc

/-! ## Loops -/

variable (mark : β) (stop : β → Bool) (body : Nat → σ → Except (Stop ε) (Nat × σ)) (s : List β)

/-- The loop over the places from `pos` on, up to an element that stops it.  The body says where it
has come to, and the place after that is next. -/
def scan : Nat → Nat → σ → Except (Stop ε) σ
  | 0, _, _ => .error .fuel
  | fuel + 1, pos, st => do
    let c ← look mark s pos
    if stop c then pure st
    else do
      let next ← body pos st
      scan fuel (next.1 + 1) next.2

/-- The places that are read, and the states there. -/
inductive Reaches (st₀ : σ) : Nat → σ → Prop
  | start : Reaches st₀ 0 st₀
  | next {pos pos' : Nat} {st st' : σ} {c : β} (h : Reaches st₀ pos st)
      (hlook : (look mark s pos : Except (Stop ε) β) = .ok c) (hstop : stop c = false)
      (hbody : body pos st = .ok (pos', st')) : Reaches st₀ (pos' + 1) st'

/-- At this place the body stays inside, and comes to a place before the mark. -/
def Fits (pos : Nat) (st : σ) : Prop :=
  ∀ c, (look mark s pos : Except (Stop ε) β) = .ok c → stop c = false →
    Inside (body pos st) fun next => next.1 < s.length

variable {mark stop body s}

theorem scan_succ (fuel pos : Nat) (st : σ)
    (hlook : (look mark s pos : Except (Stop ε) β) = .ok c) :
    scan mark stop body s (fuel + 1) pos st =
      if stop c then .ok st
      else body pos st >>= fun next => scan mark stop body s fuel (next.1 + 1) next.2 := by
  rw [scan, hlook]
  rfl

variable {st : σ}

/-- One turn. -/
theorem scan_next (fuel : Nat) {pos' : Nat} {st' : σ}
    (hlook : (look mark s pos : Except (Stop ε) β) = .ok c) (hstop : stop c = false)
    (hbody : body pos st = .ok (pos', st')) :
    scan mark stop body s (fuel + 1) pos st = scan mark stop body s fuel (pos' + 1) st' := by
  rw [scan_succ fuel pos st hlook, hstop, hbody]
  rfl

/-- The body never goes back. -/
def Forward (body : Nat → σ → Except (Stop ε) (Nat × σ)) : Prop :=
  ∀ pos st pos' st', body pos st = .ok (pos', st') → pos ≤ pos'

variable {st₀ : σ}

/-- The loop goes on from each place that it reaches, with enough turns left for the rest of the
string. -/
theorem scan_of_reaches (hforward : Forward body) (h : Reaches mark stop body s st₀ pos st) :
    ∃ fuel, s.length + 1 ≤ fuel + pos ∧
      scan mark stop body s (s.length + 1) 0 st₀ = scan mark stop body s fuel pos st := by
  induction h with
  | start => exact ⟨s.length + 1, Nat.le_refl _, rfl⟩
  | @next pos pos' st st' c h hlook hstop hbody ih =>
    obtain ⟨fuel, hfuel, heq⟩ := ih
    have hpos : pos ≤ s.length := by
      rcases look_eq_ok.mp hlook with hc | hc
      · exact (List.getElem?_eq_some_iff.mp hc).1.le
      · exact hc.1.le
    obtain ⟨fuel, rfl⟩ : ∃ n, fuel = n + 1 := ⟨fuel - 1, by omega⟩
    have hle := hforward pos st pos' st' hbody
    refine ⟨fuel, by omega, ?_⟩
    rw [heq, scan_next fuel hlook hstop hbody]

/-- What holds at the start and is kept by each turn holds wherever the loop comes. -/
theorem Reaches.inv {I : Nat → σ → Prop} (hstart : I 0 st₀)
    (hnext : ∀ pos st pos' st' c, I pos st → (look mark s pos : Except (Stop ε) β) = .ok c →
      stop c = false → body pos st = .ok (pos', st') → I (pos' + 1) st')
    (h : Reaches mark stop body s st₀ pos st) : I pos st := by
  induction h with
  | start => exact hstart
  | next _ hlook hstop hbody ih => exact hnext _ _ _ _ _ ih hlook hstop hbody

/-- A place that the loop has left behind was passed in one of its turns. -/
theorem Reaches.passes (h : Reaches mark stop body s st₀ pos st) (hi : i < pos) :
    ∃ pos₁ st₁ pos' st', Reaches mark stop body s st₀ pos₁ st₁ ∧ pos₁ ≤ i ∧ i ≤ pos' ∧
      body pos₁ st₁ = .ok (pos', st') := by
  induction h with
  | start => exact absurd hi (Nat.not_lt_zero i)
  | @next pos pos' st st' c h hlook hstop hbody ih =>
    by_cases hlt : i < pos
    · exact ih hlt
    · exact ⟨pos, st, pos', st', h, Nat.le_of_not_lt hlt, Nat.le_of_lt_succ hi, hbody⟩

/-- A loop that has a result has come with it to an element that stops it. -/
theorem reaches_of_scan_ok {st' : σ} {fuel : Nat} (h : Reaches mark stop body s st₀ pos st)
    (hscan : scan mark stop body s fuel pos st = .ok st') :
    ∃ pos' c, Reaches mark stop body s st₀ pos' st' ∧
      (look mark s pos' : Except (Stop ε) β) = .ok c ∧ stop c = true := by
  induction fuel generalizing pos st with
  | zero => cases hscan
  | succ fuel ih =>
    rcases hlook : (look mark s pos : Except (Stop ε) β) with e | c
    · rw [scan, hlook] at hscan
      cases hscan
    · rw [scan_succ fuel pos st hlook] at hscan
      split at hscan
      · rename_i hstop
        cases hscan
        exact ⟨pos, c, h, hlook, hstop⟩
      · rename_i hstop
        rcases hbody : body pos st with e | next
        · rw [hbody] at hscan
          cases hscan
        · rw [hbody] at hscan
          exact ih (h.next hlook (Bool.eq_false_of_not_eq_true hstop) hbody) hscan

/-- A loop that gives up has come to a place where its body does. -/
theorem reaches_of_scan_failed {fuel : Nat} {e : ε} (h : Reaches mark stop body s st₀ pos st)
    (hscan : scan mark stop body s fuel pos st = .error (.failed e)) :
    ∃ pos' st', Reaches mark stop body s st₀ pos' st' ∧ body pos' st' = .error (.failed e) ∧
      ∃ c, (look mark s pos' : Except (Stop ε) β) = .ok c ∧ stop c = false := by
  induction fuel generalizing pos st with
  | zero => cases hscan
  | succ fuel ih =>
    rcases hlook : (look mark s pos : Except (Stop ε) β) with e' | c
    · rw [scan, hlook] at hscan
      unfold look at hlook
      split at hlook
      · cases hlook
      · split at hlook <;> cases hlook
        cases hscan
    · rw [scan_succ fuel pos st hlook] at hscan
      split at hscan
      · cases hscan
      · rename_i hstop
        have hgo : stop c = false := Bool.eq_false_of_not_eq_true hstop
        rcases hbody : body pos st with e' | next
        · rw [hbody] at hscan
          cases hscan
          exact ⟨pos, st, h, hbody, c, hlook, hgo⟩
        · rw [hbody] at hscan
          exact ih (h.next hlook hgo hbody) hscan

/-- From a place inside, with enough turns, the loop stays inside if its body fits wherever it
comes. -/
theorem inside_scan (hforward : Forward body)
    (hfits : ∀ pos st, Reaches mark stop body s st₀ pos st → Fits mark stop body s pos st)
    (fuel : Nat) (h : Reaches mark stop body s st₀ pos st) (hpos : pos ≤ s.length)
    (hfuel : s.length + 1 ≤ fuel + pos) :
    Inside (scan mark stop body s fuel pos st) fun _ => True := by
  induction fuel generalizing pos st with
  | zero => omega
  | succ fuel ih =>
    unfold scan
    have hlook := @inside_look β ε s pos mark hpos
    rcases hc : (look mark s pos : Except (Stop ε) β) with e | c
    · rw [hc] at hlook
      rcases e with e | _ | _
      · trivial
      · exact hlook
      · exact hlook
    · show Inside (if stop c then pure st else _) _
      refine inside_ite (fun _ => trivial) fun hstop => ?_
      have hgo : stop c = false := Bool.eq_false_of_not_eq_true hstop
      have hbody := hfits pos st h c hc hgo
      rcases hnext : body pos st with e | ⟨pos', st'⟩
      · rw [hnext] at hbody
        rcases e with e | _ | _
        · trivial
        · exact hbody
        · exact hbody
      · rw [hnext] at hbody
        have hle := hforward pos st pos' st' hnext
        exact ih (h.next hc hgo hnext) hbody (by omega)

/-- The loop stays inside exactly when its body fits at every place that it reaches. -/
theorem inside_scan_iff (hforward : Forward body) (hmark : stop mark = true) (st₀ : σ) :
    Inside (scan mark stop body s (s.length + 1) 0 st₀) (fun _ => True) ↔
      ∀ pos st, Reaches mark stop body s st₀ pos st → Fits mark stop body s pos st := by
  constructor
  · intro hinside pos st hreach c hlook hstop
    obtain ⟨fuel, hfuel, heq⟩ := scan_of_reaches hforward hreach
    have hpos : pos < s.length := by
      rcases look_eq_ok.mp hlook with hc | ⟨-, hc⟩
      · exact (List.getElem?_eq_some_iff.mp hc).1
      · rw [← hc, hmark] at hstop
        cases hstop
    obtain ⟨fuel, rfl⟩ : ∃ n, fuel = n + 2 := ⟨fuel - 2, by omega⟩
    rw [heq, scan_succ _ pos st hlook, hstop] at hinside
    rcases hbody : body pos st with e | ⟨pos', st'⟩
    · rw [hbody] at hinside
      rcases e with e | _ | _
      · trivial
      · exact hinside
      · exact hinside
    · rw [hbody] at hinside
      show pos' < s.length
      by_contra hlt
      have hout : (look mark s (pos' + 1) : Except (Stop ε) β) = .error .outside :=
        look_of_length_lt mark (by omega)
      change Inside (scan mark stop body s (fuel + 1) (pos' + 1) st') _ at hinside
      unfold scan at hinside
      rw [hout] at hinside
      exact hinside
  · intro hfits
    exact inside_scan hforward hfits _ .start (Nat.zero_le _) (Nat.le_refl _)

end Lib.Scanning
