import Mathlib

/-!
# Readers over a sequence

A `Reader` reads values from a list with a cursor.  It ends with a value or an error, and
with the cursor at the place that it came to.  The cursor stays there on an error, too.

Three things are said of a reader, each with a rule for every way to make one:

* `Moves`: the cursor never goes back and never leaves the list.
* `Reads m bs v`: where the list goes on with `bs`, the value is `v`, and the cursor is
  after `bs`.
* `Takes m len`: how far at least the cursor goes for a value.
-/

namespace Lib.Reading

open List

/-- A list and a place in it. -/
structure Cursor (β : Type) where
  data : List β
  pos : Nat

/-- A reader of values of `α` from lists of `β`, with errors of `ε`. -/
def Reader (β ε α : Type) : Type := Cursor β → Except ε α × Cursor β

variable {β ε α γ : Type}

instance : Monad (Reader β ε) where
  pure a := fun c => (.ok a, c)
  bind m f := fun c =>
    match m c with
    | (.ok a, c') => f a c'
    | (.error e, c') => (.error e, c')

/-- The number of elements after the cursor. -/
def Cursor.remaining (c : Cursor β) : Nat := c.data.length - c.pos

/-- The next `n` elements. -/
def Cursor.next (c : Cursor β) (n : Nat) : List β := (c.data.drop c.pos).take n

/-- The cursor `n` elements further. -/
def Cursor.advance (c : Cursor β) (n : Nat) : Cursor β := { c with pos := c.pos + n }

/-- The reader that ends with an error. -/
def fail (e : ε) : Reader β ε α := fun c => (.error e, c)

/-- The next `n` elements, where there are so many and they pass the check. -/
def blockIf (e : ε) (check : List β → Bool) (n : Nat) : Reader β ε (List β) := fun c =>
  if c.remaining < n then (.error e, c)
  else if check (c.next n) = false then (.error e, c)
  else (.ok (c.next n), c.advance n)

/-- The next `n` elements. -/
def block (e : ε) (n : Nat) : Reader β ε (List β) := blockIf e (fun _ => true) n

/-- `n` values, the first of them by the reader `m i`. -/
def repeatFrom (m : Nat → Reader β ε α) : Nat → Nat → Reader β ε (List α)
  | _, 0 => pure []
  | i, n + 1 => do
    let a ← m i
    let as ← repeatFrom m (i + 1) n
    pure (a :: as)

theorem bind_apply (m : Reader β ε α) (f : α → Reader β ε γ) (c : Cursor β) :
    (m >>= f) c =
      match m c with
      | (.ok a, c') => f a c'
      | (.error e, c') => (.error e, c') := rfl

variable {m : Reader β ε α} {f : α → Reader β ε γ} {c : Cursor β}

/-- A value of two readers, one after the other. -/
theorem bind_eq_ok {c' : Cursor β} {b : γ} :
    (m >>= f) c = (.ok b, c') ↔ ∃ a c₁, m c = (.ok a, c₁) ∧ f a c₁ = (.ok b, c') := by
  rw [bind_apply]
  constructor
  · intro h
    split at h
    · rename_i a c₁ hm
      exact ⟨a, c₁, hm, h⟩
    · cases h
  · rintro ⟨a, c₁, hm, hf⟩
    rw [hm]
    exact hf

/-! ## Where the cursor goes -/

/-- The cursor never goes back and never leaves the list. -/
def Moves (m : Reader β ε α) : Prop :=
  ∀ c, c.pos ≤ c.data.length →
    (m c).2.data = c.data ∧ c.pos ≤ (m c).2.pos ∧ (m c).2.pos ≤ c.data.length

theorem moves_pure (a : α) : Moves (pure a : Reader β ε α) :=
  fun _ h => ⟨rfl, le_refl _, h⟩

theorem moves_fail (e : ε) : Moves (fail e : Reader β ε α) :=
  fun _ h => ⟨rfl, le_refl _, h⟩

theorem moves_blockIf (e : ε) (check : List β → Bool) (n : Nat) : Moves (blockIf e check n) := by
  intro c h
  rw [blockIf]
  split
  · exact ⟨rfl, le_refl _, h⟩
  · rename_i hroom
    split
    · exact ⟨rfl, le_refl _, h⟩
    · refine ⟨rfl, Nat.le_add_right _ _, ?_⟩
      rw [Cursor.remaining] at hroom
      simp only [Cursor.advance]
      omega

theorem moves_bind (hm : Moves m) (hf : ∀ a, Moves (f a)) : Moves (m >>= f) := by
  intro c h
  obtain ⟨hdata, hle, hlast⟩ := hm c h
  rw [bind_apply]
  split
  · rename_i a c' heq
    rw [heq] at hdata hle hlast
    obtain ⟨hdata', hle', hlast'⟩ := hf a c' (hdata ▸ hlast)
    exact ⟨hdata'.trans hdata, hle.trans hle', hdata ▸ hlast'⟩
  · rename_i e c' heq
    rw [heq] at hdata hle hlast
    exact ⟨hdata, hle, hlast⟩

theorem moves_ite {p : Prop} [Decidable p] {m' : Reader β ε α} (hm : Moves m) (hm' : Moves m') :
    Moves (if p then m else m') := by
  split
  · exact hm
  · exact hm'

theorem moves_repeatFrom {m : Nat → Reader β ε α} (hm : ∀ i, Moves (m i)) (i n : Nat) :
    Moves (repeatFrom m i n) := by
  induction n generalizing i with
  | zero => exact moves_pure []
  | succ n ih =>
    exact moves_bind (hm i) fun a => moves_bind (ih (i + 1)) fun as => moves_pure (a :: as)

/-! ## What is read -/

/-- Where the list goes on with `bs`, the value is `v`, and the cursor is after `bs`. -/
def Reads (m : Reader β ε α) (bs : List β) (v : α) : Prop :=
  ∀ c, bs <+: c.data.drop c.pos → m c = (.ok v, c.advance bs.length)

theorem reads_pure (v : α) : Reads (pure v : Reader β ε α) [] v :=
  fun _ _ => rfl

variable {e : ε}

theorem reads_blockIf {check : List β → Bool} {bs : List β} (h : check bs = true) :
    Reads (blockIf e check bs.length) bs bs := by
  intro c hbs
  have hnext : c.next bs.length = bs := List.prefix_iff_eq_take.mp hbs |>.symm
  have hlen := hbs.length_le
  rw [length_drop] at hlen
  have hroom : ¬ c.remaining < bs.length := not_lt.mpr hlen
  rw [blockIf, hnext, h, if_neg hroom, if_neg (by decide)]

theorem reads_block (e : ε) (bs : List β) : Reads (block e bs.length) bs bs := reads_blockIf rfl

theorem reads_bind {m : Reader β ε α} {f : α → Reader β ε γ} {bs bs' : List β} {a : α} {b : γ}
    (hm : Reads m bs a) (hf : Reads (f a) bs' b) : Reads (m >>= f) (bs ++ bs') b := by
  intro c hbs
  obtain ⟨rest, hrest⟩ := hbs
  have hfirst := hm c ⟨bs' ++ rest, by rw [← append_assoc, hrest]⟩
  have hdrop : c.data.drop (c.pos + bs.length) = bs' ++ rest := by
    rw [← drop_drop, ← hrest, append_assoc, drop_left]
  have hsecond := hf (c.advance bs.length) ⟨rest, hdrop.symm⟩
  rw [bind_apply, hfirst]
  dsimp only
  rw [hsecond, Cursor.advance, Cursor.advance, Cursor.advance, length_append, Nat.add_assoc]

/-- A value that is only converted. -/
theorem reads_map {bs : List β} {a : α} (hm : Reads m bs a) (f : α → γ) :
    Reads (m >>= fun a => pure (f a)) bs (f a) := by
  have h := @reads_bind β ε α γ m (fun a => pure (f a)) bs [] a (f a) hm (reads_pure (f a))
  rwa [append_nil] at h

theorem reads_repeatFrom {m : Nat → Reader β ε α} {enc : α → List β} {as : List α}
    (hm : ∀ i, ∀ a ∈ as, Reads (m i) (enc a) a) (i : Nat) :
    Reads (repeatFrom m i as.length) (as.flatMap enc) as := by
  induction as generalizing i with
  | nil => exact reads_pure []
  | cons a as ih =>
    rw [flatMap_cons, length_cons]
    exact reads_bind (hm i a mem_cons_self)
      (reads_map (ih (fun j a' ha' => hm j a' (mem_cons_of_mem _ ha')) (i + 1)) (a :: ·))

/-! ## How far the cursor goes -/

/-- The cursor goes at least `len v` further for the value `v`. -/
def Takes (m : Reader β ε α) (len : α → Nat) : Prop :=
  ∀ c v c', m c = (.ok v, c') → c.pos + len v ≤ c'.pos

theorem takes_blockIf (e : ε) (check : List β → Bool) (n : Nat) :
    Takes (blockIf e check n) fun _ => n := by
  intro c v c' h
  rw [blockIf] at h
  split at h
  · cases h
  · split at h
    · cases h
    · cases h
      exact le_refl _

theorem takes_map {f : α → γ} {len : α → Nat} {len' : γ → Nat} (hm : Takes m len)
    (hlen : ∀ a, len' (f a) ≤ len a) : Takes (m >>= fun a => pure (f a)) len' := by
  intro c b c' h
  obtain ⟨a, c₁, hfirst, hsecond⟩ := bind_eq_ok.mp h
  cases hsecond
  exact (Nat.add_le_add_left (hlen a) _).trans (hm c a c' hfirst)

theorem takes_repeatFrom {m : Nat → Reader β ε α} {len : α → Nat} (hm : ∀ i, Takes (m i) len)
    (i n : Nat) : Takes (repeatFrom m i n) fun as => (as.map len).sum := by
  induction n generalizing i with
  | zero =>
    intro c as c' h
    cases h
    exact le_refl _
  | succ n ih =>
    intro c as c' h
    obtain ⟨a, c₁, hfirst, h⟩ := bind_eq_ok.mp h
    obtain ⟨as', c₂, hsecond, h⟩ := bind_eq_ok.mp h
    cases h
    have hone := hm i c a c₁ hfirst
    have hrest := ih (i + 1) c₁ as' c' hsecond
    dsimp only at hrest ⊢
    rw [map_cons, sum_cons]
    omega

theorem length_repeatFrom {m : Nat → Reader β ε α} {i n : Nat} {c' : Cursor β} {as : List α}
    (h : repeatFrom m i n c = (.ok as, c')) : as.length = n := by
  induction n generalizing i c as with
  | zero =>
    cases h
    rfl
  | succ n ih =>
    obtain ⟨a, c₁, -, h⟩ := bind_eq_ok.mp h
    obtain ⟨as', c₂, hsecond, h⟩ := bind_eq_ok.mp h
    cases h
    rw [length_cons, ih hsecond]

/-! ## Readers of a fixed width -/

/-- The reader takes `w` elements, and ends with an error only where there are fewer. -/
def Fixed (m : Reader β ε α) (w : Nat) : Prop :=
  ∀ c, if c.remaining < w then ∃ e c', m c = (.error e, c') else ∃ v, m c = (.ok v, c.advance w)

theorem fixed_block (e : ε) (w : Nat) : Fixed (block e w : Reader β ε (List β)) w := by
  intro c
  rw [block, blockIf]
  split
  · exact ⟨e, c, rfl⟩
  · exact ⟨c.next w, rfl⟩

theorem fixed_map {w : Nat} (h : Fixed m w) (f : α → γ) : Fixed (m >>= fun a => pure (f a)) w := by
  intro c
  have hm := h c
  split at hm
  · rename_i hlt
    obtain ⟨e, c', heq⟩ := hm
    rw [if_pos hlt, bind_apply, heq]
    exact ⟨e, c', rfl⟩
  · rename_i hge
    obtain ⟨v, heq⟩ := hm
    rw [if_neg hge, bind_apply, heq]
    exact ⟨f v, rfl⟩

theorem fixed_repeatFrom {m : Nat → Reader β ε α} {w : Nat} (h : ∀ i, Fixed (m i) w) (i n : Nat) :
    Fixed (repeatFrom m i n) (n * w) := by
  induction n generalizing i with
  | zero =>
    intro c
    rw [Nat.zero_mul, if_neg (Nat.not_lt_zero _)]
    exact ⟨[], rfl⟩
  | succ n ih =>
    intro c
    have hone := h i c
    have hrest := ih (i + 1) (c.advance w)
    have hremaining : (c.advance w).remaining = c.remaining - w := Nat.sub_add_eq _ _ _
    rw [Nat.succ_mul, repeatFrom, bind_apply]
    split at hone
    · rename_i hlt
      obtain ⟨e, c', heq⟩ := hone
      rw [if_pos (by omega), heq]
      exact ⟨e, c', rfl⟩
    · obtain ⟨a, heq⟩ := hone
      rw [heq]
      dsimp only
      rw [bind_apply]
      split at hrest
      · obtain ⟨e, c', heq'⟩ := hrest
        rw [if_pos (by omega), heq']
        exact ⟨e, c', rfl⟩
      · obtain ⟨as, heq'⟩ := hrest
        rw [if_neg (by omega), heq']
        refine ⟨a :: as, ?_⟩
        have hcursor : (c.advance w).advance (n * w) = c.advance (n * w + w) := by
          simp only [Cursor.advance, Nat.add_assoc, Nat.add_comm w]
        rw [← hcursor]
        rfl

/-! ## Errors -/

/-- The reader ends with this error. -/
def Stops (m : Reader β ε α) (e : ε) (c : Cursor β) : Prop := (m c).1 = .error e

theorem stops_bind :
    Stops (m >>= f) e c ↔ Stops m e c ∨ ∃ a c', m c = (.ok a, c') ∧ Stops (f a) e c' := by
  rw [Stops, bind_apply, Stops]
  rcases hm : m c with ⟨_ | a, c'⟩
  · constructor
    · intro h
      cases h
      exact Or.inl rfl
    · rintro (h | ⟨a, c₁, heq, -⟩)
      · cases h
        rfl
      · cases heq
  · dsimp only
    constructor
    · intro h
      exact Or.inr ⟨a, c', rfl, h⟩
    · rintro (h | ⟨a', c₁, heq, h⟩)
      · cases h
      · cases heq
        exact h

/-- The reader never ends with this error. -/
def Avoids (m : Reader β ε α) (e : ε) : Prop := ∀ c, ¬ Stops m e c

theorem avoids_pure (a : α) (e : ε) : Avoids (pure a : Reader β ε α) e :=
  fun _ h => by cases h

theorem avoids_fail {e' : ε} (h : e' ≠ e) : Avoids (fail e' : Reader β ε α) e := by
  intro c heq
  cases heq
  exact h rfl

theorem avoids_blockIf {e' : ε} (h : e' ≠ e) (check : List β → Bool) (n : Nat) :
    Avoids (blockIf e' check n) e := by
  intro c heq
  rw [Stops, blockIf] at heq
  split at heq
  · cases heq
    exact h rfl
  · split at heq
    · cases heq
      exact h rfl
    · cases heq

theorem avoids_bind (hm : Avoids m e) (hf : ∀ a, Avoids (f a) e) : Avoids (m >>= f) e := by
  intro c h
  rcases stops_bind.mp h with h | ⟨a, c', -, h⟩
  · exact hm c h
  · exact hf a c' h

theorem avoids_ite {p : Prop} [Decidable p] {m' : Reader β ε α} (hm : Avoids m e)
    (hm' : Avoids m' e) : Avoids (if p then m else m') e := by
  split
  · exact hm
  · exact hm'

end Lib.Reading

/-!
## Readers that leave something to clean up

The error of a reader can say what has been made so far, as the code at an error label finds it.

* `mapError`: a reader within one that makes something.
* `Exact m c p c' R`: `m` has a value at `c` exactly if `p` holds.  It satisfies `R` then, and
  the cursor is `c'`.
* `Errors m P`: whatever `m` reads, its error satisfies `P`.
* `Fails P m c`: `m` ends with an error that satisfies `P` when it starts at `c`.

Where all errors of the first of two readers satisfy `P`, or none does, it only matters whether
that one has a value (`fails_bind_all`, `fails_bind_none`).
-/

namespace Lib.Cleanup

open Lib.Reading

variable {β ε ε' α γ : Type}
variable {g : ε → ε'}

/-- The reader, with its errors changed. -/
def mapError (f : ε → ε') (m : Reader β ε α) : Reader β ε' α := fun c =>
  match m c with
  | (.ok a, c') => (.ok a, c')
  | (.error e, c') => (.error (f e), c')

/-- The reader has a value exactly if `p` holds, with the cursor at `c'` then. -/
def Exact (m : Reader β ε α) (c : Cursor β) (p : Prop) (c' : Cursor β) (R : α → Prop) : Prop :=
  p ∧ (∃ a, m c = (.ok a, c') ∧ R a) ∨ ¬ p ∧ ∃ e c₁, m c = (.error e, c₁)

/-- Every error of the reader is so. -/
def Errors (m : Reader β ε α) (P : ε → Prop) : Prop := ∀ c e c', m c = (.error e, c') → P e

/-- The reader ends with an error that is so. -/
def Fails (P : ε → Prop) (m : Reader β ε α) (c : Cursor β) : Prop :=
  ∃ e c', m c = (.error e, c') ∧ P e

variable {P : ε → Prop} {m : Reader β ε α} {f : α → Reader β ε γ} {c c' c'' : Cursor β} {p q : Prop}
  {R R₁ : α → Prop} {R' : γ → Prop}

/-! ## Values -/

theorem mapError_eq_ok {a : α} : mapError g m c = (.ok a, c') ↔ m c = (.ok a, c') := by
  unfold mapError
  rcases m c with ⟨_ | a₁, c₁⟩ <;> simp

theorem reads_mapError {bs : List β} {a : α} (h : Reads m bs a) : Reads (mapError g m) bs a :=
  fun c hbs => mapError_eq_ok.mpr (h c hbs)

theorem exact_mapError (h : Exact m c p c' R) (g : ε → ε') : Exact (mapError g m) c p c' R := by
  rcases h with ⟨hp, a, heq, hR⟩ | ⟨hp, e, c₁, heq⟩
  · exact Or.inl ⟨hp, a, mapError_eq_ok.mpr heq, hR⟩
  · refine Or.inr ⟨hp, g e, c₁, ?_⟩
    rw [mapError, heq]

theorem exact_pure {a : α} (c : Cursor β) (h : R a) :
    Exact (pure a : Reader β ε α) c True c R :=
  Or.inl ⟨trivial, a, rfl, h⟩

theorem exact_bind (hm : Exact m c p c' R) (hf : ∀ a, R a → Exact (f a) c' q c'' R') :
    Exact (m >>= f) c (p ∧ q) c'' R' := by
  unfold Exact
  rw [bind_apply]
  rcases hm with ⟨hp, a, heq, hR⟩ | ⟨hp, e, c₁, heq⟩
  · rw [heq]
    rcases hf a hR with ⟨hq, h⟩ | ⟨hq, h⟩
    · exact Or.inl ⟨⟨hp, hq⟩, h⟩
    · exact Or.inr ⟨fun h => hq h.2, h⟩
  · rw [heq]
    exact Or.inr ⟨fun h => hp h.1, e, c₁, rfl⟩

/-- A value that is only converted. -/
theorem exact_map {g : α → γ} (hm : Exact m c p c' R) (hg : ∀ a, R a → R' (g a)) :
    Exact (m >>= fun a => pure (g a)) c p c' R' := by
  have h := exact_bind hm fun a ha => @exact_pure β ε γ R' (g a) c' (hg a ha)
  rwa [and_true] at h

theorem Exact.congr (h : Exact m c p c' R) (hp : p ↔ q) (hc : c' = c'') (hR : ∀ a, R a → R₁ a) :
    Exact m c q c'' R₁ := by
  rcases h with ⟨hfit, a, heq, ha⟩ | ⟨hfit, h⟩
  · exact Or.inl ⟨hp.mp hfit, a, hc ▸ heq, hR a ha⟩
  · exact Or.inr ⟨fun hq => hfit (hp.mpr hq), h⟩

/-- Where there is a value, `p` holds. -/
theorem Exact.with_self (h : Exact m c p c' R) : Exact m c p c' fun a => R a ∧ p := by
  rcases h with ⟨hp, a, heq, hR⟩ | h
  · exact Or.inl ⟨hp, a, heq, hR, hp⟩
  · exact Or.inr h

/-! ## Errors -/

theorem errors_pure (a : α) : Errors (pure a : Reader β ε α) P := by
  intro c e c' heq
  cases heq

theorem errors_fail {e : ε} (h : P e) : Errors (fail e : Reader β ε α) P := by
  intro c e' c' heq
  cases heq
  exact h

theorem errors_mapError {P : ε' → Prop} (h : Errors m fun e => P (g e)) :
    Errors (mapError g m) P := by
  intro c e c' heq
  unfold mapError at heq
  split at heq
  · cases heq
  · rename_i e₁ c₁ hm
    cases heq
    exact h c e₁ c' hm

theorem errors_bind (hm : Errors m P) (hf : ∀ a, Errors (f a) P) : Errors (m >>= f) P := by
  intro c e c' heq
  rw [bind_apply] at heq
  split at heq
  · exact hf _ _ e c' heq
  · rename_i hfirst
    cases heq
    exact hm c e c' hfirst

/-! ## Errors of a kind -/

theorem not_fails (h : Errors m fun e => ¬ P e) (c : Cursor β) : ¬ Fails P m c := by
  intro ⟨e, c₁, heq, hP⟩
  exact h c e c₁ heq hP

theorem fails_bind :
    Fails P (m >>= f) c ↔ Fails P m c ∨ ∃ a c', m c = (.ok a, c') ∧ Fails P (f a) c' := by
  unfold Fails
  rw [bind_apply]
  rcases hm : m c with ⟨e | a, c'⟩ <;> simp

/-- No error of the first reader satisfies `P`: it has a value, and the second one fails. -/
theorem fails_bind_none (hm : Exact m c p c' R) (he : Errors m fun e => ¬ P e)
    (hf : ∀ a, R a → (Fails P (f a) c' ↔ q)) : Fails P (m >>= f) c ↔ p ∧ q := by
  rw [fails_bind, or_iff_right (not_fails he c)]
  rcases hm with ⟨hp, a, heq, hR⟩ | ⟨hp, e, c₁, heq⟩
  · simp [heq, hp, hf a hR]
  · simp [heq, hp]

/-- All errors of the first reader satisfy `P`: it has no value, or the second one fails. -/
theorem fails_bind_all (hm : Exact m c p c' R) (he : Errors m P)
    (hf : ∀ a, R a → (Fails P (f a) c' ↔ q)) : Fails P (m >>= f) c ↔ (p → q) := by
  rw [fails_bind]
  rcases hm with ⟨hp, a, heq, hR⟩ | ⟨hp, e, c₁, heq⟩
  · have hnot : ¬ Fails P m c := by
      intro ⟨e, c₁, herror, hP⟩
      rw [heq] at herror
      cases herror
    simp [heq, hp, hf a hR, hnot]
  · have hfails : Fails P m c := ⟨e, c₁, heq, he c e c₁ heq⟩
    simp [hp, hfails]

end Lib.Cleanup
