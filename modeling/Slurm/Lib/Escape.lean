import Mathlib

/-!
# Escaped strings

Some characters are special.  In an escaped string a mark stands before each of them, and
the mark is special itself.

* `unescape_escape`: what was escaped comes back.
* `bare_escape`: no special character is left without its mark.
* `length_escape`: the string gets longer by one for each special character.
-/

namespace Lib.Escape

variable {β : Type}

/-- The special characters and their mark. -/
structure Scheme (β : Type) where
  mark : β
  special : β → Bool
  mark_special : special mark = true

namespace Scheme

variable (e : Scheme β)

/-- What is written for a character. -/
def unit (b : β) : List β := if e.special b then [e.mark, b] else [b]

/-- The escaped string. -/
def escape (s : List β) : List β := s.flatMap e.unit

@[simp] theorem escape_nil : e.escape [] = [] := rfl

@[simp] theorem escape_cons (b : β) (s : List β) : e.escape (b :: s) = e.unit b ++ e.escape s :=
  rfl

theorem ne_mark {b : β} (h : e.special b = false) : b ≠ e.mark := by
  intro heq
  rw [heq, e.mark_special] at h
  cases h

/-- The string gets longer by one for each special character. -/
theorem length_escape (s : List β) :
    (e.escape s).length = s.length + s.countP e.special := by
  induction s with
  | nil => simp
  | cons b s ih =>
    rw [escape_cons, List.length_append, ih, List.countP_cons, List.length_cons, unit]
    split <;> simp <;> omega

theorem length_escape_le (s : List β) : (e.escape s).length ≤ 2 * s.length := by
  have hcount : s.countP e.special ≤ s.length := List.countP_le_length
  rw [length_escape]
  omega

/-- Only characters of the string and marks are written. -/
theorem mem_escape {b : β} {s : List β} (h : b ∈ e.escape s) : b = e.mark ∨ b ∈ s := by
  obtain ⟨c, hc, hb⟩ := List.mem_flatMap.mp h
  unfold unit at hb
  split at hb
  · rcases List.mem_cons.mp hb with hb | hb
    · exact Or.inl hb
    · rw [List.mem_singleton.mp hb]
      exact Or.inr hc
  · rw [List.mem_singleton.mp hb]
    exact Or.inr hc

section Read

variable [DecidableEq β]

/-- The string without its marks, or none where a mark stands at the end.  A character is
`marked` where a mark stands before it. -/
def unescape (marked : Bool) : List β → Option (List β)
  | [] => if marked then none else some []
  | b :: s =>
    if marked then (unescape false s).map (b :: ·)
    else if b = e.mark then unescape true s
    else (unescape false s).map (b :: ·)

/-- The characters that are neither marks nor behind one. -/
def bare (marked : Bool) : List β → List β
  | [] => []
  | b :: s =>
    if marked then bare false s
    else if b = e.mark then bare true s
    else b :: bare false s

theorem unescape_unit (b : β) (s : List β) :
    e.unescape false (e.unit b ++ s) = (e.unescape false s).map (b :: ·) := by
  unfold unit
  split
  · simp [unescape]
  · rename_i h
    have hne := e.ne_mark (Bool.eq_false_iff.mpr h)
    simp [unescape, hne]

/-- What was escaped comes back. -/
theorem unescape_escape (s : List β) : e.unescape false (e.escape s) = some s := by
  induction s with
  | nil => simp [unescape]
  | cons b s ih => simp [unescape_unit, ih]

theorem bare_unit (b : β) (s : List β) :
    e.bare false (e.unit b ++ s) = if e.special b then e.bare false s else b :: e.bare false s := by
  unfold unit
  split
  · simp [bare]
  · rename_i h
    have hne := e.ne_mark (Bool.eq_false_iff.mpr h)
    simp [bare, hne]

/-- No special character is left without its mark. -/
theorem bare_escape (s : List β) : ∀ b ∈ e.bare false (e.escape s), e.special b = false := by
  induction s with
  | nil => simp [bare]
  | cons b s ih =>
    rw [escape_cons, bare_unit]
    cases hb : e.special b with
    | true => simpa using ih
    | false =>
      intro c hc
      rcases List.mem_cons.mp hc with rfl | hc
      · exact hb
      · exact ih c hc

end Read

end Scheme

end Lib.Escape
