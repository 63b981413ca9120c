import Mathlib

/-!
# Round robin

`next n` goes through the positions below `n` in order and from the last one back to the
first.  `List.iterate (next n) s k` are the `k` positions from `s` on.

* `iterate_next_full`: a whole round is the positions from `s` to the end, then those
  before `s`.
* `iterate_next_perm`: a whole round visits every position once.
-/

namespace Lib.RoundRobin

variable {n s : Nat}

/-- The position after `i`, with the first one after the last one. -/
def next (n i : Nat) : Nat := if n ≤ i + 1 then 0 else i + 1

theorem next_lt (hn : 0 < n) (i : Nat) : next n i < n := by
  unfold next
  split <;> omega

theorem next_iterate {m : Nat} (h : s + m < n) : (next n)^[m] s = s + m := by
  induction m with
  | zero => rfl
  | succ m ih =>
    rw [Function.iterate_succ_apply', ih (by omega)]
    exact if_neg (by omega)

/-- Up to the end the positions are in order. -/
theorem iterate_next_of_le {k : Nat} (h : s + k ≤ n) :
    List.iterate (next n) s k = List.range' s k := by
  induction k with
  | zero => rfl
  | succ k ih =>
    rw [List.iterate_add, ih (by omega), next_iterate (by omega), List.range'_concat, Nat.one_mul]
    rfl

/-- A whole round. -/
theorem iterate_next_full (h : s < n) :
    List.iterate (next n) s n = List.range' s (n - s) ++ List.range s := by
  have hlast : (next n)^[n - s] s = 0 := by
    obtain ⟨m, hm⟩ : ∃ m, n - s = m + 1 := ⟨n - s - 1, by omega⟩
    rw [hm, Function.iterate_succ_apply', next_iterate (by omega)]
    exact if_pos (by omega)
  calc List.iterate (next n) s n = List.iterate (next n) s (n - s + s) := by
        rw [Nat.sub_add_cancel h.le]
    _ = List.range' s (n - s) ++ List.range s := by
        rw [List.iterate_add, hlast, iterate_next_of_le (by omega), iterate_next_of_le (by omega),
          List.range_eq_range']

/-- A whole round visits every position once. -/
theorem iterate_next_perm (h : s < n) : (List.iterate (next n) s n).Perm (List.range n) := by
  rw [iterate_next_full h]
  apply List.perm_append_comm.trans
  have hsplit : List.range s ++ List.range' s (n - s) = List.range n := by
    have happend := @List.range'_append_1 0 s (n - s)
    rw [Nat.zero_add, Nat.add_sub_cancel' h.le] at happend
    rw [List.range_eq_range', List.range_eq_range', happend]
  exact List.Perm.of_eq hsplit

end Lib.RoundRobin

/-!
## Linear probing in a ring of slots

A probe starts at one slot, looks at the slots in order, goes from the last
slot back to the first, and gives up after as many slots as the caller allows.
The slots are `Fin n` and the test is any Boolean predicate on them, so the
lemmas below serve every open-addressing table.

* `scan_stop`: a probe ends at a slot that passes the test.
* `scan_isSome`: a probe of `n` slots finds a slot that passes the test, when
  there is one.
* `scan_narrow`: a stronger test that still accepts the answer gives the same
  answer.  This is what keeps an entry findable while other entries are added.
-/

namespace Lib.Probe

variable {n : Nat}
variable {stop : Fin n → Bool} {fuel : Nat} {i j : Fin n}

/-- The slot after `i`, with the first slot after the last one. -/
def next (i : Fin n) : Fin n :=
  if h : i.val + 1 < n then ⟨i.val + 1, h⟩ else ⟨0, by omega⟩

/-- The first slot that passes `stop`, among the `fuel` slots from `i` on. -/
def scan (stop : Fin n → Bool) : Nat → Fin n → Option (Fin n)
  | 0, _ => none
  | fuel + 1, i => if stop i then some i else scan stop fuel (next i)

theorem next_val (i : Fin n) : (next i).val = (i.val + 1) % n := by
  unfold next
  split
  · rename_i h
    exact (Nat.mod_eq_of_lt h).symm
  · have hi := i.isLt
    have : i.val + 1 = n := by omega
    simp [this]

theorem iterate_next_val (i : Fin n) (m : Nat) :
    (next^[m] i).val = (i.val + m) % n := by
  induction m with
  | zero => exact (Nat.mod_eq_of_lt i.isLt).symm
  | succ m ih =>
    rw [Function.iterate_succ_apply', next_val, ih, Nat.mod_add_mod, Nat.add_assoc]

/-- Every slot is met within `n` steps. -/
theorem exists_iterate_next (i j : Fin n) : ∃ m, m < n ∧ next^[m] i = j := by
  have hi := i.isLt
  have hj := j.isLt
  by_cases h : i.val ≤ j.val
  · refine ⟨j.val - i.val, by omega, Fin.ext ?_⟩
    rw [iterate_next_val, show i.val + (j.val - i.val) = j.val by omega]
    exact Nat.mod_eq_of_lt hj
  · refine ⟨n + j.val - i.val, by omega, Fin.ext ?_⟩
    rw [iterate_next_val, show i.val + (n + j.val - i.val) = j.val + n by omega,
      Nat.add_mod_right]
    exact Nat.mod_eq_of_lt hj

/-- A probe ends at a slot that passes the test. -/
theorem scan_stop (h : scan stop fuel i = some j) : stop j = true := by
  induction fuel generalizing i with
  | zero => simp [scan] at h
  | succ fuel ih =>
    rw [scan] at h
    split at h
    · rename_i hi
      cases h
      exact hi
    · exact ih h

theorem scan_isSome_of_iterate {m : Nat} (hm : m < fuel) (hstop : stop (next^[m] i) = true) :
    (scan stop fuel i).isSome := by
  induction fuel generalizing i m with
  | zero => omega
  | succ fuel ih =>
    rw [scan]
    split
    · rfl
    · rename_i hi
      cases m with
      | zero => exact absurd hstop hi
      | succ m =>
        have hm' : m < fuel := by omega
        exact ih hm' (by simpa using hstop)

/-- A probe of all the slots finds one that passes the test. -/
theorem scan_isSome (i : Fin n) (hj : stop j = true) : (scan stop n i).isSome := by
  obtain ⟨m, hm, hmj⟩ := exists_iterate_next i j
  exact scan_isSome_of_iterate hm (by rw [hmj]; exact hj)

/-- A test that accepts fewer slots, but still the answer, keeps the answer. -/
theorem scan_narrow {stop' : Fin n → Bool} (h : scan stop fuel i = some j) (hj : stop' j = true)
    (hle : ∀ x, stop' x = true → stop x = true) : scan stop' fuel i = some j := by
  induction fuel generalizing i with
  | zero => simp [scan] at h
  | succ fuel ih =>
    rw [scan] at h ⊢
    split at h
    · cases h
      rw [if_pos hj]
    · rename_i hi
      rw [if_neg (fun hx => hi (hle _ hx))]
      exact ih h

end Lib.Probe
