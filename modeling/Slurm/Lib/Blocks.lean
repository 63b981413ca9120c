import Mathlib

/-!
# Blocks laid out one after another

`start sizes i` is where block `i` begins when blocks of the given sizes follow each other
without gaps.

* `start_add_le`: a block ends before the ones after it begin.
* `exists_block`, `block_unique`: each position is in one block.
* `exists_nonempty`: empty blocks begin where the next one does.
* `start_eraseIdx`: where blocks begin when one is taken out.
-/

namespace Lib.Blocks

open List Nat

/-- Where a block begins. -/
def start (sizes : List Nat) (i : Nat) : Nat := (sizes.take i).sum

/-- The position is in the block. -/
def InBlock (sizes : List Nat) (i k : Nat) : Prop :=
  start sizes i ≤ k ∧ k < start sizes i + sizes.getD i 0

variable {sizes : List Nat} {i j k : Nat}

@[simp]
theorem start_zero (sizes : List Nat) : start sizes 0 = 0 := rfl

theorem start_succ (sizes : List Nat) (i : Nat) :
    start sizes (i + 1) = start sizes i + sizes.getD i 0 := by
  unfold start
  rw [take_add_one, List.sum_append, getD_eq_getElem?_getD]
  cases sizes[i]? with
  | none => rfl
  | some n => simp

/-- The sizes added up one by one. -/
theorem sum_range_getD (sizes : List Nat) (i : Nat) :
    ((List.range i).map fun k => sizes.getD k 0).sum = start sizes i := by
  induction i with
  | zero => rfl
  | succ i ih =>
    rw [range_succ, map_append, List.sum_append, ih, start_succ, map_singleton,
      sum_singleton]

theorem start_mono (sizes : List Nat) (h : i ≤ j) : start sizes i ≤ start sizes j := by
  induction j, h using le_induction with
  | base => exact Nat.le_refl _
  | succ j _ ih =>
    rw [start_succ]
    exact le_add_right_of_le ih

/-- A block ends before the ones after it begin. -/
theorem start_add_le (sizes : List Nat) (h : i < j) :
    start sizes i + sizes.getD i 0 ≤ start sizes j := by
  rw [← start_succ]
  exact start_mono sizes h

theorem start_of_length_le (h : sizes.length ≤ i) : start sizes i = sizes.sum := by
  rw [start, take_of_length_le h]

theorem start_le_sum (sizes : List Nat) (i : Nat) : start sizes i ≤ sizes.sum := by
  have hle := start_mono sizes (Nat.le_max_left i sizes.length)
  rwa [start_of_length_le (Nat.le_max_right i sizes.length)] at hle

/-- A block lies in the whole. -/
theorem start_add_le_sum (sizes : List Nat) (i : Nat) :
    start sizes i + sizes.getD i 0 ≤ sizes.sum := by
  rw [← start_succ]
  exact start_le_sum sizes (i + 1)

/-- The first blocks begin where they begin among all. -/
theorem start_take (sizes : List Nat) {n : Nat} (h : i ≤ n) :
    start (sizes.take n) i = start sizes i := by
  rw [start, start, take_take, Nat.min_eq_left h]

/-- The first block from `n` on that is not empty begins where block `n` does.  Without one
it is the end. -/
theorem exists_nonempty (sizes : List Nat) {n : Nat} (h : n ≤ sizes.length) :
    ∃ i, n ≤ i ∧ start sizes i = start sizes n ∧
      (i = sizes.length ∨ i < sizes.length ∧ 0 < sizes.getD i 0) := by
  induction h using Nat.decreasingInduction with
  | self => exact ⟨sizes.length, Nat.le_refl _, rfl, Or.inl rfl⟩
  | of_succ n hlt ih =>
    rcases Nat.eq_zero_or_pos (sizes.getD n 0) with hzero | hpos
    · obtain ⟨i, hle, hstart, hi⟩ := ih
      rw [start_succ, hzero, Nat.add_zero] at hstart
      exact ⟨i, le_of_succ_le hle, hstart, hi⟩
    · exact ⟨n, Nat.le_refl n, rfl, Or.inr ⟨hlt, hpos⟩⟩

/-- Each position is in a block. -/
theorem exists_block (h : k < sizes.sum) : ∃ i, i < sizes.length ∧ InBlock sizes i k := by
  rw [← start_of_length_le (Nat.le_refl sizes.length)] at h
  generalize sizes.length = n at h
  induction n with
  | zero => exact absurd h (Nat.not_lt_zero k)
  | succ n ih =>
    by_cases hk : k < start sizes n
    · obtain ⟨i, hi, hblock⟩ := ih hk
      exact ⟨i, lt_succ_of_lt hi, hblock⟩
    · rw [start_succ] at h
      exact ⟨n, lt_succ_self n, Nat.le_of_not_lt hk, h⟩

/-- No position is in two blocks. -/
theorem block_unique (hi : InBlock sizes i k) (hj : InBlock sizes j k) : i = j := by
  unfold InBlock at hi hj
  rcases Nat.lt_trichotomy i j with hlt | heq | hlt
  · have hle := start_add_le sizes hlt
    omega
  · exact heq
  · have hle := start_add_le sizes hlt
    omega

/-! ## Without a block -/

theorem getD_eraseIdx (sizes : List Nat) (i j : Nat) :
    (sizes.eraseIdx i).getD j 0 = if j < i then sizes.getD j 0 else sizes.getD (j + 1) 0 := by
  rw [getD_eq_getElem?_getD, getElem?_eraseIdx]
  split <;> rw [getD_eq_getElem?_getD]

/-- Blocks after the one that is taken out move down by its size. -/
theorem start_eraseIdx (sizes : List Nat) (i j : Nat) :
    start (sizes.eraseIdx i) j =
      if j ≤ i then start sizes j else start sizes (j + 1) - sizes.getD i 0 := by
  induction j with
  | zero => rw [if_pos (Nat.zero_le i), start_zero, start_zero]
  | succ j ih =>
    rw [start_succ, ih, getD_eraseIdx]
    rcases Nat.lt_trichotomy j i with hlt | rfl | hlt
    · rw [if_pos (Nat.le_of_lt hlt), if_pos hlt, if_pos (succ_le_of_lt hlt), start_succ]
    · rw [if_pos (Nat.le_refl j), if_neg (Nat.lt_irrefl j), if_neg (not_succ_le_self j),
        start_succ sizes (j + 1), start_succ sizes j]
      omega
    · have hle : start sizes i + sizes.getD i 0 ≤ start sizes (j + 1) :=
        start_add_le sizes (lt_succ_of_lt hlt)
      rw [if_neg (Nat.not_le_of_lt hlt), if_neg (Nat.not_lt_of_lt hlt),
        if_neg (Nat.not_le_of_lt (lt_succ_of_lt hlt)), start_succ sizes (j + 1)]
      omega

end Lib.Blocks

/-!
## Intervals of natural numbers as lists

`numbers lo hi` lists an interval.  Two intervals that overlap are split at the overlap
without a number lost or gained: `split_perm`, with the numbers in the middle from
`twice`.
-/

namespace Lib.Interval

open List

/-- The numbers of an interval. -/
def numbers (lo hi : Nat) : List Nat := List.range' lo (hi + 1 - lo)

/-- The numbers of an interval twice, except its ends, which are listed once. -/
def twice (x y : Nat) : List Nat :=
  (numbers x y).flatMap fun n => (if x < n then [n] else []) ++ (if n < y then [n] else [])

variable {lo hi m x y n : Nat}

theorem mem_numbers : n ∈ numbers lo hi ↔ lo ≤ n ∧ n ≤ hi := by
  rw [numbers, mem_range'_1]
  omega

theorem numbers_append (h : lo ≤ m) (h' : m ≤ hi + 1) :
    List.range' lo (m - lo) ++ numbers m hi = numbers lo hi := by
  have hmid : m = lo + 1 * (m - lo) := by omega
  rw [numbers, numbers]
  conv_lhs => rw [hmid]
  rw [show lo + 1 * (m - lo) - lo = m - lo by omega,
    show hi + 1 - (lo + 1 * (m - lo)) = hi + 1 - m by omega, range'_append]
  congr 1
  omega

theorem mem_twice (h : n ∈ twice x y) : x ≤ n ∧ n ≤ y := by
  obtain ⟨k, hk, hn⟩ := List.mem_flatMap.mp h
  have hkn : n = k := by
    rcases List.mem_append.mp hn with hn | hn
    · split at hn
      · exact List.mem_singleton.mp hn
      · cases hn
    · split at hn
      · exact List.mem_singleton.mp hn
      · cases hn
  rw [hkn]
  exact mem_numbers.mp hk

theorem pairwise_twice (x y : Nat) : (twice x y).Pairwise (· ≤ ·) := by
  rw [twice, pairwise_flatMap]
  constructor
  · intro n _
    split <;> split <;> simp
  · rw [numbers]
    have hlt : (List.range' x (y + 1 - x)).Pairwise (· < ·) := pairwise_lt_range' 1
    apply hlt.imp
    intro m n hmn a ha b hb
    have ham : a = m := by
      rcases List.mem_append.mp ha with ha | ha <;> split at ha <;> simp_all
    have hbn : b = n := by
      rcases List.mem_append.mp hb with hb | hb <;> split at hb <;> simp_all
    omega

theorem flatMap_if (p : Nat → Prop) [DecidablePred p] (l : List Nat) :
    (l.flatMap fun n => if p n then [n] else []) = l.filter p := by
  induction l with
  | nil => rfl
  | cons a l ih =>
    rw [flatMap_cons, filter_cons, ih]
    by_cases hp : p a
    · rw [if_pos hp, if_pos (decide_eq_true hp)]
      rfl
    · rw [if_neg hp, if_neg (by rwa [decide_eq_true_iff])]
      rfl

/-- The numbers in the middle are those without the first and those without the last. -/
theorem twice_perm (h : x ≤ y) :
    (twice x y).Perm (numbers (x + 1) y ++ List.range' x (y - x)) := by
  have hfirst : ((numbers x y).flatMap fun n => if x < n then [n] else []) = numbers (x + 1) y := by
    rw [flatMap_if, ← numbers_append (show x ≤ x + 1 by omega) (show x + 1 ≤ y + 1 by omega),
      filter_append, List.filter_eq_nil_iff.mpr, nil_append, List.filter_eq_self.mpr]
    · intro n hn
      have hmem := mem_numbers.mp hn
      exact decide_eq_true (by omega)
    · intro n hn
      rw [mem_range'_1] at hn
      rw [decide_eq_true_iff]
      omega
  have hlast : ((numbers x y).flatMap fun n => if n < y then [n] else []) = List.range' x (y - x) := by
    rw [flatMap_if, ← numbers_append h (show y ≤ y + 1 by omega), filter_append,
      List.filter_eq_self.mpr, List.filter_eq_nil_iff.mpr, append_nil]
    · intro n hn
      have hmem := mem_numbers.mp hn
      rw [decide_eq_true_iff]
      omega
    · intro n hn
      rw [mem_range'_1] at hn
      exact decide_eq_true (by omega)
  rw [← hfirst, ← hlast]
  exact (flatMap_append_perm _ _ _).symm

/-- Two intervals that overlap, and what they are split into. -/
theorem split_perm {lo hi lo' hi' : Nat} (hlo : lo ≤ lo') (hover : lo' ≤ hi) (hle : lo' ≤ hi') :
    (numbers lo lo' ++ (twice lo' (min hi hi') ++ numbers (min hi hi') (max hi hi'))).Perm
      (numbers lo hi ++ numbers lo' hi') := by
  have hmid : lo' ≤ min hi hi' := by omega
  -- The first part reaches the smaller end, and the second begins at `lo'`.
  have hparts : (numbers lo lo' ++ (twice lo' (min hi hi') ++ numbers (min hi hi') (max hi hi'))).Perm
      (numbers lo (min hi hi') ++ numbers lo' (max hi hi')) := by
    rw [← numbers_append (show lo ≤ lo' + 1 by omega) (show lo' + 1 ≤ min hi hi' + 1 by omega),
      ← numbers_append hmid (show min hi hi' ≤ max hi hi' + 1 by omega)]
    rw [append_assoc]
    refine List.Perm.append (List.Perm.of_eq ?_) ?_
    · rw [numbers]
    · rw [← append_assoc]
      exact (twice_perm hmid).append_right _
  refine hparts.trans ?_
  rcases Nat.le_total hi hi' with hhi | hhi
  · rw [Nat.min_eq_left hhi, Nat.max_eq_right hhi]
  · rw [Nat.min_eq_right hhi, Nat.max_eq_left hhi]
    -- The numbers beyond the smaller end change sides.
    have hbeyond := numbers_append (show lo ≤ hi' + 1 by omega) (show hi' + 1 ≤ hi + 1 by omega)
    have hbeyond' := numbers_append (show lo' ≤ hi' + 1 by omega) (show hi' + 1 ≤ hi + 1 by omega)
    rw [← hbeyond, ← hbeyond', numbers, numbers, append_assoc]
    exact (perm_append_comm).append_left _

end Lib.Interval
