import Mathlib

/-!
# First and last numbers with a property

`IsFirst P r` and `IsLast P r` say that a search for a number with the property `P`
answered rightly: `r` is the least or greatest such number, or `none` when there is
none.  `findUp` and `findDown` are the two linear searches, over a range that need
not start at zero.

`IsFirst.unique` and `IsLast.unique` make the specification a definition: two
searches that meet it agree.
-/

namespace Lib.Search

variable {P : Nat → Prop} {r : Option Nat}

/-- The answer of a search for the least number with a property. -/
def IsFirst (P : Nat → Prop) : Option Nat → Prop
  | none => ∀ i, ¬ P i
  | some i => P i ∧ ∀ j, j < i → ¬ P j

/-- The answer of a search for the greatest number with a property. -/
def IsLast (P : Nat → Prop) : Option Nat → Prop
  | none => ∀ i, ¬ P i
  | some i => P i ∧ ∀ j, i < j → ¬ P j

theorem IsFirst.congr {Q : Nat → Prop} (h : IsFirst P r) (hPQ : ∀ i, P i ↔ Q i) : IsFirst Q r := by
  rwa [show P = Q from funext fun i => propext (hPQ i)] at h

theorem IsLast.congr {Q : Nat → Prop} (h : IsLast P r) (hPQ : ∀ i, P i ↔ Q i) : IsLast Q r := by
  rwa [show P = Q from funext fun i => propext (hPQ i)] at h

theorem IsFirst.unique {r' : Option Nat} (h : IsFirst P r) (h' : IsFirst P r') : r = r' := by
  cases r with
  | none =>
    cases r' with
    | none => rfl
    | some j => exact absurd h'.1 (h j)
  | some i =>
    cases r' with
    | none => exact absurd h.1 (h' i)
    | some j =>
      have hij : ¬ i < j := fun hlt => h'.2 i hlt h.1
      have hji : ¬ j < i := fun hlt => h.2 j hlt h'.1
      rw [show i = j by omega]

theorem IsLast.unique {r' : Option Nat} (h : IsLast P r) (h' : IsLast P r') : r = r' := by
  cases r with
  | none =>
    cases r' with
    | none => rfl
    | some j => exact absurd h'.1 (h j)
  | some i =>
    cases r' with
    | none => exact absurd h.1 (h' i)
    | some j =>
      have hij : ¬ i < j := fun hlt => h.2 j hlt h'.1
      have hji : ¬ j < i := fun hlt => h'.2 i hlt h.1
      rw [show i = j by omega]

variable (p : Nat → Bool)

/-- The first of the `len` numbers from `start` on that passes `p`. -/
def findUp : Nat → Nat → Option Nat
  | _, 0 => none
  | start, len + 1 => if p start then some start else findUp (start + 1) len

/-- The last number below `n` that passes `p`, among the `len` numbers there. -/
def findDown : Nat → Nat → Option Nat
  | _, 0 => none
  | n, len + 1 => if p (n - 1) then some (n - 1) else findDown (n - 1) len

variable {p}

theorem findUp_isFirst (start len : Nat) :
    IsFirst (fun i => start ≤ i ∧ i < start + len ∧ p i = true) (findUp p start len) := by
  induction len generalizing start with
  | zero => exact fun i hi => by omega
  | succ len ih =>
    rw [findUp]
    split
    · rename_i hp
      exact ⟨⟨Nat.le_refl _, by omega, hp⟩, fun j hj hP => by omega⟩
    · rename_i hp
      refine (ih (start + 1)).congr fun i => ⟨fun hi => ⟨by omega, by omega, hi.2.2⟩, fun hi => ?_⟩
      have hne : i ≠ start := by
        rintro rfl
        exact hp hi.2.2
      exact ⟨by omega, by omega, hi.2.2⟩

theorem findDown_isLast {n len : Nat} (hle : len ≤ n) :
    IsLast (fun i => n - len ≤ i ∧ i < n ∧ p i = true) (findDown p n len) := by
  induction len generalizing n with
  | zero => exact fun i hi => by omega
  | succ len ih =>
    rw [findDown]
    split
    · rename_i hp
      exact ⟨⟨by omega, by omega, hp⟩, fun j hj hP => by omega⟩
    · rename_i hp
      refine (ih (n := n - 1) (by omega)).congr fun i =>
        ⟨fun hi => ⟨by omega, by omega, hi.2.2⟩, fun hi => ?_⟩
      have hne : i ≠ n - 1 := by
        rintro rfl
        exact hp hi.2.2
      exact ⟨by omega, by omega, hi.2.2⟩

end Lib.Search

/-!
## The first of `n` consecutive numbers with a property

`findRun` goes up through some numbers and counts those with the property `p` since the last one without.
It gives up at a number without the property at which `stop` holds.

* `findRun_isFirst`: it finds the first run of `n` that ends before it gives up.
-/

namespace Lib.Consecutive

open Lib.Search

/-- All of `n` numbers from `start` on have the property. -/
def AllFrom (p : Nat → Bool) (start n : Nat) : Prop := ∀ i, start ≤ i → i < start + n → p i = true

variable (p stop : Nat → Bool) (n : Nat)

/-- The search through `len` numbers from `i` on, the last `cnt` numbers before `i` having the property. -/
def findRun : Nat → Nat → Nat → Option Nat
  | 0, _, _ => none
  | len + 1, i, cnt =>
    if p i = false then if stop i then none else findRun len (i + 1) 0
    else if n ≤ cnt + 1 then some (i - cnt)
    else findRun len (i + 1) (cnt + 1)

variable {p stop n}

theorem AllFrom.append {start m k : Nat} (h : AllFrom p start m) (h' : AllFrom p (start + m) k) :
    AllFrom p start (m + k) := by
  intro i hi hlt
  by_cases him : i < start + m
  · exact h i hi him
  · exact h' i (by omega) (by omega)

/-- A run of `n` numbers of those from `lo` to `hi`, with nothing before its end at which the search
gives up. -/
structure RunAt (p stop : Nat → Bool) (n lo hi q : Nat) : Prop where
  lo_le : lo ≤ q
  le_hi : q + n ≤ hi
  all : AllFrom p q n
  passes : ∀ i, lo ≤ i → i < q + n → p i = false → stop i = false

/-- No run starts before a number without the property and ends after it. -/
theorem RunAt.lt {lo hi q i : Nat} (h : RunAt p stop n lo hi q) (hpi : p i = false) (hi : i < q + n) :
    i < q := by
  by_contra hle
  rw [h.all i (by omega) hi] at hpi
  cases hpi

theorem findRun_isFirst (hn : 0 < n) {len i cnt : Nat} (hcnt : cnt < n) (hle : cnt ≤ i)
    (hall : AllFrom p (i - cnt) cnt) :
    IsFirst (RunAt p stop n (i - cnt) (i + len)) (findRun p stop n len i cnt) := by
  induction len generalizing i cnt with
  | zero =>
    intro q hq
    have hlo := hq.lo_le
    have hhi := hq.le_hi
    omega
  | succ len ih =>
    rw [findRun]
    split
    · rename_i hpi
      split
      · rename_i hstop
        intro q hq
        have hlo := hq.lo_le
        by_cases hlt : i < q + n
        · rw [hq.passes i (by omega) hlt hpi] at hstop
          cases hstop
        · omega
      · rename_i hstop
        have hrest := @ih (i + 1) 0 hn (Nat.zero_le _) fun j hj hlt => by omega
        apply hrest.congr
        intro q
        constructor
        · intro hq
          have hlo := hq.lo_le
          refine ⟨by omega, by have hhi := hq.le_hi; omega, hq.all, fun j hj hlt hpj => ?_⟩
          by_cases hji : j ≤ i
          · by_cases heq : j = i
            · rw [heq]
              exact Bool.eq_false_iff.mpr hstop
            · rw [hall j hj (by omega)] at hpj
              cases hpj
          · exact hq.passes j (by omega) hlt hpj
        · intro hq
          have hlo := hq.lo_le
          have hlt : i < q := hq.lt hpi (by omega)
          refine ⟨by omega, by have hhi := hq.le_hi; omega, hq.all, fun j hj => ?_⟩
          exact hq.passes j (by omega)
    · rename_i hpi
      have hpi' : p i = true := by simpa using hpi
      have hall' : AllFrom p (i - cnt) (cnt + 1) := by
        apply hall.append
        intro j hj hlt
        rw [show j = i from by omega]
        exact hpi'
      split
      · rename_i hfull
        have hnEq : n = cnt + 1 := by omega
        refine ⟨⟨Nat.le_refl _, by omega, hnEq ▸ hall', fun j hj hlt hpj => ?_⟩, fun j hj hq => ?_⟩
        · rw [hall' j hj (by omega)] at hpj
          cases hpj
        · have hlo := hq.lo_le
          omega
      · have hsub : i - cnt = i + 1 - (cnt + 1) := by omega
        rw [hsub] at hall' ⊢
        have hlen : i + (len + 1) = i + 1 + len := by omega
        rw [hlen]
        exact ih (by omega) (by omega) hall'

end Lib.Consecutive

/-!
## Visiting numbers by a search

`visited next fuel k` are the numbers that a loop comes to which starts at `k`, goes to the
next number with a property, and goes on behind it.

* `visited_eq`: they are the numbers from `k` on with the property, in order.
-/

namespace Lib.Visit

open Lib.Search (IsFirst)

variable {k : Nat}

/-- The numbers that are visited from `k` on. -/
def visited (next : Nat → Option Nat) : Nat → Nat → List Nat
  | 0, _ => []
  | fuel + 1, k =>
    match next k with
    | none => []
    | some i => i :: visited next fuel (i + 1)

/-- The numbers with a property, from `k` on and below `n`. -/
def select (p : Nat → Bool) (k n : Nat) : List Nat := (List.range' k (n - k)).filter p

variable {p : Nat → Bool} {n : Nat}

theorem mem_select {i : Nat} : i ∈ select p k n ↔ k ≤ i ∧ i < n ∧ p i = true := by
  unfold select
  rw [List.mem_filter, List.mem_range'_1, ← and_assoc]
  exact and_congr_left fun _ => by omega

theorem select_eq_nil (h : ∀ i, ¬ (k ≤ i ∧ i < n ∧ p i = true)) : select p k n = [] := by
  apply List.eq_nil_iff_forall_not_mem.mpr
  intro i hi
  exact h i (mem_select.mp hi)

/-- The first number, and those behind it. -/
theorem select_cons {i : Nat} (hi : k ≤ i ∧ i < n ∧ p i = true)
    (hfirst : ∀ j, j < i → ¬ (k ≤ j ∧ j < n ∧ p j = true)) :
    select p k n = i :: select p (i + 1) n := by
  have hsplit : List.range' k (n - k) = List.range' k (i - k) ++ List.range' i (n - i) := by
    have h : List.range' k (i - k) ++ List.range' (k + (i - k)) (n - i) =
        List.range' k (i - k + (n - i)) := List.range'_append_1
    rw [show k + (i - k) = i by omega, show i - k + (n - i) = n - k by omega] at h
    exact h.symm
  have hnone : (List.range' k (i - k)).filter p = [] := by
    apply List.filter_eq_nil_iff.mpr
    intro j hj hpj
    have hrange := List.mem_range'_1.mp hj
    exact hfirst j (by omega) ⟨hrange.1, by omega, hpj⟩
  unfold select
  rw [hsplit, List.filter_append, hnone, List.nil_append, show n - i = n - (i + 1) + 1 by omega,
    List.range'_succ, List.filter_cons_of_pos hi.2.2]

/-- The numbers from `k` on with the property are visited, in order. -/
theorem visited_eq {next : Nat → Option Nat}
    (hnext : ∀ k, IsFirst (fun i => k ≤ i ∧ i < n ∧ p i = true) (next k)) {fuel : Nat}
    (hfuel : n ≤ k + fuel) : visited next fuel k = select p k n := by
  induction fuel generalizing k with
  | zero =>
    rw [select_eq_nil fun i hi => by omega]
    rfl
  | succ fuel ih =>
    have hk := hnext k
    unfold visited
    cases hfind : next k with
    | none =>
      rw [hfind] at hk
      exact (select_eq_nil hk).symm
    | some i =>
      rw [hfind] at hk
      have hle := hk.1.1
      show i :: visited next fuel (i + 1) = select p k n
      rw [ih (by omega), select_cons hk.1 hk.2]

end Lib.Visit

/-!
## The lowest elements of a finite set

The rank of a number is how many elements are below it.

* `lowest A n`: the elements of rank below `n`.
* `isLowest_lowest`: these are the `n` lowest elements, or all where there are no more than `n`.
* `rank_inj`: an element is determined by its rank.
-/

namespace Lib.Rank

open Finset

variable {i j : Nat} {A : Finset Nat}

/-- The number of elements below a number. -/
def rank (A : Finset Nat) (i : Nat) : Nat := (A.filter (· < i)).card

/-- The elements with few elements below. -/
def lowest (A : Finset Nat) (n : Nat) : Finset Nat := A.filter fun i => rank A i < n

/-- The `n` lowest elements. -/
structure IsLowest (A : Finset Nat) (n : Nat) (S : Finset Nat) : Prop where
  sub : S ⊆ A
  card : S.card = min n A.card
  lt : ∀ i ∈ S, ∀ j ∈ A, j ∉ S → i < j

theorem rank_mono (A : Finset Nat) (h : i ≤ j) : rank A i ≤ rank A j := by
  apply card_le_card
  intro k hk
  rw [Finset.mem_filter] at hk ⊢
  exact ⟨hk.1, Nat.lt_of_lt_of_le hk.2 h⟩

theorem rank_lt (hi : i ∈ A) (h : i < j) : rank A i < rank A j := by
  apply card_lt_card
  rw [ssubset_iff_of_subset]
  · exact ⟨i, Finset.mem_filter.mpr ⟨hi, h⟩, fun hk => Nat.lt_irrefl i (Finset.mem_filter.mp hk).2⟩
  · intro k hk
    rw [Finset.mem_filter] at hk ⊢
    exact ⟨hk.1, hk.2.trans h⟩

theorem rank_inj (hi : i ∈ A) (hj : j ∈ A) (h : rank A i = rank A j) : i = j := by
  rcases Nat.lt_trichotomy i j with hlt | heq | hgt
  · have hrank := rank_lt hi hlt
    omega
  · exact heq
  · have hrank := rank_lt hj hgt
    omega

theorem rank_insert_max {m : Nat} (hm : ∀ i ∈ A, i < m) :
    (∀ i ∈ A, rank (insert m A) i = rank A i) ∧ rank (insert m A) m = A.card := by
  constructor
  · intro i hi
    have hlt := hm i hi
    rw [rank, rank, filter_insert, if_neg (by omega)]
  · rw [rank, filter_insert, if_neg (Nat.lt_irrefl m), filter_true_of_mem hm]

theorem card_lowest (A : Finset Nat) (n : Nat) : (lowest A n).card = min n A.card := by
  induction A using induction_on_max with
  | empty => exact (Nat.min_zero n).symm
  | insert m A hm ih =>
    obtain ⟨hrank, hmax⟩ := rank_insert_max hm
    have hnot : m ∉ A := fun h => Nat.lt_irrefl m (hm m h)
    have hsame : A.filter (fun i => rank (insert m A) i < n) = lowest A n :=
      filter_congr fun i hi => by rw [hrank i hi]
    rw [lowest, filter_insert, hsame, hmax, card_insert_of_notMem hnot]
    split
    · have hnot' : m ∉ lowest A n := fun h => hnot (Finset.mem_filter.mp h).1
      rw [card_insert_of_notMem hnot', ih]
      omega
    · rw [ih]
      omega

theorem isLowest_lowest (A : Finset Nat) (n : Nat) : IsLowest A n (lowest A n) := by
  refine ⟨filter_subset _ _, card_lowest A n, fun i hi j hj hnot => ?_⟩
  by_contra hle
  have hmono := rank_mono A (Nat.le_of_not_lt hle)
  have hrank := (Finset.mem_filter.mp hi).2
  exact hnot (Finset.mem_filter.mpr ⟨hj, by omega⟩)

end Lib.Rank
