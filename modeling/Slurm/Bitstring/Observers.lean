import Slurm.Bitstring.Bits

/-!
# What the observers answer

An observer reads whole words, and masks the last one where it is only partly
valid.  Each lemma says that the answer is determined by the valid bits alone: it
is stated with `Bitstr.bit` below `nbits` and with nothing else, for any content of
the invalid bits.

The searches are specified by `Lib.Search.IsFirst` and `IsLast`, the counts by the
number of bits set in a range of positions.
-/

namespace Slurm.Bitstring

open List

open Lib.Search (IsFirst IsLast findUp findUp_isFirst findDown_isLast)

variable {lo hi last : Nat} {p : Nat → Bool}

/-! ## Words -/

theorem ctzll_spec {w : Word} (h : w ≠ 0) :
    ctzll w < 64 ∧ w.getLsbD (ctzll w) = true ∧ ∀ j, j < ctzll w → w.getLsbD j = false := by
  have hfirst := findUp_isFirst (p := w.getLsbD) 0 64
  unfold ctzll
  cases hfind : findUp w.getLsbD 0 64 with
  | none =>
    rw [hfind] at hfirst
    obtain ⟨j, hj, hbit⟩ := (word_ne_zero_iff w).mp h
    exact absurd ⟨Nat.zero_le j, by omega, hbit⟩ (hfirst j)
  | some i =>
    rw [hfind] at hfirst
    obtain ⟨⟨-, hi, hbit⟩, hmin⟩ := hfirst
    refine ⟨by simpa using hi, hbit, fun j hj => ?_⟩
    rw [← Bool.not_eq_true]
    intro hj'
    exact hmin j hj ⟨Nat.zero_le j, by simp only [Option.getD_some] at hj; omega, hj'⟩

theorem clzll_spec {w : Word} (h : w ≠ 0) :
    clzll w < 64 ∧ w.getLsbD (63 - clzll w) = true ∧
      ∀ j, 63 - clzll w < j → j < 64 → w.getLsbD j = false := by
  have hlast := findDown_isLast (p := w.getLsbD) (Nat.le_refl 64)
  unfold clzll
  cases hfind : Lib.Search.findDown w.getLsbD 64 64 with
  | none =>
    rw [hfind] at hlast
    obtain ⟨j, hj, hbit⟩ := (word_ne_zero_iff w).mp h
    exact absurd ⟨by omega, hj, hbit⟩ (hlast j)
  | some i =>
    rw [hfind] at hlast
    obtain ⟨⟨-, hi, hbit⟩, hmax⟩ := hlast
    have hback : 63 - (63 - i) = i := by omega
    refine ⟨by show 63 - i < 64; omega, ?_, fun j hj hj' => ?_⟩
    · show w.getLsbD (63 - (63 - i)) = true
      rw [hback]
      exact hbit
    · rw [← Bool.not_eq_true]
      intro hbit'
      have hj : 63 - (63 - i) < j := hj
      exact hmax j (by omega) ⟨by omega, hj', hbit'⟩

theorem getLsbD_zero (j : Nat) : (0 : Word).getLsbD j = false := BitVec.getLsbD_zero

theorem bit_word (b : Bitstr) (k j : Nat) (hj : j < 64) :
    b.bit (64 * k + j) = (b.word k).getLsbD j := by
  rw [Bitstr.bit, show (64 * k + j) / 64 = k by omega, show (64 * k + j) % 64 = j by omega]

/-- A word is empty when all its bits are clear. -/
theorem word_eq_zero_iff (b : Bitstr) (k : Nat) :
    b.word k = 0 ↔ ∀ i, 64 * k ≤ i → i < 64 * k + 64 → b.bit i = false := by
  constructor
  · intro h i hlo hhi
    rw [show i = 64 * k + (i - 64 * k) by omega, bit_word b k _ (by omega), h]
    exact BitVec.getLsbD_zero
  · intro h
    by_contra hne
    obtain ⟨j, hj, hbit⟩ := (word_ne_zero_iff _).mp hne
    rw [← bit_word b k j hj, h _ (by omega) (by omega)] at hbit
    cases hbit

/-! ## Searches -/

theorem ffsWords_isFirst (b : Bitstr) (fuel k : Nat) (hfuel : bitstrWords b.nbits ≤ k + fuel) :
    IsFirst (fun i => 64 * k ≤ i ∧ i < 64 * bitstrWords b.nbits ∧ b.bit i = true)
      (ffsWords b fuel k) := by
  induction fuel generalizing k with
  | zero => exact fun i hi => by omega
  | succ fuel ih =>
    rw [ffsWords]
    split
    · rename_i hk
      split
      · rename_i hzero
        refine (ih (k + 1) (by omega)).congr fun i => ⟨fun hi => ⟨by omega, hi.2⟩, fun hi => ?_⟩
        refine ⟨?_, hi.2⟩
        by_contra hlt
        rw [(word_eq_zero_iff b k).mp hzero i hi.1 (by omega)] at hi
        exact Bool.noConfusion hi.2.2
      · rename_i hne
        obtain ⟨hlt, hbit, hmin⟩ := ctzll_spec hne
        have hwords : k < bitstrWords b.nbits := by
          rw [bitstrWords]
          omega
        refine ⟨⟨by omega, by omega, by rw [bit_word b k _ hlt]; exact hbit⟩, fun j hj hP => ?_⟩
        obtain ⟨hlo, -, hset⟩ := hP
        rw [show j = 64 * k + (j - 64 * k) by omega, bit_word b k _ (by omega),
          hmin _ (by omega)] at hset
        cases hset
    · rename_i hk
      intro i hi
      rw [bitstrWords] at hi
      omega

/-- A search of the memory, cut to the valid bits. -/
theorem IsFirst.filter_lt {P : Nat → Prop} {r : Option Nat} {n : Nat} (h : IsFirst P r) :
    IsFirst (fun i => P i ∧ i < n) (r.filter fun v => decide (v < n)) := by
  cases r with
  | none => exact fun i hi => h i hi.1
  | some v =>
    rw [Option.filter_some]
    split
    · rename_i hv
      exact ⟨⟨h.1, of_decide_eq_true hv⟩, fun j hj hP => h.2 j hj hP.1⟩
    · rename_i hv
      intro i hi
      have hle : ¬ i < v := fun hlt => h.2 i hlt hi.1
      exact hv (decide_eq_true (by omega))

theorem bitFfsFromBit_isFirst (b : Bitstr) (bit : Nat) :
    IsFirst (fun i => bit ≤ i ∧ i < b.nbits ∧ b.bit i = true) (bitFfsFromBit b bit) := by
  have hwords : b.nbits ≤ 64 * bitstrWords b.nbits := by
    rw [bitstrWords]
    omega
  have hvalue : IsFirst (fun i => bit ≤ i ∧ bit < b.nbits ∧ i < 64 * bitstrWords b.nbits ∧
        b.bit i = true)
      (if bit % 64 ≠ 0 ∧ bit < b.nbits then
        if b.word (bit / 64) &&& ~~~ bitNmask bit = 0 then
          ffsWords b (bitstrWords b.nbits) (bit / 64 + 1)
        else some (64 * (bit / 64) + ctzll (b.word (bit / 64) &&& ~~~ bitNmask bit))
      else if bit < b.nbits then ffsWords b (bitstrWords b.nbits) (bit / 64) else none) := by
    split
    · rename_i hstart
      -- The bits of the first word from `bit` on.
      have hmasked : ∀ j, j < 64 → (b.word (bit / 64) &&& ~~~ bitNmask bit).getLsbD j
          = (decide (bit % 64 ≤ j) && b.bit (64 * (bit / 64) + j)) := by
        intro j hj
        rw [BitVec.getLsbD_and, BitVec.getLsbD_not, getLsbD_bitNmask, bit_word b _ j hj]
        by_cases hlt : j < bit % 64
        · simp [hlt, Nat.not_le_of_lt hlt]
        · simp [hlt, Nat.le_of_not_lt hlt, hj]
      split
      · rename_i hzero
        refine (ffsWords_isFirst b _ (bit / 64 + 1) (by omega)).congr fun i =>
          ⟨fun hi => ⟨by omega, hstart.2, hi.2⟩, fun hi => ⟨?_, hi.2.2⟩⟩
        by_contra hlt
        have hbit := hmasked (i - 64 * (bit / 64)) (by omega)
        rw [hzero, getLsbD_zero, show 64 * (bit / 64) + (i - 64 * (bit / 64)) = i by omega,
          hi.2.2.2, decide_eq_true (by omega)] at hbit
        cases hbit
      · rename_i hne
        obtain ⟨hlt, hbit, hmin⟩ := ctzll_spec hne
        rw [hmasked _ hlt, Bool.and_eq_true, decide_eq_true_eq] at hbit
        refine ⟨⟨by omega, hstart.2, by rw [bitstrWords]; omega, hbit.2⟩, fun j hj hP => ?_⟩
        have hj' := hmin (j - 64 * (bit / 64)) (by omega)
        rw [hmasked _ (by omega), show 64 * (bit / 64) + (j - 64 * (bit / 64)) = j by omega,
          hP.2.2.2, decide_eq_true (by omega)] at hj'
        cases hj'
    · rename_i hstart
      split
      · rename_i hlt
        exact (ffsWords_isFirst b _ (bit / 64) (by omega)).congr fun i =>
          ⟨fun hi => ⟨by omega, hlt, hi.2⟩, fun hi => ⟨by omega, hi.2.2⟩⟩
      · rename_i hlt
        exact fun i hi => hlt hi.2.1
  refine (IsFirst.filter_lt (n := b.nbits) hvalue).congr fun i => ?_
  exact ⟨fun hi => ⟨hi.1.1, hi.2, hi.1.2.2.2⟩,
    fun hi => ⟨⟨hi.1, by omega, by omega, hi.2.2⟩, hi.2.1⟩⟩

theorem bitFfs_isFirst (b : Bitstr) :
    IsFirst (fun i => i < b.nbits ∧ b.bit i = true) (bitFfs b) :=
  (bitFfsFromBit_isFirst b 0).congr fun _ => ⟨fun h => h.2, fun h => ⟨Nat.zero_le _, h⟩⟩

theorem flsWords_isLast (b : Bitstr) (k : Nat) :
    IsLast (fun i => i < 64 * k ∧ b.bit i = true) (flsWords b k) := by
  induction k with
  | zero => exact fun i hi => by omega
  | succ k ih =>
    rw [flsWords]
    split
    · rename_i hzero
      refine ih.congr fun i => ⟨fun hi => ⟨by omega, hi.2⟩, fun hi => ⟨?_, hi.2⟩⟩
      by_contra hlt
      rw [(word_eq_zero_iff b k).mp hzero i (by omega) (by omega)] at hi
      exact Bool.noConfusion hi.2
    · rename_i hne
      obtain ⟨hlt, hbit, hmax⟩ := clzll_spec hne
      have hval : 64 * k + 63 - clzll (b.word k) = 64 * k + (63 - clzll (b.word k)) := by omega
      rw [hval]
      refine ⟨⟨by omega, by rw [bit_word b k _ (by omega)]; exact hbit⟩, fun j hj hP => ?_⟩
      have hclear := hmax (j - 64 * k) (by omega) (by omega)
      rw [← bit_word b k _ (by omega), show 64 * k + (j - 64 * k) = j by omega, hP.2] at hclear
      cases hclear

/-- The bits of the last word are tested down to its first. -/
theorem flsPartial_spec (b : Bitstr) (fuel last : Nat) (hfuel : last % 64 ≤ fuel) :
    match (flsPartial b fuel last).2 with
    | some i => i < last ∧ b.bit i = true ∧ ∀ j, i < j → j < last → b.bit j = false
    | none => (flsPartial b fuel last).1 % 64 = 0 ∧ (flsPartial b fuel last).1 ≤ last ∧
        ∀ j, (flsPartial b fuel last).1 ≤ j → j < last → b.bit j = false := by
  induction fuel generalizing last with
  | zero => exact ⟨by show last % 64 = 0; omega, Nat.le_refl _, fun j hlo hhi =>
      absurd hhi (Nat.not_lt_of_le hlo)⟩
  | succ fuel ih =>
    rw [flsPartial]
    by_cases hturn : 0 < last ∧ (last - 1) / 64 = last / 64
    · rw [if_pos hturn, bitTest_eq]
      by_cases hbit : b.bit (last - 1) = true
      · rw [if_pos hbit]
        exact ⟨by omega, hbit, fun j hlo hhi => by omega⟩
      · rw [if_neg hbit]
        rw [Bool.not_eq_true] at hbit
        have hrest := ih (last - 1) (by omega)
        cases hres : (flsPartial b fuel (last - 1)).2 with
        | some i =>
          rw [hres] at hrest
          obtain ⟨hlt, hset, hmax⟩ := hrest
          refine ⟨by omega, hset, fun j hlo hhi => ?_⟩
          by_cases hj : j = last - 1
          · rw [hj, hbit]
          · exact hmax j hlo (by omega)
        | none =>
          rw [hres] at hrest
          obtain ⟨hmod, hle, hclear⟩ := hrest
          refine ⟨hmod, by omega, fun j hlo hhi => ?_⟩
          by_cases hj : j = last - 1
          · rw [hj, hbit]
          · exact hclear j hlo (by omega)
    · rw [if_neg hturn]
      exact ⟨by show last % 64 = 0; omega, Nat.le_refl _, fun j hlo hhi =>
        absurd hhi (Nat.not_lt_of_le hlo)⟩

theorem bitFlsFromBit_isLast (b : Bitstr) (bit : Nat) :
    IsLast (fun i => i ≤ bit ∧ b.bit i = true) (bitFlsFromBit b bit) := by
  have hspec := flsPartial_spec b 64 (bit + 1) (Nat.le_of_lt (Nat.mod_lt _ (by decide)))
  unfold bitFlsFromBit
  dsimp only
  cases hres : (flsPartial b 64 (bit + 1)).2 with
  | some i =>
    rw [hres] at hspec
    obtain ⟨hlt, hset, hmax⟩ := hspec
    refine ⟨⟨by omega, hset⟩, fun j hj hP => ?_⟩
    have hclear := hmax j hj (Nat.lt_succ_of_le hP.1)
    rw [hP.2] at hclear
    cases hclear
  | none =>
    rw [hres] at hspec
    obtain ⟨hmod, hle, hclear⟩ := hspec
    refine (flsWords_isLast b _).congr fun i =>
      ⟨fun hi => ⟨by omega, hi.2⟩, fun hi => ⟨?_, hi.2⟩⟩
    by_contra hlt
    have hbit := hclear i (by omega) (by omega)
    rw [hi.2] at hbit
    cases hbit

theorem bitFls_isLast (b : Bitstr) :
    IsLast (fun i => i < b.nbits ∧ b.bit i = true) (bitFls b) := by
  have hpos := b.valid.1
  exact (bitFlsFromBit_isLast b (b.nbits - 1)).congr fun i =>
    ⟨fun hi => ⟨by omega, hi.2⟩, fun hi => ⟨by omega, hi.2⟩⟩

theorem ffcWords_isFirst (b : Bitstr) (fuel k : Nat) (hfuel : bitstrWords b.nbits ≤ k + fuel) :
    IsFirst (fun i => 64 * k ≤ i ∧ i < b.nbits ∧ b.bit i = false) (ffcWords b fuel k) := by
  induction fuel generalizing k with
  | zero =>
    intro i hi
    rw [bitstrWords] at hfuel
    omega
  | succ fuel ih =>
    rw [ffcWords]
    split
    · rename_i hk
      have hnext : (∀ i, 64 * k ≤ i → i < 64 * k + 64 → i < b.nbits → b.bit i = true) →
          IsFirst (fun i => 64 * k ≤ i ∧ i < b.nbits ∧ b.bit i = false)
            (ffcWords b fuel (k + 1)) := by
        intro hset
        refine (ih (k + 1) (by omega)).congr fun i => ⟨fun hi => ⟨by omega, hi.2⟩, fun hi => ?_⟩
        refine ⟨?_, hi.2⟩
        by_contra hlt
        rw [hset i hi.1 (by omega) hi.2.1] at hi
        exact Bool.noConfusion hi.2.2
      split
      · rename_i hones
        refine hnext fun i hlo hhi _ => ?_
        rw [show i = 64 * k + (i - 64 * k) by omega, bit_word b k _ (by omega), hones,
          BitVec.getLsbD_allOnes, decide_eq_true (by omega)]
      · have hfind := findUp_isFirst (p := fun i => !bitTest b i) (64 * k)
          (min 64 (b.nbits - 64 * k))
        split
        · rename_i value hvalue
          rw [hvalue] at hfind
          obtain ⟨⟨hlo, hhi, hclear⟩, hmin⟩ := hfind
          simp only [bitTest_eq, Bool.not_eq_true'] at hclear
          refine ⟨⟨hlo, by omega, hclear⟩, fun j hj hP => hmin j hj ⟨hP.1, by omega, ?_⟩⟩
          simp only [bitTest_eq, Bool.not_eq_true']
          exact hP.2.2
        · rename_i hnone
          rw [hnone] at hfind
          refine hnext fun i hlo hhi hlt => ?_
          by_contra hclear
          rw [Bool.not_eq_true] at hclear
          refine hfind i ⟨hlo, by omega, ?_⟩
          simp only [bitTest_eq, hclear, Bool.not_false]
    · rename_i hk
      exact fun i hi => by omega

theorem bitFfc_isFirst (b : Bitstr) :
    IsFirst (fun i => i < b.nbits ∧ b.bit i = false) (bitFfc b) :=
  (ffcWords_isFirst b _ 0 (by omega)).congr fun _ =>
    ⟨fun hi => hi.2, fun hi => ⟨Nat.zero_le _, hi⟩⟩

/-! ## Counts -/

/-- How many of the positions from `lo` up to `hi` have `p`. -/
def countRange (p : Nat → Bool) (lo hi : Nat) : Nat := (List.range' lo (hi - lo)).countP p

theorem countRange_append (p : Nat → Bool) {mid : Nat} (hlo : lo ≤ mid) (hhi : mid ≤ hi) :
    countRange p lo mid + countRange p mid hi = countRange p lo hi := by
  have hsplit : List.range' lo (hi - lo) = List.range' lo (mid - lo) ++ List.range' mid (hi - mid) := by
    rw [show hi - lo = (mid - lo) + (hi - mid) by omega, ← range'_append_1,
      Nat.add_sub_cancel' hlo]
  simp only [countRange, hsplit, countP_append]

theorem countRange_self (p : Nat → Bool) (h : hi ≤ lo) : countRange p lo hi = 0 := by
  rw [countRange, Nat.sub_eq_zero_of_le h]
  rfl

theorem countRange_congr {q : Nat → Bool} (h : ∀ i, lo ≤ i → i < hi → p i = q i) :
    countRange p lo hi = countRange q lo hi := by
  refine countP_congr fun i hi' => ?_
  rw [mem_range'_1] at hi'
  rw [h i (by omega) (by omega)]

theorem countRange_eq_zero (lo hi : Nat) (h : ∀ i, lo ≤ i → i < hi → p i = false) :
    countRange p lo hi = 0 := by
  refine List.countP_eq_zero.mpr fun i hi' => ?_
  rw [mem_range'_1] at hi'
  rw [h i (by omega) (by omega)]
  exact Bool.false_ne_true

theorem countRange_shift (p : Nat → Bool) (d lo hi : Nat) :
    countRange (fun j => p (d + j)) lo hi = countRange p (d + lo) (d + hi) := by
  simp only [countRange, show d + hi - (d + lo) = hi - lo by omega]
  rw [← map_add_range', countP_map]
  rfl

/-- The set bits of a word that agrees with `p` from `lo` up to `hi` and is clear
elsewhere. -/
theorem hweight_interval {w : Word} {k : Nat} (hle : lo ≤ hi) (hhi : hi ≤ 64)
    (hw : ∀ j, j < 64 → w.getLsbD j = (decide (lo ≤ j ∧ j < hi) && p (64 * k + j))) :
    hweight w = countRange p (64 * k + lo) (64 * k + hi) := by
  have hrange : hweight w = countRange w.getLsbD 0 64 := by
    rw [hweight, countRange, range_eq_range']
  rw [hrange, ← countRange_append _ (Nat.zero_le lo) (by omega), ← countRange_append _ hle hhi,
    countRange_eq_zero 0 lo, countRange_eq_zero hi 64, Nat.zero_add, Nat.add_zero,
    ← countRange_shift]
  · refine countRange_congr fun j hlo hj => ?_
    rw [hw j (by omega), decide_eq_true ⟨hlo, hj⟩, Bool.true_and]
  · intro j hlo hj
    rw [hw j hj, decide_eq_false (by omega), Bool.false_and]
  · intro j hlo hj
    rw [hw j (by omega), decide_eq_false (by omega), Bool.false_and]

/-- Whole words. -/
theorem sum_hweight {w : Nat → Word} (hw : ∀ k j, j < 64 → (w k).getLsbD j = p (64 * k + j))
    (first m : Nat) :
    ((List.range m).map fun k => hweight (w (first + k))).sum
      = countRange p (64 * first) (64 * (first + m)) := by
  induction m with
  | zero => rw [countRange_self _ (by omega)]; rfl
  | succ m ih =>
    rw [range_succ, map_append, sum_append, ih, map_singleton,
      sum_singleton, hweight_interval (p := p) (k := first + m) (Nat.zero_le 64) (Nat.le_refl 64)]
    · rw [Nat.add_zero, countRange_append _ (by omega) (by omega)]
      congr 1
    · intro j hj
      rw [hw _ j hj, decide_eq_true ⟨Nat.zero_le j, hj⟩, Bool.true_and]

theorem getLsbD_and_nmask (w : Word) (n j : Nat) :
    (w &&& bitNmask n).getLsbD j = (decide (0 ≤ j ∧ j < n % 64) && w.getLsbD j) := by
  rw [BitVec.getLsbD_and, getLsbD_bitNmask, Bool.and_comm]
  simp

/-- Whole words from a word boundary on, and the masked rest. -/
theorem count_words {w : Nat → Word} (hw : ∀ k j, j < 64 → (w k).getLsbD j = p (64 * k + j))
    (bit : Nat) (hbit : bit % 64 = 0) (hle : bit ≤ last) :
    ((List.range ((last - bit) / 64)).map fun k => hweight (w (bit / 64 + k))).sum
        + (if bit + (last - bit) / 64 * 64 < last then
            hweight (w (last / 64) &&& bitNmask last) else 0)
      = countRange p bit last := by
  have hwhole := sum_hweight hw (bit / 64) ((last - bit) / 64)
  rw [show 64 * (bit / 64) = bit by omega,
    show 64 * (bit / 64 + (last - bit) / 64) = last / 64 * 64 by omega] at hwhole
  rw [hwhole]
  split
  · rw [hweight_interval (p := p) (k := last / 64) (Nat.zero_le (last % 64))
      (Nat.le_of_lt (Nat.mod_lt _ (by decide))), Nat.add_zero,
      show 64 * (last / 64) + last % 64 = last by omega, Nat.mul_comm,
      countRange_append _ (by omega) (by omega)]
    intro j hj
    rw [getLsbD_and_nmask, hw _ j hj]
  · rw [Nat.add_zero, show last / 64 * 64 = last by omega]

theorem bitSetCount_eq (b : Bitstr) : bitSetCount b = countRange b.bit 0 b.nbits := by
  have h := count_words (w := b.word) (p := b.bit) (fun k j hj => (bit_word b k j hj).symm)
    0 rfl (Nat.zero_le b.nbits)
  rw [← h]
  simp only [bitSetCount, Nat.sub_zero, Nat.zero_div, Nat.zero_add]
  split <;> rfl

theorem countFrom_eq (b : Bitstr) {bit : Nat} (hbit : bit % 64 = 0) (hle : bit ≤ last) :
    countFrom b bit last = countRange b.bit bit last := by
  rw [← count_words (w := b.word) (p := b.bit) (fun k j hj => (bit_word b k j hj).symm) bit hbit hle]
  simp only [countFrom]
  split <;> rfl

theorem bitSetCountRange_eq (b : Bitstr) {start : Nat} (hstart : start < b.nbits)
    (hle : start ≤ last) :
    bitSetCountRange b start last = countRange b.bit start (min last b.nbits) := by
  obtain ⟨e, he⟩ : ∃ e, e = min last b.nbits := ⟨_, rfl⟩
  have hse : start ≤ e := by omega
  obtain ⟨eow, heow⟩ : ∃ eow, eow = (start + 63) / 64 * 64 := ⟨_, rfl⟩
  have hmod : start % 64 < 64 := Nat.mod_lt _ (by decide)
  simp only [bitSetCountRange, ← he, ← heow]
  split
  · rename_i hfirst
    have hhead : hweight (b.word (start / 64) &&& ~~~ bitNmask start)
        = countRange b.bit start eow := by
      rw [hweight_interval (p := b.bit) (k := start / 64) (Nat.le_of_lt hmod) (Nat.le_refl 64),
        show 64 * (start / 64) + start % 64 = start by omega,
        show 64 * (start / 64) + 64 = eow by omega]
      intro j hj
      rw [BitVec.getLsbD_and, BitVec.getLsbD_not, getLsbD_bitNmask, bit_word b _ j hj, Bool.and_comm]
      by_cases hlt : j < start % 64
      · simp [hlt, Nat.not_le_of_lt hlt]
      · simp [hlt, Nat.le_of_not_lt hlt, hj]
    rw [hhead, countFrom_eq b (by omega) hfirst.2,
      countRange_append _ (Nat.le_of_lt hfirst.1) hfirst.2]
  · split
    · rename_i hshort hpartial
      -- The range ends inside the word it starts in.
      have hrest : countFrom b eow e = 0 := by
        simp only [countFrom, Nat.sub_eq_zero_of_le (show e ≤ eow by omega), Nat.zero_div,
          range_zero, map_nil, sum_nil, Nat.zero_mul, Nat.add_zero]
        rw [if_neg (by omega)]
      rw [hrest, Nat.add_zero, hweight_interval (p := b.bit) (k := start / 64)
          (show start % 64 ≤ e % 64 by omega) (Nat.le_of_lt (Nat.mod_lt _ (by decide))),
        show 64 * (start / 64) + start % 64 = start by omega,
        show 64 * (start / 64) + e % 64 = e by omega]
      intro j hj
      rw [BitVec.getLsbD_and, BitVec.getLsbD_and, BitVec.getLsbD_not, getLsbD_bitNmask,
        getLsbD_bitNmask, bit_word b _ j hj, Bool.and_comm]
      by_cases hlt : j < start % 64
      · simp [hlt, Nat.not_le_of_lt hlt]
      · simp [hlt, Nat.le_of_not_lt hlt, hj]
    · rename_i hshort hpartial
      exact countFrom_eq b (by omega) hse

/-- The bits both bit strings have set. -/
def bothBits (b1 b2 : Bitstr) (i : Nat) : Bool := b1.bit i && b2.bit i

theorem overlapLoop_count (ws : List Word) (count : Nat) :
    overlapLoop true ws count = count + (ws.map hweight).sum := by
  induction ws generalizing count with
  | nil => rfl
  | cons w ws ih =>
    rw [overlapLoop, if_pos rfl, ih, map_cons, sum_cons, Nat.add_assoc]

theorem hweight_eq_zero_iff (w : Word) : hweight w = 0 ↔ w = 0 := by
  rw [hweight, countP_eq_zero, ← not_iff_not]
  change _ ↔ w ≠ 0
  rw [word_ne_zero_iff]
  simp

theorem overlapLoop_any (ws : List Word) (count : Nat) :
    overlapLoop false ws count = if (ws.map hweight).sum ≠ 0 then 1 else count := by
  induction ws generalizing count with
  | nil => rfl
  | cons w ws ih =>
    rw [overlapLoop, if_neg (by decide), ih, map_cons, sum_cons]
    by_cases hw : w = 0
    · rw [if_neg (not_not.mpr hw), (hweight_eq_zero_iff w).mpr hw, Nat.zero_add]
    · have hne : hweight w ≠ 0 := fun h => hw ((hweight_eq_zero_iff w).mp h)
      rw [if_pos hw, if_pos (by omega)]

theorem andedWords_count (b1 b2 : Bitstr) :
    ((andedWords b1 b2).map hweight).sum = countRange (bothBits b1 b2) 0 b1.nbits := by
  have h := count_words (w := fun k => b1.word k &&& b2.word k) (p := bothBits b1 b2)
    (fun k j hj => by rw [BitVec.getLsbD_and, bothBits, bit_word b1 k j hj, bit_word b2 k j hj])
    0 rfl (Nat.zero_le b1.nbits)
  rw [← h, andedWords, map_append, sum_append, map_map]
  simp only [Nat.sub_zero, Nat.zero_div, Nat.zero_add]
  congr 1
  split <;> simp

theorem bitOverlap_eq (b1 b2 : Bitstr) :
    bitOverlap b1 b2 = countRange (bothBits b1 b2) 0 b1.nbits := by
  rw [bitOverlap, overlapLoop_count, Nat.zero_add, andedWords_count]

theorem bitOverlapAny_eq (b1 b2 : Bitstr) :
    bitOverlapAny b1 b2 = if countRange (bothBits b1 b2) 0 b1.nbits ≠ 0 then 1 else 0 := by
  rw [bitOverlapAny, overlapLoop_any, andedWords_count]

/-! ## Comparisons -/

theorem word_eq_word_iff (b1 b2 : Bitstr) (k : Nat) :
    b1.word k = b2.word k ↔ ∀ j, j < 64 → b1.bit (64 * k + j) = b2.bit (64 * k + j) := by
  rw [word_eq_iff]
  exact forall_congr' fun j => imp_congr_right fun hj => by rw [bit_word b1 k j hj, bit_word b2 k j hj]

theorem bitEqual_iff (b1 b2 : Bitstr) : bitEqual b1 b2 = true ↔
    b1.nbits = b2.nbits ∧ ∀ i, i < b1.nbits → b1.bit i = b2.bit i := by
  unfold bitEqual
  by_cases hn : b1.nbits = b2.nbits
  · rw [if_neg (not_not.mpr hn), Bool.and_eq_true, all_eq_true]
    simp only [hn, true_and, mem_range, decide_eq_true_eq]
    have hlast : (if b2.nbits / 64 * 64 < b2.nbits then decide ((b1.word (b2.nbits / 64) ^^^
          b2.word (b2.nbits / 64)) &&& bitNmask b2.nbits = 0) else true) = true ↔
        ∀ j, j < b2.nbits % 64 → b1.bit (64 * (b2.nbits / 64) + j)
          = b2.bit (64 * (b2.nbits / 64) + j) := by
      split
      · rw [decide_eq_true_eq, word_eq_iff]
        constructor
        · intro h j hj
          have hbit := h j (by omega)
          rw [getLsbD_and_nmask, BitVec.getLsbD_xor, getLsbD_zero,
            decide_eq_true ⟨Nat.zero_le j, hj⟩, Bool.true_and] at hbit
          rw [bit_word b1 _ j (by omega), bit_word b2 _ j (by omega)]
          simpa using hbit
        · intro h j hj
          rw [getLsbD_and_nmask, BitVec.getLsbD_xor, getLsbD_zero]
          by_cases hlt : j < b2.nbits % 64
          · rw [← bit_word b1 _ j hj, ← bit_word b2 _ j hj, h j hlt]
            simp
          · simp [hlt]
      · exact ⟨fun _ j hj => by omega, fun _ => rfl⟩
    rw [hlast]
    simp only [word_eq_word_iff]
    constructor
    · rintro ⟨hwhole, hrest⟩ i hi
      by_cases hk : i / 64 < b2.nbits / 64
      · have hbit := hwhole (i / 64) hk (i % 64) (Nat.mod_lt _ (by decide))
        rwa [Nat.div_add_mod] at hbit
      · have hbit := hrest (i % 64) (by omega)
        rwa [show 64 * (b2.nbits / 64) + i % 64 = i by omega] at hbit
    · intro h
      exact ⟨fun k hk j hj => h _ (by omega), fun j hj => h _ (by omega)⟩
  · rw [if_pos hn]
    exact ⟨fun h => absurd h Bool.false_ne_true, fun h => absurd h.1 hn⟩

theorem bitSuperSet_iff (b1 b2 : Bitstr) : bitSuperSet b1 b2 = true ↔
    ∀ i, i < b1.nbits → b1.bit i = true → b2.bit i = true := by
  have hword : ∀ k, k < bitstrWords b1.nbits →
      ((if b1.word k ≠ b1.word k &&& b2.word k then
          if 64 * k + 64 ≤ b1.nbits then false
          else decide (b1.word k &&& bitNmask b1.nbits
            = b1.word k &&& b2.word k &&& bitNmask b1.nbits)
        else true) = true ↔
      ∀ j, j < 64 → 64 * k + j < b1.nbits → b1.bit (64 * k + j) = true →
        b2.bit (64 * k + j) = true) := by
    intro k hk
    have hsub : ∀ j, j < 64 → ((b1.word k).getLsbD j = (b1.word k &&& b2.word k).getLsbD j ↔
        (b1.bit (64 * k + j) = true → b2.bit (64 * k + j) = true)) := by
      intro j hj
      rw [BitVec.getLsbD_and, bit_word b1 k j hj, bit_word b2 k j hj]
      cases (b1.word k).getLsbD j <;> cases (b2.word k).getLsbD j <;> simp
    split
    · rename_i hne
      split
      · rename_i hfull
        refine ⟨fun h => absurd h Bool.false_ne_true, fun h => absurd ?_ hne⟩
        exact (word_eq_iff _ _).mpr fun j hj => (hsub j hj).mpr (h j hj (by omega))
      · rename_i hpartial
        rw [bitstrWords] at hk
        have hlast : ∀ j, j < 64 → (j < b1.nbits % 64 ↔ 64 * k + j < b1.nbits) := by
          intro j hj
          omega
        rw [decide_eq_true_eq, word_eq_iff]
        refine forall_congr' fun j => imp_congr_right fun hj => ?_
        rw [getLsbD_and_nmask, getLsbD_and_nmask, ← hlast j hj]
        by_cases hlt : j < b1.nbits % 64
        · simp only [hlt, Nat.zero_le, and_self, decide_true, Bool.true_and, forall_const]
          exact hsub j hj
        · simp [hlt]
    · rename_i heq
      rw [not_not] at heq
      exact ⟨fun _ j hj _ => (hsub j hj).mp (by rw [← heq]), fun _ => rfl⟩
  rw [bitSuperSet, all_eq_true]
  constructor
  · intro h i hi
    have hk : i / 64 < bitstrWords b1.nbits := by
      rw [bitstrWords]
      omega
    have hbit := (hword _ hk).mp (h _ (List.mem_range.mpr hk)) (i % 64) (Nat.mod_lt _ (by decide))
    rw [Nat.div_add_mod] at hbit
    exact hbit hi
  · intro h k hk
    rw [mem_range] at hk
    exact (hword k hk).mpr fun j _ hlt => h _ hlt

end Slurm.Bitstring
