import Slurm.Bitstring.Observers

/-!
# A bit string is a set

`BitSet` is what a bit string stands for: a size and a set of numbers below it.
`denote` reads the valid bits of a bit string, and leaves out whatever the last
word holds beyond them.

Every function that changes a bit string is an operation on the set, and
`denote_bitX` says so; the one that is not is `bit_realloc`, which is the set
operation exactly when the bits it makes valid were clear (`denote_bitRealloc_iff`).
Every function that looks at a bit string answers from the set, whatever the other
bits are (`observes` and `observes_pair`).
-/

namespace Slurm.Bitstring

open Finset

open Lib.Search (IsFirst IsLast)

variable {i : Nat} {b : Bitstr}

/-! ## Sets below a size -/

/-- A set of numbers below a size. -/
@[ext]
structure BitSet where
  size : Nat
  elems : Finset Nat
  inside : elems ⊆ Finset.range size
  deriving DecidableEq

namespace BitSet

/-- The numbers of a set that are below a size. -/
def within (size : Nat) (s : Finset Nat) : BitSet where
  size := size
  elems := s ∩ Finset.range size
  inside := Finset.inter_subset_right

variable (A B : BitSet)

/-- The numbers below the size that are not in the set. -/
def compl : Finset Nat := Finset.range A.size \ A.elems

def set (bit : Nat) : BitSet := within A.size (insert bit A.elems)

def clear (bit : Nat) : BitSet := within A.size (A.elems.erase bit)

def nset (start stop : Nat) : BitSet := within A.size (A.elems ∪ Finset.Icc start stop)

def nclear (start stop : Nat) : BitSet := within A.size (A.elems \ Finset.Icc start stop)

/-- What lies beyond the size of `B` stays. -/
def and : BitSet := within A.size (A.elems \ B.compl)

def andNot : BitSet := within A.size (A.elems \ B.elems)

def or : BitSet := within A.size (A.elems ∪ B.elems)

def orNot : BitSet := within A.size (A.elems ∪ B.compl)

def not : BitSet := within A.size A.compl

/-- Every number moves up by `n`, around the end. -/
def rotate (n : Int) : BitSet :=
  within A.size (A.elems.image fun i : Nat => ((i + n) % A.size).toNat)

/-- The interval that the set spans. -/
def fillGaps : BitSet :=
  within A.size ((Finset.range A.size).filter fun i =>
    (∃ lo ∈ A.elems, lo ≤ i) ∧ ∃ hi ∈ A.elems, i ≤ hi)

def realloc (size : Nat) : BitSet := within size A.elems

variable {A B}

theorem mem_compl : i ∈ A.compl ↔ i < A.size ∧ i ∉ A.elems := by
  rw [compl, mem_sdiff, Finset.mem_range]

end BitSet

/-- The set of the valid bits that are set. -/
def denote (b : Bitstr) : BitSet where
  size := b.nbits
  elems := (Finset.range b.nbits).filter fun i => b.bit i = true
  inside := Finset.filter_subset _ _

@[simp]
theorem denote_size (b : Bitstr) : (denote b).size = b.nbits := rfl

@[simp]
theorem mem_denote : i ∈ (denote b).elems ↔ i < b.nbits ∧ b.bit i = true := by
  rw [denote, Finset.mem_filter, Finset.mem_range]

theorem denote_eq_iff {n : Nat} {s : Finset Nat} : denote b = BitSet.within n s ↔
    b.nbits = n ∧ ∀ i, i < n → (b.bit i = true ↔ i ∈ s) := by
  constructor
  · intro h
    have hn : b.nbits = n := congrArg BitSet.size h
    refine ⟨hn, fun i hi => ?_⟩
    have hmem : i ∈ (denote b).elems ↔ i ∈ (BitSet.within n s).elems := by rw [h]
    rw [mem_denote, hn, BitSet.within, mem_inter, Finset.mem_range] at hmem
    simpa only [hi, true_and, and_true] using hmem
  · rintro ⟨hn, h⟩
    refine BitSet.ext hn (Finset.ext fun i => ?_)
    rw [mem_denote, hn, BitSet.within, mem_inter, Finset.mem_range, and_comm]
    exact and_congr_left fun hi => h i hi

/-! ## The operations -/

theorem denote_bitAlloc (n : Nat) (h : ValidSize n) :
    denote (bitAlloc n h) = BitSet.within n ∅ :=
  denote_eq_iff.mpr ⟨rfl, fun i _ => by rw [bit_bitAlloc]; simp⟩

theorem denote_bitSet {bit : Nat} (h : bit < b.nbits) :
    denote (bitSet b bit) = (denote b).set bit := by
  refine denote_eq_iff.mpr ⟨rfl, fun i hi => ?_⟩
  rw [denote_size] at hi
  rw [bit_bitSet h, mem_insert, mem_denote, Bool.or_eq_true, decide_eq_true_eq]
  simp only [hi, true_and]

theorem denote_bitClear {bit : Nat} (h : bit < b.nbits) :
    denote (bitClear b bit) = (denote b).clear bit := by
  refine denote_eq_iff.mpr ⟨rfl, fun i hi => ?_⟩
  rw [denote_size] at hi
  rw [bit_bitClear h, mem_erase, mem_denote]
  simp [hi]

theorem denote_bitNset (start : Nat) {stop : Nat} (h : stop < b.nbits) :
    denote (bitNset b start stop) = (denote b).nset start stop := by
  obtain ⟨hn, hbit⟩ := bitNset_spec b start h
  refine denote_eq_iff.mpr ⟨hn, fun i hi => ?_⟩
  rw [denote_size] at hi
  rw [hbit, mem_union, mem_denote, mem_Icc]
  split
  · exact ⟨fun _ => Or.inr (by omega), fun _ => rfl⟩
  · simp only [hi, true_and]
    exact ⟨Or.inl, fun hor => hor.resolve_right (by omega)⟩

theorem denote_bitNclear (start : Nat) {stop : Nat} (h : stop < b.nbits) :
    denote (bitNclear b start stop) = (denote b).nclear start stop := by
  obtain ⟨hn, hbit⟩ := bitNclear_spec b start h
  refine denote_eq_iff.mpr ⟨hn, fun i hi => ?_⟩
  rw [denote_size] at hi
  rw [hbit, mem_sdiff, mem_denote, mem_Icc]
  split
  · exact ⟨fun hf => absurd hf Bool.false_ne_true, fun hand => absurd hand.2 (by omega)⟩
  · simp only [hi, true_and]
    exact ⟨fun hb => ⟨hb, by omega⟩, And.left⟩

/-- The four operations on two bit strings: `f` on the bits both have. -/
theorem denote_combine {b1 b2 : Bitstr} (f : Bool → Bool → Bool) {s : Finset Nat}
    (hn : b.nbits = b1.nbits)
    (hbit : ∀ i, b.bit i = if i < min b1.nbits b2.nbits then f (b1.bit i) (b2.bit i) else b1.bit i)
    (hs : ∀ i, i < b1.nbits → (i ∈ s ↔ if i < b2.nbits then f (b1.bit i) (b2.bit i) = true
      else b1.bit i = true)) : denote b = BitSet.within b1.nbits s := by
  refine denote_eq_iff.mpr ⟨hn, fun i hi => ?_⟩
  rw [hbit, hs i hi]
  by_cases h2 : i < b2.nbits
  · rw [if_pos h2, if_pos (by omega)]
  · rw [if_neg h2, if_neg (by omega)]

theorem denote_bitAnd (b1 b2 : Bitstr) :
    denote (bitAnd b1 b2) = (denote b1).and (denote b2) := by
  refine denote_combine (fun x y => x && y) (combine_nbits _ _ _ _) (bit_bitAnd b1 b2) fun i hi => ?_
  rw [mem_sdiff, BitSet.mem_compl, mem_denote, mem_denote, denote_size]
  by_cases h2 : i < b2.nbits <;> simp [hi, h2]

theorem denote_bitAndNot (b1 b2 : Bitstr) :
    denote (bitAndNot b1 b2) = (denote b1).andNot (denote b2) := by
  refine denote_combine (fun x y => x && !y) (combine_nbits _ _ _ _) (bit_bitAndNot b1 b2) fun i hi => ?_
  rw [mem_sdiff, mem_denote, mem_denote]
  by_cases h2 : i < b2.nbits <;> simp [hi, h2]

theorem denote_bitOr (b1 b2 : Bitstr) :
    denote (bitOr b1 b2) = (denote b1).or (denote b2) := by
  refine denote_combine (fun x y => x || y) (combine_nbits _ _ _ _) (bit_bitOr b1 b2) fun i hi => ?_
  rw [mem_union, mem_denote, mem_denote]
  by_cases h2 : i < b2.nbits <;> simp [hi, h2]

theorem denote_bitOrNot (b1 b2 : Bitstr) :
    denote (bitOrNot b1 b2) = (denote b1).orNot (denote b2) := by
  refine denote_combine (fun x y => x || !y) (combine_nbits _ _ _ _) (bit_bitOrNot b1 b2) fun i hi => ?_
  rw [mem_union, BitSet.mem_compl, mem_denote, mem_denote, denote_size]
  by_cases h2 : i < b2.nbits <;> simp [hi, h2]

theorem nbits_le_words (b : Bitstr) : b.nbits ≤ 64 * bitstrWords b.nbits := by
  rw [bitstrWords]
  omega

theorem denote_bitNot (b : Bitstr) : denote (bitNot b) = (denote b).not := by
  refine denote_eq_iff.mpr ⟨rfl, fun i hi => ?_⟩
  rw [denote_size] at hi
  rw [bit_bitNot b (Nat.lt_of_lt_of_le hi (nbits_le_words b)), BitSet.mem_compl, mem_denote,
    denote_size]
  simp [hi]

theorem denote_bitCopy (b : Bitstr) : denote (bitCopy b) = denote b := by
  refine BitSet.ext rfl (Finset.ext fun i => ?_)
  rw [mem_denote, mem_denote, bit_bitCopy, bitCopy_nbits]

theorem denote_bitCopybits (dest src : Bitstr) (h : src.nbits = dest.nbits) :
    denote (bitCopybits dest src h) = denote src := by
  refine BitSet.ext h.symm (Finset.ext fun i => ?_)
  rw [mem_denote, mem_denote, bit_bitCopybits]
  exact and_congr_left fun _ => by rw [h]; rfl

/-- The place a bit comes from is the one that goes to it. -/
theorem rotate_source (n : Int) {nbits j : Nat} (hi : i < nbits) (hj : j < nbits) :
    ((i + n) % nbits).toNat = j ↔ (j + nbits - rotation n nbits) % nbits = i := by
  have hpos : 0 < nbits := by omega
  have hr := rotation_lt n hpos
  have hmod : ((i : Int) + n) % nbits = ((i : Int) + rotation n nbits) % nbits := by
    rw [rotation_eq n hpos, Int.add_emod_emod]
  rw [hmod]
  obtain ⟨r, hrdef⟩ : ∃ r, r = rotation n nbits := ⟨_, rfl⟩
  rw [← hrdef] at hr ⊢
  have hto : (((i : Int) + r) % nbits).toNat = (i + r) % nbits := by
    rw [← Nat.cast_add, ← Int.natCast_mod, Int.toNat_natCast]
  rw [hto]
  by_cases hwrap : i + r < nbits
  · rw [Nat.mod_eq_of_lt hwrap]
    by_cases hjr : r ≤ j
    · rw [show j + nbits - r = (j - r) + nbits by omega, Nat.add_mod_right,
        Nat.mod_eq_of_lt (by omega)]
      omega
    · rw [Nat.mod_eq_of_lt (show j + nbits - r < nbits by omega)]
      omega
  · rw [show i + r = (i + r - nbits) + nbits by omega, Nat.add_mod_right,
      Nat.mod_eq_of_lt (show i + r - nbits < nbits by omega)]
    by_cases hjr : r ≤ j
    · rw [show j + nbits - r = (j - r) + nbits by omega, Nat.add_mod_right,
        Nat.mod_eq_of_lt (by omega)]
      omega
    · rw [Nat.mod_eq_of_lt (show j + nbits - r < nbits by omega)]
      omega

theorem denote_bitRotate (b : Bitstr) (n : Int) :
    denote (bitRotate b n) = (denote b).rotate n := by
  refine denote_eq_iff.mpr ⟨bitRotate_nbits b n, fun j hj => ?_⟩
  rw [denote_size] at hj
  rw [bit_bitRotate b n hj, mem_image]
  constructor
  · intro hbit
    have hlt := Nat.mod_lt (j + b.nbits - rotation n b.nbits) b.valid.1
    exact ⟨_, mem_denote.mpr ⟨hlt, hbit⟩, (rotate_source n hlt hj).mpr rfl⟩
  · rintro ⟨i, hi, hplace⟩
    rw [mem_denote] at hi
    rw [(rotate_source n hi.1 hj).mp hplace]
    exact hi.2

theorem denote_bitFillGaps (b : Bitstr) : denote (bitFillGaps b) = (denote b).fillGaps := by
  have hfirst := bitFfs_isFirst b
  have hlast := bitFls_isLast b
  have hempty : (∀ i, ¬ (i < b.nbits ∧ b.bit i = true)) → denote b = (denote b).fillGaps := by
    intro hnone
    refine denote_eq_iff.mpr ⟨rfl, fun i hi => ?_⟩
    refine ⟨fun hbit => absurd ⟨hi, hbit⟩ (hnone i), fun hmem => ?_⟩
    obtain ⟨lo, hlo, -⟩ := (Finset.mem_filter.mp hmem).2.1
    exact absurd (mem_denote.mp hlo) (hnone lo)
  unfold bitFillGaps
  cases hffs : bitFfs b with
  | none =>
    rw [hffs] at hfirst
    exact hempty hfirst
  | some first =>
    rw [hffs] at hfirst
    cases hfls : bitFls b with
    | none =>
      rw [hfls] at hlast
      exact hempty hlast
    | some last =>
      rw [hfls] at hlast
      obtain ⟨hset, hmin⟩ := hfirst
      obtain ⟨hset', hmax⟩ := hlast
      dsimp only
      rw [denote_bitNset first hset'.1]
      refine BitSet.ext rfl (Finset.ext fun i => ?_)
      simp only [BitSet.nset, BitSet.fillGaps, BitSet.within, mem_inter, mem_union,
        mem_Icc, Finset.mem_filter, Finset.mem_range, denote_size]
      refine and_congr_left fun hi => ?_
      constructor
      · rintro (hmem | hmem)
        · exact ⟨hi, ⟨i, hmem, Nat.le_refl i⟩, i, hmem, Nat.le_refl i⟩
        · exact ⟨hi, ⟨first, mem_denote.mpr hset, hmem.1⟩, last, mem_denote.mpr hset', hmem.2⟩
      · rintro ⟨-, ⟨lo, hlo, hle⟩, up, hup, hle'⟩
        have hge : first ≤ lo := Nat.le_of_not_lt fun hlt => hmin lo hlt (mem_denote.mp hlo)
        have hge' : up ≤ last := Nat.le_of_not_lt fun hlt => hmax up hlt (mem_denote.mp hup)
        exact Or.inr ⟨by omega, by omega⟩

/-- A new size is the set operation exactly when the bits that become valid without
being new memory were clear. -/
theorem denote_bitRealloc_iff (b : Bitstr) (n : Nat) (h : ValidSize n) :
    denote (bitRealloc b n h) = (denote b).realloc n ↔
      ∀ i, b.nbits ≤ i → i < min n (64 * bitstrWords b.nbits) → b.bit i = false := by
  have hwords := nbits_le_words b
  have hwords' : n ≤ 64 * bitstrWords n := by
    rw [bitstrWords]
    omega
  rw [BitSet.realloc, denote_eq_iff]
  constructor
  · rintro ⟨-, heq⟩ i hlo hhi
    have hbit := heq i (by omega)
    rw [bit_bitRealloc, mem_denote, decide_eq_true (show i < 64 * bitstrWords n by omega),
      Bool.true_and] at hbit
    cases hval : b.bit i with
    | false => rfl
    | true => exact absurd (hbit.mp hval).1 (by omega)
  · intro hclear
    refine ⟨rfl, fun i hi => ?_⟩
    rw [bit_bitRealloc, mem_denote, decide_eq_true (show i < 64 * bitstrWords n by omega),
      Bool.true_and]
    by_cases hold : i < b.nbits
    · simp only [hold, true_and]
    · simp only [hold, false_and, iff_false, Bool.not_eq_true]
      by_cases hlt : i < 64 * bitstrWords b.nbits
      · exact hclear i (by omega) (by omega)
      · exact b.bit_of_le (by omega)

/-! ## What the functions that look at a bit string return -/

theorem countRange_eq_card (p : Nat → Bool) (lo hi : Nat) :
    countRange p lo hi = ((Finset.range hi).filter fun i => lo ≤ i ∧ p i = true).card := by
  have hnodup : ((List.range' lo (hi - lo)).filter p).Nodup := List.Nodup.filter _ List.nodup_range'
  rw [countRange, List.countP_eq_length_filter, ← List.toFinset_card_of_nodup hnodup]
  congr 1
  ext i
  simp only [List.mem_toFinset, List.mem_filter, List.mem_range'_1, Finset.mem_filter,
    Finset.mem_range]
  constructor
  · rintro ⟨hi', hp⟩
    exact ⟨by omega, hi'.1, hp⟩
  · rintro ⟨hi', hlo, hp⟩
    exact ⟨by omega, hp⟩

/-- The answers about one bit string are those the set determines. -/
structure Observes (b : Bitstr) (A : BitSet) : Prop where
  bit_test : ∀ bit, bit < A.size → bitTest b bit = decide (bit ∈ A.elems)
  bit_set_count : bitSetCount b = A.elems.card
  bit_clear_count : bitClearCount b = A.compl.card
  bit_ffs : IsFirst (· ∈ A.elems) (bitFfs b)
  bit_ffs_from_bit : ∀ bit, IsFirst (fun i => bit ≤ i ∧ i ∈ A.elems) (bitFfsFromBit b bit)
  bit_fls : IsLast (· ∈ A.elems) (bitFls b)
  bit_ffc : IsFirst (· ∈ A.compl) (bitFfc b)
  bit_set_count_range : ∀ start last, start < A.size → start ≤ last →
    bitSetCountRange b start last = (A.elems.filter fun i => start ≤ i ∧ i < last).card

/-- The answers about two bit strings, where those of one size are asked for that. -/
structure ObservesPair (b1 b2 : Bitstr) (A B : BitSet) : Prop where
  bit_equal : bitEqual b1 b2 = true ↔ A = B
  bit_super_set : A.size = B.size → (bitSuperSet b1 b2 = true ↔ A.elems ⊆ B.elems)
  bit_overlap : A.size = B.size → bitOverlap b1 b2 = (A.elems ∩ B.elems).card
  bit_overlap_any : A.size = B.size →
    bitOverlapAny b1 b2 = if (A.elems ∩ B.elems).Nonempty then 1 else 0

theorem bitSetCount_eq_card (b : Bitstr) : bitSetCount b = (denote b).elems.card := by
  rw [bitSetCount_eq, countRange_eq_card, denote]
  congr 1
  ext i
  simp

theorem observes (b : Bitstr) : Observes b (denote b) where
  bit_test bit h := by
    rw [denote_size] at h
    rw [bitTest_eq, Bool.eq_iff_iff, decide_eq_true_eq, mem_denote]
    simp only [h, true_and]
  bit_set_count := bitSetCount_eq_card b
  bit_clear_count := by
    rw [bitClearCount, bitSetCount_eq_card, BitSet.compl, card_sdiff_of_subset (denote b).inside,
      card_range, denote_size]
  bit_ffs := (bitFfs_isFirst b).congr fun _ => mem_denote.symm
  bit_ffs_from_bit bit := (bitFfsFromBit_isFirst b bit).congr fun _ =>
    and_congr_right fun _ => mem_denote.symm
  bit_fls := (bitFls_isLast b).congr fun _ => mem_denote.symm
  bit_ffc := (bitFfc_isFirst b).congr fun i => by
    rw [BitSet.mem_compl, mem_denote, denote_size]
    constructor
    · rintro ⟨hi, hbit⟩
      exact ⟨hi, fun h => by rw [hbit] at h; exact Bool.false_ne_true h.2⟩
    · rintro ⟨hi, hbit⟩
      exact ⟨hi, Bool.eq_false_iff.mpr fun h => hbit ⟨hi, h⟩⟩
  bit_set_count_range start last hstart hle := by
    rw [bitSetCountRange_eq b hstart hle, countRange_eq_card, denote, filter_filter]
    congr 1
    ext i
    simp only [Finset.mem_filter, Finset.mem_range]
    constructor
    · rintro ⟨hi, hlo, hbit⟩
      exact ⟨by omega, hbit, hlo, by omega⟩
    · rintro ⟨hi, hbit, hlo, hlast⟩
      exact ⟨by omega, hlo, hbit⟩

theorem countRange_bothBits {b1 b2 : Bitstr} (h : b1.nbits = b2.nbits) :
    countRange (bothBits b1 b2) 0 b1.nbits = ((denote b1).elems ∩ (denote b2).elems).card := by
  rw [countRange_eq_card]
  congr 1
  ext i
  simp only [Finset.mem_filter, Finset.mem_range, mem_inter, mem_denote, bothBits,
    Bool.and_eq_true, Nat.zero_le, true_and, ← h]
  constructor
  · rintro ⟨hi, h1, h2⟩
    exact ⟨⟨hi, h1⟩, hi, h2⟩
  · rintro ⟨⟨hi, h1⟩, -, h2⟩
    exact ⟨hi, h1, h2⟩

theorem observes_pair (b1 b2 : Bitstr) : ObservesPair b1 b2 (denote b1) (denote b2) where
  bit_equal := by
    rw [bitEqual_iff]
    constructor
    · rintro ⟨hn, h⟩
      refine BitSet.ext hn (Finset.ext fun i => ?_)
      rw [mem_denote, mem_denote, ← hn]
      exact and_congr_right fun hi => by rw [h i hi]
    · intro h
      have hn : b1.nbits = b2.nbits := congrArg BitSet.size h
      refine ⟨hn, fun i hi => ?_⟩
      have hmem : i ∈ (denote b1).elems ↔ i ∈ (denote b2).elems := by rw [h]
      rw [mem_denote, mem_denote, ← hn] at hmem
      simp only [hi, true_and] at hmem
      exact Bool.eq_iff_iff.mpr hmem
  bit_super_set h := by
    rw [bitSuperSet_iff, subset_iff]
    simp only [mem_denote]
    rw [denote_size, denote_size] at h
    constructor
    · intro hsub i hi
      exact ⟨by omega, hsub i hi.1 hi.2⟩
    · intro hsub i hi hbit
      exact (hsub ⟨hi, hbit⟩).2
  bit_overlap h := by rw [bitOverlap_eq, countRange_bothBits h]
  bit_overlap_any h := by
    rw [bitOverlapAny_eq, countRange_bothBits h]
    simp only [ne_eq, card_eq_zero, ← nonempty_iff_ne_empty]

end Slurm.Bitstring
