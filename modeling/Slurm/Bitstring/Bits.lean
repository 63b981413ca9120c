import Slurm.Bitstring.Model

/-!
# What the operations do to each bit

Every operation that changes a bit string gets one lemma that gives bit `i` of the
result from the bits before, for every `i`, valid or not (`bit_bitSet`,
`bit_bitNset`, `bit_combine`, `bit_bitRotate` and so on).  The rest of the
development uses these lemmas and never looks at words again.

The invalid bits are the point of the statements: `bitNot` turns them around,
`bitRealloc` keeps those of the last word it keeps, and the binary operations
leave everything beyond the shorter operand as it was.
-/

namespace Slurm.Bitstring

open List

variable {j i lo hi stop : Nat}

/-! ## Words -/

theorem getLsbD_bitMask (bit : Nat) (hj : j < 64) :
    (bitMask bit).getLsbD j = decide (j = bit % 64) := by
  unfold bitMask
  rw [BitVec.getLsbD_shiftLeft, BitVec.getLsbD_one]
  by_cases h : j = bit % 64
  · subst h
    simp [hj]
  · simp only [h, decide_false]
    by_cases hlt : j < bit % 64
    · simp [hlt]
    · have hne : ¬ j - bit % 64 = 0 := by omega
      simp [hne]

theorem getLsbD_bitNmask (n j : Nat) : (bitNmask n).getLsbD j = decide (j < n % 64) := by
  have hlt : n % 64 < 64 := Nat.mod_lt _ (by decide)
  have hpow : 2 ^ (n % 64) < 2 ^ 64 := Nat.pow_lt_pow_right (by decide) hlt
  have hpos : 0 < 2 ^ (n % 64) := Nat.two_pow_pos _
  have hval : (bitNmask n).toNat = 2 ^ (n % 64) - 1 := by
    unfold bitNmask
    rw [BitVec.toNat_sub, BitVec.toNat_shiftLeft, BitVec.toNat_ofNat, Nat.one_mod_two_pow (by decide),
      Nat.one_shiftLeft, Nat.mod_eq_of_lt hpow]
    omega
  rw [BitVec.getLsbD, hval, Nat.testBit_two_pow_sub_one]

theorem getLsbD_byteMask (i : Nat) (hj : j < 64) :
    (byteMask i).getLsbD j = decide (j / 8 = i % 8) := by
  unfold byteMask
  rw [BitVec.getLsbD_shiftLeft]
  have hff : ∀ m, (0xff#64).getLsbD m = decide (m < 8) := by
    intro m
    rw [BitVec.getLsbD, show (0xff#64).toNat = 2 ^ 8 - 1 from rfl, Nat.testBit_two_pow_sub_one]
  rw [hff]
  simp only [hj, decide_true, Bool.true_and, ← decide_not, ← Bool.decide_and, decide_eq_decide]
  omega

theorem word_eq_iff (w w' : Word) : w = w' ↔ ∀ j, j < 64 → w.getLsbD j = w'.getLsbD j :=
  ⟨fun h _ _ => by rw [h], fun h => BitVec.eq_of_getLsbD_eq fun j hj => h j hj⟩

theorem word_ne_zero_iff (w : Word) : w ≠ 0 ↔ ∃ j, j < 64 ∧ w.getLsbD j = true := by
  constructor
  · intro h
    by_contra hnone
    refine h ((word_eq_iff w 0).mpr fun j hj => ?_)
    by_contra hbit
    exact hnone ⟨j, hj, by simpa using hbit⟩
  · rintro ⟨j, -, hj⟩ rfl
    simp at hj

/-! ## Bits of a bit string -/

/-- Bits beyond the words are clear, in the model. -/
theorem Bitstr.bit_of_le (b : Bitstr) (h : 64 * bitstrWords b.nbits ≤ i) : b.bit i = false := by
  have hlen : b.words.length ≤ i / 64 := by
    rw [b.length_eq]
    omega
  rw [Bitstr.bit, Bitstr.word, getD_eq_default _ _ hlen]
  exact BitVec.getLsbD_zero

variable {b : Bitstr}

theorem word_div_lt (h : i < b.nbits) : i / 64 < b.words.length := by
  rw [b.length_eq, bitstrWords]
  omega

theorem Bitstr.word_withWords (b : Bitstr) (ws : List Word) (h : ws.length = b.words.length)
    (k : Nat) : (b.withWords ws h).word k = ws.getD k 0 := rfl

theorem Bitstr.word_modify (b : Bitstr) (k : Nat) (f : Word → Word) (j : Nat) :
    (b.modify k f).word j = if k = j ∧ j < b.words.length then f (b.word j) else b.word j := by
  rw [Bitstr.modify, Bitstr.word_withWords, Bitstr.word, getD_eq_getElem?_getD,
    getElem?_modify, getD_eq_getElem?_getD]
  by_cases hj : j < b.words.length
  · simp only [getElem?_eq_getElem hj, hj, and_true]
    split <;> simp
  · simp [hj]

/-- A word that is changed bit by bit. -/
theorem Bitstr.bit_modify (b : Bitstr) (k : Nat) (f : Word → Word) (i : Nat)
    (hk : k < b.words.length) : (b.modify k f).bit i
      = if i / 64 = k then (f (b.word k)).getLsbD (i % 64) else b.bit i := by
  rw [Bitstr.bit, Bitstr.word_modify]
  by_cases h : i / 64 = k
  · subst h
    simp [hk]
  · rw [if_neg (fun hi => h hi.1.symm), if_neg h, Bitstr.bit]

@[simp]
theorem bitSet_nbits (b : Bitstr) (i : Nat) : (bitSet b i).nbits = b.nbits := rfl

@[simp]
theorem bitClear_nbits (b : Bitstr) (i : Nat) : (bitClear b i).nbits = b.nbits := rfl

@[simp]
theorem bitNot_nbits (b : Bitstr) : (bitNot b).nbits = b.nbits := rfl

@[simp]
theorem bitCopy_nbits (b : Bitstr) : (bitCopy b).nbits = b.nbits := rfl

theorem bit_bitAlloc (n : Nat) (h : ValidSize n) (i : Nat) : (bitAlloc n h).bit i = false := by
  rw [Bitstr.bit, Bitstr.word]
  simp only [bitAlloc, getD_eq_getElem?_getD, getElem?_replicate]
  split <;> exact BitVec.getLsbD_zero

theorem bitTest_eq (b : Bitstr) (i : Nat) : bitTest b i = b.bit i := by
  have hlt : i % 64 < 64 := Nat.mod_lt _ (by decide)
  rw [bitTest, Bool.eq_iff_iff, decide_eq_true_eq, word_ne_zero_iff]
  constructor
  · rintro ⟨j, hj, hbit⟩
    rw [BitVec.getLsbD_and, getLsbD_bitMask i hj, Bool.and_eq_true, decide_eq_true_eq] at hbit
    rw [Bitstr.bit, ← hbit.2]
    exact hbit.1
  · intro hbit
    refine ⟨i % 64, hlt, ?_⟩
    rw [BitVec.getLsbD_and, getLsbD_bitMask i hlt]
    simpa [Bitstr.bit] using hbit

theorem bit_bitSet (h : i < b.nbits) (j : Nat) :
    (bitSet b i).bit j = (decide (j = i) || b.bit j) := by
  rw [bitSet, Bitstr.bit_modify _ _ _ _ (word_div_lt h), BitVec.getLsbD_or,
    getLsbD_bitMask _ (Nat.mod_lt _ (by decide))]
  split
  · rename_i hw
    rw [Bitstr.bit, hw, Bool.or_comm, decide_eq_decide.mpr]
    omega
  · rename_i hw
    have hne : j ≠ i := fun heq => hw (by rw [heq])
    simp [hne]

theorem bit_bitClear (h : i < b.nbits) (j : Nat) :
    (bitClear b i).bit j = (!decide (j = i) && b.bit j) := by
  have hlt : j % 64 < 64 := Nat.mod_lt _ (by decide)
  rw [bitClear, Bitstr.bit_modify _ _ _ _ (word_div_lt h), BitVec.getLsbD_and, BitVec.getLsbD_not,
    getLsbD_bitMask _ hlt]
  split
  · rename_i hw
    have hiff : (j % 64 = i % 64) ↔ j = i := by omega
    simp only [hlt, decide_true, Bool.true_and, hiff, Bitstr.bit, hw, Bool.and_comm]
  · rename_i hw
    have hne : j ≠ i := fun heq => hw (by rw [heq])
    simp [hne]

theorem bit_bitNot (b : Bitstr) (h : i < 64 * bitstrWords b.nbits) :
    (bitNot b).bit i = !b.bit i := by
  have hlen : i / 64 < b.words.length := by
    rw [b.length_eq]
    omega
  have hlt : i % 64 < 64 := Nat.mod_lt _ (by decide)
  rw [Bitstr.bit, bitNot, Bitstr.word_withWords, Bitstr.bit, Bitstr.word]
  simp only [getD_eq_getElem?_getD, getElem?_map, getElem?_eq_getElem hlen,
    Option.map_some, Option.getD_some, BitVec.getLsbD_not, hlt, decide_true, Bool.true_and]

theorem bit_bitCopy (b : Bitstr) (i : Nat) : (bitCopy b).bit i = b.bit i := by
  have hwords : (bitCopy b).words = b.words := take_of_length_le (Nat.le_of_eq b.length_eq)
  rw [Bitstr.bit, Bitstr.word, hwords]
  rfl

theorem bit_bitCopybits (dest src : Bitstr) (h : src.nbits = dest.nbits) (i : Nat) :
    (bitCopybits dest src h).bit i = src.bit i := rfl

/-- Resizing keeps the bits of the words it keeps, valid or not, and adds clear
words. -/
theorem bit_bitRealloc (b : Bitstr) (n : Nat) (h : ValidSize n) (i : Nat) :
    (bitRealloc b n h).bit i
      = (decide (i < 64 * bitstrWords n) && b.bit i) := by
  rw [Bitstr.bit, Bitstr.bit, Bitstr.word, Bitstr.word]
  simp only [bitRealloc, getD_eq_getElem?_getD, getElem?_append, length_take,
    getElem?_take, getElem?_replicate]
  by_cases hn : i / 64 < bitstrWords n
  · have hi : i < 64 * bitstrWords n := by omega
    by_cases hb : i / 64 < b.words.length
    · have hmin : i / 64 < min (bitstrWords n) b.words.length := by omega
      simp [hmin, hn, hi]
    · have hmin : ¬ i / 64 < min (bitstrWords n) b.words.length := by omega
      rw [if_neg hmin, getElem?_eq_none (Nat.le_of_not_lt hb)]
      split <;> simp
  · have hi : ¬ i < 64 * bitstrWords n := by omega
    have hmin : ¬ i / 64 < min (bitstrWords n) b.words.length := by omega
    have hlen := b.length_eq
    rw [if_neg hmin, if_neg (by omega)]
    simp [hi]

/-! ## Binary operations -/

/-- A binary operation combines the bits both operands have, and leaves the others
as they were. -/
theorem bit_combine {full : Word → Word → Word} {part : Word → Word → Word → Word}
    (g : Bool → Bool → Bool)
    (hfull : ∀ w1 w2 j, j < 64 → (full w1 w2).getLsbD j = g (w1.getLsbD j) (w2.getLsbD j))
    (hpart : ∀ w1 w2 n j, j < 64 → (part w1 w2 (bitNmask n)).getLsbD j
      = if j < n % 64 then g (w1.getLsbD j) (w2.getLsbD j) else w1.getLsbD j)
    (b1 b2 : Bitstr) (i : Nat) :
    (combine full part b1 b2).bit i
      = if i < min b1.nbits b2.nbits then g (b1.bit i) (b2.bit i) else b1.bit i := by
  obtain ⟨cnt, hcnt⟩ : ∃ cnt, cnt = min b1.nbits b2.nbits := ⟨_, rfl⟩
  have hj : i % 64 < 64 := Nat.mod_lt _ (by decide)
  have hlen := b1.length_eq
  have hwhole : ∀ (h : _) (i : Nat), (b1.withWords
      (b1.words.mapIdx fun k w => if k < cnt / 64 then full w (b2.word k) else w) h).word (i / 64)
        = if i / 64 < cnt / 64 then full (b1.word (i / 64)) (b2.word (i / 64))
          else b1.word (i / 64) := by
    intro h i
    rw [Bitstr.word_withWords, getD_eq_getElem?_getD, getElem?_mapIdx]
    by_cases hi : i / 64 < b1.words.length
    · rw [getElem?_eq_getElem hi]
      simp [Bitstr.word, hi]
    · have hle : ¬ i / 64 < cnt / 64 := by
        rw [hlen, bitstrWords] at hi
        omega
      simp [Bitstr.word, hi, hle]
  simp only [combine, ← hcnt]
  by_cases hpartial : cnt / 64 * 64 < cnt
  · rw [if_pos hpartial, Bitstr.bit_modify _ _ _ _ (by
      show cnt / 64 < (b1.words.mapIdx _).length
      rw [length_mapIdx, hlen, bitstrWords]
      omega)]
    by_cases hi : i / 64 = cnt / 64
    · have hsame := hwhole (by rw [length_mapIdx]) cnt
      rw [if_neg (Nat.lt_irrefl _)] at hsame
      rw [if_pos hi, hsame, hpart _ _ _ _ hj, Bitstr.bit, Bitstr.bit, hi]
      have hiff : i % 64 < cnt % 64 ↔ i < cnt := by omega
      simp only [hiff]
    · rw [if_neg hi, Bitstr.bit, hwhole]
      have hiff : i / 64 < cnt / 64 ↔ i < cnt := by omega
      simp only [hiff]
      split
      · rw [hfull _ _ _ hj]
        rfl
      · rfl
  · rw [if_neg hpartial, Bitstr.bit, hwhole]
    have hiff : i / 64 < cnt / 64 ↔ i < cnt := by omega
    simp only [hiff]
    split
    · rw [hfull _ _ _ hj]
      rfl
    · rfl

@[simp]
theorem combine_nbits (full : Word → Word → Word) (part : Word → Word → Word → Word)
    (b1 b2 : Bitstr) : (combine full part b1 b2).nbits = b1.nbits := by
  unfold combine
  dsimp only
  split <;> rfl

theorem bit_bitAnd (b1 b2 : Bitstr) (i : Nat) : (bitAnd b1 b2).bit i
    = if i < min b1.nbits b2.nbits then b1.bit i && b2.bit i else b1.bit i := by
  refine bit_combine (fun x y => x && y) ?_ ?_ b1 b2 i
  · intro w1 w2 j hj
    simp
  · intro w1 w2 n j hj
    simp only [BitVec.getLsbD_and, BitVec.getLsbD_or, BitVec.getLsbD_not, getLsbD_bitNmask, hj,
      decide_true, Bool.true_and]
    split <;> simp [*]

theorem bit_bitAndNot (b1 b2 : Bitstr) (i : Nat) : (bitAndNot b1 b2).bit i
    = if i < min b1.nbits b2.nbits then b1.bit i && !b2.bit i else b1.bit i := by
  refine bit_combine (fun x y => x && !y) ?_ ?_ b1 b2 i
  · intro w1 w2 j hj
    simp [hj]
  · intro w1 w2 n j hj
    simp only [BitVec.getLsbD_and, BitVec.getLsbD_not, getLsbD_bitNmask, hj,
      decide_true, Bool.true_and]
    split <;> simp [*]

theorem bit_bitOr (b1 b2 : Bitstr) (i : Nat) : (bitOr b1 b2).bit i
    = if i < min b1.nbits b2.nbits then b1.bit i || b2.bit i else b1.bit i := by
  refine bit_combine (fun x y => x || y) ?_ ?_ b1 b2 i
  · intro w1 w2 j hj
    simp
  · intro w1 w2 n j hj
    simp only [BitVec.getLsbD_and, BitVec.getLsbD_or, getLsbD_bitNmask]
    split <;> simp [*]

theorem bit_bitOrNot (b1 b2 : Bitstr) (i : Nat) : (bitOrNot b1 b2).bit i
    = if i < min b1.nbits b2.nbits then b1.bit i || !b2.bit i else b1.bit i := by
  refine bit_combine (fun x y => x || !y) ?_ ?_ b1 b2 i
  · intro w1 w2 j hj
    simp [hj]
  · intro w1 w2 n j hj
    simp only [BitVec.getLsbD_or, BitVec.getLsbD_not, getLsbD_bitNmask, hj,
      decide_true, Bool.true_and]
    split <;> simp [*]

/-! ## Ranges -/

/-- `b'` is `b` with the bits from `lo` up to `hi` all equal to `v`. -/
def Assigns (v : Bool) (lo hi : Nat) (b b' : Bitstr) : Prop :=
  b'.nbits = b.nbits ∧ ∀ j, b'.bit j = if lo ≤ j ∧ j < hi then v else b.bit j

theorem Assigns.refl {v : Bool} (h : hi ≤ lo) (b : Bitstr) : Assigns v lo hi b b :=
  ⟨rfl, fun j => by rw [if_neg (by omega)]⟩

theorem Assigns.append {v : Bool} {mid : Nat} {b' b'' : Bitstr} (h : Assigns v lo mid b b')
    (h' : Assigns v mid hi b' b'') (hlo : lo ≤ mid) (hhi : mid ≤ hi) : Assigns v lo hi b b'' := by
  refine ⟨h'.1.trans h.1, fun j => ?_⟩
  rw [h'.2, h.2]
  by_cases hj : lo ≤ j ∧ j < hi
  · rw [if_pos hj]
    split
    · rfl
    · rw [if_pos (by omega)]
  · rw [if_neg hj, if_neg (by omega), if_neg (by omega)]

/-- The same, with the upper part written first. -/
theorem Assigns.append_down {v : Bool} {mid : Nat} {b' b'' : Bitstr} (h : Assigns v mid hi b b')
    (h' : Assigns v lo mid b' b'') (hlo : lo ≤ mid) (hhi : mid ≤ hi) : Assigns v lo hi b b'' := by
  refine ⟨h'.1.trans h.1, fun j => ?_⟩
  rw [h'.2, h.2]
  by_cases hj : lo ≤ j ∧ j < hi
  · rw [if_pos hj]
    split
    · rfl
    · rw [if_pos (by omega)]
  · rw [if_neg hj, if_neg (by omega), if_neg (by omega)]

section Range

variable {one byte : Bitstr → Nat → Bitstr} {v : Bool}

theorem partialFirst_spec (hone : ∀ b i, i < b.nbits → Assigns v i (i + 1) b (one b i))
    (fuel start last : Nat) (b : Bitstr) (hlast : last ≤ b.nbits)
    (hfuel : start % 8 = 0 ∨ 8 ≤ start % 8 + fuel) :
    start ≤ (partialFirst one fuel start last b).1 ∧
      ((partialFirst one fuel start last b).1 = start ∨
        (partialFirst one fuel start last b).1 ≤ last) ∧
      ((partialFirst one fuel start last b).1 % 8 = 0 ∨
        last ≤ (partialFirst one fuel start last b).1) ∧
      Assigns v start (partialFirst one fuel start last b).1 b
        (partialFirst one fuel start last b).2 := by
  induction fuel generalizing start b with
  | zero =>
    have hlt := Nat.mod_lt start (show 8 > 0 by decide)
    exact ⟨Nat.le_refl _, Or.inl rfl, Or.inl (by show start % 8 = 0; omega),
      Assigns.refl (Nat.le_refl _) b⟩
  | succ fuel ih =>
    rw [partialFirst]
    split
    · rename_i hturn
      have hfirst := hone b start (by omega)
      have hbound : last ≤ (one b start).nbits := by rw [hfirst.1]; exact hlast
      obtain ⟨hle, hend, hstop, hrest⟩ := ih (start + 1) (one b start) hbound (by omega)
      refine ⟨by omega, Or.inr ?_, hstop, hfirst.append hrest (Nat.le_succ _) hle⟩
      omega
    · rename_i hturn
      exact ⟨Nat.le_refl _, Or.inl rfl, by show start % 8 = 0 ∨ last ≤ start; omega,
        Assigns.refl (Nat.le_refl _) b⟩

theorem partialLast_spec (hone : ∀ b i, i < b.nbits → Assigns v i (i + 1) b (one b i))
    (fuel start last : Nat) (b : Bitstr) (hlast : last ≤ b.nbits)
    (hfuel : last % 8 ≤ fuel) :
    (partialLast one fuel start last b).1 ≤ last ∧
      ((partialLast one fuel start last b).1 = last ∨
        start ≤ (partialLast one fuel start last b).1) ∧
      ((partialLast one fuel start last b).1 % 8 = 0 ∨
        (partialLast one fuel start last b).1 ≤ start) ∧
      Assigns v (partialLast one fuel start last b).1 last b
        (partialLast one fuel start last b).2 := by
  induction fuel generalizing last b with
  | zero =>
    exact ⟨Nat.le_refl _, Or.inl rfl, Or.inl (by show last % 8 = 0; omega),
      Assigns.refl (Nat.le_refl _) b⟩
  | succ fuel ih =>
    rw [partialLast]
    split
    · rename_i hturn
      have hone' := hone b (last - 1) (by omega)
      rw [Nat.sub_add_cancel (by omega)] at hone'
      have hbound : last - 1 ≤ (one b (last - 1)).nbits := by rw [hone'.1]; omega
      obtain ⟨hle, hend, hstop, hrest⟩ := ih (last - 1) (one b (last - 1)) hbound (by omega)
      refine ⟨by omega, Or.inr (by omega), hstop, hone'.append_down hrest hle (by omega)⟩
    · rename_i hturn
      exact ⟨Nat.le_refl _, Or.inl rfl, by show last % 8 = 0 ∨ last ≤ start; omega,
        Assigns.refl (Nat.le_refl _) b⟩

theorem bytes_spec (hbyte : ∀ b i, 8 * i + 8 ≤ b.nbits → Assigns v (8 * i) (8 * i + 8) b (byte b i))
    (first m : Nat) (b : Bitstr) (hm : 8 * (first + m) ≤ b.nbits) :
    Assigns v (8 * first) (8 * (first + m)) b
      ((List.range m).foldl (fun b k => byte b (first + k)) b) := by
  induction m with
  | zero => exact Assigns.refl (Nat.le_refl _) b
  | succ m ih =>
    rw [range_succ, foldl_append, foldl_cons, foldl_nil]
    have hprev := ih (by omega)
    have hlast := hbyte _ (first + m) (by rw [hprev.1]; omega)
    exact hprev.append hlast (by omega) (by omega)

/-- A range is assigned as a whole. -/
theorem nrange_spec (hone : ∀ b i, i < b.nbits → Assigns v i (i + 1) b (one b i))
    (hbyte : ∀ b i, 8 * i + 8 ≤ b.nbits → Assigns v (8 * i) (8 * i + 8) b (byte b i)) (b : Bitstr)
    (start : Nat) (hstop : stop < b.nbits) :
    Assigns v start (stop + 1) b (nrange one byte b start stop) := by
  obtain ⟨first, hfirst⟩ : ∃ first, first = partialFirst one 8 start (stop + 1) b := ⟨_, rfl⟩
  obtain ⟨last, hlast⟩ : ∃ last, last = partialLast one 8 first.1 (stop + 1) first.2 := ⟨_, rfl⟩
  obtain ⟨hle, hend, hstop1, hassign⟩ := partialFirst_spec hone 8 start (stop + 1) b hstop (by omega)
  rw [← hfirst] at hle hend hstop1 hassign
  obtain ⟨hle', hend', hstop2, hassign'⟩ := partialLast_spec hone 8 first.1 (stop + 1) first.2
    (by rw [hassign.1]; exact hstop) (by omega)
  rw [← hlast] at hle' hend' hstop2 hassign'
  simp only [nrange, ← hfirst, ← hlast]
  split
  · -- Both ends are at byte boundaries.
    have hmid : Assigns v first.1 last.1 last.2 ((List.range ((last.1 - first.1) / 8)).foldl
        (fun b k => byte b (first.1 / 8 + k)) last.2) := by
      have hb := bytes_spec hbyte (first.1 / 8) ((last.1 - first.1) / 8) last.2
        (by rw [hassign'.1, hassign.1]; omega)
      rwa [show 8 * (first.1 / 8) = first.1 by omega,
        show 8 * (first.1 / 8 + (last.1 - first.1) / 8) = last.1 by omega] at hb
    exact hassign.append (hassign'.append_down hmid (by omega) (by omega)) hle (by omega)
  · by_cases hempty : stop + 1 ≤ start
    · have h1 : first.1 = start := by omega
      rw [h1] at hassign hstop2 hend'
      refine ⟨hassign'.1.trans hassign.1, fun j => ?_⟩
      rw [hassign'.2, hassign.2, if_neg (by omega), if_neg (by omega), if_neg (by omega)]
    · have hmeet : last.1 = first.1 := by omega
      rw [hmeet] at hassign'
      exact hassign.append hassign' hle (by omega)

end Range

theorem assigns_bitSet (b : Bitstr) (i : Nat) (h : i < b.nbits) :
    Assigns true i (i + 1) b (bitSet b i) := by
  refine ⟨rfl, fun j => ?_⟩
  rw [bit_bitSet h]
  by_cases hj : j = i
  · rw [if_pos (by omega)]
    simp [hj]
  · rw [if_neg (by omega)]
    simp [hj]

theorem assigns_bitClear (b : Bitstr) (i : Nat) (h : i < b.nbits) :
    Assigns false i (i + 1) b (bitClear b i) := by
  refine ⟨rfl, fun j => ?_⟩
  rw [bit_bitClear h]
  by_cases hj : j = i
  · rw [if_pos (by omega)]
    simp [hj]
  · rw [if_neg (by omega)]
    simp [hj]

theorem byte_word_lt (h : 8 * i + 8 ≤ b.nbits) : i / 8 < b.words.length := by
  rw [b.length_eq, bitstrWords]
  omega

theorem assigns_setByte (b : Bitstr) (i : Nat) (h : 8 * i + 8 ≤ b.nbits) :
    Assigns true (8 * i) (8 * i + 8) b (setByte b i) := by
  refine ⟨rfl, fun j => ?_⟩
  rw [setByte, Bitstr.bit_modify _ _ _ _ (byte_word_lt h), BitVec.getLsbD_or,
    getLsbD_byteMask _ (Nat.mod_lt _ (by decide))]
  by_cases hw : j / 64 = i / 8
  · have hiff : j % 64 / 8 = i % 8 ↔ 8 * i ≤ j ∧ j < 8 * i + 8 := by omega
    rw [if_pos hw, Bitstr.bit, hw]
    simp only [hiff]
    split <;> simp [*]
  · rw [if_neg hw, if_neg (by omega)]

theorem assigns_clearByte (b : Bitstr) (i : Nat) (h : 8 * i + 8 ≤ b.nbits) :
    Assigns false (8 * i) (8 * i + 8) b (clearByte b i) := by
  have hlt : ∀ j, j % 64 < 64 := fun j => Nat.mod_lt _ (by decide)
  refine ⟨rfl, fun j => ?_⟩
  rw [clearByte, Bitstr.bit_modify _ _ _ _ (byte_word_lt h), BitVec.getLsbD_and,
    BitVec.getLsbD_not, getLsbD_byteMask _ (hlt j)]
  by_cases hw : j / 64 = i / 8
  · have hiff : j % 64 / 8 = i % 8 ↔ 8 * i ≤ j ∧ j < 8 * i + 8 := by omega
    rw [if_pos hw, Bitstr.bit, hw]
    simp only [hiff, hlt, decide_true, Bool.true_and]
    split <;> simp [*]
  · rw [if_neg hw, if_neg (by omega)]

theorem bitNset_spec (b : Bitstr) (start : Nat) (h : stop < b.nbits) :
    Assigns true start (stop + 1) b (bitNset b start stop) :=
  nrange_spec assigns_bitSet assigns_setByte b start h

theorem bitNclear_spec (b : Bitstr) (start : Nat) (h : stop < b.nbits) :
    Assigns false start (stop + 1) b (bitNclear b start stop) :=
  nrange_spec assigns_bitClear assigns_clearByte b start h

/-! ## Rotation -/

theorem bit_copyShifted (b : Bitstr) (start : Nat) {len : Nat} (place : Nat → Nat) (new : Bitstr)
    (hplace : ∀ k, k < len → place k < new.nbits) (j : Nat) :
    (copyShifted b start len place new).bit j = true ↔
      new.bit j = true ∨ ∃ k, k < len ∧ b.bit (start + k) = true ∧ place k = j := by
  induction len with
  | zero => simp [copyShifted]
  | succ len ih =>
    have hprev := ih fun k hk => hplace k (Nat.lt_succ_of_lt hk)
    have hstep : copyShifted b start (len + 1) place new
        = if bitTest b (start + len) = true
          then bitSet (copyShifted b start len place new) (place len)
          else copyShifted b start len place new := by
      rw [copyShifted, range_succ, foldl_append]
      rfl
    have hsplit : (∃ k, k < len + 1 ∧ b.bit (start + k) = true ∧ place k = j) ↔
        (∃ k, k < len ∧ b.bit (start + k) = true ∧ place k = j) ∨
          b.bit (start + len) = true ∧ place len = j := by
      constructor
      · rintro ⟨k, hk, hbit, hj⟩
        rcases Nat.lt_succ_iff_lt_or_eq.mp hk with hk | rfl
        · exact Or.inl ⟨k, hk, hbit, hj⟩
        · exact Or.inr ⟨hbit, hj⟩
      · rintro (⟨k, hk, hbit, hj⟩ | ⟨hbit, hj⟩)
        · exact ⟨k, Nat.lt_succ_of_lt hk, hbit, hj⟩
        · exact ⟨len, Nat.lt_succ_self len, hbit, hj⟩
    rw [hstep, hsplit, bitTest_eq]
    split
    · rename_i hbit
      rw [bit_bitSet (by rw [copyShifted_nbits]; exact hplace len (Nat.lt_succ_self len)),
        Bool.or_eq_true, decide_eq_true_eq, hprev]
      constructor
      · rintro (hj | hj | hj)
        · exact Or.inr (Or.inr ⟨hbit, hj.symm⟩)
        · exact Or.inl hj
        · exact Or.inr (Or.inl hj)
      · rintro (hj | hj | ⟨-, hj⟩)
        · exact Or.inr (Or.inl hj)
        · exact Or.inr (Or.inr hj)
        · exact Or.inl hj.symm
    · rename_i hbit
      rw [hprev]
      simp only [hbit, Bool.false_eq_true, false_and, or_false]

/-- The rotation as a remainder. -/
theorem rotation_eq (n : Int) {nbits : Nat} (h : 0 < nbits) :
    (rotation n nbits : Int) = n % nbits := by
  have hpos : 0 < (nbits : Int) := by exact_mod_cast h
  have hnonneg := Int.emod_nonneg n (ne_of_gt hpos)
  have hlt := Int.emod_lt_of_pos n hpos
  unfold rotation
  dsimp only
  rw [Int.tmod_eq_emod]
  by_cases hcase : 0 ≤ n ∨ (nbits : Int) ∣ n
  · rw [if_pos hcase, Nat.cast_zero, Int.sub_zero, if_neg (by omega)]
    omega
  · rw [if_neg hcase, Int.natAbs_natCast, if_pos (by omega)]
    omega

theorem rotation_lt (n : Int) {nbits : Nat} (h : 0 < nbits) : rotation n nbits < nbits := by
  have heq := rotation_eq n h
  have hlt := Int.emod_lt_of_pos n (show 0 < (nbits : Int) by exact_mod_cast h)
  omega

/-- A rotated bit string has bit `j` from `n` places below, around the end. -/
theorem bit_bitRotate (b : Bitstr) (n : Int) (hj : j < b.nbits) :
    (bitRotate b n).bit j = b.bit ((j + b.nbits - rotation n b.nbits) % b.nbits) := by
  have hpos := b.valid.1
  have hr := rotation_lt n hpos
  unfold bitRotate
  split
  · rename_i h0
    have hzero : rotation n b.nbits = 0 := by
      have heq := rotation_eq n hpos
      have hmod : n % (b.nbits : Int) = 0 := by rw [h0, Int.zero_emod]
      omega
    rw [hzero, Nat.sub_zero, Nat.add_mod_right, Nat.mod_eq_of_lt hj]
  · rw [bit_bitCopybits, bitRotateCopy]
    obtain ⟨up, hup⟩ : ∃ up, up = rotation n b.nbits := ⟨_, rfl⟩
    rw [← hup] at hr
    simp only [← hup, Nat.sub_self]
    have hwrap : (if up > 0 then up - 0 else 0) = up := by
      split <;> omega
    rw [hwrap, Bool.eq_iff_iff,
      bit_copyShifted _ _ _ _ (by
        intro k hk
        rw [copyShifted_nbits]
        show k < b.nbits
        omega),
      bit_copyShifted _ _ _ _ (by
        intro k hk
        show k + up < b.nbits
        omega),
      bit_bitAlloc]
    constructor
    · rintro ((h | ⟨k, hk, hbit, rfl⟩) | ⟨k, hk, hbit, rfl⟩)
      · cases h
      · rw [Nat.zero_add] at hbit
        rw [show k + up + b.nbits - up = k + b.nbits by omega, Nat.add_mod_right,
          Nat.mod_eq_of_lt (by omega)]
        exact hbit
      · rw [show k + b.nbits - up = b.nbits - up + k by omega, Nat.mod_eq_of_lt (by omega)]
        exact hbit
    · intro hbit
      by_cases hlow : j < up
      · refine Or.inr ⟨j, hlow, ?_, rfl⟩
        rwa [show j + b.nbits - up = b.nbits - up + j by omega, Nat.mod_eq_of_lt (by omega)] at hbit
      · refine Or.inl (Or.inr ⟨j - up, by omega, ?_, by omega⟩)
        rw [show j + b.nbits - up = (j - up) + b.nbits by omega, Nat.add_mod_right,
          Nat.mod_eq_of_lt (by omega)] at hbit
        rwa [Nat.zero_add]

@[simp]
theorem bitRotate_nbits (b : Bitstr) (n : Int) : (bitRotate b n).nbits = b.nbits := by
  unfold bitRotate
  split <;> rfl

end Slurm.Bitstring
