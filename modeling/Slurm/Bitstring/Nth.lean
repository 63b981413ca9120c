import Slurm.Bitstring.Sets

/-!
# The first `n` set bits

* `ffsn`: the position of a set bit of a word, by halving.
* `bitNthSet`, `bitPickFirstn`, `bitPickCnt`, `bitGetBitNum`: the functions.
* `ffsn_spec`, `bitNthSet_spec`, `bitPickCnt_spec`, `bitGetBitNum_spec`: what they return.
* `NthContract`: that they agree; `nthContract_iff` says when.  `bit_pick_firstn` takes the -1 for `n == 0`
  as that of an empty bit string, and leaves everything set.
-/

namespace Slurm.Bitstring

open Lib.Rank

variable {mask : Word} {k fuel i bit : Nat}

/-! ## The functions -/

/-- The loop of `_ffsn`.  `mask` has the bits below `base + size`. -/
def ffsnLoop (w : Word) (n : Nat) : Nat → Word → Nat → Nat → Nat
  | 0, _, _, base => base
  | fuel + 1, mask, size, base =>
    if 0 < size then
      if n > hweight (w &&& mask) then
        ffsnLoop w n fuel (mask ||| (mask <<< (size / 2))) (size / 2) (base + size)
      else ffsnLoop w n fuel (mask >>> (size / 2)) (size / 2) base
    else base

/-- `_ffsn`, with six turns. -/
def ffsn (w : Word) (n : Nat) : Nat := ffsnLoop w n 7 0xFFFFFFFF 32 0

/-- A word without the bits that are not valid. -/
def validWord (b : Bitstr) (bit : Nat) : Word :=
  b.word (bit / 64) &&& if bit / 64 = b.nbits / 64 then bitNmask b.nbits else BitVec.allOnes 64

/-- The loop of `bit_nth_set`, with `last_bit` and `last_count`. -/
def nthSetLoop (b : Bitstr) : Nat → Nat → Nat → Option (Nat × Nat) → Nat × Nat × Option (Nat × Nat)
  | 0, bit, n, last => (bit, n, last)
  | fuel + 1, bit, n, last =>
    if bit < b.nbits then
      let count := hweight (validWord b bit)
      let last := if count > 0 then some (bit, count) else last
      if n ≤ count then (bit, n, last) else nthSetLoop b fuel (bit + 64) (n - count) last
    else (bit, n, last)

/-- `bit_nth_set` -/
def bitNthSet (b : Bitstr) (n : Nat) : Option Nat :=
  if n = 0 then none
  else
    let (bit, n, last) := nthSetLoop b (bitstrWords b.nbits) 0 n none
    last.map fun lc => lc.1 + ffsn (validWord b lc.1) (if lc.1 = bit then n else lc.2)

/-- `bit_pick_firstn` -/
def bitPickFirstn (b : Bitstr) (n : Nat) : Bitstr :=
  match bitNthSet b n with
  | none => b
  | some nthBit => if nthBit + 1 = b.nbits then b else bitNclear b (nthBit + 1) (b.nbits - 1)

/-- The inner loop of `bit_pick_cnt`, through `len` bits. -/
def pickBits (b : Bitstr) (nbits : Nat) : Nat → Nat → Nat → Bitstr → Nat × Bitstr
  | 0, _, count, new => (count, new)
  | len + 1, bit, count, new =>
    if count < nbits then
      if bitTest b bit then pickBits b nbits len (bit + 1) (count + 1) (bitSet new bit)
      else pickBits b nbits len (bit + 1) count new
    else (count, new)

/-- The outer loop, which ends where the inner one does. -/
def pickWords (b : Bitstr) (nbits : Nat) : Nat → Nat → Nat → Bitstr → Nat × Bitstr
  | 0, _, count, new => (count, new)
  | fuel + 1, bit, count, new =>
    if bit < b.nbits ∧ count < nbits then
      if b.word (bit / 64) = 0 then pickWords b nbits fuel (bit + 64) count new
      else
        let newBits := hweight (b.word (bit / 64))
        if count + newBits ≤ nbits ∧ bit + 64 - 1 < b.nbits then
          pickWords b nbits fuel (bit + 64) (count + newBits)
            (new.modify (bit / 64) fun _ => b.word (bit / 64))
        else pickBits b nbits (b.nbits - bit) bit count new
    else (count, new)

/-- `bit_pick_cnt` -/
def bitPickCnt (b : Bitstr) (nbits : Nat) : Option Bitstr :=
  if b.nbits < nbits then none
  else
    let (count, new) := pickWords b nbits (bitstrWords b.nbits) 0 0 (bitAlloc b.nbits b.valid)
    if count < nbits then none else some new

/-- The loop of `bit_get_bit_num`, through `len` bits. -/
def getBitNum (b : Bitstr) (pos : Nat) : Nat → Nat → Nat → Option Nat
  | 0, _, _ => none
  | len + 1, bit, cnt =>
    if bitTest b bit then if cnt = pos then some bit else getBitNum b pos len (bit + 1) (cnt + 1)
    else getBitNum b pos len (bit + 1) cnt

/-- `bit_get_bit_num` -/
def bitGetBitNum (b : Bitstr) (pos : Nat) : Option Nat := getBitNum b pos b.nbits 0 0

/-! ## The contract -/

/-- What is promised of the functions that select set bits. -/
structure NthContract (b : Bitstr) (n : Nat) : Prop where
  firstn : (bitPickFirstn b n).nbits = b.nbits ∧
    IsLowest (denote b).elems n (denote (bitPickFirstn b n)).elems
  cnt : n ≤ bitSetCount b → ∃ new, bitPickCnt b n = some new ∧ bitEqual (bitPickFirstn b n) new = true
  cnt_none : bitSetCount b < n → bitPickCnt b n = none
  nth : 1 ≤ n → n ≤ bitSetCount b → ∃ p, bitNthSet b n = some p ∧ bitGetBitNum b (n - 1) = some p ∧
    ∀ q, q ∈ (denote b).elems ∧ rank (denote b).elems q = n - 1 ↔ q = p

/-! ## In a word -/

variable {b new : Bitstr} {n : Nat}

/-- A mask of the low bits of a word. -/
def IsLowMask (mask : Word) (k : Nat) : Prop := ∀ j, j < 64 → mask.getLsbD j = decide (j < k)

theorem hweight_low {w : Word} (hk : k ≤ 64) (h : IsLowMask mask k) :
    hweight (w &&& mask) = countRange w.getLsbD 0 k := by
  rw [hweight_interval (p := w.getLsbD) (k := 0) (Nat.zero_le k) hk]
  · rw [Nat.mul_zero, Nat.zero_add, Nat.zero_add]
  · intro j hj
    rw [BitVec.getLsbD_and, h j hj, Bool.and_comm, Nat.mul_zero, Nat.zero_add]
    simp

theorem IsLowMask.grow {s : Nat} (h : IsLowMask mask k) (hs : s ≤ k) :
    IsLowMask (mask ||| (mask <<< s)) (k + s) := by
  intro j hj
  rw [BitVec.getLsbD_or, BitVec.getLsbD_shiftLeft, h j hj, decide_eq_true hj, Bool.true_and]
  by_cases hjs : j < s
  · simp only [hjs, decide_true, Bool.not_true, Bool.false_and, Bool.or_false]
    exact decide_eq_decide.mpr (by omega)
  · rw [h (j - s) (by omega)]
    simp only [hjs, decide_false, Bool.not_false, Bool.true_and, ← Bool.decide_or]
    exact decide_eq_decide.mpr (by omega)

theorem IsLowMask.shrink {s : Nat} (h : IsLowMask mask k) (hk : k ≤ 64) (hs : s ≤ k) :
    IsLowMask (mask >>> s) (k - s) := by
  intro j hj
  rw [BitVec.getLsbD_ushiftRight]
  by_cases hjs : s + j < 64
  · rw [h (s + j) hjs]
    exact decide_eq_decide.mpr (by omega)
  · rw [BitVec.getLsbD_of_ge _ _ (by omega), eq_comm, decide_eq_false]
    omega

/-- The set bit is looked for among the `2 ^ k` bits from `base` on, with a mask of the lower half. -/
theorem ffsnLoop_spec (w : Word) (k : Nat) {base : Nat} (hfuel : k < fuel)
    (hmask : 0 < k → IsLowMask mask (base + 2 ^ k / 2)) (hbase : base + 2 ^ k ≤ 64)
    (hlow : countRange w.getLsbD 0 base < n) (hhigh : n ≤ countRange w.getLsbD 0 (base + 2 ^ k)) :
    ∃ r, ffsnLoop w n fuel mask (2 ^ k / 2) base = r ∧ r < 64 ∧ countRange w.getLsbD 0 r < n ∧
      n ≤ countRange w.getLsbD 0 (r + 1) := by
  induction k generalizing fuel base mask with
  | zero =>
    obtain ⟨fuel, rfl⟩ := Nat.exists_eq_succ_of_ne_zero hfuel.ne'
    exact ⟨base, rfl, by omega, hlow, hhigh⟩
  | succ k ih =>
    obtain ⟨fuel, rfl⟩ := Nat.exists_eq_succ_of_ne_zero (Nat.ne_zero_of_lt hfuel)
    have hpow : 2 ^ (k + 1) = 2 ^ k + 2 ^ k := by
      rw [Nat.pow_succ]
      omega
    have hpos := Nat.two_pow_pos k
    have hsize : 2 ^ (k + 1) / 2 = 2 ^ k := by omega
    have hhalf : 0 < k → 2 ^ k / 2 + 2 ^ k / 2 = 2 ^ k := by
      intro hk
      obtain ⟨j, rfl⟩ := Nat.exists_eq_succ_of_ne_zero hk.ne'
      rw [Nat.succ_eq_add_one, Nat.pow_succ]
      omega
    have hmask' := hmask (Nat.succ_pos k)
    rw [hsize] at hmask' ⊢
    rw [ffsnLoop, if_pos hpos, hweight_low (by omega) hmask']
    split
    · rename_i hgt
      apply ih (by omega) _ (by omega) (by omega)
      · rw [show base + 2 ^ k + 2 ^ k = base + 2 ^ (k + 1) from by omega]
        exact hhigh
      · intro hk
        exact hmask'.grow (by omega)
    · rename_i hle
      apply ih (by omega) _ (by omega) hlow (by omega)
      intro hk
      have hshrink := hmask'.shrink (s := 2 ^ k / 2) (by omega) (by omega)
      have hhalf := hhalf hk
      rwa [show base + 2 ^ k - 2 ^ k / 2 = base + 2 ^ k / 2 from by omega] at hshrink

theorem ffsn_spec {w : Word} (hn : 0 < n) (hle : n ≤ countRange w.getLsbD 0 64) :
    ∃ r, ffsn w n = r ∧ r < 64 ∧ countRange w.getLsbD 0 r < n ∧ n ≤ countRange w.getLsbD 0 (r + 1) := by
  have hmask : IsLowMask 0xFFFFFFFF 32 := by
    intro j hj
    have hall : ∀ j < 64, (0xFFFFFFFF : Word).getLsbD j = decide (j < 32) := by decide
    exact hall j hj
  apply ffsnLoop_spec w 6 (by omega) (fun _ => hmask) (by omega) _ hle
  rw [countRange_self _ (Nat.le_refl 0)]
  exact hn

/-! ## In a bit string -/

/-- A bit that is valid and set. -/
def validBit (b : Bitstr) (i : Nat) : Bool := decide (i < b.nbits) && b.bit i

/-- How many bits are set below a position. -/
def setBelow (b : Bitstr) (i : Nat) : Nat := countRange (validBit b) 0 i

theorem mem_denote_iff : i ∈ (denote b).elems ↔ validBit b i = true := by
  rw [mem_denote, validBit, Bool.and_eq_true, decide_eq_true_iff]

theorem setBelow_eq_rank (b : Bitstr) (i : Nat) : setBelow b i = rank (denote b).elems i := by
  rw [setBelow, countRange_eq_card, rank]
  congr 1
  ext j
  simp only [Finset.mem_filter, Finset.mem_range, mem_denote_iff, Nat.zero_le, true_and]
  exact and_comm

theorem setBelow_zero (b : Bitstr) : setBelow b 0 = 0 := countRange_self _ (Nat.le_refl 0)

theorem setBelow_add (b : Bitstr) (i k : Nat) :
    setBelow b (i + k) = setBelow b i + countRange (validBit b) i (i + k) :=
  (countRange_append _ (Nat.zero_le i) (Nat.le_add_right i k)).symm

theorem setBelow_succ (b : Bitstr) (i : Nat) :
    setBelow b (i + 1) = setBelow b i + (validBit b i).toNat := by
  rw [setBelow_add, countRange, Nat.add_sub_cancel_left, List.range'_one, List.countP_singleton]
  cases validBit b i <;> rfl

theorem setBelow_mono (b : Bitstr) {j : Nat} (h : i ≤ j) : setBelow b i ≤ setBelow b j := by
  obtain ⟨k, rfl⟩ := Nat.exists_eq_add_of_le h
  rw [setBelow_add]
  exact Nat.le_add_right _ _

theorem bitSetCount_eq_setBelow (b : Bitstr) : bitSetCount b = setBelow b b.nbits := by
  rw [bitSetCount_eq]
  apply countRange_congr
  intro i _ hi
  rw [validBit, decide_eq_true hi, Bool.true_and]

theorem setBelow_of_le (h : b.nbits ≤ i) : setBelow b i = bitSetCount b := by
  obtain ⟨k, rfl⟩ := Nat.exists_eq_add_of_le h
  rw [bitSetCount_eq_setBelow, setBelow_add, countRange_eq_zero, Nat.add_zero]
  intro j hj _
  rw [validBit, decide_eq_false (by omega), Bool.false_and]

/-- The set bit with `n - 1` set bits below it. -/
theorem validBit_of_setBelow {p : Nat} (hlow : setBelow b p < n) (hhigh : n ≤ setBelow b (p + 1)) :
    validBit b p = true ∧ setBelow b p + 1 = n := by
  rw [setBelow_succ] at hhigh
  cases hp : validBit b p with
  | true =>
    rw [hp, Bool.toNat_true] at hhigh
    exact ⟨rfl, by omega⟩
  | false =>
    rw [hp, Bool.toNat_false] at hhigh
    omega

theorem getLsbD_validWord {j : Nat} (hbit : bit % 64 = 0) (hlt : bit < b.nbits) (hj : j < 64) :
    (validWord b bit).getLsbD j = validBit b (bit + j) := by
  have hword : b.bit (bit + j) = (b.word (bit / 64)).getLsbD j := by
    rw [Bitstr.bit, show (bit + j) / 64 = bit / 64 from by omega, show (bit + j) % 64 = j from by omega]
  rw [validWord, BitVec.getLsbD_and, validBit, hword, Bool.and_comm]
  congr 1
  split
  · rename_i heq
    rw [getLsbD_bitNmask]
    exact decide_eq_decide.mpr (by omega)
  · rename_i hne
    rw [BitVec.getLsbD_allOnes, decide_eq_true hj, eq_comm]
    exact decide_eq_true (by omega)

theorem countRange_validWord (hbit : bit % 64 = 0) (hlt : bit < b.nbits) (hk : k ≤ 64) :
    setBelow b bit + countRange (validWord b bit).getLsbD 0 k = setBelow b (bit + k) := by
  rw [setBelow_add]
  congr 1
  have hshift := countRange_shift (validBit b) bit 0 k
  rw [Nat.add_zero] at hshift
  rw [← hshift]
  apply countRange_congr
  intro j _ hj
  exact getLsbD_validWord hbit hlt (by omega)

theorem hweight_validWord (hbit : bit % 64 = 0) (hlt : bit < b.nbits) :
    setBelow b bit + hweight (validWord b bit) = setBelow b (bit + 64) := by
  rw [← countRange_validWord hbit hlt (Nat.le_refl 64), hweight, countRange, List.range_eq_range']

/-- The `n`-th set bit of a word. -/
theorem ffsn_validWord (hbit : bit % 64 = 0) (hlt : bit < b.nbits) (hn : 0 < n)
    (hle : n ≤ hweight (validWord b bit)) : ∃ p, bit + ffsn (validWord b bit) n = p ∧
      validBit b p = true ∧ setBelow b p + 1 = setBelow b bit + n := by
  have hweight64 : hweight (validWord b bit) = countRange (validWord b bit).getLsbD 0 64 := by
    rw [hweight, countRange, List.range_eq_range']
  obtain ⟨r, hr, hr64, hlow, hhigh⟩ := ffsn_spec hn (hweight64 ▸ hle)
  rw [hr]
  refine ⟨bit + r, rfl, validBit_of_setBelow ?_ ?_⟩
  · rw [← countRange_validWord hbit hlt hr64.le]
    omega
  · have hr' : r + 1 ≤ 64 := hr64
    rw [Nat.add_assoc, ← countRange_validWord hbit hlt hr']
    omega

/-! ## `bit_nth_set` -/

/-- The last word with a set bit among those before `bit`. -/
def LastWord (b : Bitstr) (bit : Nat) : Option (Nat × Nat) → Prop
  | none => setBelow b bit = 0
  | some lc => lc.1 % 64 = 0 ∧ lc.1 < bit ∧ lc.1 < b.nbits ∧ lc.2 = hweight (validWord b lc.1) ∧ 0 < lc.2 ∧
    setBelow b lc.1 + lc.2 = setBelow b bit

/-- Where the loop ends: in the word with the bit, or at the end. -/
structure NthEnd (b : Bitstr) (n : Nat) (r : Nat × Nat × Option (Nat × Nat)) : Prop where
  cases : (r.1 % 64 = 0 ∧ r.1 < b.nbits ∧ (∃ count, r.2.2 = some (r.1, count)) ∧
      setBelow b r.1 + r.2.1 = n ∧ 0 < r.2.1 ∧ r.2.1 ≤ hweight (validWord b r.1)) ∨
    (b.nbits ≤ r.1 ∧ bitSetCount b < n ∧ LastWord b r.1 r.2.2)

theorem nthSetLoop_spec {m : Nat} {last : Option (Nat × Nat)} (hbit : bit % 64 = 0)
    (hfuel : b.nbits ≤ bit + 64 * fuel) (hm : setBelow b bit + m = n) (hpos : 0 < m)
    (hlast : LastWord b bit last) : NthEnd b n (nthSetLoop b fuel bit m last) := by
  have hend : b.nbits ≤ bit → NthEnd b n (bit, m, last) := by
    intro hge
    have hall := setBelow_of_le hge
    exact ⟨Or.inr ⟨hge, by omega, hlast⟩⟩
  induction fuel generalizing bit m last with
  | zero => exact hend (by omega)
  | succ fuel ih =>
    rw [nthSetLoop]
    split
    · rename_i hlt
      have hcount := hweight_validWord hbit hlt
      dsimp only
      split
      · rename_i hle
        rw [if_pos (by omega)]
        exact ⟨Or.inl ⟨hbit, hlt, ⟨_, rfl⟩, hm, hpos, hle⟩⟩
      · rename_i hgt
        have hlast' : LastWord b (bit + 64)
            (if hweight (validWord b bit) > 0 then some (bit, hweight (validWord b bit)) else last) := by
          split
          · rename_i hset
            exact ⟨hbit, by omega, hlt, rfl, hset, hcount⟩
          · rename_i hnone
            have hsame : setBelow b (bit + 64) = setBelow b bit := by omega
            cases last with
            | none => exact hsame.trans hlast
            | some lc =>
              obtain ⟨haligned, hbefore, hrest⟩ := hlast
              rw [LastWord, hsame]
              exact ⟨haligned, by omega, hrest⟩
        apply ih (by omega) (by omega) (by omega) (by omega) hlast'
        intro hge
        have hall := setBelow_of_le hge
        exact ⟨Or.inr ⟨hge, by omega, hlast'⟩⟩
    · rename_i hge
      exact hend (by omega)

/-- `bit_nth_set` returns the set bit with `n - 1` set bits below it, or the last one. -/
theorem bitNthSet_spec (hn : 0 < n) : (bitSetCount b = 0 ∧ bitNthSet b n = none) ∨
    ∃ p, bitNthSet b n = some p ∧ validBit b p = true ∧ setBelow b p + 1 = min n (bitSetCount b) := by
  have hfuel : b.nbits ≤ 0 + 64 * bitstrWords b.nbits := by
    rw [bitstrWords]
    omega
  have hfirst : setBelow b 0 + n = n := by rw [setBelow_zero, Nat.zero_add]
  have hspec := nthSetLoop_spec rfl hfuel hfirst hn (show LastWord b 0 none from setBelow_zero b)
  rw [bitNthSet, if_neg hn.ne']
  generalize nthSetLoop b (bitstrWords b.nbits) 0 n none = r at hspec
  obtain ⟨bit, m, last⟩ := r
  dsimp only
  rcases hspec.cases with ⟨hbit, hlt, ⟨count, hlast⟩, hm, hpos, hle⟩ | ⟨hge, hmany, hlast⟩
  · dsimp only at hbit hlt hlast hm hpos hle
    obtain ⟨p, hp, hset, hbelow⟩ := ffsn_validWord hbit hlt hpos hle
    have htotal := setBelow_mono b (Nat.succ_le_of_lt (Nat.lt_of_lt_of_le (Nat.lt_succ_self p)
      (Nat.succ_le_of_lt (of_decide_eq_true (Bool.and_eq_true_iff.mp hset).1))))
    rw [setBelow_succ, hset, ← bitSetCount_eq_setBelow, Bool.toNat_true] at htotal
    refine Or.inr ⟨p, ?_, hset, by omega⟩
    rw [hlast, Option.map_some, if_pos rfl, hp]
  · dsimp only at hge hlast
    cases last with
    | none =>
      rw [LastWord, setBelow_of_le hge] at hlast
      exact Or.inl ⟨hlast, rfl⟩
    | some lc =>
      obtain ⟨hbit, hbefore, hlt, hcount, hpos, hall⟩ := hlast
      obtain ⟨p, hp, hset, hbelow⟩ := ffsn_validWord hbit hlt hpos hcount.le
      rw [setBelow_of_le hge] at hall
      refine Or.inr ⟨p, ?_, hset, by omega⟩
      rw [Option.map_some, if_neg hbefore.ne, hp]

/-! ## `bit_pick_firstn` -/

theorem bitSetCount_eq_card_elems (b : Bitstr) : bitSetCount b = (denote b).elems.card :=
  bitSetCount_eq_card b

/-- Some bits are kept, and with them the lowest ones. -/
theorem elems_eq_lowest (hnbits : new.nbits = b.nbits)
    (hbit : ∀ i, i < b.nbits → new.bit i = (b.bit i && decide (setBelow b i < n))) :
    (denote new).elems = lowest (denote b).elems n := by
  ext i
  rw [lowest, Finset.mem_filter, mem_denote, mem_denote, hnbits, ← setBelow_eq_rank]
  by_cases hi : i < b.nbits
  · rw [hbit i hi, Bool.and_eq_true, decide_eq_true_iff]
    exact and_assoc.symm
  · exact iff_of_false (fun h => hi h.1) fun h => hi h.1.1

/-- Which bits are left, but for `n == 0`. -/
theorem bitPickFirstn_spec (hn : 0 < n) : (bitPickFirstn b n).nbits = b.nbits ∧
    ∀ i, i < b.nbits → (bitPickFirstn b n).bit i = (b.bit i && decide (setBelow b i < n)) := by
  have hkeep : ∀ i, i < b.nbits → (b.bit i = true → setBelow b i < n) →
      b.bit i = (b.bit i && decide (setBelow b i < n)) := by
    intro i _ hbelow
    cases hi : b.bit i with
    | true => rw [decide_eq_true (hbelow hi), Bool.and_true]
    | false => exact (Bool.false_and _).symm
  rw [bitPickFirstn]
  rcases bitNthSet_spec (b := b) hn with ⟨hempty, hnone⟩ | ⟨p, hp, hset, hbelow⟩
  · rw [hnone]
    refine ⟨rfl, fun i hi => hkeep i hi fun _ => ?_⟩
    have hle := setBelow_mono b hi.le
    rw [← bitSetCount_eq_setBelow, hempty] at hle
    omega
  · have hplt : p < b.nbits := of_decide_eq_true (Bool.and_eq_true_iff.mp hset).1
    -- What is set and not after the bit has few bits below.
    have hfew : ∀ i, i ≤ p → setBelow b i < n := by
      intro i hi
      have hle := setBelow_mono b hi
      omega
    have hmany : ∀ i, i < b.nbits → p < i → b.bit i = true → ¬ setBelow b i < n := by
      intro i hi hpi hbit
      have hle := setBelow_mono b (Nat.succ_le_of_lt hpi)
      rw [setBelow_succ, hset, Bool.toNat_true] at hle
      have hlt := setBelow_mono b (Nat.succ_le_of_lt hi)
      rw [setBelow_succ, validBit, decide_eq_true hi, hbit, ← bitSetCount_eq_setBelow] at hlt
      simp only [Bool.and_self, Bool.toNat_true] at hlt
      omega
    rw [hp]
    dsimp only
    split
    · rename_i hlast
      exact ⟨rfl, fun i hi => hkeep i hi fun _ => hfew i (by omega)⟩
    · rename_i hlast
      obtain ⟨hnbits, hbits⟩ := bitNclear_spec b (p + 1) (show b.nbits - 1 < b.nbits from by omega)
      refine ⟨hnbits, fun i hi => ?_⟩
      rw [hbits i]
      by_cases hpi : i ≤ p
      · rw [if_neg (by omega)]
        exact hkeep i hi fun _ => hfew i hpi
      · rw [if_pos (by omega)]
        cases hbit : b.bit i with
        | true => rw [decide_eq_false (hmany i hi (by omega) hbit), Bool.and_false]
        | false => rfl

theorem bitPickFirstn_isLowest (hn : 0 < n) :
    IsLowest (denote b).elems n (denote (bitPickFirstn b n)).elems := by
  obtain ⟨hnbits, hbit⟩ := bitPickFirstn_spec (b := b) hn
  rw [elems_eq_lowest hnbits hbit]
  exact isLowest_lowest _ n

/-! ## `bit_pick_cnt` -/

/-- The first `n` set bits before `bit` are picked. -/
structure Picked (b : Bitstr) (n bit : Nat) (new : Bitstr) : Prop where
  nbits : new.nbits = b.nbits
  bits : ∀ i, i < b.nbits → new.bit i = (decide (i < bit) && (b.bit i && decide (setBelow b i < n)))

/-- What is picked in the end. -/
structure PickEnd (b : Bitstr) (n : Nat) (r : Nat × Bitstr) : Prop where
  picked : Picked b n b.nbits r.2
  count : r.1 = min n (bitSetCount b)

/-- Where enough is picked, or nothing is left, the rest is not picked. -/
theorem Picked.done {bit : Nat} (h : Picked b n bit new) (hle : setBelow b bit ≤ n)
    (hdone : setBelow b bit = n ∨ b.nbits ≤ bit) : PickEnd b n (setBelow b bit, new) := by
  constructor
  · refine ⟨h.nbits, fun i hi => ?_⟩
    rw [h.bits i hi, decide_eq_true hi, Bool.true_and]
    by_cases hib : i < bit
    · rw [decide_eq_true hib, Bool.true_and]
    · have hmono := setBelow_mono b (Nat.le_of_not_lt hib)
      rw [decide_eq_false hib, Bool.false_and, decide_eq_false (by omega), Bool.and_false]
  · dsimp only
    rcases hdone with heq | hge
    · have hmono := setBelow_mono b (Nat.le_max_left bit b.nbits)
      rw [setBelow_of_le (Nat.le_max_right bit b.nbits)] at hmono
      omega
    · rw [setBelow_of_le hge] at hle ⊢
      omega

theorem Picked.step {bit : Nat} {new' : Bitstr} (h : Picked b n bit new) {k : Nat}
    (hnbits : new'.nbits = new.nbits) (hsame : ∀ i, i < bit ∨ bit + k ≤ i → new'.bit i = new.bit i)
    (hnew : ∀ i, bit ≤ i → i < bit + k → i < b.nbits →
      new'.bit i = (b.bit i && decide (setBelow b i < n))) : Picked b n (bit + k) new' := by
  refine ⟨hnbits.trans h.nbits, fun i hi => ?_⟩
  by_cases hlow : i < bit
  · have hin : i < bit + k := Nat.lt_add_right k hlow
    rw [hsame i (Or.inl hlow), h.bits i hi, decide_eq_true hlow, decide_eq_true hin]
  · by_cases hin : i < bit + k
    · rw [hnew i (by omega) hin hi, decide_eq_true hin, Bool.true_and]
    · rw [hsame i (Or.inr (by omega)), h.bits i hi, decide_eq_false hlow, decide_eq_false hin]

theorem pickBits_spec {len count : Nat} (h : Picked b n bit new) (hlen : b.nbits = bit + len)
    (hcount : count = setBelow b bit) (hle : count ≤ n) :
    PickEnd b n (pickBits b n len bit count new) := by
  induction len generalizing bit count new with
  | zero =>
    rw [hcount] at hle ⊢
    exact h.done hle (Or.inr hlen.le)
  | succ len ih =>
    have hlt : bit < b.nbits := by omega
    have hbelow := setBelow_succ b bit
    rw [validBit, decide_eq_true hlt, Bool.true_and] at hbelow
    rw [pickBits, bitTest_eq]
    split
    · rename_i hfew
      split
      · rename_i hset
        rw [hset, Bool.toNat_true] at hbelow
        have hnew : bit < new.nbits := h.nbits ▸ hlt
        apply ih _ (by omega) (by omega) (by omega)
        apply h.step
        · rfl
        · intro i hi
          rw [bit_bitSet hnew, decide_eq_false (by omega), Bool.false_or]
        · intro i hlo hhi _
          obtain rfl : i = bit := by omega
          rw [bit_bitSet hnew, decide_eq_true rfl, Bool.true_or, hset, decide_eq_true (by omega)]
          rfl
      · rename_i hclear
        have hclear' : b.bit bit = false := Bool.eq_false_iff.mpr hclear
        rw [hclear', Bool.toNat_false] at hbelow
        apply ih _ (by omega) (by omega) hle
        apply h.step
        · rfl
        · exact fun _ _ => rfl
        · intro i hlo hhi hi
          obtain rfl : i = bit := by omega
          rw [h.bits i hi, decide_eq_false (Nat.lt_irrefl i), hclear', Bool.false_and, Bool.false_and]
    · rename_i hmany
      rw [hcount] at hle hmany ⊢
      exact h.done hle (Or.inl (by omega))

/-- The bits of a word that is all valid. -/
theorem validWord_full (hbit : bit % 64 = 0) (hfull : bit + 64 - 1 < b.nbits) :
    validWord b bit = b.word (bit / 64) := by
  rw [validWord, if_neg (by omega), BitVec.and_allOnes]

theorem pickWords_spec {count : Nat} (h : Picked b n bit new) (hbit : bit % 64 = 0)
    (hfuel : b.nbits ≤ bit + 64 * fuel) (hcount : count = setBelow b bit) (hle : count ≤ n) :
    PickEnd b n (pickWords b n fuel bit count new) := by
  induction fuel generalizing bit count new with
  | zero =>
    rw [hcount] at hle ⊢
    exact h.done hle (Or.inr (by omega))
  | succ fuel ih =>
    rw [pickWords]
    split
    · rename_i hmore
      obtain ⟨hlt, hfew⟩ := hmore
      have hword := hweight_validWord hbit hlt
      have hinside : ∀ i, i < bit + 64 → validBit b i = true → setBelow b i + 1 ≤ setBelow b (bit + 64) := by
        intro i hi hset
        have hmono := setBelow_mono b (Nat.succ_le_of_lt hi)
        rwa [setBelow_succ, hset] at hmono
      split
      · rename_i hzero
        have hclear := (word_eq_zero_iff b (bit / 64)).mp hzero
        have hempty : hweight (validWord b bit) = 0 := by
          rw [validWord, hzero, hweight_eq_zero_iff]
          exact BitVec.zero_and
        apply ih _ (by omega) (by omega) (by omega) hle
        apply h.step
        · rfl
        · exact fun _ _ => rfl
        · intro i hlo hhi hi
          rw [h.bits i hi, decide_eq_false (by omega), hclear i (by omega) (by omega), Bool.false_and,
            Bool.false_and]
      · dsimp only
        split
        · rename_i hfull
          obtain ⟨hfits, hfull⟩ := hfull
          rw [validWord_full hbit hfull] at hword
          have hlt' : bit / 64 < new.words.length := by
            have hdiv := word_div_lt (b := new) (i := bit) (h.nbits ▸ hlt)
            exact hdiv
          apply ih _ (by omega) (by omega) (by omega) hfits
          apply h.step
          · rfl
          · intro i hi
            rw [Bitstr.bit_modify _ _ _ _ hlt', if_neg (by omega)]
          · intro i hlo hhi hi
            rw [Bitstr.bit_modify _ _ _ _ hlt', if_pos (by omega)]
            have hbitEq : (b.word (bit / 64)).getLsbD (i % 64) = b.bit i := by
              rw [Bitstr.bit, show i / 64 = bit / 64 from by omega]
            rw [hbitEq]
            cases hset : b.bit i with
            | true =>
              have hbelow := hinside i hhi (by rw [validBit, decide_eq_true hi, hset]; rfl)
              rw [decide_eq_true (by omega)]
              rfl
            | false => rfl
        · exact pickBits_spec h (by omega) hcount hle
    · rename_i hdone
      rw [hcount] at hle hdone ⊢
      exact h.done hle (by omega)

/-- `bit_pick_cnt` makes a bit string with the first `nbits` set bits, if there are as many. -/
theorem bitPickCnt_spec (b : Bitstr) (n : Nat) :
    (bitSetCount b < n → bitPickCnt b n = none) ∧
      (n ≤ bitSetCount b → ∃ new, bitPickCnt b n = some new ∧ Picked b n b.nbits new) := by
  have htotal : bitSetCount b ≤ b.nbits := by
    rw [bitSetCount_eq_card_elems, ← Finset.card_range b.nbits]
    exact Finset.card_le_card (denote b).inside
  have hfuel : b.nbits ≤ 0 + 64 * bitstrWords b.nbits := by
    rw [bitstrWords]
    omega
  have hstart : Picked b n 0 (bitAlloc b.nbits b.valid) := by
    refine ⟨rfl, fun i _ => ?_⟩
    rw [bit_bitAlloc, decide_eq_false (Nat.not_lt_zero i), Bool.false_and]
  have hspec := pickWords_spec hstart rfl hfuel (setBelow_zero b).symm (Nat.zero_le n)
  rw [bitPickCnt]
  generalize pickWords b n (bitstrWords b.nbits) 0 0 (bitAlloc b.nbits b.valid) = r at hspec
  obtain ⟨count, new⟩ := r
  have hcount := hspec.count
  dsimp only at hcount ⊢
  constructor
  · intro hfew
    split
    · rfl
    · rw [if_pos (by omega)]
  · intro hmany
    rw [if_neg (by omega), if_neg (by omega)]
    exact ⟨new, rfl, hspec.picked⟩

/-! ## `bit_get_bit_num` -/

theorem getBitNum_spec {pos len cnt : Nat} (hlen : b.nbits = bit + len)
    (hcnt : cnt = setBelow b bit) (hle : cnt ≤ pos) (hpos : pos < bitSetCount b) :
    ∃ p, getBitNum b pos len bit cnt = some p ∧ validBit b p = true ∧ setBelow b p = pos := by
  induction len generalizing bit cnt with
  | zero =>
    have hall := setBelow_of_le (i := bit) hlen.le
    omega
  | succ len ih =>
    have hlt : bit < b.nbits := by omega
    have hvalid : validBit b bit = b.bit bit := by rw [validBit, decide_eq_true hlt, Bool.true_and]
    have hbelow := setBelow_succ b bit
    rw [hvalid] at hbelow
    rw [getBitNum, bitTest_eq]
    split
    · rename_i hset
      rw [hset, Bool.toNat_true] at hbelow
      split
      · rename_i heq
        exact ⟨bit, rfl, hvalid.trans hset, by omega⟩
      · exact ih (by omega) (by omega) (by omega)
    · rename_i hclear
      rw [Bool.eq_false_iff.mpr hclear, Bool.toNat_false] at hbelow
      exact ih (by omega) (by omega) hle

/-! ## All together -/

/-- A set bit is determined by the number of set bits below it. -/
theorem validBit_unique {p q : Nat} (hp : validBit b p = true) (hq : validBit b q = true)
    (h : setBelow b p = setBelow b q) : p = q := by
  rw [setBelow_eq_rank, setBelow_eq_rank] at h
  exact rank_inj (mem_denote_iff.mpr hp) (mem_denote_iff.mpr hq) h

/-- The selectors agree except that `bit_pick_firstn` keeps everything for `n == 0`. -/
theorem nthContract_iff (b : Bitstr) (n : Nat) : NthContract b n ↔ (n = 0 → bitSetCount b = 0) := by
  constructor
  · rintro h rfl
    have hcard := h.firstn.2.card
    rw [Nat.zero_min, bitPickFirstn] at hcard
    rw [bitSetCount_eq_card_elems]
    exact hcard
  · intro hzero
    have hcnt := bitPickCnt_spec b n
    by_cases hn : n = 0
    · have hempty := hzero hn
      have helems : (denote b).elems = ∅ := Finset.card_eq_zero.mp ((bitSetCount_eq_card_elems b).symm.trans hempty)
      have hkeep : bitPickFirstn b n = b := by rw [hn]; rfl
      refine ⟨⟨by rw [hkeep], ?_⟩, fun hle => ?_, hcnt.1, fun hpos => by omega⟩
      · rw [hkeep, helems]
        exact ⟨Finset.Subset.refl _, by simp, fun i hi => absurd hi (Finset.notMem_empty i)⟩
      · obtain ⟨new, hnew, hpicked⟩ := hcnt.2 hle
        refine ⟨new, hnew, ?_⟩
        rw [bitEqual_iff, hkeep]
        refine ⟨hpicked.nbits.symm, fun i hi => ?_⟩
        have hclear : b.bit i = false := by
          have hnot : i ∉ (denote b).elems := helems ▸ Finset.notMem_empty i
          rw [mem_denote] at hnot
          exact Bool.eq_false_iff.mpr fun hset => hnot ⟨hi, hset⟩
        rw [hpicked.bits i hi, hclear, Bool.false_and, Bool.and_false]
    · have hpos : 0 < n := Nat.pos_of_ne_zero hn
      obtain ⟨hnbits, hbits⟩ := bitPickFirstn_spec (b := b) hpos
      refine ⟨⟨hnbits, bitPickFirstn_isLowest hpos⟩, fun hle => ?_, hcnt.1, fun _ hle => ?_⟩
      · obtain ⟨new, hnew, hpicked⟩ := hcnt.2 hle
        refine ⟨new, hnew, ?_⟩
        rw [bitEqual_iff, hnbits]
        refine ⟨hpicked.nbits.symm, fun i hi => ?_⟩
        rw [hbits i hi, hpicked.bits i hi, decide_eq_true hi, Bool.true_and]
      · obtain ⟨q, hq, hqset, hqbelow⟩ := getBitNum_spec (Nat.zero_add b.nbits).symm
          (setBelow_zero b).symm (Nat.zero_le (n - 1)) (by omega)
        rcases bitNthSet_spec (b := b) hpos with ⟨hnone, -⟩ | ⟨p, hp, hpset, hpbelow⟩
        · omega
        · have hpq : p = q := validBit_unique hpset hqset (by omega)
          refine ⟨p, hp, by rw [hpq]; exact hq, fun r => ?_⟩
          rw [mem_denote_iff, ← setBelow_eq_rank]
          constructor
          · rintro ⟨hr, hrbelow⟩
            exact validBit_unique hr hpset (by omega)
          · rintro rfl
            exact ⟨hpset, by omega⟩

/-- A bit string with its one bit set. -/
def oneBit : Bitstr := bitSet (bitAlloc 1 ⟨by decide, by decide⟩) 0

/-- Nothing is cleared for `n == 0`. -/
theorem nthContract_fails : ¬ NthContract oneBit 0 := by
  intro h
  have hcard := h.firstn.2.card
  rw [show bitPickFirstn oneBit 0 = oneBit from rfl, ← bitSetCount_eq_card_elems, Nat.zero_min] at hcard
  exact absurd hcard (by decide)

end Slurm.Bitstring
