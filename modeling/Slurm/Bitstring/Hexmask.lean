import Slurm.Bitstring.Observers

/-!
# Hexadecimal masks (`bit_fmt_hexmask` and `bit_unfmt_hexmask`)

The text of a bit string has a digit for each four bits, the digit of the first four
last.  Bit strings are lists of their valid bits here, which is all that the two
functions see of them: the digits of a whole word, which the first one looks up byte by
byte, are those of its bits.  Characters are bytes.

* `bitUnfmtHexmask_fmt`: the text of a bit string is read back.
-/

namespace Slurm.Bitstring

open List

/-! ## Writing -/

/-- The number of some bits, the first one the lowest. -/
def nibble : List Bool → Nat
  | [] => 0
  | b :: bs => b.toNat + 2 * nibble bs

/-- The digit, `'0'` to `'9'` and `'A'` to `'F'`. -/
def hexChar (n : Nat) : BitVec 8 := BitVec.ofNat 8 (if n ≤ 9 then n + 48 else n + 55)

/-- The digits, the one of the first four bits first. -/
def hexDigits : List Bool → List (BitVec 8)
  | b0 :: b1 :: b2 :: b3 :: bits => hexChar (nibble [b0, b1, b2, b3]) :: hexDigits bits
  | [] => []
  | bits => [hexChar (nibble bits)]

/-- `bit_fmt_hexmask` -/
def bitFmtHexmask (bits : List Bool) : List (BitVec 8) :=
  if bits = [] then [48, 120, 48] else 48 :: 120 :: (hexDigits bits).reverse

/-! ## Reading -/

/-- The number of a digit, for the characters for which `isxdigit` holds. -/
def hexValue (ch : BitVec 8) : Option Nat :=
  if 48 ≤ ch.toNat ∧ ch.toNat ≤ 57 then some (ch.toNat - 48)
  else if 65 ≤ ch.toNat ∧ ch.toNat ≤ 70 then some (ch.toNat - 55)
  else if 97 ≤ ch.toNat ∧ ch.toNat ≤ 102 then some (ch.toNat - 87)
  else none

/-- How `bit_unfmt_hexmask` ends: with the bits, with -1, or with `bit_index` beyond
what an `int32_t` holds. -/
inductive Unfmt where
  | bits (bits : List Bool)
  | error
  | overflow

/-- The bits of the digit that are set, from `bitIndex` on. -/
def setDigit (current bitIndex : Nat) (bits : List Bool) : List Bool :=
  (List.range 4).foldl
    (fun bits k => if current.testBit k then bits.set (bitIndex + k) true else bits) bits

/-- The loop over the digits, the last one first. -/
def unfmtLoop (bitsize : Nat) : List (BitVec 8) → Nat → List Bool → Unfmt
  | [], _, bits => .bits bits
  | ch :: chars, bitIndex, bits =>
    match hexValue ch with
    | none => .error
    | some current =>
      if ¬ bitIndex + 3 < bitsize ∧ ∃ k < 4, current.testBit k = true ∧ bitsize ≤ bitIndex + k then
        .error
      else if 2 ^ 31 ≤ bitIndex + 4 then .overflow
      else unfmtLoop bitsize chars (bitIndex + 4) (setDigit current bitIndex bits)

/-- The text after `0x`. -/
def skipPrefix : List (BitVec 8) → List (BitVec 8)
  | c0 :: c1 :: str => if c0 = 48 ∧ c1 = 120 then str else c0 :: c1 :: str
  | str => str

/-- `bit_unfmt_hexmask` for a bit string of `bitsize` bits, which it clears. -/
def bitUnfmtHexmask (bitsize : Nat) (str : List (BitVec 8)) : Unfmt :=
  unfmtLoop bitsize (skipPrefix str).reverse 0 (List.replicate bitsize false)

/-! ## Round trip -/

theorem hexValue_hexChar : ∀ n < 16, hexValue (hexChar n) = some n := by decide

theorem nibble_lt (bits : List Bool) : nibble bits < 2 ^ bits.length := by
  induction bits with
  | nil => exact Nat.one_pos
  | cons b bits ih =>
    have hb : b.toNat ≤ 1 := Bool.toNat_le b
    rw [nibble, length_cons, Nat.pow_succ]
    omega

theorem testBit_nibble (bits : List Bool) (k : Nat) :
    (nibble bits).testBit k = bits.getD k false := by
  induction bits generalizing k with
  | nil => rw [nibble, Nat.zero_testBit, getD_nil]
  | cons b bits ih =>
    have hadd : nibble (b :: bits) = Nat.bit b (nibble bits) := by
      rw [nibble, Nat.bit_val, Nat.add_comm]
    rw [hadd]
    cases k with
    | zero => rw [Nat.testBit_bit_zero, getD_cons_zero]
    | succ k => rw [Nat.testBit_bit_succ, ih, getD_cons_succ]

theorem setDigit_append (current : Nat) (done bits : List Bool) :
    setDigit current done.length (done ++ bits) = done ++ setDigit current 0 bits := by
  rw [setDigit, setDigit]
  generalize List.range 4 = ks
  induction ks generalizing bits with
  | nil => rfl
  | cons k ks ih =>
    rw [foldl_cons, foldl_cons, ← ih]
    split
    · rw [set_append_right _ _ (Nat.le_add_right _ _), Nat.add_sub_cancel_left, Nat.zero_add]
    · rfl

/-- The next bits are set in a bit string that is clear. -/
theorem setDigit_nibble {next : List Bool} (hlen : next.length ≤ 4) (m : Nat) :
    setDigit (nibble next) 0 (List.replicate next.length false ++ List.replicate m false) =
      next ++ List.replicate m false := by
  match next, hlen with
  | [], _ => rfl
  | [b0], _ => cases b0 <;> rfl
  | [b0, b1], _ => cases b0 <;> cases b1 <;> rfl
  | [b0, b1, b2], _ => cases b0 <;> cases b1 <;> cases b2 <;> rfl
  | [b0, b1, b2, b3], _ => cases b0 <;> cases b1 <;> cases b2 <;> cases b3 <;> rfl

/-- One digit is read. -/
theorem unfmtLoop_digit {done next rest : List Bool} (hlen : next.length ≤ 4)
    (hshort : done.length + 4 < 2 ^ 31) (chars : List (BitVec 8)) :
    unfmtLoop (done ++ next ++ rest).length (hexChar (nibble next) :: chars) done.length
        (done ++ List.replicate (next.length + rest.length) false) =
      unfmtLoop (done ++ next ++ rest).length chars (done.length + 4)
        (done ++ next ++ List.replicate rest.length false) := by
  have hvalue : nibble next < 16 :=
    (nibble_lt next).trans_le (Nat.pow_le_pow_right (by decide) hlen)
  have hinside : ¬ (¬ done.length + 3 < (done ++ next ++ rest).length ∧
      ∃ k < 4, (nibble next).testBit k = true ∧ (done ++ next ++ rest).length ≤ done.length + k) := by
    rintro ⟨-, k, -, hbit, hle⟩
    rw [testBit_nibble] at hbit
    have hk : k < next.length := by
      by_contra hge
      rw [getD_eq_default _ _ (not_lt.mp hge)] at hbit
      cases hbit
    rw [length_append, length_append] at hle
    omega
  rw [unfmtLoop, hexValue_hexChar _ hvalue]
  dsimp only
  rw [if_neg hinside, if_neg (not_le.mpr hshort), setDigit_append, replicate_add,
    setDigit_nibble hlen, append_assoc done next (List.replicate rest.length false)]

theorem length_le_four {bits : List Bool}
    (h : ∀ b0 b1 b2 b3 rest, bits = b0 :: b1 :: b2 :: b3 :: rest → False) : bits.length ≤ 4 := by
  match bits, h with
  | [], _ => exact Nat.zero_le _
  | [_], _ => exact Nat.le_of_ble_eq_true rfl
  | [_, _], _ => exact Nat.le_of_ble_eq_true rfl
  | [_, _, _], _ => exact Nat.le_of_ble_eq_true rfl
  | _ :: _ :: _ :: _ :: _, h => exact absurd rfl (h _ _ _ _ _)

/-- The digits of the bits that are left are read, where `extra` clear bits come after them. -/
theorem unfmtLoop_hexDigits (done rest : List Bool) (extra : Nat)
    (hshort : (done ++ rest).length + extra + 8 < 2 ^ 31) :
    unfmtLoop ((done ++ rest).length + extra) (hexDigits rest) done.length
        (done ++ List.replicate (rest.length + extra) false) =
      .bits (done ++ rest ++ List.replicate extra false) := by
  induction rest using hexDigits.induct generalizing done with
  | case1 b0 b1 b2 b3 bits ih =>
    have hstep := @unfmtLoop_digit done [b0, b1, b2, b3] (bits ++ List.replicate extra false) (le_refl 4)
      (by rw [length_append] at hshort; omega) (hexDigits bits)
    have hrest := ih (done ++ [b0, b1, b2, b3]) (by simpa using hshort)
    have hlist : done ++ b0 :: b1 :: b2 :: b3 :: bits = done ++ [b0, b1, b2, b3] ++ bits := by
      rw [append_assoc]
      rfl
    have hcount : (b0 :: b1 :: b2 :: b3 :: bits).length + extra =
        [b0, b1, b2, b3].length + (bits ++ List.replicate extra false).length := by
      simp only [length_cons, length_nil, length_append, length_replicate]
      omega
    have hsize : (done ++ [b0, b1, b2, b3] ++ (bits ++ List.replicate extra false)).length =
        (done ++ [b0, b1, b2, b3] ++ bits).length + extra := by
      simp only [length_append, length_replicate]
      omega
    rw [hsize] at hstep
    rw [show (done ++ [b0, b1, b2, b3]).length = done.length + 4 from length_append,
      show bits.length + extra = (bits ++ List.replicate extra false).length by simp] at hrest
    rw [hlist, hexDigits, hcount, hstep]
    exact hrest
  | case2 =>
    rw [hexDigits, unfmtLoop, append_nil, length_nil, Nat.zero_add]
  | case3 bits hshape hne =>
    have hstep := @unfmtLoop_digit done bits (List.replicate extra false) (length_le_four hshape)
      (by rw [length_append] at hshort; omega) []
    have hsize : (done ++ bits ++ List.replicate extra false).length = (done ++ bits).length + extra := by
      rw [length_append, length_replicate]
    have hcount : bits.length + (List.replicate extra false).length = bits.length + extra := by
      rw [length_replicate]
    rw [hsize, hcount, unfmtLoop, length_replicate] at hstep
    rw [hexDigits]
    · exact hstep
    · exact hshape
    · exact hne

theorem skipPrefix_fmt (digits : List (BitVec 8)) : skipPrefix (48 :: 120 :: digits) = digits := by
  rw [skipPrefix, if_pos ⟨rfl, rfl⟩]

/-- The text of a bit string is read back, into one with more bits. -/
theorem bitUnfmtHexmask_fmt_extra {bits : List Bool} {extra : Nat}
    (hshort : bits.length + extra + 8 < 2 ^ 31) :
    bitUnfmtHexmask (bits.length + extra) (bitFmtHexmask bits) =
      .bits (bits ++ List.replicate extra false) := by
  rw [bitUnfmtHexmask, bitFmtHexmask]
  by_cases hnil : bits = []
  · subst hnil
    have hzero := @unfmtLoop_digit [] [] (List.replicate extra false) (Nat.zero_le 4) (by decide) []
    rw [nil_append, nil_append, length_replicate, length_nil, Nat.zero_add,
      nil_append, unfmtLoop] at hzero
    rw [if_pos rfl, length_nil, Nat.zero_add, nil_append]
    exact hzero
  · rw [if_neg hnil, skipPrefix_fmt, reverse_reverse]
    exact unfmtLoop_hexDigits [] bits extra hshort

/-- The text of a bit string is read back. -/
theorem bitUnfmtHexmask_fmt {bits : List Bool} (hshort : bits.length + 8 < 2 ^ 31) :
    bitUnfmtHexmask bits.length (bitFmtHexmask bits) = .bits bits := by
  have h := @bitUnfmtHexmask_fmt_extra bits 0 hshort
  rwa [replicate_zero, append_nil] at h

/-- There is a digit for each four bits. -/
theorem hexDigits_length (bits : List Bool) : (hexDigits bits).length = (bits.length + 3) / 4 := by
  induction bits using hexDigits.induct with
  | case1 b0 b1 b2 b3 bits ih =>
    rw [hexDigits]
    simp only [length_cons]
    omega
  | case2 => rfl
  | case3 bits hshape hne =>
    have hpos : 0 < bits.length := List.length_pos_iff.mpr hne
    have hlen := length_le_four hshape
    rw [hexDigits]
    · rw [length_singleton]
      omega
    · exact hshape
    · exact hne

theorem length_bitFmtHexmask_le (bits : List Bool) :
    (bitFmtHexmask bits).length ≤ 3 + (bits.length + 3) / 4 := by
  rw [bitFmtHexmask]
  split
  · exact Nat.le_add_right 3 _
  · rw [length_cons, length_cons, length_reverse, hexDigits_length]
    omega

/-- The text has no character that ends it. -/
theorem nul_free_fmt (bits : List Bool) : (0 : BitVec 8) ∉ bitFmtHexmask bits := by
  have hchar : ∀ n < 16, (0 : BitVec 8) ≠ hexChar n := by decide
  have hdigits : (0 : BitVec 8) ∉ hexDigits bits := by
    induction bits using hexDigits.induct with
    | case1 b0 b1 b2 b3 bits ih =>
      rw [hexDigits, mem_cons, not_or]
      exact ⟨hchar _ (nibble_lt _), ih⟩
    | case2 => exact not_mem_nil
    | case3 bits hshape hne =>
      rw [hexDigits]
      · rw [mem_singleton]
        apply hchar
        exact (nibble_lt bits).trans_le (Nat.pow_le_pow_right (by decide) (length_le_four hshape))
      · exact hshape
      · exact hne
  rw [bitFmtHexmask]
  split
  · decide
  · rw [mem_cons, mem_cons, mem_reverse]
    rintro (h | h | h)
    · exact absurd h (by decide)
    · exact absurd h (by decide)
    · exact hdigits h

end Slurm.Bitstring

/-!
## Hexadecimal masks of words

`_bit_fmt_hexmask` and `bit_unfmt_hexmask` as they work on the words of a bit string: the first takes
whole words byte by byte from a table and the rest four bits at a time, the second puts a digit into
its word where its four bits are valid and sets bits one by one where they are not.

* `fmtHexmask_eq`: the text is that of the list of bits.
* `unfmtHexmask_eq`: the bits that are read are those that the list is read as.
-/

namespace Slurm.Bitstring

open List

variable {current bitIndex j : Nat} {b : Bitstr}

/-! ## Writing -/

/-- A byte of a word in memory. -/
def byteOf (w : Word) (j : Nat) : Nat := (w.toNat >>> (8 * j)) % 256

/-- `hexmask_lookup`: the two digits of a byte. -/
def hexmaskLookup (idx : Nat) : BitVec 8 × BitVec 8 := (hexChar (idx / 16), hexChar (idx % 16))

/-- The digits of a word, the one of its first four bits first. -/
def wordDigits (w : Word) : List (BitVec 8) :=
  (List.range 8).flatMap fun j => [(hexmaskLookup (byteOf w j)).2, (hexmaskLookup (byteOf w j)).1]

/-- `current` of the four bits from `i` on, of which the first is below `bitsize`. -/
def tailDigit (b : Bitstr) (bitsize i : Nat) : Nat :=
  (bitTest b i).toNat + 2 * (decide (i + 1 < bitsize) && bitTest b (i + 1)).toNat +
    4 * (decide (i + 2 < bitsize) && bitTest b (i + 2)).toNat +
    8 * (decide (i + 3 < bitsize) && bitTest b (i + 3)).toNat

/-- The loop over the bits, which puts the digits into the text from its end on. -/
def fmtLoop (b : Bitstr) (bitsize : Nat) : Nat → Nat → List (BitVec 8)
  | 0, _ => []
  | fuel + 1, i =>
    if i < bitsize then
      if i + 64 ≤ bitsize then wordDigits (b.word (i / 64)) ++ fmtLoop b bitsize fuel (i + 64)
      else hexChar (tailDigit b bitsize i) :: fmtLoop b bitsize fuel (i + 4)
    else []

/-- How many bits are written. -/
def fmtSize (b : Bitstr) (trimOutput : Bool) : Nat :=
  if trimOutput = true then (bitFls b).elim 0 (· + 1) else b.nbits

/-- `_bit_fmt_hexmask` -/
def fmtHexmask (b : Bitstr) (trimOutput : Bool) : List (BitVec 8) :=
  if fmtSize b trimOutput = 0 then [48, 120, 48]
  else 48 :: 120 :: (fmtLoop b (fmtSize b trimOutput) (fmtSize b trimOutput) 0).reverse

/-! ## Reading -/

/-- The bits of a digit are set one by one, as long as they are valid. -/
def slowDigit (current bitIndex : Nat) : List Nat → Bitstr → Bool × Bitstr
  | [], b => (true, b)
  | k :: ks, b =>
    if current.testBit k = true then
      if bitIndex + k < b.nbits then slowDigit current bitIndex ks (bitSet b (bitIndex + k))
      else (false, b)
    else slowDigit current bitIndex ks b

/-- A digit is put into its word where its four bits are valid. -/
def putDigit (current bitIndex : Nat) (b : Bitstr) : Bool × Bitstr :=
  if bitIndex + 3 < b.nbits ∧ bitIndex % 4 = 0 then
    (true, b.modify (bitIndex / 64) (· ||| BitVec.ofNat 64 (current % 16) <<< (bitIndex % 64)))
  else slowDigit current bitIndex [0, 1, 2, 3] b

/-- The loop over the digits, the last one first, which is nothing where `bit_index` overflows. -/
def wordLoop : List (BitVec 8) → Nat → Bitstr → Option (Int × Bitstr)
  | [], _, b => some (0, b)
  | ch :: chars, bitIndex, b =>
    match hexValue ch with
    | none => some (-1, b)
    | some current =>
      if (putDigit current bitIndex b).1 = false then some (-1, (putDigit current bitIndex b).2)
      else if 2 ^ 31 ≤ bitIndex + 4 then none
      else wordLoop chars (bitIndex + 4) (putDigit current bitIndex b).2

/-- `bit_unfmt_hexmask` -/
def unfmtHexmask (b : Bitstr) (str : List (BitVec 8)) : Option (Int × Bitstr) :=
  wordLoop (skipPrefix str).reverse 0 (bitNclear b 0 (b.nbits - 1))

/-! ## The digits -/

/-- The first bits of a bit string. -/
def bitsOf (b : Bitstr) (n : Nat) : List Bool := (List.range n).map b.bit

theorem nibble_four (b0 b1 b2 b3 : Bool) :
    nibble [b0, b1, b2, b3] = b0.toNat + 2 * b1.toNat + 4 * b2.toNat + 8 * b3.toNat := by
  rw [nibble, nibble, nibble, nibble, nibble]
  omega

/-- The digit of four bits of a word. -/
theorem nibble_word (w : Word) (k : Nat) :
    nibble [w.getLsbD k, w.getLsbD (k + 1), w.getLsbD (k + 2), w.getLsbD (k + 3)] =
      (w.toNat >>> k) % 16 := by
  apply Nat.eq_of_testBit_eq
  intro i
  rw [testBit_nibble, show 16 = 2 ^ 4 from rfl, Nat.testBit_mod_two_pow, Nat.testBit_shiftRight]
  match i with
  | 0 => rfl
  | 1 => rfl
  | 2 => rfl
  | 3 => rfl
  | i + 4 => exact (decide_eq_false (Nat.not_lt.mpr (Nat.le_add_left 4 i)) ▸ rfl)

theorem hexDigits_append {m : Nat} {xs : List Bool} (h : xs.length = 4 * m) (ys : List Bool) :
    hexDigits (xs ++ ys) = hexDigits xs ++ hexDigits ys := by
  induction m generalizing xs with
  | zero =>
    rw [eq_nil_of_length_eq_zero h]
    rfl
  | succ m ih =>
    match xs, h with
    | b0 :: b1 :: b2 :: b3 :: xs, h =>
      have hlen : xs.length = 4 * m := by
        simp only [length_cons] at h
        omega
      rw [cons_append, cons_append, cons_append, cons_append, hexDigits, hexDigits,
        ih hlen, cons_append]

/-- The digits of some bits, four for each. -/
theorem hexDigits_range (f : Nat → Bool) (i m : Nat) :
    hexDigits ((List.range' i (4 * m)).map f) = (List.range m).map fun k =>
      hexChar (nibble [f (i + 4 * k), f (i + 4 * k + 1), f (i + 4 * k + 2), f (i + 4 * k + 3)]) := by
  induction m generalizing i with
  | zero => rfl
  | succ m ih =>
    have hrange : List.range' i (4 * (m + 1)) =
        i :: (i + 1) :: (i + 2) :: (i + 3) :: List.range' (i + 4) (4 * m) := by
      rw [Nat.mul_succ, range'_succ, range'_succ, range'_succ, range'_succ]
    rw [hrange, map_cons, map_cons, map_cons, map_cons, hexDigits, ih,
      range_succ_eq_map, map_cons, map_map]
    congr 1
    apply map_congr_left
    intro k _
    have hk : i + 4 + 4 * k = i + 4 * (k + 1) := by omega
    show _ = hexChar (nibble [f (i + 4 * (k + 1)), f (i + 4 * (k + 1) + 1), f (i + 4 * (k + 1) + 2),
      f (i + 4 * (k + 1) + 3)])
    rw [hk]

theorem flatMap_pair {α : Type} (g : Nat → α) (n : Nat) :
    (List.range n).flatMap (fun j => [g (2 * j), g (2 * j + 1)]) = (List.range (2 * n)).map g := by
  induction n with
  | zero => rfl
  | succ n ih =>
    rw [range_succ, flatMap_append, ih, Nat.mul_succ, range_succ, range_succ,
      map_append, map_append, append_assoc]
    rfl

/-- The table has the digits of the bits of a word. -/
theorem wordDigits_eq (w : Word) : wordDigits w = hexDigits ((List.range 64).map w.getLsbD) := by
  have hbyte (j : Nat) : [(hexmaskLookup (byteOf w j)).2, (hexmaskLookup (byteOf w j)).1] =
      [hexChar ((w.toNat >>> (4 * (2 * j))) % 16), hexChar ((w.toNat >>> (4 * (2 * j + 1))) % 16)] := by
    have hlow : byteOf w j % 16 = (w.toNat >>> (4 * (2 * j))) % 16 := by
      rw [byteOf, Nat.mod_mod_of_dvd _ (by decide), show 8 * j = 4 * (2 * j) by omega]
    have hhigh : byteOf w j / 16 = (w.toNat >>> (4 * (2 * j + 1))) % 16 := by
      rw [byteOf, show 4 * (2 * j + 1) = 8 * j + 4 by omega, Nat.shiftRight_add,
        Nat.shiftRight_eq_div_pow _ 4]
      omega
    rw [hexmaskLookup, hlow, hhigh]
  have hrange : List.range 64 = List.range' 0 (4 * 16) := range_eq_range'
  rw [wordDigits, flatMap_congr fun j _ => hbyte j,
    flatMap_pair (fun k => hexChar ((w.toNat >>> (4 * k)) % 16)), hrange, hexDigits_range]
  apply map_congr_left
  intro k _
  rw [Nat.zero_add, nibble_word]

theorem tailDigit_eq (b : Bitstr) (bitsize i : Nat) : tailDigit b bitsize i =
    nibble [b.bit i, decide (i + 1 < bitsize) && b.bit (i + 1), decide (i + 2 < bitsize) && b.bit (i + 2),
      decide (i + 3 < bitsize) && b.bit (i + 3)] := by
  rw [nibble_four, tailDigit, bitTest_eq, bitTest_eq, bitTest_eq, bitTest_eq]

/-- The digit of the last bits, of which there are `n`. -/
theorem hexDigits_tail (b : Bitstr) (i n : Nat) (hn : 0 < n) :
    hexDigits ((List.range' i n).map b.bit) =
      hexChar (tailDigit b (i + n) i) :: hexDigits ((List.range' (i + 4) (n - 4)).map b.bit) := by
  rw [tailDigit_eq]
  match n, hn with
  | 1, _ => simp [range'_succ, hexDigits, nibble]
  | 2, _ => simp [range'_succ, hexDigits, nibble]
  | 3, _ => simp [range'_succ, hexDigits, nibble]
  | n + 4, _ =>
    rw [range'_succ, range'_succ, range'_succ, range'_succ, map_cons,
      map_cons, map_cons, map_cons, hexDigits, decide_eq_true (by omega),
      decide_eq_true (by omega), decide_eq_true (by omega), Bool.true_and, Bool.true_and, Bool.true_and,
      Nat.add_sub_cancel]

theorem bits_word (b : Bitstr) (k : Nat) :
    (List.range' (64 * k) 64).map b.bit = (List.range 64).map (b.word k).getLsbD := by
  rw [range'_eq_map_range, map_map]
  apply map_congr_left
  intro j hj
  exact bit_word b k j (List.mem_range.mp hj)

/-- The digits are those of the bits. -/
theorem fmtLoop_eq (b : Bitstr) {bitsize fuel i : Nat} (hfuel : bitsize ≤ i + fuel)
    (hplace : i % 64 = 0 ∨ bitsize < i + 64) :
    fmtLoop b bitsize fuel i = hexDigits ((List.range' i (bitsize - i)).map b.bit) := by
  induction fuel generalizing i with
  | zero =>
    rw [Nat.sub_eq_zero_of_le (show bitsize ≤ i from hfuel)]
    rfl
  | succ fuel ih =>
    rw [fmtLoop]
    split
    · rename_i hlt
      split
      · rename_i hword
        have haligned : i = 64 * (i / 64) := by omega
        have hsplit : List.range' i (bitsize - i) =
            List.range' (64 * (i / 64)) 64 ++ List.range' (i + 64) (bitsize - (i + 64)) := by
          rw [← haligned, range'_append_1]
          congr 1
          omega
        rw [ih (by omega) (by omega), hsplit, map_append, bits_word,
          @hexDigits_append 16 _ (by rw [length_map, length_range]), wordDigits_eq]
      · rename_i hword
        rw [ih (by omega) (by omega), hexDigits_tail b i (bitsize - i) (by omega),
          Nat.add_sub_cancel' hlt.le, Nat.sub_sub]
    · rw [Nat.sub_eq_zero_of_le (by omega)]
      rfl

/-- The text is that of the bits that are written. -/
theorem fmtHexmask_eq (b : Bitstr) (trimOutput : Bool) :
    fmtHexmask b trimOutput = bitFmtHexmask (bitsOf b (fmtSize b trimOutput)) := by
  rw [fmtHexmask, bitFmtHexmask, bitsOf]
  by_cases hzero : fmtSize b trimOutput = 0
  · rw [if_pos hzero, if_pos (by rw [hzero]; rfl)]
  · rw [if_neg hzero, if_neg (by simpa using hzero), fmtLoop_eq b (by omega) (.inl rfl),
      range_eq_range', Nat.sub_zero]

/-! ## The bits -/

/-- The bits of a digit are added to those of a bit string. -/
def Puts (current bitIndex : Nat) (b b' : Bitstr) : Prop :=
  b'.nbits = b.nbits ∧ ∀ j, j < b.nbits →
    b'.bit j = (b.bit j || (decide (bitIndex ≤ j) && current.testBit (j - bitIndex)))

theorem slowDigit_spec (ks : List Nat)
    (h : ∀ k ∈ ks, current.testBit k = true → bitIndex + k < b.nbits) :
    (slowDigit current bitIndex ks b).1 = true ∧ (slowDigit current bitIndex ks b).2.nbits = b.nbits ∧
      ∀ j, (slowDigit current bitIndex ks b).2.bit j =
        (b.bit j || decide (∃ k ∈ ks, j = bitIndex + k ∧ current.testBit k = true)) := by
  induction ks generalizing b with
  | nil => simp [slowDigit]
  | cons k ks ih =>
    have hrest : ∀ k ∈ ks, current.testBit k = true → bitIndex + k < b.nbits :=
      fun k' hk' => h k' (mem_cons_of_mem k hk')
    rw [slowDigit]
    split
    · rename_i hbit
      have hlt := h k mem_cons_self hbit
      obtain ⟨hok, hnbits, hbits⟩ := @ih (bitSet b (bitIndex + k)) (by rwa [bitSet_nbits])
      rw [if_pos hlt]
      refine ⟨hok, hnbits, fun j => ?_⟩
      rw [hbits, bit_bitSet hlt, Bool.eq_iff_iff]
      simp only [Bool.or_eq_true, decide_eq_true_eq, exists_mem_cons_iff, hbit, and_true]
      grind
    · rename_i hbit
      obtain ⟨hok, hnbits, hbits⟩ := ih hrest
      refine ⟨hok, hnbits, fun j => ?_⟩
      rw [hbits, Bool.eq_iff_iff]
      simp only [Bool.or_eq_true, decide_eq_true_eq, exists_mem_cons_iff, hbit]
      grind

theorem testBit_digit (h : current < 16) {k : Nat} (hk : 4 ≤ k) : current.testBit k = false :=
  Nat.testBit_lt_two_pow (h.trans_le (show 2 ^ 4 ≤ 2 ^ k from Nat.pow_le_pow_right (by decide) hk))

/-- The bits of a digit, among the places of four bits. -/
theorem exists_digit_iff (hcurrent : current < 16) {ks : List Nat} (hks : ∀ k, k < 4 ↔ k ∈ ks)
    (bitIndex j : Nat) :
    decide (∃ k ∈ ks, j = bitIndex + k ∧ current.testBit k = true) =
      (decide (bitIndex ≤ j) && current.testBit (j - bitIndex)) := by
  rw [Bool.eq_iff_iff, Bool.and_eq_true, decide_eq_true_iff, decide_eq_true_iff]
  constructor
  · rintro ⟨k, -, rfl, hbit⟩
    exact ⟨Nat.le_add_right _ _, by rwa [Nat.add_sub_cancel_left]⟩
  · rintro ⟨hle, hbit⟩
    have hlt : j - bitIndex < 4 := by
      by_contra hge
      rw [testBit_digit hcurrent (by omega)] at hbit
      cases hbit
    exact ⟨j - bitIndex, (hks _).mp hlt, by omega, hbit⟩

/-- The digit in its word. -/
theorem puts_word (hcurrent : current < 16) (hfits : bitIndex + 3 < b.nbits)
    (haligned : bitIndex % 4 = 0) :
    Puts current bitIndex b
      (b.modify (bitIndex / 64) (· ||| BitVec.ofNat 64 (current % 16) <<< (bitIndex % 64))) := by
  refine ⟨rfl, fun j hj => ?_⟩
  have hword : bitIndex < b.nbits := by omega
  rw [Bitstr.bit_modify _ _ _ _ (word_div_lt hword)]
  split
  · rename_i heq
    have hmod : current % 16 = current := Nat.mod_eq_of_lt hcurrent
    rw [BitVec.getLsbD_or, BitVec.getLsbD_shiftLeft, BitVec.getLsbD_ofNat, ← heq, ← Bitstr.bit, hmod,
      decide_eq_true (Nat.mod_lt j (by decide)), Bool.true_and]
    by_cases hle : bitIndex ≤ j
    · have hsub : j % 64 - bitIndex % 64 = j - bitIndex := by omega
      rw [hsub, decide_eq_false (show ¬ j % 64 < bitIndex % 64 by omega), decide_eq_true hle,
        decide_eq_true (show j - bitIndex < 64 by omega)]
      rfl
    · rw [decide_eq_true (show j % 64 < bitIndex % 64 by omega), decide_eq_false hle]
      rfl
  · rename_i hne
    by_cases hle : bitIndex ≤ j
    · rw [testBit_digit hcurrent (show 4 ≤ j - bitIndex by omega), Bool.and_false, Bool.or_false]
    · rw [decide_eq_false hle, Bool.false_and, Bool.or_false]

/-- A digit is put where it does not go beyond the valid bits. -/
theorem putDigit_spec (hcurrent : current < 16) (h : ¬ (¬ bitIndex + 3 < b.nbits ∧
      ∃ k < 4, current.testBit k = true ∧ b.nbits ≤ bitIndex + k)) :
    (putDigit current bitIndex b).1 = true ∧ Puts current bitIndex b (putDigit current bitIndex b).2 := by
  rw [putDigit]
  split
  · rename_i hfits
    exact ⟨rfl, puts_word hcurrent hfits.1 hfits.2⟩
  · have hks : ∀ k, k < 4 ↔ k ∈ [0, 1, 2, 3] := by
      intro k
      simp only [mem_cons, not_mem_nil, or_false]
      omega
    have hvalid : ∀ k ∈ [0, 1, 2, 3], current.testBit k = true → bitIndex + k < b.nbits := by
      intro k hk hbit
      have hlt := (hks k).mpr hk
      by_contra hge
      exact h ⟨by omega, k, hlt, hbit, by omega⟩
    obtain ⟨hok, hnbits, hbits⟩ := slowDigit_spec [0, 1, 2, 3] hvalid
    refine ⟨hok, hnbits, fun j _ => ?_⟩
    rw [hbits, exists_digit_iff hcurrent hks]

/-! ## The list of bits -/

@[simp]
theorem length_bitsOf (b : Bitstr) (n : Nat) : (bitsOf b n).length = n := by
  rw [bitsOf, length_map, length_range]

theorem getD_bitsOf (b : Bitstr) {n : Nat} (h : j < n) : (bitsOf b n).getD j false = b.bit j := by
  rw [getD_eq_getElem _ _ (by rwa [length_bitsOf]), getElem_of_eq rfl]
  simp only [bitsOf, getElem_map, getElem_range]

theorem length_setDigit (current bitIndex : Nat) (bits : List Bool) :
    (setDigit current bitIndex bits).length = bits.length := by
  rw [setDigit]
  generalize List.range 4 = ks
  induction ks generalizing bits with
  | nil => rfl
  | cons k ks ih =>
    rw [foldl_cons, ih]
    split
    · exact length_set
    · rfl

theorem getD_setBits (current bitIndex : Nat) (ks : List Nat) (bits : List Bool)
    (hj : j < bits.length) :
    (ks.foldl (fun bits k => if current.testBit k then bits.set (bitIndex + k) true else bits)
        bits).getD j false =
      (bits.getD j false || decide (∃ k ∈ ks, j = bitIndex + k ∧ current.testBit k = true)) := by
  induction ks generalizing bits with
  | nil => simp
  | cons k ks ih =>
    rw [foldl_cons]
    split
    · rename_i hbit
      rw [ih _ (by rwa [length_set]), Bool.eq_iff_iff]
      simp only [Bool.or_eq_true, decide_eq_true_eq, exists_mem_cons_iff, hbit, and_true]
      rw [getD_eq_getElem _ _ (by rwa [length_set]), getElem_set,
        getD_eq_getElem _ _ hj]
      grind
    · rename_i hbit
      rw [ih _ hj, Bool.eq_iff_iff]
      simp only [Bool.or_eq_true, decide_eq_true_eq, exists_mem_cons_iff, hbit]
      grind

theorem getD_setDigit (hcurrent : current < 16) (bitIndex : Nat) (bits : List Bool)
    (hj : j < bits.length) : (setDigit current bitIndex bits).getD j false =
      (bits.getD j false || (decide (bitIndex ≤ j) && current.testBit (j - bitIndex))) := by
  rw [setDigit, getD_setBits _ _ _ _ hj, exists_digit_iff hcurrent fun k => List.mem_range.symm]

theorem ext_getD {xs ys : List Bool} (hlen : xs.length = ys.length)
    (h : ∀ j, j < xs.length → xs.getD j false = ys.getD j false) : xs = ys := by
  apply ext_getElem hlen
  intro j hx hy
  have hj := h j hx
  rwa [getD_eq_getElem _ _ hx, getD_eq_getElem _ _ hy] at hj

/-- The list of the bits after a digit was put. -/
theorem bitsOf_puts {b' : Bitstr} (hcurrent : current < 16) (h : Puts current bitIndex b b') :
    bitsOf b' b.nbits = setDigit current bitIndex (bitsOf b b.nbits) := by
  apply ext_getD
  · rw [length_setDigit, length_bitsOf, length_bitsOf]
  · intro j hj
    rw [length_bitsOf] at hj
    rw [getD_bitsOf _ hj, getD_setDigit hcurrent _ _ (by rwa [length_bitsOf]), getD_bitsOf _ hj, h.2 j hj]

theorem hexValue_lt {ch : BitVec 8} {n : Nat} (h : hexValue ch = some n) : n < 16 := by
  rw [hexValue] at h
  split at h
  · rw [← Option.some.inj h]
    omega
  · split at h
    · rw [← Option.some.inj h]
      omega
    · split at h
      · rw [← Option.some.inj h]
        omega
      · cases h

/-- The loop on words follows the one on the list of bits. -/
theorem wordLoop_eq {chars : List (BitVec 8)} {bits : List Bool}
    (h : unfmtLoop b.nbits chars bitIndex (bitsOf b b.nbits) = .bits bits) :
    ∃ b', wordLoop chars bitIndex b = some (0, b') ∧ b'.nbits = b.nbits ∧ bitsOf b' b.nbits = bits := by
  induction chars generalizing bitIndex b with
  | nil =>
    rw [unfmtLoop, Unfmt.bits.injEq] at h
    exact ⟨b, rfl, rfl, h⟩
  | cons ch chars ih =>
    rw [unfmtLoop] at h
    rw [wordLoop]
    cases hvalue : hexValue ch with
    | none =>
      rw [hvalue] at h
      cases h
    | some current =>
      rw [hvalue] at h
      dsimp only at h ⊢
      split at h
      · cases h
      · rename_i hinside
        split at h
        · cases h
        · rename_i hshort
          obtain ⟨hok, hputs⟩ := putDigit_spec (hexValue_lt hvalue) hinside
          rw [← bitsOf_puts (hexValue_lt hvalue) hputs, ← hputs.1] at h
          rw [if_neg (by rw [hok]; exact Bool.false_ne_true.symm), if_neg hshort]
          obtain ⟨b', hloop, hnbits, hbits⟩ := ih h
          rw [hputs.1] at hnbits hbits
          exact ⟨b', hloop, hnbits, hbits⟩

/-- The bits that are read are those that the list is read as. -/
theorem unfmtHexmask_eq {str : List (BitVec 8)} {bits : List Bool}
    (h : bitUnfmtHexmask b.nbits str = .bits bits) :
    ∃ b', unfmtHexmask b str = some (0, b') ∧ b'.nbits = b.nbits ∧ bitsOf b' b.nbits = bits := by
  have hpos := b.valid.1
  have hbound : b.nbits - 1 < b.nbits := by omega
  obtain ⟨hnbits, hclear⟩ := bitNclear_spec b 0 hbound
  have hbits : bitsOf (bitNclear b 0 (b.nbits - 1)) b.nbits = List.replicate b.nbits false := by
    apply ext_getD
    · rw [length_bitsOf, length_replicate]
    · intro j hj
      rw [length_bitsOf] at hj
      rw [getD_bitsOf _ hj, hclear, if_pos (by omega), getD_replicate _ hj]
  rw [bitUnfmtHexmask, ← hbits] at h
  rw [unfmtHexmask]
  generalize bitNclear b 0 (b.nbits - 1) = c at *
  rw [← hnbits] at h ⊢
  exact wordLoop_eq h

end Slurm.Bitstring
