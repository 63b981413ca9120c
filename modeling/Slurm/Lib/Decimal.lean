import Mathlib

/-!
# Numerals of a fixed width

`number b ds` is the number with the digits `ds` in base `b`, the most significant one
first, and `numeral b w n` are the `w` low digits of `n`.

* `number_numeral`, `numeral_number`: what the digits of a number are read as, and back.
* `lt_iff_number_lt`: numerals of one width are ordered as their numbers are.
-/

namespace Lib.Positional

open List Nat

variable {b : Nat}
variable {w : Nat} {ds : List Nat}

/-- The number with some digits, the most significant one first. -/
def number (b : Nat) : List Nat → Nat
  | [] => 0
  | d :: ds => d * b ^ ds.length + number b ds

/-- The `w` low digits of a number, the most significant one first. -/
def numeral (b : Nat) : Nat → Nat → List Nat
  | 0, _ => []
  | w + 1, n => n / b ^ w % b :: numeral b w n

@[simp]
theorem length_numeral (b w n : Nat) : (numeral b w n).length = w := by
  induction w with
  | zero => rfl
  | succ w ih => rw [numeral, length_cons, ih]

theorem mem_numeral_lt (hb : 0 < b) {n d : Nat} (h : d ∈ numeral b w n) : d < b := by
  induction w with
  | zero => exact absurd h not_mem_nil
  | succ w ih =>
    rw [numeral, mem_cons] at h
    rcases h with rfl | h
    · exact mod_lt _ hb
    · exact ih h

theorem number_lt (h : ∀ d ∈ ds, d < b) : number b ds < b ^ ds.length := by
  induction ds with
  | nil => exact Nat.one_pos
  | cons d ds ih =>
    have hd : d + 1 ≤ b := h d mem_cons_self
    have hrest := ih fun e he => h e (mem_cons_of_mem d he)
    calc number b (d :: ds) < d * b ^ ds.length + b ^ ds.length := Nat.add_lt_add_left hrest _
      _ = (d + 1) * b ^ ds.length := (succ_mul d _).symm
      _ ≤ b * b ^ ds.length := Nat.mul_le_mul_right _ hd
      _ = b ^ (d :: ds).length := by rw [length_cons, Nat.pow_succ']

theorem number_append (b : Nat) (ds es : List Nat) :
    number b (ds ++ es) = number b ds * b ^ es.length + number b es := by
  induction ds with
  | nil => simp [number]
  | cons d ds ih =>
    rw [cons_append, number, number, ih, length_append, Nat.pow_add]
    ring

theorem number_eq_zero (hb : 0 < b) : number b ds = 0 ↔ ∀ d ∈ ds, d = 0 := by
  induction ds with
  | nil => exact iff_of_true rfl fun d hd => absurd hd not_mem_nil
  | cons d ds ih =>
    have hpow : b ^ ds.length ≠ 0 := (Nat.pow_pos hb).ne'
    rw [number, Nat.add_eq_zero_iff, Nat.mul_eq_zero, ih, forall_mem_cons]
    exact and_congr_left fun _ => or_iff_left hpow

theorem number_numeral (b w n : Nat) : number b (numeral b w n) = n % b ^ w := by
  induction w with
  | zero => rw [pow_zero, mod_one, numeral, number]
  | succ w ih =>
    rw [numeral, number, length_numeral, ih, Nat.pow_succ, mod_mul, Nat.mul_comm, Nat.add_comm]

/-- The digits of a number are read back. -/
theorem number_numeral_of_lt {n : Nat} (h : n < b ^ w) : number b (numeral b w n) = n := by
  rw [number_numeral, mod_eq_of_lt h]

/-- The low digits depend on the low part of the number only. -/
theorem numeral_add (hb : 0 < b) {k : Nat} (hk : b ^ w ∣ k) (n : Nat) :
    numeral b w (k + n) = numeral b w n := by
  induction w with
  | zero => rfl
  | succ w ih =>
    obtain ⟨m, rfl⟩ := hk
    have hlow : b ^ w ∣ b ^ (w + 1) * m := ⟨b * m, by rw [Nat.pow_succ, Nat.mul_assoc]⟩
    have hdigit : (b ^ (w + 1) * m + n) / b ^ w % b = n / b ^ w % b := by
      rw [Nat.pow_succ, Nat.mul_assoc, mul_add_div (Nat.pow_pos hb), mul_add_mod]
    rw [numeral, numeral, ih hlow, hdigit]

theorem numeral_number (h : ∀ d ∈ ds, d < b) : numeral b ds.length (number b ds) = ds := by
  induction ds with
  | nil => rfl
  | cons d ds ih =>
    have hd := h d mem_cons_self
    have hb : 0 < b := zero_lt_of_lt hd
    have hrest : ∀ e ∈ ds, e < b := fun e he => h e (mem_cons_of_mem d he)
    have hlt := number_lt hrest
    have hdigit : (d * b ^ ds.length + number b ds) / b ^ ds.length % b = d := by
      rw [Nat.mul_comm, mul_add_div (Nat.pow_pos hb), div_eq_of_lt hlt, Nat.add_zero,
        mod_eq_of_lt hd]
    rw [length_cons, numeral, number, hdigit, numeral_add hb (Nat.dvd_mul_left _ _), ih hrest]

/-- Numerals of one width are in the order of their numbers. -/
theorem lt_iff_number_lt {es : List Nat} (hlen : ds.length = es.length) (hd : ∀ d ∈ ds, d < b)
    (he : ∀ e ∈ es, e < b) : ds < es ↔ number b ds < number b es := by
  induction ds generalizing es with
  | nil =>
    rw [List.length_eq_zero_iff.mp hlen.symm]
    exact iff_of_false (List.lt_irrefl []) (Nat.lt_irrefl _)
  | cons d ds ih =>
    cases es with
    | nil => exact absurd hlen (succ_ne_zero _)
    | cons e es =>
      have hlen' : ds.length = es.length := Nat.succ.inj hlen
      have hds : ∀ x ∈ ds, x < b := fun x hx => hd x (mem_cons_of_mem d hx)
      have hes : ∀ x ∈ es, x < b := fun x hx => he x (mem_cons_of_mem e hx)
      have hdlt := number_lt hds
      have helt := number_lt hes
      rw [← hlen'] at helt
      rw [cons_lt_cons_iff, number, number, ← hlen', ih hlen' hds hes]
      rcases Nat.lt_trichotomy d e with hlt | rfl | hgt
      · have := Nat.mul_le_mul_right (b ^ ds.length) (show d + 1 ≤ e from hlt)
        rw [succ_mul] at this
        exact iff_of_true (Or.inl hlt) (by omega)
      · have hor : (d < d ∨ d = d ∧ number b ds < number b es) ↔ number b ds < number b es := by
          simp
        rw [hor]
        omega
      · have := Nat.mul_le_mul_right (b ^ ds.length) (show e + 1 ≤ d from hgt)
        rw [succ_mul] at this
        exact iff_of_false (by omega) (by omega)

end Lib.Positional

/-!
## Numbers in network byte order

`toBytes w n` are the `w` bytes of the number `n`, the most significant one first, and
`ofBytes` is the number of some bytes.

* `ofBytes_toBytes`: what the bytes of a number are read as.
* `ofBytes_lt`: a number of `w` bytes is below `256 ^ w`.
-/

namespace Lib.BigEndian

open List

/-- The `w` low bytes of a number, the most significant one first. -/
def toBytes : Nat → Nat → List (BitVec 8)
  | 0, _ => []
  | w + 1, n => toBytes w (n / 256) ++ [BitVec.ofNat 8 n]

/-- The number of some bytes, the most significant one first. -/
def ofBytes (bs : List (BitVec 8)) : Nat := bs.foldl (fun acc b => acc * 256 + b.toNat) 0

@[simp]
theorem length_toBytes (w n : Nat) : (toBytes w n).length = w := by
  induction w generalizing n with
  | zero => rfl
  | succ w ih => rw [toBytes, length_append, ih, length_singleton]

theorem ofBytes_concat (bs : List (BitVec 8)) (b : BitVec 8) :
    ofBytes (bs ++ [b]) = ofBytes bs * 256 + b.toNat := by
  simp [ofBytes]

theorem ofBytes_toBytes (w n : Nat) : ofBytes (toBytes w n) = n % 256 ^ w := by
  induction w generalizing n with
  | zero => rw [pow_zero, Nat.mod_one, toBytes, ofBytes, foldl_nil]
  | succ w ih =>
    have hlow : (BitVec.ofNat 8 n).toNat = n % 256 := BitVec.toNat_ofNat n 8
    rw [toBytes, ofBytes_concat, ih, hlow, Nat.pow_succ', Nat.mod_mul, Nat.mul_comm, Nat.add_comm]

theorem ofBytes_toBytes_of_lt {w n : Nat} (h : n < 256 ^ w) : ofBytes (toBytes w n) = n := by
  rw [ofBytes_toBytes, Nat.mod_eq_of_lt h]

theorem ofBytes_lt (bs : List (BitVec 8)) : ofBytes bs < 256 ^ bs.length := by
  induction bs using List.reverseRecOn with
  | nil => exact Nat.one_pos
  | append_singleton bs b ih =>
    have hb : b.toNat < 256 := b.isLt
    rw [ofBytes_concat, length_append, length_singleton, Nat.pow_succ]
    omega

end Lib.BigEndian

/-!
## Decimal numbers with leading zeros

`padded w n` is the number `n` with zeros before it up to the width `w`, and `value s` the
number of a string of digits.

* `eq_padded_iff`: a string of digits is `padded w n` when its number is `n` and its length
  is the width, or that of the number where this is longer.
-/

namespace Lib.Decimal

open Lib.Positional List Nat

variable {c : Char} {s : List Char}

/-- A string of digits. -/
def IsNumber (s : List Char) : Prop := s ≠ [] ∧ ∀ c ∈ s, c.isDigit = true

instance (s : List Char) : Decidable (IsNumber s) := inferInstanceAs (Decidable (_ ∧ _))

/-- The number of a string of digits. -/
def value (s : List Char) : Nat := Nat.ofDigitChars 10 s 0

/-- How many digits a number has. -/
def numDigits (n : Nat) : Nat := (Nat.toDigits 10 n).length

/-- A number with zeros before it up to a width. -/
def padded (w n : Nat) : List Char := List.replicate (w - numDigits n) '0' ++ Nat.toDigits 10 n

theorem numDigits_pos (n : Nat) : 0 < numDigits n := length_toDigits_pos

theorem numDigits_le_iff {n k : Nat} (hk : 0 < k) : numDigits n ≤ k ↔ n < 10 ^ k :=
  length_toDigits_le_iff (by decide) hk

theorem numDigits_mono {m n : Nat} (h : m ≤ n) : numDigits m ≤ numDigits n := by
  rw [numDigits_le_iff (numDigits_pos n)]
  exact Nat.lt_of_le_of_lt h ((numDigits_le_iff (numDigits_pos n)).mp (Nat.le_refl _))

theorem numDigits_eq (n : Nat) : numDigits n = if n < 10 then 1 else numDigits (n / 10) + 1 := by
  rw [numDigits, toDigits_eq_if (by decide)]
  split
  · rfl
  · rw [length_append, length_singleton, numDigits]

theorem length_padded (w n : Nat) : (padded w n).length = max w (numDigits n) := by
  rw [padded, length_append, length_replicate, ← numDigits]
  omega

theorem isNumber_padded (w n : Nat) : IsNumber (padded w n) := by
  constructor
  · intro h
    have hlen := length_padded w n
    rw [h, length_nil] at hlen
    have := numDigits_pos n
    omega
  · intro c hc
    rcases List.mem_append.mp hc with hc | hc
    · rw [eq_of_mem_replicate hc]
      rfl
    · exact isDigit_of_mem_toDigits (by decide) (by decide) hc

theorem value_padded (w n : Nat) : value (padded w n) = n := by
  rw [value, padded, ofDigitChars_append, ofDigitChars_replicate_zero, Nat.mul_zero,
    ofDigitChars_ten_toDigits]

/-! ## Digits -/

/-- The value of a digit. -/
def digit (c : Char) : Nat := c.toNat - '0'.toNat

theorem isDigit_iff : c.isDigit = true ↔ 48 ≤ c.toNat ∧ c.toNat ≤ 57 := by
  rw [Char.isDigit, Bool.and_eq_true, decide_eq_true_iff, decide_eq_true_iff]
  exact Iff.rfl

theorem digit_lt (h : c.isDigit = true) : digit c < 10 := by
  have hrange := isDigit_iff.mp h
  have hzero : '0'.toNat = 48 := rfl
  rw [digit, hzero]
  omega

theorem digitChar_digit (h : c.isDigit = true) : Nat.digitChar (digit c) = c := by
  have hrange := isDigit_iff.mp h
  have hzero : '0'.toNat = 48 := rfl
  apply Char.toNat_inj.mp
  rw [toNat_digitChar_of_lt_ten (digit_lt h), digit, hzero]
  omega

theorem map_digitChar_digit (h : ∀ c ∈ s, c.isDigit = true) :
    (s.map digit).map Nat.digitChar = s := by
  rw [map_map]
  exact (map_congr_left fun c hc => digitChar_digit (h c hc)).trans (map_id s)

theorem value_eq_number (s : List Char) : value s = number 10 (s.map digit) := by
  induction s with
  | nil => rfl
  | cons c s ih =>
    rw [value] at ih
    rw [value, ofDigitChars_cons, ofDigitChars_eq_ofDigitChars_zero, ih, map_cons,
      number, length_map, Nat.mul_zero, Nat.zero_add, Nat.mul_comm, digit]

theorem map_digit_lt (h : ∀ c ∈ s, c.isDigit = true) : ∀ d ∈ s.map digit, d < 10 := by
  intro d hd
  obtain ⟨c, hc, rfl⟩ := List.mem_map.mp hd
  exact digit_lt (h c hc)

theorem value_lt (h : ∀ c ∈ s, c.isDigit = true) : value s < 10 ^ s.length := by
  have hlt := number_lt (map_digit_lt h)
  rwa [length_map, ← value_eq_number] at hlt

theorem numDigits_value_le (h : IsNumber s) : numDigits (value s) ≤ s.length :=
  (numDigits_le_iff (length_pos_of_ne_nil h.1)).mpr (value_lt h.2)

/-- Strings of digits with one length and one number are the same. -/
theorem eq_of_value_eq {t : List Char} (hs : ∀ c ∈ s, c.isDigit = true)
    (ht : ∀ c ∈ t, c.isDigit = true) (hlen : s.length = t.length) (h : value s = value t) :
    s = t := by
  have hdigits : s.map digit = t.map digit := by
    rw [← numeral_number (map_digit_lt hs), ← numeral_number (map_digit_lt ht), ← value_eq_number,
      ← value_eq_number, h, length_map, length_map, hlen]
  rw [← map_digitChar_digit hs, hdigits, map_digitChar_digit ht]

/-- When a string of digits is a number with zeros before it. -/
theorem eq_padded_iff (h : IsNumber s) (w n : Nat) :
    s = padded w n ↔ value s = n ∧ s.length = max w (numDigits n) := by
  constructor
  · rintro rfl
    exact ⟨value_padded w n, length_padded w n⟩
  · rintro ⟨rfl, hlen⟩
    exact eq_of_value_eq h.2 (isNumber_padded w _).2 (hlen.trans (length_padded w _).symm)
      (value_padded w _).symm

end Lib.Decimal
