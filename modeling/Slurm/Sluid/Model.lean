import Slurm.Lib.Decimal

/-!
# SLUIDs

The generator and the printed form of SLUIDs, from `src/common/sluid.c`: a cluster of 12
bits, a time of 42 bits in milliseconds and a sequence number of 10 bits.
-/

namespace Slurm.Sluid

/-! ## The generator -/

/-- A cluster ID: a `uint16_t` below 4096, where 0 is reserved. -/
structure ClusterId where
  id : BitVec 16
  ne_zero : id ≠ 0
  lt : id.toNat < 2 ^ 12

/-- `generate_cluster_id`, for a random number. -/
def generateClusterId (xrandom : Nat) : ClusterId where
  id := BitVec.ofNat 16 (xrandom % (4096 - 2) + 2)
  ne_zero h := by
    have hid : (xrandom % (4096 - 2) + 2) % 2 ^ 16 = 0 := congrArg BitVec.toNat h
    omega
  lt := by
    rw [BitVec.toNat_ofNat]
    omega

/-- A reading of the clock. -/
structure Timespec where
  tvSec : BitVec 64
  tvNsec : BitVec 64

/-- The milliseconds of a reading. -/
def Timespec.ms (ts : Timespec) : BitVec 64 := ts.tvSec * 1000 + ts.tvNsec.sdiv 1000000

/-- The static variables of the generator. -/
structure Gen where
  clusterBits : BitVec 64
  lastMs : BitVec 64
  seq : BitVec 64

/-- The values that the variables start with. -/
def initial : Gen := ⟨0, 0, 0⟩

/-- `sluid_init`. -/
def sluidInit (g : Gen) (cluster : BitVec 16) (minimum : BitVec 64) : Gen :=
  { g with clusterBits := cluster.setWidth 64 <<< 52, lastMs := minimum * 1000 }

/-- The new `last_ms` and `seq`. -/
def tick (g : Gen) (nowMs : BitVec 64) : Gen :=
  if g.lastMs < nowMs then
    { g with lastMs := nowMs, seq := 0 }
  else if g.seq + 1 > 0x3ff then
    { g with lastMs := g.lastMs + 1, seq := 0 }
  else
    { g with seq := g.seq + 1 }

/-- The SLUID with the time and the sequence number of the generator. -/
def Gen.sluid (g : Gen) : BitVec 64 := g.seq ||| g.lastMs <<< 10 ||| g.clusterBits

/-- `generate_sluid`, which is fatal when no cluster is set. -/
def generateSluid (g : Gen) (ts : Timespec) : Option (BitVec 64 × Gen) :=
  if g.clusterBits = 0 then
    none
  else
    some ((tick g ts.ms).sluid, tick g ts.ms)

/-! ## The printed form -/

/-- `cb32map`. -/
def cb32map : List Char :=
  ['0', '1', '2', '3', '4', '5', '6', '7', '8', '9', 'A', 'B', 'C', 'D', 'E', 'F', 'G', 'H', 'J',
    'K', 'M', 'N', 'P', 'Q', 'R', 'S', 'T', 'V', 'W', 'X', 'Y', 'Z']

/-- The character of the digit `i` of a SLUID, counted from the right. -/
def digitChar (sluid : BitVec 64) (i : Nat) : Char :=
  let mask := (0x1f : BitVec 64) <<< (5 * i)
  cb32map.getD ((sluid &&& mask) >>> (5 * i)).toNat '\x00'

/-- The loop of `sluid2str`, which writes the string from the right. -/
def sluid2strLoop (sluid : BitVec 64) : Nat → List Char
  | 0 => []
  | i + 1 => digitChar sluid i :: sluid2strLoop sluid i

/-- `sluid2str`. -/
def sluid2str (sluid : BitVec 64) : List Char := 's' :: sluid2strLoop sluid 13

/-- A lower case letter is made an upper case letter, without `toupper`. -/
def fold (c : Char) : Char := if 'a' ≤ c then Char.ofNat (c.toNat - 0x20) else c

/-- The value of a digit: its place in `cb32map`, or the value that it is an alias for. -/
def digitValue (c : Char) : Option Nat :=
  let value := cb32map.idxOf (fold c)
  if 31 < value then
    if fold c = 'O' then
      some 0
    else if fold c = 'I' ∨ fold c = 'L' then
      some 1
    else
      none
  else
    some value

/-- The loop of `str2sluid`, which returns 0 at a character that is not a digit. -/
def str2sluidLoop (sluid : BitVec 64) : List Char → BitVec 64
  | [] => sluid
  | c :: rest =>
    match digitValue c with
    | none => 0
    | some value => str2sluidLoop (sluid ||| BitVec.ofNat 64 value <<< (5 * rest.length)) rest

/-- `str2sluid`. -/
def str2sluid (string : List Char) : BitVec 64 :=
  if string.length ≠ 14 then
    0
  else
    match string with
    | [] => 0
    | c :: digits => if c ≠ 's' ∧ c ≠ 'S' then 0 else str2sluidLoop 0 digits

end Slurm.Sluid

/-!
## The printed form of SLUIDs

The digits of the printed form are those of the number in base 32, and what is read back
is the number of the digits, in 64 bits.

* `str2sluid_sluid2str`: SLUIDs are read back.
* `sluid2str_lt`: the order of the strings is the order of the numbers.
* `printed_iff`: which strings are read as a SLUID that they are not the printed form of.
-/

namespace Slurm.Sluid

open Lib.Positional List Option Nat

variable {c : Char} {ds : List Nat} {s string : List Char}

/-! ## Characters -/

/-- The character of a digit. -/
def toChar (d : Nat) : Char := cb32map.getD d '\x00'

/-- A character up to its case and the aliases. -/
def canonicalChar (c : Char) : Char :=
  if c.toUpper = 'O' then '0' else if c.toUpper = 'I' ∨ c.toUpper = 'L' then '1' else c.toUpper

/-- A string up to letter case and the aliases. -/
def canonical (s : List Char) : List Char := s.map canonicalChar

theorem digitValue_toChar : ∀ d < 32, digitValue (toChar d) = some d := by decide

theorem toChar_lt : ∀ d < 32, ∀ e < 32, (toChar d < toChar e ↔ d < e) := by decide

theorem digitValue_ascii :
    ∀ n < 128, (digitValue (Char.ofNat n)).all
      (fun v => v < 32 ∧ canonicalChar (Char.ofNat n) = toChar v) = true := by decide +kernel

theorem cb32map_le :
    (cb32map ++ ['O', 'I', 'L']).all (fun c => 0 < c.toNat ∧ c.toNat < 96) = true := by decide

/-- A character that is not an ASCII character is no digit. -/
theorem digitValue_not_ascii (h : 128 ≤ c.toNat) : digitValue c = none := by
  have hfold : fold c = Char.ofNat (c.toNat - 0x20) := if_pos (show 97 ≤ c.toNat by omega)
  have hcode : (fold c).toNat = 0 ∨ 96 ≤ (fold c).toNat := by
    rw [hfold, Char.toNat_ofNat]
    split
    · right
      omega
    · exact Or.inl rfl
  have hnot : fold c ∉ cb32map ++ ['O', 'I', 'L'] := by
    intro hmem
    have := of_decide_eq_true (List.all_eq_true.mp cb32map_le _ hmem)
    omega
  simp only [mem_append, mem_cons, not_mem_nil, or_false, not_or] at hnot
  obtain ⟨hmap, hO, hI, hL⟩ := hnot
  rw [digitValue, idxOf_eq_length hmap]
  simp [cb32map, hO, hI, hL]

/-- A digit is the character of its value, up to its case and the aliases. -/
theorem digitValue_some {v : Nat} (h : digitValue c = some v) :
    v < 32 ∧ canonicalChar c = toChar v := by
  by_cases hc : c.toNat < 128
  · have hascii := digitValue_ascii c.toNat hc
    rw [Char.ofNat_toNat, h, all_some, decide_eq_true_iff] at hascii
    exact hascii
  · rw [digitValue_not_ascii (by omega)] at h
    cases h

/-! ## Printing -/

/-- The digits of a SLUID. -/
def digits (sluid : BitVec 64) : List Nat := numeral 32 13 sluid.toNat

theorem digits_lt {sluid : BitVec 64} {d : Nat} (h : d ∈ digits sluid) : d < 32 :=
  mem_numeral_lt (by decide) h

theorem number_digits (sluid : BitVec 64) : number 32 (digits sluid) = sluid.toNat :=
  number_numeral_of_lt (sluid.isLt.trans (by decide))

/-- The mask cuts a digit out of the SLUID, also where the shift drops a bit of the mask. -/
theorem masked_toNat (sluid : BitVec 64) (k : Nat) :
    ((sluid &&& (0x1f : BitVec 64) <<< k) >>> k).toNat = sluid.toNat / 2 ^ k % 32 := by
  apply eq_of_testBit_eq
  intro j
  have hmask : (0x1f : BitVec 64).getLsbD j = decide (j < 5) := testBit_two_pow_sub_one 5 j
  rw [show (32 : Nat) = 2 ^ 5 from rfl, testBit_mod_two_pow, testBit_div_two_pow]
  simp only [BitVec.testBit_toNat, BitVec.getLsbD_ushiftRight, BitVec.getLsbD_and,
    BitVec.getLsbD_shiftLeft, Nat.add_sub_cancel_left, hmask]
  by_cases hj : k + j < 64
  · rw [Nat.add_comm j k]
    simp [hj, Bool.and_comm]
  · have hhigh : sluid.getLsbD (k + j) = false := BitVec.getLsbD_of_ge _ _ (by omega)
    rw [Nat.add_comm j k]
    simp [hhigh]

theorem digitChar_eq (sluid : BitVec 64) (i : Nat) :
    digitChar sluid i = toChar (sluid.toNat / 32 ^ i % 32) := by
  rw [digitChar, masked_toNat, Nat.pow_mul]
  rfl

theorem sluid2strLoop_eq (sluid : BitVec 64) (w : Nat) :
    sluid2strLoop sluid w = (numeral 32 w sluid.toNat).map toChar := by
  induction w with
  | zero => rfl
  | succ w ih => rw [sluid2strLoop, numeral, map_cons, ih, digitChar_eq]

theorem sluid2str_eq (sluid : BitVec 64) : sluid2str sluid = 's' :: (digits sluid).map toChar := by
  rw [sluid2str, sluid2strLoop_eq, digits]

/-- The characters of digits are in the order of the digits. -/
theorem map_toChar_lt {es : List Nat} (hlen : ds.length = es.length) (hd : ∀ d ∈ ds, d < 32)
    (he : ∀ e ∈ es, e < 32) : ds.map toChar < es.map toChar ↔ ds < es := by
  induction ds generalizing es with
  | nil =>
    rw [List.length_eq_zero_iff.mp hlen.symm]
    exact iff_of_false (List.lt_irrefl []) (List.lt_irrefl [])
  | cons d ds ih =>
    cases es with
    | nil => exact absurd hlen (succ_ne_zero _)
    | cons e es =>
      have hrest := ih (Nat.succ.inj hlen) (fun x hx => hd x (mem_cons_of_mem d hx))
        fun x hx => he x (mem_cons_of_mem e hx)
      have hd' := hd d mem_cons_self
      have he' := he e mem_cons_self
      have heq : toChar d = toChar e ↔ d = e := by
        constructor
        · intro h
          have := digitValue_toChar d hd'
          rw [h, digitValue_toChar e he'] at this
          exact (Option.some.inj this).symm
        · exact congrArg toChar
      rw [map_cons, map_cons, cons_lt_cons_iff, cons_lt_cons_iff, hrest,
        toChar_lt d hd' e he', heq]

/-- The order of the printed forms is the order of the numbers. -/
theorem sluid2str_lt (s t : BitVec 64) : sluid2str s < sluid2str t ↔ s < t := by
  rw [sluid2str_eq, sluid2str_eq, cons_lt_cons_self,
    map_toChar_lt (by rw [digits, digits, length_numeral, length_numeral]) (fun _ => digits_lt)
      fun _ => digits_lt,
    lt_iff_number_lt (by rw [digits, digits, length_numeral, length_numeral]) (fun _ => digits_lt)
      fun _ => digits_lt,
    number_digits, number_digits, BitVec.lt_def]

/-! ## Reading -/

/-- The values of the digits of a string. -/
def digitValues (s : List Char) : Option (List Nat) := s.mapM digitValue

theorem digitValues_cons (h : digitValues (c :: s) = some ds) :
    ∃ d es, digitValue c = some d ∧ digitValues s = some es ∧ ds = d :: es := by
  rw [digitValues, mapM_cons] at h
  simp only [Option.bind_eq_bind, Option.bind_eq_some_iff, Option.pure_def] at h
  obtain ⟨d, hd, es, hes, h⟩ := h
  exact ⟨d, es, hd, hes, (Option.some.inj h).symm⟩

theorem length_digitValues (h : digitValues s = some ds) : ds.length = s.length := by
  induction s generalizing ds with
  | nil =>
    cases h
    rfl
  | cons c s ih =>
    obtain ⟨d, es, -, hes, rfl⟩ := digitValues_cons h
    rw [length_cons, length_cons, ih hes]

theorem digitValues_lt (h : digitValues s = some ds) : ∀ d ∈ ds, d < 32 := by
  induction s generalizing ds with
  | nil =>
    cases h
    exact fun d hd => absurd hd not_mem_nil
  | cons c s ih =>
    obtain ⟨d, es, hd, hes, rfl⟩ := digitValues_cons h
    intro e he
    rcases List.mem_cons.mp he with rfl | he
    · exact (digitValue_some hd).1
    · exact ih hes e he

/-- The digits are read from the left, each shifted to its place. -/
theorem str2sluidLoop_eq (h : digitValues s = some ds) (sluid : BitVec 64) :
    str2sluidLoop sluid s = sluid ||| BitVec.ofNat 64 (number 32 ds) := by
  induction s generalizing ds sluid with
  | nil =>
    cases h
    exact (BitVec.or_zero).symm
  | cons c s ih =>
    obtain ⟨d, es, hd, hes, rfl⟩ := digitValues_cons h
    have hlt : number 32 es < 2 ^ (5 * s.length) := by
      have := number_lt (digitValues_lt hes)
      rw [length_digitValues hes] at this
      rwa [Nat.pow_mul]
    have hnumber : number 32 (d :: es) = d <<< (5 * s.length) ||| number 32 es := by
      rw [number, length_digitValues hes, ← shiftLeft_add_eq_or_of_lt hlt, shiftLeft_eq,
        Nat.pow_mul]
    have hshift : BitVec.ofNat 64 d <<< (5 * s.length) = BitVec.ofNat 64 (d <<< (5 * s.length)) := by
      apply BitVec.eq_of_toNat_eq
      simp [shiftLeft_eq]
    rw [str2sluidLoop, hd]
    simp only
    rw [ih hes, hnumber, BitVec.ofNat_or, BitVec.or_assoc, hshift]

theorem str2sluidLoop_none (h : digitValues s = none) (sluid : BitVec 64) :
    str2sluidLoop sluid s = 0 := by
  induction s generalizing sluid with
  | nil => cases h
  | cons c s ih =>
    rw [str2sluidLoop]
    cases hd : digitValue c with
    | none => rfl
    | some d =>
      apply ih
      cases hs : digitValues s with
      | none => rfl
      | some es =>
        rw [digitValues] at hs
        rw [digitValues, mapM_cons, hd, hs] at h
        cases h

/-- The values of the digits of a string that has the form of a SLUID. -/
def sluidDigits : List Char → Option (List Nat)
  | [] => none
  | c :: rest => if rest.length = 13 ∧ (c = 's' ∨ c = 'S') then digitValues rest else none

theorem str2sluid_some (h : sluidDigits string = some ds) :
    str2sluid string = BitVec.ofNat 64 (number 32 ds) := by
  cases string with
  | nil => cases h
  | cons c rest =>
    rw [sluidDigits] at h
    split at h
    · rename_i hform
      rw [str2sluid, if_neg (by rw [length_cons, hform.1]; simp)]
      rw [if_neg (fun hc => hform.2.elim hc.1 hc.2), str2sluidLoop_eq h]
      exact BitVec.zero_or
    · cases h

theorem str2sluid_none (h : sluidDigits string = none) : str2sluid string = 0 := by
  cases string with
  | nil => rfl
  | cons c rest =>
    rw [str2sluid]
    split
    · rfl
    · rename_i hlen
      split
      · rfl
      · rename_i hc
        apply str2sluidLoop_none
        rw [sluidDigits, if_pos ⟨by simpa using hlen, by tauto⟩] at h
        exact h

theorem length_sluidDigits (h : sluidDigits string = some ds) :
    ds.length = 13 ∧ ∀ d ∈ ds, d < 32 := by
  cases string with
  | nil => cases h
  | cons c rest =>
    rw [sluidDigits] at h
    split at h
    · rename_i hform
      exact ⟨(length_digitValues h).trans hform.1, digitValues_lt h⟩
    · cases h

theorem digitValues_map_toChar (h : ∀ d ∈ ds, d < 32) : digitValues (ds.map toChar) = some ds := by
  induction ds with
  | nil => rfl
  | cons d ds ih =>
    have hrest := ih fun e he => h e (mem_cons_of_mem d he)
    rw [digitValues] at hrest
    rw [digitValues, map_cons, mapM_cons, hrest, digitValue_toChar d (h d mem_cons_self)]
    rfl

theorem sluidDigits_sluid2str (s : BitVec 64) : sluidDigits (sluid2str s) = some (digits s) := by
  rw [sluid2str_eq, sluidDigits, if_pos ⟨by rw [length_map, digits, length_numeral], .inl rfl⟩]
  exact digitValues_map_toChar fun _ => digits_lt

/-- What `sluid2str` prints is read back. -/
theorem str2sluid_sluid2str (s : BitVec 64) : str2sluid (sluid2str s) = s := by
  rw [str2sluid_some (sluidDigits_sluid2str s), number_digits, BitVec.ofNat_toNat,
    BitVec.setWidth_eq]

/-! ## What is read as a SLUID -/

theorem canonical_digitValues (h : digitValues s = some ds) : canonical s = ds.map toChar := by
  induction s generalizing ds with
  | nil =>
    cases h
    rfl
  | cons c s ih =>
    obtain ⟨d, es, hd, hes, rfl⟩ := digitValues_cons h
    rw [canonical, map_cons, map_cons, (digitValue_some hd).2, ← ih hes, canonical]

theorem canonical_sluidDigits (h : sluidDigits string = some ds) :
    canonical string = 'S' :: ds.map toChar := by
  cases string with
  | nil => cases h
  | cons c rest =>
    rw [sluidDigits] at h
    split at h
    · rename_i hform
      rw [← canonical_digitValues h, canonical, canonical, map_cons]
      rcases hform.2 with rfl | rfl <;> rfl
    · cases h

/-- A string is the printed form of the SLUID that has its digits. -/
theorem canonical_eq_iff (h : sluidDigits string = some ds) (v : BitVec 64) :
    canonical string = canonical (sluid2str v) ↔ ds = digits v := by
  rw [canonical_sluidDigits h, canonical_sluidDigits (sluidDigits_sluid2str v),
    cons_inj_right]
  constructor
  · intro hmap
    have hds := digitValues_map_toChar (length_sluidDigits h).2
    rw [hmap, digitValues_map_toChar fun _ => digits_lt] at hds
    exact (Option.some.inj hds).symm
  · exact congrArg _

theorem eq_digits_iff (hlen : ds.length = 13) (hlt : ∀ d ∈ ds, d < 32) (v : BitVec 64) :
    ds = digits v ↔ number 32 ds = v.toNat := by
  constructor
  · rintro rfl
    exact number_digits v
  · intro h
    rw [digits, ← h, ← hlen, numeral_number hlt]

/-- The first digit has the four bits that there is place for, or all the bits that are
kept are 0. -/
def FirstDigitFits (string : List Char) : Prop :=
  ∀ d ds, sluidDigits string = some (d :: ds) → d < 16 ∨ d = 16 ∧ ∀ e ∈ ds, e = 0

/-- A string is read as a SLUID that it is not the printed form of exactly when a bit of
its first digit is lost. -/
theorem printed_iff (string : List Char) :
    (str2sluid string ≠ 0 → canonical string = canonical (sluid2str (str2sluid string))) ↔
      FirstDigitFits string := by
  cases h : sluidDigits string with
  | none =>
    refine iff_of_true (fun hne => absurd (str2sluid_none h) hne) fun d ds hds => ?_
    rw [h] at hds
    cases hds
  | some ds =>
    obtain ⟨hlen, hlt⟩ := length_sluidDigits h
    cases ds with
    | nil => cases hlen
    | cons d ds =>
      have hd := hlt d mem_cons_self
      have hrest := number_lt fun e he => hlt e (mem_cons_of_mem d he)
      have hnumber : number 32 (d :: ds) = d * 32 ^ ds.length + number 32 ds := rfl
      rw [Nat.succ.inj hlen] at hrest hnumber
      have hfits : FirstDigitFits string ↔ d < 16 ∨ d = 16 ∧ number 32 ds = 0 := by
        rw [number_eq_zero (by decide)]
        constructor
        · exact fun hfits => hfits d ds h
        · intro hfits e es hes
          rw [h] at hes
          cases hes
          exact hfits
      rw [hfits, canonical_eq_iff h, eq_digits_iff hlen hlt, str2sluid_some h, Ne, BitVec.toNat_eq,
        BitVec.toNat_ofNat, show BitVec.toNat (0 : BitVec 64) = 0 from rfl]
      omega

end Slurm.Sluid
