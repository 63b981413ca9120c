import Slurm.Sluid.Model

/-!
# The UUIDs of jobs and steps

The UUIDs that `src/common/sluid.c` makes of SLUIDs, and the fields that the header promises
of them.

* `value_uuidText`: the number that a UUID stands for is made of the two words.
* `upper_toNat`, `lowerStep_toNat`, `lowerJob_toNat`: the fields that the two words have.
* `uuidContract_iff`: when a UUID has the layout of the header, and when two UUIDs tell two
  jobs or steps apart.
-/

namespace Slurm.Sluid

open Lib.Positional List Nat

/-! ## The code -/

/-- `%0wPRIx64`: a number in hexadecimal digits, at least `w` of them. -/
def hex (w n : Nat) : List Char :=
  List.replicate (w - (Nat.toDigits 16 n).length) '0' ++ Nat.toDigits 16 n

/-- The two words of a UUID, as they are printed. -/
def uuidText (uuidUpper uuidLower : BitVec 64) : List Char :=
  hex 8 (uuidUpper >>> 32).toNat ++ '-' :: hex 4 (uuidUpper >>> 16 &&& 0xffff).toNat ++
    '-' :: hex 4 (uuidUpper &&& 0xffff).toNat ++ '-' :: hex 4 (uuidLower >>> 48).toNat ++
    '-' :: hex 12 (uuidLower &&& 0xffffffffffff).toNat

/-- The first word of a UUID. -/
def uuidUpper (sluid : BitVec 64) : BitVec 64 :=
  let unixTsMs := sluid >>> 10 &&& 0x3ffffffffff
  let seq := sluid &&& 0xff
  unixTsMs <<< 16 ||| (0x7000 : BitVec 64) ||| seq

/-- The second word of a UUID. -/
def uuidLower (sluid : BitVec 64) (stepId : BitVec 32) (padding : BitVec 64) : BitVec 64 :=
  let cluster := sluid >>> 56
  (0x8000000000000000 : BitVec 64) ||| cluster <<< 40 ||| padding <<< 18 ||| stepId.setWidth 64

/-- `_sluid2uuid`. -/
def sluid2uuidWith (sluid : BitVec 64) (stepId : BitVec 32) (padding : BitVec 64) : List Char :=
  uuidText (uuidUpper sluid) (uuidLower sluid stepId padding)

/-- `sluid2uuid`, where the padding stands in the place of the step, and the step in the place
of the padding. -/
def sluid2uuid (sluid : BitVec 64) (padding : BitVec 64) : List Char :=
  sluid2uuidWith sluid (padding.setWidth 32) 0xffffffff

/-- The fields of a `slurm_step_id_t` that are read. -/
structure StepId where
  sluid : BitVec 64
  stepId : BitVec 32
  deriving DecidableEq

/-- `stepid2uuid`. -/
def stepid2uuid (step : StepId) (padding : BitVec 64) : List Char :=
  sluid2uuidWith step.sluid step.stepId padding

/-! ## What the header says -/

/-- The cluster of a SLUID. -/
def clusterOf (sluid : BitVec 64) : BitVec 12 := sluid.extractLsb' 52 12

/-- The time of a SLUID. -/
def unixTsMsOf (sluid : BitVec 64) : BitVec 42 := sluid.extractLsb' 10 42

/-- The sequence number of a SLUID. -/
def sequenceOf (sluid : BitVec 64) : BitVec 10 := sluid.extractLsb' 0 10

/-- The layout of a UUID: a time, a version, a sequence, a variant, a cluster, a padding and a
step. -/
def layout (sluid : BitVec 64) (padding : BitVec 18) (step : BitVec 32) : BitVec 128 :=
  (unixTsMsOf sluid).setWidth 48 ++ 0x7#4 ++ (sequenceOf sluid).setWidth 12 ++ 0b10#2 ++
    clusterOf sluid ++ padding ++ step

/-- The value of a hexadecimal digit. -/
def hexVal (c : Char) : Nat := if c.isDigit then c.toNat - 48 else c.toNat - 87

/-- The number that a UUID stands for. -/
def uuidValue (uuid : List Char) : Nat := number 16 ((uuid.filter (· ≠ '-')).map hexVal)

/-- What a UUID is made for. -/
inductive Named where
  | job (sluid : BitVec 64)
  | step (step : StepId)
  deriving DecidableEq

/-- The UUID of a job or step. -/
def uuid (padding : BitVec 18) : Named → List Char
  | .job sluid => sluid2uuid sluid (padding.setWidth 64)
  | .step step => stepid2uuid step (padding.setWidth 64)

/-- The SLUID and the step that a UUID is made for. -/
def Named.fields : Named → BitVec 64 × BitVec 32
  | .job sluid => (sluid, 0xffffffff)
  | .step id => (id.sluid, id.stepId)

/-- What the header promises of the UUID of a job or step `a`, and of it beside another one. -/
structure UuidContract (padding : BitVec 18) (a b : Named) : Prop where
  layout : uuidValue (uuid padding a) = (layout a.fields.1 padding a.fields.2).toNat
  unique : uuid padding a = uuid padding b → a.fields = b.fields

/-- The fields fall into their places: there is no cluster, the sequence number has no more than
8 bits, and the padding is one that does not matter. -/
def Fits (padding : BitVec 18) : Named → Prop
  | .job sluid => clusterOf sluid = 0 ∧ (sequenceOf sluid).toNat < 2 ^ 8 ∧ padding = 0x3ffff
  | .step id => clusterOf id.sluid = 0 ∧ (sequenceOf id.sluid).toNat < 2 ^ 8 ∧ padding = 0

/-- The time and the low 8 bits of the sequence number are the same. -/
def SameUpper (sluid sluid' : BitVec 64) : Prop :=
  unixTsMsOf sluid = unixTsMsOf sluid' ∧
    (sequenceOf sluid).toNat % 2 ^ 8 = (sequenceOf sluid').toNat % 2 ^ 8

/-- The bits of a step that the padding leaves. -/
def maskedStep (padding : BitVec 18) (stepId : BitVec 32) : BitVec 32 :=
  padding.setWidth 32 <<< 18 ||| stepId

/-- Two jobs or steps are the same or differ in something that their UUIDs keep.  A job and a step
always do. -/
def KeptApart (padding : BitVec 18) : Named → Named → Prop
  | .job sluid, .job sluid' => SameUpper sluid sluid' → sluid = sluid'
  | .step id, .step id' =>
    SameUpper id.sluid id'.sluid →
      (clusterOf id.sluid).toNat / 2 ^ 4 = (clusterOf id'.sluid).toNat / 2 ^ 4 →
      maskedStep padding id.stepId = maskedStep padding id'.stepId → id = id'
  | .job _, .step _ => True
  | .step _, .job _ => True

/-! ## The number of a UUID -/

theorem hexVal_digitChar : ∀ d < 16, hexVal (Nat.digitChar d) = d := by decide

theorem digitChar_ne_dash : ∀ d < 16, Nat.digitChar d ≠ '-' := by decide

theorem number_toDigits (n : Nat) : number 16 ((Nat.toDigits 16 n).map hexVal) = n := by
  induction n using Nat.strongRecOn with
  | _ n ih =>
    rw [toDigits_eq_if (by decide)]
    split
    · rename_i hlt
      simp [number, hexVal_digitChar n hlt]
    · rename_i hge
      have hdigit := hexVal_digitChar (n % 16) (mod_lt n (by decide))
      rw [map_append, number_append, ih (n / 16) (by omega)]
      simp [number, hdigit]
      omega

theorem dash_not_mem_toDigits (n : Nat) : '-' ∉ Nat.toDigits 16 n := by
  induction n using Nat.strongRecOn with
  | _ n ih =>
    rw [toDigits_eq_if (by decide)]
    split
    · rename_i hlt
      simp [(digitChar_ne_dash n hlt).symm]
    · rename_i hge
      have hdigit := digitChar_ne_dash (n % 16) (mod_lt n (by decide))
      simp [ih (n / 16) (by omega), hdigit.symm]

theorem number_replicate_zero (k : Nat) (ds : List Nat) :
    number 16 (List.replicate k 0 ++ ds) = number 16 ds := by
  have hzero : number 16 (List.replicate k 0) = 0 :=
    (number_eq_zero (by decide)).mpr fun d hd => eq_of_mem_replicate hd
  rw [number_append, hzero, Nat.zero_mul, Nat.zero_add]

theorem number_hex (w n : Nat) : number 16 ((hex w n).map hexVal) = n := by
  have hzero : hexVal '0' = 0 := by decide
  rw [hex, map_append, map_replicate, hzero, number_replicate_zero, number_toDigits]

theorem length_hex {w n : Nat} (hw : 0 < w) (h : n < 16 ^ w) : (hex w n).length = w := by
  have hlen : (Nat.toDigits 16 n).length ≤ w := (length_toDigits_le_iff (by decide) hw).mpr h
  rw [hex, length_append, length_replicate]
  omega

theorem filter_hex (w n : Nat) : (hex w n).filter (· ≠ '-') = hex w n := by
  rw [filter_eq_self]
  intro c hc
  rw [hex, mem_append] at hc
  rcases hc with hc | hc
  · rw [eq_of_mem_replicate hc]
    rfl
  · have hne : c ≠ '-' := fun heq => dash_not_mem_toDigits n (heq ▸ hc)
    simpa using hne

/-- A piece of hexadecimal digits in front of others. -/
theorem number_hex_append {w n : Nat} (hw : 0 < w) (h : n < 16 ^ w) (rest : List Char) :
    number 16 ((rest ++ hex w n).map hexVal) = number 16 (rest.map hexVal) * 16 ^ w + n := by
  rw [map_append, number_append, number_hex, length_map, length_hex hw h]

theorem and_ffff_toNat (x : BitVec 64) : (x &&& 0xffff).toNat = x.toNat % 2 ^ 16 := by
  rw [BitVec.toNat_and]
  exact and_two_pow_sub_one_eq_mod x.toNat 16

/-- The number of a UUID is made of its two words. -/
theorem value_uuidText (upper lower : BitVec 64) :
    uuidValue (uuidText upper lower) = upper.toNat * 2 ^ 64 + lower.toNat := by
  have hupper := upper.isLt
  have hlower := lower.isLt
  have h1 : (upper >>> 32).toNat = upper.toNat / 2 ^ 32 := by
    rw [BitVec.toNat_ushiftRight, shiftRight_eq_div_pow]
  have h2 : (upper >>> 16 &&& 0xffff).toNat = upper.toNat / 2 ^ 16 % 2 ^ 16 := by
    rw [and_ffff_toNat, BitVec.toNat_ushiftRight, shiftRight_eq_div_pow]
  have h3 : (upper &&& 0xffff).toNat = upper.toNat % 2 ^ 16 := and_ffff_toNat upper
  have h4 : (lower >>> 48).toNat = lower.toNat / 2 ^ 48 := by
    rw [BitVec.toNat_ushiftRight, shiftRight_eq_div_pow]
  have h5 : (lower &&& 0xffffffffffff).toNat = lower.toNat % 2 ^ 48 := by
    rw [BitVec.toNat_and]
    exact and_two_pow_sub_one_eq_mod lower.toNat 48
  have hdash : ∀ rest : List Char,
      ('-' :: rest).filter (· ≠ '-') = rest.filter (· ≠ '-') := fun rest => by simp
  rw [uuidValue, uuidText]
  simp only [filter_append, hdash, filter_hex]
  rw [number_hex_append (by decide) (by rw [h5]; omega), number_hex_append (by decide) (by rw [h4]; omega),
    number_hex_append (by decide) (by rw [h3]; omega), number_hex_append (by decide) (by rw [h2]; omega),
    number_hex, h1, h2, h3, h4, h5]
  omega

/-- Two UUIDs are one text exactly when their words are. -/
theorem uuidText_inj {upper lower upper' lower' : BitVec 64} :
    uuidText upper lower = uuidText upper' lower' ↔ upper = upper' ∧ lower = lower' := by
  constructor
  · intro h
    have hvalue := congrArg uuidValue h
    rw [value_uuidText, value_uuidText] at hvalue
    have hlower := lower.isLt
    have hlower' := lower'.isLt
    exact ⟨BitVec.eq_of_toNat_eq (by omega), BitVec.eq_of_toNat_eq (by omega)⟩
  · intro h
    rw [h.1, h.2]

/-! ## The two words -/

theorem toNat_or_of_lt {x y : BitVec 64} {k : Nat} (hx : 2 ^ k ∣ x.toNat) (hy : y.toNat < 2 ^ k) :
    (x ||| y).toNat = x.toNat + y.toNat := by
  obtain ⟨m, hm⟩ := hx
  rw [BitVec.toNat_or, hm, Nat.mul_comm, ← shiftLeft_eq, shiftLeft_add_eq_or_of_lt hy]

theorem toNat_append_eq {v w : Nat} (x : BitVec v) (y : BitVec w) :
    (x ++ y).toNat = x.toNat * 2 ^ w + y.toNat := by
  rw [BitVec.toNat_append, ← shiftLeft_add_eq_or_of_lt y.isLt, shiftLeft_eq]

theorem clusterOf_toNat (sluid : BitVec 64) : (clusterOf sluid).toNat = sluid.toNat / 2 ^ 52 := by
  have := sluid.isLt
  rw [clusterOf, BitVec.extractLsb'_toNat, shiftRight_eq_div_pow]
  omega

theorem unixTsMsOf_toNat (sluid : BitVec 64) :
    (unixTsMsOf sluid).toNat = sluid.toNat / 2 ^ 10 % 2 ^ 42 := by
  rw [unixTsMsOf, BitVec.extractLsb'_toNat, shiftRight_eq_div_pow]

theorem sequenceOf_toNat (sluid : BitVec 64) : (sequenceOf sluid).toNat = sluid.toNat % 2 ^ 10 := by
  rw [sequenceOf, BitVec.extractLsb'_toNat, shiftRight_zero]

/-- The number of the layout, field by field. -/
theorem layout_toNat (sluid : BitVec 64) (padding : BitVec 18) (step : BitVec 32) :
    (layout sluid padding step).toNat =
      ((unixTsMsOf sluid).toNat * 2 ^ 16 + 0x7000 + (sequenceOf sluid).toNat) * 2 ^ 64 +
        (2 ^ 63 + (clusterOf sluid).toNat * 2 ^ 50 + padding.toNat * 2 ^ 32 + step.toNat) := by
  have hts := (unixTsMsOf sluid).isLt
  have hseq := (sequenceOf sluid).isLt
  have hversion : BitVec.toNat 0x7#4 = 7 := rfl
  have hvariant : BitVec.toNat 0b10#2 = 2 := rfl
  have hts' : ((unixTsMsOf sluid).setWidth 48).toNat = (unixTsMsOf sluid).toNat := by
    rw [BitVec.toNat_setWidth]
    omega
  have hseq' : ((sequenceOf sluid).setWidth 12).toNat = (sequenceOf sluid).toNat := by
    rw [BitVec.toNat_setWidth]
    omega
  simp only [layout, toNat_append_eq, hversion, hvariant, hts', hseq']
  omega

/-- The first word has the time, the version and the low 8 bits of the sequence number. -/
theorem upper_toNat (sluid : BitVec 64) :
    (uuidUpper sluid).toNat =
      (unixTsMsOf sluid).toNat * 2 ^ 16 + 0x7000 + (sequenceOf sluid).toNat % 2 ^ 8 := by
  have hts : ((sluid >>> 10 &&& 0x3ffffffffff) <<< 16).toNat = (unixTsMsOf sluid).toNat * 2 ^ 16 := by
    have hand : (sluid >>> 10 &&& 0x3ffffffffff).toNat = sluid.toNat / 2 ^ 10 % 2 ^ 42 := by
      rw [BitVec.toNat_and, BitVec.toNat_ushiftRight, shiftRight_eq_div_pow]
      exact and_two_pow_sub_one_eq_mod _ 42
    rw [BitVec.toNat_shiftLeft, shiftLeft_eq, hand, unixTsMsOf_toNat]
    omega
  have hseq : (sluid &&& 0xff).toNat = (sequenceOf sluid).toNat % 2 ^ 8 := by
    rw [BitVec.toNat_and, sequenceOf_toNat]
    have hmod : sluid.toNat &&& BitVec.toNat (0xff : BitVec 64) = sluid.toNat % 2 ^ 8 :=
      and_two_pow_sub_one_eq_mod sluid.toNat 8
    omega
  have hversion : BitVec.toNat (0x7000 : BitVec 64) = 0x7000 := rfl
  have hfirst : ((sluid >>> 10 &&& 0x3ffffffffff) <<< 16 ||| 0x7000).toNat =
      (unixTsMsOf sluid).toNat * 2 ^ 16 + 0x7000 := by
    rw [toNat_or_of_lt (k := 16) (by rw [hts]; exact Nat.dvd_mul_left _ _) (by decide), hts, hversion]
  rw [uuidUpper, toNat_or_of_lt (k := 8), hfirst, hseq]
  · rw [hfirst]
    omega
  · rw [hseq]
    exact mod_lt _ (by decide)

theorem cluster_toNat (sluid : BitVec 64) :
    ((sluid >>> 56) <<< 40 : BitVec 64).toNat = (clusterOf sluid).toNat / 2 ^ 4 * 2 ^ 40 := by
  have := sluid.isLt
  rw [BitVec.toNat_shiftLeft, shiftLeft_eq, BitVec.toNat_ushiftRight, shiftRight_eq_div_pow,
    clusterOf_toNat]
  omega

/-- The variant and the high 8 bits of the cluster. -/
theorem variantCluster_toNat (sluid : BitVec 64) :
    ((0x8000000000000000 : BitVec 64) ||| (sluid >>> 56) <<< 40).toNat =
      2 ^ 63 + (clusterOf sluid).toNat / 2 ^ 4 * 2 ^ 40 := by
  have hcluster := (clusterOf sluid).isLt
  have hvariant : BitVec.toNat (0x8000000000000000 : BitVec 64) = 2 ^ 63 := rfl
  rw [toNat_or_of_lt (k := 63) (by rw [hvariant]) (by rw [cluster_toNat]; omega), hvariant,
    cluster_toNat]

/-- The second word of a step has the high 8 bits of the cluster.  The low 14 bits of the padding
lie over the step. -/
theorem lowerStep_toNat (sluid : BitVec 64) (stepId : BitVec 32) (padding : BitVec 18) :
    (uuidLower sluid stepId (padding.setWidth 64)).toNat =
      2 ^ 63 + (clusterOf sluid).toNat / 2 ^ 4 * 2 ^ 40 + padding.toNat / 2 ^ 14 * 2 ^ 32 +
        (maskedStep padding stepId).toNat := by
  have hpadding := padding.isLt
  have hstep := stepId.isLt
  have hshifted : (padding.setWidth 64 <<< 18 : BitVec 64).toNat = padding.toNat * 2 ^ 18 := by
    rw [BitVec.toNat_shiftLeft, shiftLeft_eq, BitVec.toNat_setWidth]
    omega
  have hlow : (padding.setWidth 32 <<< 18 : BitVec 32).toNat = padding.toNat % 2 ^ 14 * 2 ^ 18 := by
    rw [BitVec.toNat_shiftLeft, shiftLeft_eq, BitVec.toNat_setWidth]
    omega
  have hstep64 : (stepId.setWidth 64).toNat = stepId.toNat := by
    rw [BitVec.toNat_setWidth]
    omega
  have hmasked : (maskedStep padding stepId).toNat = padding.toNat % 2 ^ 14 * 2 ^ 18 ||| stepId.toNat := by
    rw [maskedStep, BitVec.toNat_or, hlow]
  have hmasked_lt := (maskedStep padding stepId).isLt
  rw [hmasked] at hmasked_lt
  -- Above the step nothing overlaps.
  have hhigh : ((0x8000000000000000 : BitVec 64) ||| (sluid >>> 56) <<< 40 |||
      padding.setWidth 64 <<< 18).toNat =
      (2 ^ 31 + (clusterOf sluid).toNat / 2 ^ 4 * 2 ^ 8 + padding.toNat / 2 ^ 14) <<< 32 |||
        padding.toNat % 2 ^ 14 * 2 ^ 18 := by
    rw [toNat_or_of_lt (k := 40), variantCluster_toNat, hshifted, ← shiftLeft_add_eq_or_of_lt,
      shiftLeft_eq]
    · omega
    · omega
    · rw [variantCluster_toNat]
      omega
    · rw [hshifted]
      omega
  rw [uuidLower, BitVec.toNat_or, hhigh, hstep64, Nat.or_assoc,
    ← shiftLeft_add_eq_or_of_lt hmasked_lt, shiftLeft_eq, hmasked]
  omega

/-- The step that is put in the place of the padding lies over the cluster. -/
theorem cluster_or_step (sluid : BitVec 64) :
    (sluid >>> 56) <<< 40 ||| (0xffffffff : BitVec 64) <<< 18 = (0xffffffff : BitVec 64) <<< 18 := by
  apply BitVec.eq_of_getLsbD_eq
  intro i hi
  have hmask : ((0xffffffff : BitVec 64) <<< 18).getLsbD i = decide (18 ≤ i ∧ i < 50) := by
    revert i
    decide
  rw [BitVec.getLsbD_or, hmask]
  by_cases hmem : 18 ≤ i ∧ i < 50
  · simp [hmem]
  · by_cases hlt : i < 40
    · simp [hlt, hmem]
    · have hout : sluid.getLsbD (56 + (i - 40)) = false := BitVec.getLsbD_of_ge sluid _ (by omega)
      simp [hmem, hout]

/-- The second word of a job has nothing of the SLUID. -/
theorem lowerJob_toNat (sluid : BitVec 64) (padding : BitVec 18) :
    (uuidLower sluid ((padding.setWidth 64).setWidth 32) 0xffffffff).toNat =
      2 ^ 63 + 0xffffffff * 2 ^ 18 + padding.toNat := by
  have hpadding := padding.isLt
  have hpadding64 : (((padding.setWidth 64).setWidth 32).setWidth 64).toNat = padding.toNat := by
    simp only [BitVec.toNat_setWidth]
    omega
  have hhigh : BitVec.toNat ((0x8000000000000000 : BitVec 64) ||| (0xffffffff : BitVec 64) <<< 18) =
      2 ^ 63 + 0xffffffff * 2 ^ 18 := rfl
  rw [uuidLower, BitVec.or_assoc (0x8000000000000000 : BitVec 64), cluster_or_step,
    toNat_or_of_lt (k := 18) (by rw [hhigh]; decide) (by rw [hpadding64]; exact hpadding), hhigh, hpadding64]

/-! ## When the layout is the one of the header -/

/-- The words make the number of the layout exactly when each of them is one half of it. -/
theorem words_eq_layout_iff {sluid lower : BitVec 64} {padding : BitVec 18} {step : BitVec 32} :
    (uuidUpper sluid).toNat * 2 ^ 64 + lower.toNat = (layout sluid padding step).toNat ↔
      (sequenceOf sluid).toNat < 2 ^ 8 ∧
        lower.toNat = 2 ^ 63 + (clusterOf sluid).toNat * 2 ^ 50 + padding.toNat * 2 ^ 32 + step.toNat := by
  have hlower := lower.isLt
  have hcluster := (clusterOf sluid).isLt
  have hpadding := padding.isLt
  have hstep := step.isLt
  rw [layout_toNat, upper_toNat]
  omega

theorem clusterOf_eq_zero {sluid : BitVec 64} : clusterOf sluid = 0 ↔ (clusterOf sluid).toNat = 0 :=
  ⟨fun h => by rw [h]; rfl, fun h => BitVec.eq_of_toNat_eq h⟩

theorem stepLayout_iff (padding : BitVec 18) (id : StepId) :
    uuidValue (uuid padding (.step id)) = (layout id.sluid padding id.stepId).toNat ↔
      Fits padding (.step id) := by
  have hcluster := (clusterOf id.sluid).isLt
  have hpadding := padding.isLt
  have hstep := id.stepId.isLt
  have hmasked_lt := (maskedStep padding id.stepId).isLt
  have hzero : padding = 0 ↔ padding.toNat = 0 :=
    ⟨fun h => by rw [h]; rfl, fun h => BitVec.eq_of_toNat_eq h⟩
  have hmasked : padding = 0 → (maskedStep padding id.stepId).toNat = id.stepId.toNat := by
    intro h
    rw [h, maskedStep]
    simp
  show uuidValue (uuidText _ _) = _ ↔
    clusterOf id.sluid = 0 ∧ (sequenceOf id.sluid).toNat < 2 ^ 8 ∧ padding = 0
  rw [value_uuidText, words_eq_layout_iff, lowerStep_toNat, clusterOf_eq_zero]
  constructor
  · intro h
    have hcluster_zero : (clusterOf id.sluid).toNat = 0 := by omega
    exact ⟨hcluster_zero, h.1, hzero.mpr (by omega)⟩
  · intro h
    have hpadding_zero := hzero.mp h.2.2
    rw [hmasked h.2.2]
    omega

theorem eq_zero_of_mul_two_pow_le {c low k : Nat} (hlow : low < 2 ^ k) (hle : c * 2 ^ k ≤ low) :
    c = 0 := by
  by_contra hne
  have hpos : 1 * 2 ^ k ≤ c * 2 ^ k := Nat.mul_le_mul_right _ (Nat.pos_of_ne_zero hne)
  omega

/-- A step of `0xffffffff` in the place of the padding. -/
theorem wordJob_iff {c p : Nat} (hp : p < 2 ^ 18) :
    2 ^ 63 + 0xffffffff * 2 ^ 18 + p = 2 ^ 63 + c * 2 ^ 50 + p * 2 ^ 32 + 0xffffffff ↔
      c = 0 ∧ p = 0x3ffff := by
  constructor
  · intro h
    have hlow : 0xffffffff * 2 ^ 18 + p < 2 ^ 50 := by linarith
    have hle : c * 2 ^ 50 ≤ 0xffffffff * 2 ^ 18 + p := by linarith
    have hc := eq_zero_of_mul_two_pow_le hlow hle
    rw [hc] at h
    exact ⟨hc, by linarith⟩
  · intro h
    rw [h.1, h.2]
    norm_num

theorem jobLayout_iff (padding : BitVec 18) (sluid : BitVec 64) :
    uuidValue (uuid padding (.job sluid)) = (layout sluid padding 0xffffffff).toNat ↔
      Fits padding (.job sluid) := by
  have hcluster := (clusterOf sluid).isLt
  have hpadding := padding.isLt
  have hfull : padding = 0x3ffff ↔ padding.toNat = 0x3ffff :=
    ⟨fun h => by rw [h]; rfl, fun h => BitVec.eq_of_toNat_eq h⟩
  have hstep : BitVec.toNat (0xffffffff : BitVec 32) = 0xffffffff := rfl
  have hvalue := value_uuidText (uuidUpper sluid)
    (uuidLower sluid ((padding.setWidth 64).setWidth 32) 0xffffffff)
  rw [uuid, sluid2uuid, sluid2uuidWith, hvalue, words_eq_layout_iff, lowerJob_toNat, hstep]
  simp only [Fits, clusterOf_eq_zero, hfull]
  rw [wordJob_iff hpadding]
  exact and_left_comm

theorem layout_iff (padding : BitVec 18) (a : Named) :
    uuidValue (uuid padding a) = (layout a.fields.1 padding a.fields.2).toNat ↔ Fits padding a := by
  cases a with
  | job sluid => exact jobLayout_iff padding sluid
  | step id => exact stepLayout_iff padding id

/-! ## When two UUIDs are equal -/

theorem upper_inj {sluid sluid' : BitVec 64} :
    uuidUpper sluid = uuidUpper sluid' ↔ SameUpper sluid sluid' := by
  rw [← BitVec.toNat_inj, upper_toNat, upper_toNat, SameUpper, ← BitVec.toNat_inj]
  omega

theorem lowerStep_inj (padding : BitVec 18) (id id' : StepId) :
    uuidLower id.sluid id.stepId (padding.setWidth 64) =
        uuidLower id'.sluid id'.stepId (padding.setWidth 64) ↔
      (clusterOf id.sluid).toNat / 2 ^ 4 = (clusterOf id'.sluid).toNat / 2 ^ 4 ∧
        maskedStep padding id.stepId = maskedStep padding id'.stepId := by
  have hmasked := (maskedStep padding id.stepId).isLt
  have hmasked' := (maskedStep padding id'.stepId).isLt
  have hpadding := padding.isLt
  rw [← BitVec.toNat_inj, lowerStep_toNat, lowerStep_toNat,
    ← BitVec.toNat_inj (x := maskedStep padding id.stepId)]
  omega

/-- The second word of a job is none of a step. -/
theorem lowerJob_ne_lowerStep (padding : BitVec 18) (sluid : BitVec 64) (id : StepId) :
    uuidLower sluid ((padding.setWidth 64).setWidth 32) 0xffffffff ≠
      uuidLower id.sluid id.stepId (padding.setWidth 64) := by
  intro h
  have hcluster := (clusterOf id.sluid).isLt
  have hmasked := (maskedStep padding id.stepId).isLt
  have hpadding := padding.isLt
  have hnat := congrArg BitVec.toNat h
  rw [lowerJob_toNat, lowerStep_toNat] at hnat
  omega

theorem unique_iff (padding : BitVec 18) (a b : Named) :
    (uuid padding a = uuid padding b → a.fields = b.fields) ↔ KeptApart padding a b := by
  cases a with
  | job sluid =>
    cases b with
    | job sluid' =>
      have hsecond : uuidLower sluid ((padding.setWidth 64).setWidth 32) 0xffffffff =
          uuidLower sluid' ((padding.setWidth 64).setWidth 32) 0xffffffff :=
        BitVec.eq_of_toNat_eq (by rw [lowerJob_toNat, lowerJob_toNat])
      simp only [uuid, sluid2uuid, sluid2uuidWith, uuidText_inj, upper_inj, hsecond, Named.fields,
        Prod.mk.injEq, and_true, KeptApart]
    | step id' =>
      have hne := lowerJob_ne_lowerStep padding sluid id'
      simp only [uuid, sluid2uuid, stepid2uuid, sluid2uuidWith, uuidText_inj, hne, and_false,
        false_imp_iff, KeptApart]
  | step id =>
    cases b with
    | job sluid' =>
      have hne := (lowerJob_ne_lowerStep padding sluid' id).symm
      simp only [uuid, sluid2uuid, stepid2uuid, sluid2uuidWith, uuidText_inj, hne, and_false,
        false_imp_iff, KeptApart]
    | step id' =>
      have hfields : (id.sluid, id.stepId) = (id'.sluid, id'.stepId) ↔ id = id' := by
        cases id
        cases id'
        simp
      simp only [uuid, stepid2uuid, sluid2uuidWith, uuidText_inj, upper_inj, lowerStep_inj,
        Named.fields, hfields, KeptApart, and_imp]

/-! ## All UUIDs -/

/-- The UUID of a job or step is as the header says and tells it from another one exactly when its
fields fall into their places, and the two are the same or differ in something that is kept. -/
theorem uuidContract_iff (padding : BitVec 18) (a b : Named) :
    UuidContract padding a b ↔ Fits padding a ∧ KeptApart padding a b :=
  ⟨fun h => ⟨(layout_iff padding a).mp h.layout, (unique_iff padding a b).mp h.unique⟩,
    fun h => ⟨(layout_iff padding a).mpr h.1, (unique_iff padding a b).mpr h.2⟩⟩

/-- Two jobs of the same millisecond, the second of which has the sequence number 256, have the
same UUID. -/
theorem uuidContract_fails :
    ¬ UuidContract 0x12345 (.job 0x0020000000000400) (.job 0x0020000000000500) := by
  intro h
  have hsame : uuid 0x12345 (.job 0x0020000000000400) = uuid 0x12345 (.job 0x0020000000000500) := by
    rfl
  have hfields := h.unique hsame
  revert hfields
  decide

end Slurm.Sluid
