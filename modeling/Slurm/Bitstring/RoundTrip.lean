import Slurm.Bitstring.RangeFormat
import Slurm.Bitstring.RangeGrammar
import Slurm.Bitstring.Hexmask

/-!
# Round trips of the texts of bit strings

* `RoundTripContract`: range strings, hexadecimal masks and arrays of pairs are read back.
* `roundTripContract_iff`: an empty bit string has no range string, and nothing is cleared for it; a
  range string has to be short enough for the size of an array.
-/

namespace Slurm.Bitstring

open Lib.Decimal Lib.RangeList Lib.Int32 List

/-- `bitstr2inx` -/
def bitstr2inx (b : Bitstr) : List Int :=
  flat ((scanRuns b b.nbits b.nbits 0).map fun run => ((run.1 : Int), (run.2 : Int))) ++ [-1]

/-! ## The contract -/

/-- A reader returns 0 and the bits of `b`. -/
def Returns (b : Bitstr) (r : Option (Int × Bitstr)) : Prop :=
  ∃ b', r = some (0, b') ∧ bitEqual b' b = true

/-- What is promised of the texts of `b` that are read into `b2`. -/
structure RoundTripContract (b b2 : Bitstr) : Prop where
  full : Returns b (bitUnfmt b2 (bitFmtFull b))
  hexmask : Returns b (unfmtHexmask b2 (fmtHexmask b false))
  trim : Returns b (unfmtHexmask b2 (fmtHexmask b true))
  inx : Returns b (inx2bitstr b2 (bitstr2inx b))

/-- Bit `i` begins or ends a run of set bits. -/
def IsEdge (b : Bitstr) (i : Nat) : Prop :=
  b.bit i = true ∧ ((i = 0 ∨ b.bit (i - 1) = false) ∨ i + 1 = b.nbits ∨ b.bit (i + 1) = false)

instance (b : Bitstr) (i : Nat) : Decidable (IsEdge b i) := inferInstanceAs (Decidable (_ ∧ _))

/-- The characters of the number of a bit that begins or ends a run, and the one after it. -/
def edgeChars (b : Bitstr) (i : Nat) : Nat := if IsEdge b i then numDigits i + 1 else 0

/-- The characters of the range string of a bit string that is not empty, with the `'\0'`. -/
def rangeChars (b : Bitstr) : Nat := ∑ i ∈ Finset.range b.nbits, edgeChars b i

/-! ## The length of a range string -/

/-- The characters of the pieces, each with the one after it. -/
def pieceChars (rs : List (Nat × Nat)) : Nat := (rs.map fun r => (piece r).length + 1).sum

theorem length_text {rs : List (Nat × Nat)} (h : rs ≠ []) : (text rs).length + 1 = pieceChars rs := by
  induction rs with
  | nil => exact absurd rfl h
  | cons r rs ih =>
    rw [pieceChars, map_cons, sum_cons, ← pieceChars, text, map_cons]
    by_cases hlast : rs = []
    · subst hlast
      rw [map_nil, intercalate_singleton]
      rfl
    · rw [intercalate_cons_of_ne_nil (List.map_eq_nil_iff.not.mpr hlast), ← text, ← ih hlast]
      simp only [length_append, length_singleton]
      omega

theorem length_piece (r : Nat × Nat) : (piece r).length + 1 =
    if r.1 = r.2 then numDigits r.1 + 1 else numDigits r.1 + 1 + (numDigits r.2 + 1) := by
  rw [piece]
  split
  · rfl
  · rw [length_append, length_cons, ← numDigits, ← numDigits]
    omega

section Scan

variable {b : Bitstr} {bit : Nat}

/-- The run does not go on. -/
theorem runEnd_stop {fini fuel : Nat} (hfuel : fini ≤ bit + fuel) :
    ¬ (runEnd b fini fuel bit + 1 < fini ∧ b.bit (runEnd b fini fuel bit + 1) = true) := by
  induction fuel generalizing bit with
  | zero =>
    rw [runEnd]
    omega
  | succ fuel ih =>
    rw [runEnd]
    split
    · exact ih (by omega)
    · rename_i h
      rwa [bitTest_eq] at h

theorem sum_skip {f : Nat → Nat} {lo mid hi : Nat} (hle : lo ≤ mid) (h : ∀ i, lo ≤ i → i < mid → f i = 0) :
    ∑ i ∈ Finset.Ico lo hi, f i = ∑ i ∈ Finset.Ico mid hi, f i := by
  symm
  apply Finset.sum_subset
  · exact Finset.Ico_subset_Ico_left hle
  · intro i hi hnot
    rw [Finset.mem_Ico] at hi hnot
    exact h i hi.1 (by omega)

theorem edgeChars_clear {i : Nat} (h : b.bit i = false) : edgeChars b i = 0 :=
  if_neg fun hedge => Bool.false_ne_true (h.symm.trans hedge.1)

/-- The characters of a run. -/
theorem edgeChars_run {last : Nat} (hle : bit ≤ last) (hvalid : last < b.nbits) (hset : ∀ i, bit ≤ i → i ≤ last → b.bit i = true)
    (hfirst : bit = 0 ∨ b.bit (bit - 1) = false)
    (hlast : last + 1 = b.nbits ∨ b.bit (last + 1) = false) :
    ∑ i ∈ Finset.Ico bit (last + 1), edgeChars b i = (piece (bit, last)).length + 1 := by
  have hbit : edgeChars b bit = numDigits bit + 1 := if_pos ⟨hset bit (Nat.le_refl _) hle, .inl hfirst⟩
  have hend : edgeChars b last = numDigits last + 1 := if_pos ⟨hset last hle (Nat.le_refl _), .inr hlast⟩
  rw [length_piece]
  split
  · rename_i heq
    dsimp only at heq ⊢
    rw [← heq, Nat.Ico_succ_singleton, Finset.sum_singleton, hbit]
  · rename_i hne
    dsimp only at hne ⊢
    have hinner : ∀ i, bit + 1 ≤ i → i < last → edgeChars b i = 0 := by
      intro i hi hlt
      apply if_neg
      rintro ⟨-, (hzero | hprev) | hend | hnext⟩
      · omega
      · rw [hset (i - 1) (by omega) (by omega)] at hprev
        cases hprev
      · omega
      · rw [hset (i + 1) (by omega) (by omega)] at hnext
        cases hnext
    rw [Finset.sum_eq_sum_Ico_succ_bot (by omega), sum_skip (show bit + 1 ≤ last by omega) hinner,
      Nat.Ico_succ_singleton, Finset.sum_singleton, hbit, hend]

/-- The characters of the runs from a place on at which the loop comes to a word or to a run. -/
theorem pieceChars_scanRuns {fuel : Nat} (hfuel : b.nbits ≤ bit + fuel)
    (hword : b.word (bit / 64) = 0 → bit % 64 = 0)
    (hfirst : bit < b.nbits → b.bit bit = true → bit = 0 ∨ b.bit (bit - 1) = false) :
    pieceChars (scanRuns b b.nbits fuel bit) = ∑ i ∈ Finset.Ico bit b.nbits, edgeChars b i := by
  induction fuel generalizing bit with
  | zero =>
    rw [Finset.Ico_eq_empty_of_le (show b.nbits ≤ bit from hfuel)]
    rfl
  | succ fuel ih =>
    rw [scanRuns]
    split
    · rename_i hlt
      split
      · rename_i hzero
        have haligned := hword hzero
        have hclear : ∀ i, bit ≤ i → i < bit + 64 → b.bit i = false := by
          intro i hi hlt
          have hdiv : i / 64 = bit / 64 := by omega
          rw [Bitstr.bit, hdiv, hzero, getLsbD_zero]
        rw [ih (by omega) (fun _ => by omega) fun _ _ => .inr (hclear _ (by omega) (by omega))]
        exact (sum_skip (Nat.le_add_right bit 64) fun i hi hlt => edgeChars_clear (hclear i hi hlt)).symm
      · rename_i hnz
        split
        · rename_i hset
          rw [bitTest_eq] at hset
          obtain ⟨hle, hvalid, hall⟩ := runEnd_spec b.nbits hlt hset
          have hstop := @runEnd_stop b bit b.nbits b.nbits (Nat.le_add_left _ _)
          have hnext := word_ne_zero (hall _ hle (Nat.le_refl _))
          have hlast : runEnd b b.nbits b.nbits bit + 1 = b.nbits ∨
              b.bit (runEnd b b.nbits b.nbits bit + 1) = false := by
            by_contra hne
            rw [not_or, Bool.not_eq_false] at hne
            exact hstop ⟨by omega, hne.2⟩
          rw [pieceChars, map_cons, sum_cons, ← pieceChars,
            ← edgeChars_run hle hvalid hall (hfirst hlt hset) hlast, ih (by omega) ?_ ?_]
          · exact Finset.sum_Ico_consecutive _ (by omega) (by omega)
          · intro hzero
            by_contra hne
            have hdiv : (runEnd b b.nbits b.nbits bit + 1) / 64 = runEnd b b.nbits b.nbits bit / 64 := by
              omega
            exact hnext (hdiv ▸ hzero)
          · intro hlt' hset'
            exact absurd ⟨hlt', hset'⟩ hstop
        · rename_i hclear
          rw [bitTest_eq, Bool.not_eq_true] at hclear
          have hprev : b.bit (bit + 1 - 1) = false := by rwa [Nat.add_sub_cancel]
          rw [ih (by omega) ?_ fun _ _ => .inr hprev]
          · refine (sum_skip (Nat.le_succ bit) fun i hi hlt => ?_).symm
            have heq : i = bit := by omega
            exact edgeChars_clear (heq.symm ▸ hclear)
          · intro hzero
            by_contra hne
            have hdiv : (bit + 1) / 64 = bit / 64 := by omega
            exact hnz (hdiv ▸ hzero)
    · rw [Finset.Ico_eq_empty_of_le (by omega)]
      rfl

/-- The length of a range string. -/
theorem length_text_scanRuns (h : scanRuns b b.nbits b.nbits 0 ≠ []) :
    (text (scanRuns b b.nbits b.nbits 0)).length + 1 = rangeChars b := by
  rw [length_text h, pieceChars_scanRuns (by omega) (fun _ => rfl) fun _ _ => .inl rfl, rangeChars,
    Finset.range_eq_Ico]

end Scan

/-! ## The round trips -/

section Trips

variable {b b2 b' : Bitstr}

/-- The runs hold the set bits. -/
theorem denotes_runs {i : Nat} (hi : i < b.nbits) :
    Denotes (scanRuns b b.nbits b.nbits 0) i ↔ b.bit i = true := by
  rw [denotes_scanRuns (by omega)]
  exact ⟨fun h => h.2.2, fun h => ⟨⟨Nat.zero_le i, reached_of_aligned rfl⟩, hi, h⟩⟩

theorem runs_eq_nil : scanRuns b b.nbits b.nbits 0 = [] ↔ ∀ i, i < b.nbits → b.bit i = false := by
  constructor
  · intro h i hi
    by_contra hset
    have hden := (denotes_runs hi).mpr (Bool.of_not_eq_false hset)
    rw [h] at hden
    exact denotes_nil i hden
  · intro h
    apply List.eq_nil_iff_forall_not_mem.mpr
    intro run hrun
    have hin := scanRuns_within hrun
    have hset := (denotes_runs (show run.1 < b.nbits by omega)).mp ⟨run, hrun, Nat.le_refl _, hin.2.1⟩
    rw [h _ (by omega)] at hset
    cases hset

theorem bitEqual_of_holds {P : Nat → Prop} (h : b2.nbits = b.nbits) (hholds : Holds b2 b' P)
    (hP : ∀ i, i < b.nbits → (P i ↔ b.bit i = true)) : bitEqual b' b = true := by
  refine (bitEqual_iff b' b).mpr ⟨hholds.1.trans h, fun i hi => ?_⟩
  rw [hholds.1] at hi
  rw [Bool.eq_iff_iff, hholds.2 i hi]
  exact hP i (h ▸ hi)

/-- The runs of one bit string are the bits of another of the same size. -/
theorem returns_runs (h : b2.nbits = b.nbits) :
    Returns b (inx2bitstr b2 (flat ((scanRuns b b.nbits b.nbits 0).map pairOf) ++ [-1])) := by
  have hin : ∀ r ∈ scanRuns b b.nbits b.nbits 0, r.1 < b2.nbits ∧ r.2 < b2.nbits := by
    intro r hr
    have hr' := scanRuns_within hr
    omega
  obtain ⟨b', hok, hholds⟩ := inx2bitstr_list hin
  exact ⟨b', hok, bitEqual_of_holds h hholds fun i hi => denotes_runs hi⟩

theorem returns_inx (h : b2.nbits = b.nbits) : Returns b (inx2bitstr b2 (bitstr2inx b)) := by
  have hvalid := b.valid.2
  have hpairs : (scanRuns b b.nbits b.nbits 0).map (fun run => ((run.1 : Int), (run.2 : Int))) =
      (scanRuns b b.nbits b.nbits 0).map pairOf := by
    apply map_congr_left
    intro run hrun
    have hrun' := scanRuns_within hrun
    rw [pairOf_eq (by omega) (by omega)]
  rw [bitstr2inx, hpairs]
  exact returns_runs h

/-- Hexadecimal masks, where the bits that are not written are clear. -/
theorem returns_hexmask (h : b2.nbits = b.nbits) {trimOutput : Bool}
    (hsize : fmtSize b trimOutput ≤ b.nbits)
    (hclear : ∀ i, fmtSize b trimOutput ≤ i → i < b.nbits → b.bit i = false) :
    Returns b (unfmtHexmask b2 (fmtHexmask b trimOutput)) := by
  have hvalid := b.valid.2
  have hread := @bitUnfmtHexmask_fmt_extra (bitsOf b (fmtSize b trimOutput)) (b.nbits - fmtSize b trimOutput)
    (by rw [length_bitsOf]; omega)
  rw [length_bitsOf, Nat.add_sub_cancel' hsize, ← h] at hread
  obtain ⟨b', hok, hnbits, hbits⟩ := unfmtHexmask_eq hread
  refine ⟨b', by rw [fmtHexmask_eq]; exact hok, (bitEqual_iff b' b).mpr ⟨hnbits.trans h, fun i hi => ?_⟩⟩
  rw [hnbits] at hi
  rw [← getD_bitsOf b' hi, hbits]
  by_cases hlt : i < fmtSize b trimOutput
  · rw [getD_append _ _ _ _ (by rwa [length_bitsOf]), getD_bitsOf b hlt]
  · rw [getD_append_right _ _ _ _ (by rw [length_bitsOf]; omega), length_bitsOf,
      getD_replicate _ (by omega), hclear i (by omega) (by omega)]

theorem fmtSize_trim : fmtSize b true ≤ b.nbits ∧
    ∀ i, fmtSize b true ≤ i → i < b.nbits → b.bit i = false := by
  have hlast := bitFls_isLast b
  rw [fmtSize, if_pos rfl]
  cases hfls : bitFls b with
  | none =>
    rw [hfls] at hlast
    exact ⟨Nat.zero_le _, fun i _ hi => Bool.eq_false_iff.mpr fun hset => hlast i ⟨hi, hset⟩⟩
  | some last =>
    rw [hfls] at hlast
    refine ⟨hlast.1.1, fun i hle hi => Bool.eq_false_iff.mpr fun hset => ?_⟩
    exact hlast.2 i hle ⟨hi, hset⟩

/-- The range string is read back, unless it is `NULL` and there are bits to clear or it is
too long. -/
theorem returns_full_iff (h : b2.nbits = b.nbits) :
    Returns b (bitUnfmt b2 (bitFmtFull b)) ↔ rangeChars b < 1073741824 ∧
      ((∃ i, i < b.nbits ∧ b.bit i = true) ∨ ∀ i, i < b2.nbits → b2.bit i = false) := by
  rw [bitFmtFull, foldl_catRun_none]
  by_cases hnil : scanRuns b b.nbits b.nbits 0 = []
  · have hclear := runs_eq_nil.mp hnil
    have hchars : rangeChars b = 0 :=
      Finset.sum_eq_zero fun i hi => edgeChars_clear (hclear i (Finset.mem_range.mp hi))
    have hnone : ¬ ∃ i, i < b.nbits ∧ b.bit i = true := by
      rintro ⟨i, hi, hset⟩
      rw [hclear i hi] at hset
      cases hset
    have hnull : bitUnfmt b2 none = some (0, b2) := if_pos rfl
    rw [if_pos hnil, hnull, hchars, or_iff_right hnone]
    constructor
    · rintro ⟨b', hok, hequal⟩
      obtain ⟨-, rfl⟩ := Prod.mk.inj (Option.some.inj hok)
      refine ⟨by decide, fun i hi => ?_⟩
      rw [((bitEqual_iff b2 b).mp hequal).2 i hi]
      exact hclear i (h ▸ hi)
    · rintro ⟨-, hempty⟩
      refine ⟨b2, rfl, (bitEqual_iff b2 b).mpr ⟨h, fun i hi => ?_⟩⟩
      rw [hempty i hi, hclear i (h ▸ hi)]
  · have hset : ∃ i, i < b.nbits ∧ b.bit i = true := by
      by_contra hnone
      exact hnil (runs_eq_nil.mpr fun i hi => Bool.eq_false_iff.mpr fun hset => hnone ⟨i, hi, hset⟩)
    rw [if_neg hnil, bitUnfmt_list (read_text _) (text_ne_nil hnil), length_text_scanRuns hnil,
      and_iff_left (.inl hset)]
    split
    · rename_i hlong
      refine iff_of_false ?_ (by omega)
      rintro ⟨b', hok, -⟩
      cases hok
    · rename_i hshort
      exact iff_of_true (returns_runs h) (by omega)

end Trips

/-- The texts are read back exactly where the range string is short enough and a bit is set in `b` or
none in `b2`. -/
theorem roundTripContract_iff {b b2 : Bitstr} (h : b2.nbits = b.nbits) :
    RoundTripContract b b2 ↔ rangeChars b < 1073741824 ∧
      ((∃ i, i < b.nbits ∧ b.bit i = true) ∨ ∀ i, i < b2.nbits → b2.bit i = false) := by
  constructor
  · intro hcontract
    exact (returns_full_iff h).mp hcontract.full
  · intro hfull
    exact {
      full := (returns_full_iff h).mpr hfull
      hexmask := returns_hexmask h (Nat.le_refl _) fun i hle hi => absurd hi (Nat.not_lt.mpr hle)
      trim := returns_hexmask h fmtSize_trim.1 fmtSize_trim.2
      inx := returns_inx h }

/-- Seventy bits, of which the last one is set. -/
theorem roundTripContract_single :
    RoundTripContract (bitSet (bitAlloc 70 (by decide)) 69) (bitNset (bitAlloc 70 (by decide)) 3 40) := by
  apply (roundTripContract_iff ?_).mpr
  · exact ⟨by decide +kernel, .inl ⟨69, by decide +kernel, by decide +kernel⟩⟩
  · decide +kernel

/-- The range string of an empty bit string clears nothing. -/
theorem roundTripContract_fails :
    ¬ RoundTripContract (bitAlloc 8 (by decide)) (bitSet (bitAlloc 8 (by decide)) 0) := by
  intro h
  obtain ⟨b', hok, hequal⟩ := h.full
  have hread : (bitUnfmt (bitSet (bitAlloc 8 (by decide)) 0) (bitFmtFull (bitAlloc 8 (by decide)))).map
      (fun r => bitEqual r.2 (bitAlloc 8 (by decide))) = some false := by decide +kernel
  rw [hok, Option.map_some, hequal] at hread
  cases hread

/-! ## Arrays of a fixed size -/

theorem length_le_catRun (str : Option (List Char)) (run : Nat × Nat) :
    (str.getD []).length ≤ ((catRun str run).getD []).length := by
  cases str with
  | none => exact Nat.zero_le _
  | some str => simp [catRun]

theorem length_le_foldl_catRun (runs : List (Nat × Nat)) (str : Option (List Char)) :
    (str.getD []).length ≤ ((runs.foldl catRun str).getD []).length := by
  induction runs generalizing str with
  | nil => exact Nat.le_refl _
  | cons run runs ih => exact (length_le_catRun str run).trans (ih (catRun str run))

/-- Nothing is cut off where the whole text fits. -/
theorem foldl_catRunTo {len : Nat} (runs : List (Nat × Nat)) (str : Option (List Char))
    (hfits : ((runs.foldl catRun str).getD []).length < len) :
    runs.foldl (catRunTo len) str = runs.foldl catRun str := by
  induction runs generalizing str with
  | nil => rfl
  | cons run runs ih =>
    rw [foldl_cons] at hfits ⊢
    have hstep : catRunTo len str run = catRun str run := by
      have hle := length_le_foldl_catRun runs (catRun str run)
      rw [catRunTo]
      cases hrun : catRun str run with
      | none => rfl
      | some str' =>
        rw [hrun] at hle hfits
        rw [Option.map_some, take_of_length_le]
        rw [Option.getD_some] at hle
        omega
    rw [hstep, foldl_cons]
    exact ih _ hfits

/-- A range string needs at most 6 bytes for each bit, where the bits have numbers of 5 digits. -/
theorem rangeChars_le {b : Bitstr} (h : b.nbits ≤ 100000) : rangeChars b ≤ b.nbits * 6 := by
  have hedge : ∀ i ∈ Finset.range b.nbits, edgeChars b i ≤ 6 := by
    intro i hi
    have hlt := Finset.mem_range.mp hi
    have hdigits : numDigits i ≤ 5 := (numDigits_le_iff (by decide)).mpr (by omega)
    rw [edgeChars]
    split <;> omega
  calc rangeChars b ≤ (Finset.range b.nbits).card • 6 := Finset.sum_le_card_nsmul _ _ _ hedge
    _ = b.nbits * 6 := by rw [Finset.card_range, smul_eq_mul]

/-- A range string in an array of 6 bytes for each bit is read back into a new bit string. -/
theorem returns_bitFmt {b b2 : Bitstr} (h : b.nbits ≤ 100000) (hnbits : b2.nbits = b.nbits)
    (hclear : ∀ i, i < b2.nbits → b2.bit i = false) :
    Returns b (bitUnfmt b2 (some (bitFmt (b.nbits * 6) b))) := by
  have hchars := rangeChars_le h
  have hpos := b.valid.1
  have hlen : ((bitFmtFull b).getD []).length < b.nbits * 6 := by
    rw [bitFmtFull, foldl_catRun_none]
    split
    · exact Nat.mul_pos hpos (by decide)
    · rename_i hne
      have htext := length_text_scanRuns hne
      rw [Option.getD_some]
      omega
  have hfmt : bitFmt (b.nbits * 6) b = (bitFmtFull b).getD [] :=
    congrArg (fun str => str.getD []) (foldl_catRunTo _ _ hlen)
  have hread : bitUnfmt b2 (some (bitFmt (b.nbits * 6) b)) = bitUnfmt b2 (bitFmtFull b) := by
    rw [hfmt]
    rfl
  rw [hread]
  exact (returns_full_iff hnbits).mpr ⟨by omega, Or.inr hclear⟩

end Slurm.Bitstring
