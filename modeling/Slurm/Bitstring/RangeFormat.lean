import Slurm.Bitstring.Observers
import Slurm.Lib.RangeList
import Slurm.Lib.Int32

/-!
# Range strings of bit strings (`bit_fmt_full` and `bit_fmt_range`)

`bit_fmt_full`, `bit_fmt_range` and `bitstr2inx` go through a bit string in one way: they pass
over 64 positions where the word is zero and take a run of set bits as a whole.  `scanRuns` is this
loop, with the runs that it finds.

* `denotes_scanRuns`: which bits the runs hold.
* `rangeContract_iff`: from an offset within a word the loop passes over the first bits of the word
  after the zero ones, and `offset + len` is an `int`.
-/

namespace Slurm.Bitstring

open Lib.RangeList Lib.Int32 List

/-! ## The functions -/

/-- `while (bit + 1 < fini_bit && bit_test(b, bit + 1))` -/
def runEnd (b : Bitstr) (fini : Nat) : Nat → Nat → Nat
  | 0, bit => bit
  | fuel + 1, bit =>
    if bit + 1 < fini ∧ bitTest b (bit + 1) = true then runEnd b fini fuel (bit + 1) else bit

/-- The loop over the bits from `bit` on: the first and the last bit of each run. -/
def scanRuns (b : Bitstr) (fini : Nat) : Nat → Nat → List (Nat × Nat)
  | 0, _ => []
  | fuel + 1, bit =>
    if bit < fini then
      if b.word (bit / 64) = 0 then scanRuns b fini fuel (bit + 64)
      else if bitTest b bit = true then
        (bit, runEnd b fini fini bit) :: scanRuns b fini fuel (runEnd b fini fini bit + 1)
      else scanRuns b fini fuel (bit + 1)
    else []

/-- The run at the end of the text, with `comma` before it. -/
def catRun (str : Option (List Char)) (run : Nat × Nat) : Option (List Char) :=
  match str with
  | none => some (piece run)
  | some str => some (str ++ ',' :: piece run)

/-- `bit_fmt_full`, which is `NULL` where no bit is set. -/
def bitFmtFull (b : Bitstr) : Option (List Char) := (scanRuns b b.nbits b.nbits 0).foldl catRun none

/-- A run at the end of the text in an array of `len` bytes, where `snprintf` cuts it off. -/
def catRunTo (len : Nat) (str : Option (List Char)) (run : Nat × Nat) : Option (List Char) :=
  (catRun str run).map (List.take (len - 1))

/-- `bit_fmt`, into an array of `len` bytes. -/
def bitFmt (len : Nat) (b : Bitstr) : List Char :=
  ((scanRuns b b.nbits b.nbits 0).foldl (catRunTo len) none).getD []

/-- `fini_bit` of `bit_fmt_range`.  No bit is below it where it is negative. -/
def finiBit (b : Bitstr) (offset len : Nat) : Nat := (min (b.nbits : Int) (wrap (offset + len))).toNat

/-- `bit_fmt_range` -/
def bitFmtRange (b : Bitstr) (offset len : Nat) : Option (List Char) :=
  ((scanRuns b (finiBit b offset len) b.nbits offset).map fun run =>
    (run.1 - offset, run.2 - offset)).foldl catRun none

/-- What a text is read as, where `NULL` is an empty one. -/
def readStr (str : Option (List Char)) : Option (List (Nat × Nat)) := read (str.getD [])

/-! ## The contract -/

/-- Bit `i` is set and in the window. -/
def WindowBit (b : Bitstr) (offset len i : Nat) : Prop :=
  offset ≤ i ∧ i < min b.nbits (offset + len) ∧ b.bit i = true

/-- The text denotes the window. -/
def RangeContract (b : Bitstr) (offset len : Nat) : Prop :=
  ∃ ranges, readStr (bitFmtRange b offset len) = some ranges ∧
    ∀ j, Denotes ranges j ↔ ∃ i, WindowBit b offset len i ∧ j = i - offset

/-- The loop from `bit` on comes to bit `i`: where it goes through the words at a place within the
word that is after bit `i`, it meets a word that is not zero before the one of bit `i`. -/
def Reached (b : Bitstr) (bit i : Nat) : Prop :=
  i % 64 < bit % 64 → ∃ k, bit / 64 ≤ k ∧ k < i / 64 ∧ b.word k ≠ 0

/-! ## The loop -/

variable {b : Bitstr} {fini bit i : Nat}

theorem word_ne_zero (h : b.bit i = true) : b.word (i / 64) ≠ 0 := by
  intro hzero
  rw [Bitstr.bit, hzero, getLsbD_zero] at h
  cases h

theorem reached_of_aligned (h : bit % 64 = 0) : Reached b bit i := by
  intro hlt
  omega

theorem reached_of_word (h : b.word (bit / 64) ≠ 0) (hle : bit ≤ i) : Reached b bit i :=
  fun _ => ⟨bit / 64, Nat.le_refl _, by omega, h⟩

/-- The loop goes on after a bit in a word that is not zero. -/
theorem reached_succ (h : b.word (bit / 64) ≠ 0) (hle : bit + 1 ≤ i) : Reached b (bit + 1) i := by
  by_cases haligned : (bit + 1) % 64 = 0
  · exact reached_of_aligned haligned
  · have hword : (bit + 1) / 64 = bit / 64 := by omega
    exact reached_of_word (hword.symm ▸ h) hle

/-- The loop passes over a zero word. -/
theorem reached_skip (hzero : b.word (bit / 64) = 0) (hset : b.bit i = true) :
    bit + 64 ≤ i ∧ Reached b (bit + 64) i ↔ bit ≤ i ∧ Reached b bit i := by
  have hword : i / 64 ≠ bit / 64 := fun heq => word_ne_zero hset (heq.symm ▸ hzero)
  constructor
  · rintro ⟨hle, hreach⟩
    refine ⟨by omega, fun hlt => ?_⟩
    obtain ⟨k, hk, hki, hne⟩ := hreach (by omega)
    exact ⟨k, by omega, hki, hne⟩
  · rintro ⟨hle, hreach⟩
    by_cases hlt : i % 64 < bit % 64
    · obtain ⟨k, hk, hki, hne⟩ := hreach hlt
      have hkb : k ≠ bit / 64 := fun heq => hne (heq.symm ▸ hzero)
      exact ⟨by omega, fun _ => ⟨k, by omega, hki, hne⟩⟩
    · exact ⟨by omega, fun h => absurd h (by omega)⟩

/-- The bits up to the end of the run are set. -/
theorem runEnd_spec (fuel : Nat) (hbit : bit < fini) (hset : b.bit bit = true) :
    bit ≤ runEnd b fini fuel bit ∧ runEnd b fini fuel bit < fini ∧
      ∀ i, bit ≤ i → i ≤ runEnd b fini fuel bit → b.bit i = true := by
  induction fuel generalizing bit with
  | zero => exact ⟨Nat.le_refl _, hbit, fun i hi hle => Nat.le_antisymm hi hle ▸ hset⟩
  | succ fuel ih =>
    rw [runEnd]
    split
    · rename_i h
      rw [bitTest_eq] at h
      obtain ⟨hle, hlt, hall⟩ := ih h.1 h.2
      refine ⟨by omega, hlt, fun i hi hlast => ?_⟩
      by_cases heq : i = bit
      · exact heq.symm ▸ hset
      · exact hall i (by omega) hlast
    · exact ⟨Nat.le_refl _, hbit, fun i hi hle => Nat.le_antisymm hi hle ▸ hset⟩

/-- The runs are in order within the window. -/
theorem scanRuns_within {fuel : Nat} {run : Nat × Nat} (h : run ∈ scanRuns b fini fuel bit) :
    bit ≤ run.1 ∧ run.1 ≤ run.2 ∧ run.2 < fini := by
  induction fuel generalizing bit with
  | zero => exact absurd h not_mem_nil
  | succ fuel ih =>
    rw [scanRuns] at h
    split at h
    · rename_i hbit
      split at h
      · have hrest := ih h
        exact ⟨by omega, hrest.2⟩
      · split at h
        · rename_i hset
          rw [bitTest_eq] at hset
          have hend := runEnd_spec fini hbit hset
          rcases List.mem_cons.mp h with h | h
          · rw [h]
            exact ⟨Nat.le_refl _, hend.1, hend.2.1⟩
          · have hrest := ih h
            exact ⟨by omega, hrest.2⟩
        · have hrest := ih h
          exact ⟨by omega, hrest.2⟩
    · exact absurd h not_mem_nil

/-- The runs hold the set bits that the loop comes to. -/
theorem denotes_scanRuns {fuel : Nat} (hfuel : fini ≤ bit + fuel) :
    Denotes (scanRuns b fini fuel bit) i ↔ (bit ≤ i ∧ Reached b bit i) ∧ i < fini ∧ b.bit i = true := by
  induction fuel generalizing bit with
  | zero =>
    rw [scanRuns]
    exact iff_of_false (denotes_nil i) fun h => by omega
  | succ fuel ih =>
    rw [scanRuns]
    split
    · rename_i hbit
      split
      · rename_i hzero
        rw [ih (by omega)]
        exact and_congr_left fun h => reached_skip hzero h.2
      · rename_i hword
        split
        · rename_i hset
          rw [bitTest_eq] at hset
          obtain ⟨hle, hlt, hall⟩ := runEnd_spec fini hbit hset
          have hnext := word_ne_zero (hall _ hle (Nat.le_refl _))
          rw [denotes_cons, ih (by omega)]
          constructor
          · rintro (h | h)
            · exact ⟨⟨h.1, reached_of_word hword h.1⟩, by omega, hall i h.1 h.2⟩
            · exact ⟨⟨by omega, reached_of_word hword (by omega)⟩, h.2⟩
          · intro h
            by_cases hrun : i ≤ runEnd b fini fini bit
            · exact .inl ⟨h.1.1, hrun⟩
            · exact .inr ⟨⟨by omega, reached_succ hnext (by omega)⟩, h.2⟩
        · rename_i hclear
          rw [bitTest_eq] at hclear
          rw [ih (by omega)]
          apply and_congr_left
          intro h
          have hne : i ≠ bit := fun heq => hclear (heq ▸ h.2)
          constructor
          · intro hi
            exact ⟨by omega, reached_of_word hword (by omega)⟩
          · intro hi
            exact ⟨by omega, reached_succ hword (by omega)⟩
    · exact iff_of_false (denotes_nil i) fun h => by omega

/-! ## The text -/

theorem foldl_catRun (runs done : List (Nat × Nat)) (hne : done ≠ []) :
    runs.foldl catRun (some (text done)) = some (text (done ++ runs)) := by
  induction runs generalizing done with
  | nil => rw [append_nil, foldl_nil]
  | cons run runs ih =>
    have hcat : catRun (some (text done)) run = some (text (done ++ [run])) := by
      rw [text_concat, if_neg hne]
      rfl
    rw [foldl_cons, hcat, ih _ (by simp), append_assoc]
    rfl

theorem foldl_catRun_none (runs : List (Nat × Nat)) :
    runs.foldl catRun none = if runs = [] then none else some (text runs) := by
  cases runs with
  | nil => rfl
  | cons run runs =>
    have hcat : catRun none run = some (text [run]) := by
      rw [text, map_singleton, intercalate_singleton]
      rfl
    rw [foldl_cons, hcat, foldl_catRun _ _ (cons_ne_nil _ _), if_neg (cons_ne_nil _ _)]
    rfl

/-- The text is read as the runs. -/
theorem readStr_foldl_catRun (runs : List (Nat × Nat)) : readStr (runs.foldl catRun none) = some runs := by
  rw [foldl_catRun_none, readStr]
  split
  · rename_i hnil
    rw [hnil]
    exact if_pos rfl
  · exact read_text runs

theorem denotes_shift {runs : List (Nat × Nat)} {offset : Nat}
    (h : ∀ run ∈ runs, offset ≤ run.1 ∧ run.1 ≤ run.2) (j : Nat) :
    Denotes (runs.map fun run => (run.1 - offset, run.2 - offset)) j ↔ Denotes runs (j + offset) := by
  constructor
  · rintro ⟨r, hr, hle⟩
    obtain ⟨run, hrun, rfl⟩ := List.mem_map.mp hr
    have hoff := h run hrun
    exact ⟨run, hrun, by dsimp only at hle; omega⟩
  · rintro ⟨run, hrun, hle⟩
    exact ⟨_, mem_map_of_mem hrun, by dsimp only; omega⟩

/-- What the text of `bit_fmt_range` denotes. -/
theorem readStr_bitFmtRange (b : Bitstr) (offset len : Nat) :
    ∃ ranges, readStr (bitFmtRange b offset len) = some ranges ∧
      ∀ j, Denotes ranges j ↔
        Reached b offset (j + offset) ∧ j + offset < finiBit b offset len ∧ b.bit (j + offset) = true := by
  refine ⟨_, readStr_foldl_catRun _, fun j => ?_⟩
  have hfini : finiBit b offset len ≤ b.nbits := by
    rw [finiBit]
    omega
  rw [denotes_shift fun run hrun => ⟨(scanRuns_within hrun).1, (scanRuns_within hrun).2.1⟩,
    denotes_scanRuns (by omega)]
  exact and_congr_left' (and_iff_right (Nat.le_add_left _ _))

/-! ## When the text denotes the window -/

variable {offset len : Nat}

theorem finiBit_eq (h : offset + len < 2147483648) :
    finiBit b offset len = min b.nbits (offset + len) := by
  rw [finiBit, wrap_eq (by omega) (by omega)]
  omega

theorem finiBit_overflow (ho : offset < 2147483648) (hl : len < 2147483648)
    (h : 2147483648 ≤ offset + len) : finiBit b offset len = 0 := by
  have hwrap : wrap ((offset : Int) + len) = offset + len - 4294967296 := by
    rw [wrap, modulus, Int.bmod_def]
    split
    · omega
    · omega
  rw [finiBit, hwrap]
  omega

/-- The text denotes the window exactly where `offset + len` is an `int` and the loop comes to each
set bit of the window. -/
theorem rangeContract_iff (ho : offset < 2147483648) (hl : len < 2147483648) :
    RangeContract b offset len ↔
      ∀ i, WindowBit b offset len i → offset + len < 2147483648 ∧ Reached b offset i := by
  obtain ⟨ranges, hread, hden⟩ := readStr_bitFmtRange b offset len
  have hcontract : RangeContract b offset len ↔
      ∀ j, (Reached b offset (j + offset) ∧ j + offset < finiBit b offset len ∧
        b.bit (j + offset) = true) ↔ ∃ i, WindowBit b offset len i ∧ j = i - offset := by
    constructor
    · rintro ⟨ranges', hread', h⟩ j
      rw [← hden j]
      rw [hread] at hread'
      rw [Option.some.inj hread']
      exact h j
    · intro h
      exact ⟨ranges, hread, fun j => (hden j).trans (h j)⟩
  rw [hcontract]
  by_cases hfits : offset + len < 2147483648
  · rw [finiBit_eq hfits]
    constructor
    · intro h i hi
      have hj := (h (i - offset)).mpr ⟨i, hi, rfl⟩
      rw [Nat.sub_add_cancel hi.1] at hj
      exact ⟨hfits, hj.1⟩
    · intro h j
      constructor
      · rintro ⟨-, hlt, hset⟩
        exact ⟨j + offset, ⟨Nat.le_add_left _ _, hlt, hset⟩, by omega⟩
      · rintro ⟨i, hi, rfl⟩
        rw [Nat.sub_add_cancel hi.1]
        exact ⟨(h i hi).2, hi.2⟩
  · rw [finiBit_overflow ho hl (by omega)]
    constructor
    · intro h i hi
      exact absurd ((h (i - offset)).mpr ⟨i, hi, rfl⟩).2.1 (Nat.not_lt_zero _)
    · intro h j
      constructor
      · rintro ⟨-, hlt, -⟩
        exact absurd hlt (Nat.not_lt_zero _)
      · rintro ⟨i, hi, -⟩
        exact absurd (h i hi).1 hfits

/-- Bit 70 of 128. -/
def bitSeventy : Bitstr := bitSet (bitAlloc 128 (by decide)) 70

theorem rangeContract_aligned : RangeContract bitSeventy 64 10 :=
  (rangeContract_iff (by decide) (by decide)).mpr fun _ _ => ⟨by decide, reached_of_aligned rfl⟩

/-- From bit 10 on the first word is zero, and the loop goes on at bit 74. -/
theorem rangeContract_fails : ¬ RangeContract bitSeventy 10 100 := by
  rintro ⟨ranges, hread, hden⟩
  have hnull : readStr (bitFmtRange bitSeventy 10 100) = some [] := by decide +kernel
  rw [hnull] at hread
  have h := (hden 60).mpr ⟨70, ⟨by decide, by decide, by decide +kernel⟩, rfl⟩
  rw [← Option.some.inj hread] at h
  exact denotes_nil 60 h

end Slurm.Bitstring
