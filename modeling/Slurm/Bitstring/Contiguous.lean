import Slurm.Bitstring.Observers
import Slurm.Lib.Int32

/-!
# Searches for contiguous bits

`bit_nffc`, `bit_noc` and `bit_nffs` go through a bit string bit by bit and count.

* `ContiguousContract`: the searches find the first run, from the start or from a seed.
* `contiguousContract_iff`: `bit_nffs` does not look at the last `n - 1` bits.  It finds runs of set bits
  that end before these, and the contract holds where there is such a run or none at all.
-/

namespace Slurm.Bitstring

open Lib.Search Lib.Consecutive Lib.Int32

/-! ## The functions -/

/-- `bit_nffc` -/
def bitNffc (b : Bitstr) (n : Nat) : Option Nat :=
  findRun (fun i => !bitTest b i) (fun _ => false) n b.nbits 0 0

/-- The offset at which `bit_noc` starts.  `seed + n` is an `int32_t`. -/
def nocSeed (b : Bitstr) (n seed : Nat) : Nat :=
  if wrap (seed + n) ≥ b.nbits then b.nbits else seed

/-- The two loops of `bit_noc`.  The second one starts at the beginning and ends at a bit that is set
after the seed. -/
def nocFrom (b : Bitstr) (n seed : Nat) : Option Nat :=
  match findRun (fun i => !bitTest b i) (fun _ => false) n (b.nbits - seed) seed 0 with
  | some value => some value
  | none => findRun (fun i => !bitTest b i) (fun i => decide (seed ≤ i)) n b.nbits 0 0

/-- `bit_noc` -/
def bitNoc (b : Bitstr) (n seed : Nat) : Option Nat := nocFrom b n (nocSeed b n seed)

/-- `bit_nffs` -/
def bitNffs (b : Bitstr) (n : Nat) : Option Nat :=
  findRun (bitTest b) (fun _ => false) n (b.nbits + 1 - n) 0 0

/-! ## The contract -/

/-- The `n` bits from `p` on are valid and all set. -/
def SetRun (b : Bitstr) (n p : Nat) : Prop := p + n ≤ b.nbits ∧ ∀ i, p ≤ i → i < p + n → b.bit i = true

/-- They are all clear. -/
def ClearRun (b : Bitstr) (n p : Nat) : Prop := p + n ≤ b.nbits ∧ ∀ i, p ≤ i → i < p + n → b.bit i = false

/-- What is promised of the searches for `n` contiguous bits. -/
structure ContiguousContract (b : Bitstr) (n seed : Nat) : Prop where
  nffs : IsFirst (SetRun b n) (bitNffs b n)
  nffc : n < b.nbits → IsFirst (ClearRun b n) (bitNffc b n)
  noc : ∀ p, bitNoc b n seed = some p → ClearRun b n p
  noc_none : bitNoc b n seed = none ↔ ∀ p, ¬ ClearRun b n p
  noc_seed : seed + n < b.nbits → ∀ p, IsFirst (fun q => seed ≤ q ∧ ClearRun b n q) (some p) →
    bitNoc b n seed = some p

/-- Where there is a run of set bits, there is one before the last `n - 1` bits. -/
def EndsEarly (b : Bitstr) (n : Nat) : Prop :=
  (∃ p, SetRun b n p) → ∃ p, SetRun b n p ∧ p + n + (n - 1) ≤ b.nbits

/-! ## The searches -/

variable {b : Bitstr} {n seed : Nat}

theorem findRun_isFirst_start {p stop : Nat → Bool} (hn : 0 < n) (len start : Nat) :
    IsFirst (RunAt p stop n start (start + len)) (findRun p stop n len start 0) :=
  findRun_isFirst hn hn (Nat.zero_le _) fun _ hi hlt => absurd hlt (Nat.not_lt.mpr hi)

theorem clearRun_iff {hi q start : Nat} (hhi : hi = b.nbits) :
    RunAt (fun i => !bitTest b i) (fun _ => false) n start hi q ↔ start ≤ q ∧ ClearRun b n q := by
  rw [hhi]
  constructor
  · intro h
    refine ⟨h.lo_le, h.le_hi, fun i hi hlt => ?_⟩
    have hclear := h.all i hi hlt
    rwa [bitTest_eq, Bool.not_eq_true'] at hclear
  · rintro ⟨hle, hrun, hclear⟩
    refine ⟨hle, hrun, fun i hi hlt => ?_, fun _ _ _ _ => rfl⟩
    rw [bitTest_eq, Bool.not_eq_true']
    exact hclear i hi hlt

theorem bitNffc_isFirst (hn : 0 < n) : IsFirst (ClearRun b n) (bitNffc b n) := by
  apply (findRun_isFirst_start hn b.nbits 0).congr
  intro q
  rw [clearRun_iff (Nat.zero_add _)]
  exact and_iff_right (Nat.zero_le q)

/-- `bit_nffs` finds the first run that ends before the last `n - 1` bits. -/
theorem bitNffs_isFirst (hn : 0 < n) (hle : n ≤ b.nbits) :
    IsFirst (fun p => SetRun b n p ∧ p + n + (n - 1) ≤ b.nbits) (bitNffs b n) := by
  apply (findRun_isFirst_start hn (b.nbits + 1 - n) 0).congr
  intro q
  constructor
  · intro h
    have hhi := h.le_hi
    refine ⟨⟨by omega, fun i hi hlt => ?_⟩, by omega⟩
    have hset := h.all i hi hlt
    rwa [bitTest_eq] at hset
  · rintro ⟨⟨hrun, hset⟩, hend⟩
    refine ⟨Nat.zero_le _, by omega, fun i hi hlt => ?_, fun _ _ _ _ => rfl⟩
    rw [bitTest_eq]
    exact hset i hi hlt

theorem nffs_iff (hn : 0 < n) (hle : n ≤ b.nbits) :
    IsFirst (SetRun b n) (bitNffs b n) ↔ EndsEarly b n := by
  have hfirst := bitNffs_isFirst (b := b) hn hle
  constructor
  · rintro h ⟨p, hp⟩
    cases hr : bitNffs b n with
    | none =>
      rw [hr] at h
      exact absurd hp (h p)
    | some q =>
      rw [hr] at hfirst
      exact ⟨q, hfirst.1⟩
  · intro hearly
    cases hr : bitNffs b n with
    | none =>
      rw [hr] at hfirst
      intro p hp
      obtain ⟨q, hq⟩ := hearly ⟨p, hp⟩
      exact hfirst q hq
    | some q =>
      rw [hr] at hfirst
      refine ⟨hfirst.1.1, fun p hlt hp => hfirst.2 p hlt ⟨hp, ?_⟩⟩
      -- A run before one that ends early ends early.
      have hend := hfirst.1.2
      omega

/-- The offset test of `bit_noc` is that of the sum itself: where this does not fit, the seed is past
the end. -/
theorem nocSeed_eq (hle : n ≤ b.nbits) :
    (seed + n < b.nbits ∧ nocSeed b n seed = seed) ∨
      (b.nbits ≤ seed + n ∧ b.nbits ≤ nocSeed b n seed) := by
  have hvalid := b.valid.2
  by_cases hfits : seed + n < 2147483648
  · have hwrap : wrap (seed + n) = seed + n := wrap_eq (by omega) (by omega)
    rw [nocSeed, hwrap]
    split
    · exact Or.inr ⟨by omega, Nat.le_refl _⟩
    · exact Or.inl ⟨by omega, rfl⟩
  · rw [nocSeed]
    split
    · exact Or.inr ⟨by omega, Nat.le_refl _⟩
    · exact Or.inr ⟨by omega, by omega⟩

/-- The second search of `bit_noc`, where there is no run from the seed on. -/
theorem noc_again (hn : 0 < n) {offset : Nat} (hnone : ∀ q, offset ≤ q → ¬ ClearRun b n q) :
    IsFirst (ClearRun b n)
      (findRun (fun i => !bitTest b i) (fun i => decide (offset ≤ i)) n b.nbits 0 0) := by
  apply (findRun_isFirst_start hn b.nbits 0).congr
  intro q
  constructor
  · intro h
    refine ⟨(Nat.zero_add b.nbits) ▸ h.le_hi, fun i hi hlt => ?_⟩
    have hclear := h.all i hi hlt
    rwa [bitTest_eq, Bool.not_eq_true'] at hclear
  · intro h
    have hq : q < offset := by
      by_contra hge
      exact hnone q (Nat.le_of_not_lt hge) h
    refine ⟨Nat.zero_le q, (Nat.zero_add b.nbits).symm ▸ h.1, fun i hi hlt => ?_, fun i _ hlt hi => ?_⟩
    · rw [bitTest_eq, Bool.not_eq_true']
      exact h.2 i hi hlt
    · -- A bit that is set is not in the run, and so before the seed.
      rw [bitTest_eq, Bool.not_eq_false'] at hi
      apply decide_eq_false
      intro hge
      rw [h.2 i (by omega) hlt] at hi
      cases hi

/-- `bit_noc` finds a run from the seed on if there is one, else the first run. -/
theorem nocFrom_spec (hn : 0 < n) (seed : Nat) :
    (∃ p, nocFrom b n seed = some p ∧ IsFirst (fun q => seed ≤ q ∧ ClearRun b n q) (some p)) ∨
      (∀ q, seed ≤ q → ¬ ClearRun b n q) ∧ IsFirst (ClearRun b n) (nocFrom b n seed) := by
  have hfirst : IsFirst (fun q => seed ≤ q ∧ ClearRun b n q)
      (findRun (fun i => !bitTest b i) (fun _ => false) n (b.nbits - seed) seed 0) := by
    by_cases hlt : seed ≤ b.nbits
    · apply (findRun_isFirst_start hn (b.nbits - seed) seed).congr
      intro q
      exact clearRun_iff (by omega)
    · rw [show b.nbits - seed = 0 from by omega]
      intro q hq
      have hrun := hq.2.1
      omega
  rw [nocFrom]
  generalize findRun (fun i => !bitTest b i) (fun _ => false) n (b.nbits - seed) seed 0 = found at hfirst
  cases found with
  | some p => exact Or.inl ⟨p, rfl, hfirst⟩
  | none =>
    have hnone : ∀ q, seed ≤ q → ¬ ClearRun b n q := fun q hq hrun => hfirst q ⟨hq, hrun⟩
    exact Or.inr ⟨hnone, noc_again hn hnone⟩

/-- The searches are right for `n` bits exactly when a run of `n` set bits, if there is one, is found
before the last `n - 1` bits. -/
theorem contiguousContract_iff (b : Bitstr) {n : Nat} (hn : 0 < n) (hle : n ≤ b.nbits) (seed : Nat) :
    ContiguousContract b n seed ↔ EndsEarly b n := by
  rw [← nffs_iff hn hle]
  refine ⟨fun h => h.nffs, fun hnffs => ?_⟩
  have hspec := nocFrom_spec (b := b) hn (nocSeed b n seed)
  rw [← bitNoc] at hspec
  refine ⟨hnffs, fun _ => bitNffc_isFirst hn, fun p hp => ?_, ?_, fun hlt p hp => ?_⟩
  · rcases hspec with ⟨q, hq, hfirst⟩ | ⟨-, hfirst⟩
    · rw [hq] at hp
      exact Option.some.inj hp ▸ hfirst.1.2
    · rw [hp] at hfirst
      exact hfirst.1
  · rcases hspec with ⟨q, hq, hfirst⟩ | ⟨-, hfirst⟩
    · rw [hq]
      exact iff_of_false (Option.some_ne_none q) fun hno => hno q hfirst.1.2
    · constructor
      · intro hnone
        rw [hnone] at hfirst
        exact hfirst
      · intro hno
        exact hfirst.unique hno
  · have hseed : nocSeed b n seed = seed := by
      rcases nocSeed_eq hle with ⟨-, heq⟩ | ⟨hge, -⟩
      · exact heq
      · omega
    rw [hseed] at hspec
    rcases hspec with ⟨q, hq, hfirst⟩ | ⟨hnone, -⟩
    · rw [hq]
      exact hfirst.unique hp
    · exact absurd hp.1.2 (hnone p hp.1.1)

/-- Four bits, all but the first one set. -/
def lastThree : Bitstr := bitNset (bitAlloc 4 ⟨by decide, by decide⟩) 1 3

theorem contiguousContract_single : ContiguousContract lastThree 1 0 ↔ EndsEarly lastThree 1 :=
  contiguousContract_iff lastThree (by decide) (by decide) 0

/-- The run of three set bits is not found. -/
theorem contiguousContract_fails : ¬ ContiguousContract lastThree 3 0 := by
  intro h
  have hnone : bitNffs lastThree 3 = none := by decide
  have hnffs := h.nffs
  rw [hnone] at hnffs
  exact hnffs 1 ⟨by decide, by decide⟩

end Slurm.Bitstring
