import Slurm.Lib.Run
import Slurm.Sluid.Model

/-!
# SLUIDs are unique, ordered and faithfully printed

A run of the generator is a list of readings of the clock.  Its state keeps the SLUIDs
that were returned, the last one first.

* `Inv`: the state of the generator and the last SLUID, up to the last millisecond.
* `exec_increasing_iff`: one call.
* `sluidContract_iff`: all of what is promised of SLUIDs, exactly when no call carries
  the time into the cluster bits and the string that is read has a first digit that fits.
-/

namespace Slurm.Sluid

open Lib.Run Nat

/-! ## Runs -/

/-- How the generator is initialized: the time is below `2 ^ 42` milliseconds. -/
structure Setup where
  cluster : ClusterId
  minimum : BitVec 64
  ms_lt : (minimum * 1000).toNat < 2 ^ 42

/-- A reading of the clock below `2 ^ 42` milliseconds. -/
structure Clock where
  ts : Timespec
  ms_lt : ts.ms.toNat < 2 ^ 42

/-- The generator and the SLUIDs that it has returned, the last one first. -/
structure Issued where
  gen : Gen
  sluids : List (BitVec 64)

/-- A call of `generate_sluid`. -/
def exec (w : Issued) (c : Clock) : Option Issued :=
  (generateSluid w.gen c.ts).map fun (sluid, gen) => ⟨gen, sluid :: w.sluids⟩

/-- The generator after `sluid_init`. -/
def start (init : Setup) : Issued := ⟨sluidInit initial init.cluster.id init.minimum, []⟩

/-- The SLUIDs increase and have the cluster ID in their top 12 bits. -/
def Increasing (cluster : ClusterId) (w : Issued) : Prop :=
  w.sluids.Pairwise (fun later earlier => earlier < later) ∧
    ∀ s ∈ w.sluids, s >>> 52 = cluster.id.setWidth 64

/-- What is promised of SLUIDs, for a run of the generator and a string that is read. -/
structure SluidContract (init : Setup) (readings : List Clock) (string : List Char) : Prop where
  increasing : Always exec (Increasing init.cluster) (start init) readings
  runs : (run exec (start init) readings).isSome
  roundTrip : ∀ s, str2sluid (sluid2str s) = s
  order : ∀ s t, sluid2str s < sluid2str t ↔ s < t
  printed : str2sluid string ≠ 0 → canonical string = canonical (sluid2str (str2sluid string))

/-- The call does not carry the time into the cluster bits: it is not the one after the
last sequence number of the last millisecond. -/
def NoCarry (w : Issued) (c : Clock) : Prop :=
  w.gen.lastMs < c.ts.ms ∨ w.gen.seq.toNat < 0x3ff ∨ w.gen.lastMs.toNat + 1 < 2 ^ 42

/-! ## The value of a SLUID -/

variable {cluster : ClusterId} {g : Gen}

/-- The variables are in the range of their fields. -/
structure InRange (cluster : ClusterId) (g : Gen) : Prop where
  clusterBits : g.clusterBits = cluster.id.setWidth 64 <<< 52
  lastMs_lt : g.lastMs.toNat < 2 ^ 42
  seq_lt : g.seq.toNat < 2 ^ 10

theorem clusterBits_toNat (cluster : ClusterId) :
    (cluster.id.setWidth 64 <<< 52 : BitVec 64).toNat = cluster.id.toNat * 2 ^ 52 := by
  have := cluster.lt
  rw [BitVec.toNat_shiftLeft, shiftLeft_eq, BitVec.toNat_setWidth]
  omega

theorem sluid_toNat (h : InRange cluster g) :
    g.sluid.toNat = cluster.id.toNat * 2 ^ 52 + g.lastMs.toNat * 2 ^ 10 + g.seq.toNat := by
  have hms := h.lastMs_lt
  have hseq := h.seq_lt
  have hshift : (g.lastMs <<< 10).toNat = g.lastMs.toNat <<< 10 := by
    rw [BitVec.toNat_shiftLeft, shiftLeft_eq]
    omega
  have hlow : (g.seq ||| g.lastMs <<< 10).toNat = g.lastMs.toNat * 2 ^ 10 + g.seq.toNat := by
    rw [BitVec.toNat_or, hshift, Nat.or_comm, ← shiftLeft_add_eq_or_of_lt hseq,
      shiftLeft_eq]
  have hcluster : (cluster.id.setWidth 64 <<< 52 : BitVec 64).toNat = cluster.id.toNat <<< 52 := by
    rw [clusterBits_toNat, shiftLeft_eq]
  rw [Gen.sluid, BitVec.toNat_or, hlow, h.clusterBits, hcluster, Nat.or_comm,
    ← shiftLeft_add_eq_or_of_lt (by omega), shiftLeft_eq, Nat.add_assoc]

theorem sluid_cluster (h : InRange cluster g) :
    g.sluid >>> 52 = cluster.id.setWidth 64 := by
  have hms := h.lastMs_lt
  have hseq := h.seq_lt
  have hid := cluster.lt
  apply BitVec.eq_of_toNat_eq
  rw [BitVec.toNat_ushiftRight, sluid_toNat h, shiftRight_eq_div_pow, BitVec.toNat_setWidth]
  omega

/-! ## One call -/

/-- The last SLUID that was returned has the time and the sequence number of the generator,
where one was returned. -/
def LastIssued (w : Issued) : Prop :=
  w.sluids = [] ∧ w.gen.seq = 0 ∨ ∃ earlier, w.sluids = w.gen.sluid :: earlier

/-- The invariant of the generator. -/
structure Inv (cluster : ClusterId) (w : Issued) : Prop where
  range : InRange cluster w.gen
  increasing : Increasing cluster w
  last : LastIssued w

theorem clusterBits_ne_zero (h : InRange cluster g) : g.clusterBits ≠ 0 := by
  intro hzero
  have hnat := clusterBits_toNat cluster
  rw [← h.clusterBits, hzero] at hnat
  have hid : cluster.id.toNat ≠ 0 := fun hid => cluster.ne_zero (BitVec.eq_of_toNat_eq hid)
  have : BitVec.toNat (0 : BitVec 64) = 0 := rfl
  omega

variable {w : Issued}

theorem exec_eq (h : InRange cluster w.gen) (c : Clock) :
    exec w c = some ⟨tick w.gen c.ts.ms, (tick w.gen c.ts.ms).sluid :: w.sluids⟩ := by
  rw [exec, generateSluid, if_neg (clusterBits_ne_zero h)]
  rfl

/-- What `tick` does to variables in their ranges. -/
theorem tick_cases (h : InRange cluster g) (ms : BitVec 64) :
    g.lastMs < ms ∧ tick g ms = ⟨g.clusterBits, ms, 0⟩ ∨
    ¬ g.lastMs < ms ∧ g.seq.toNat = 0x3ff ∧
      tick g ms = ⟨g.clusterBits, g.lastMs + 1, 0⟩ ∨
    ¬ g.lastMs < ms ∧ g.seq.toNat < 0x3ff ∧ tick g ms = ⟨g.clusterBits, g.lastMs, g.seq + 1⟩ := by
  have hseq := h.seq_lt
  have hfull : 0x3ff < g.seq + 1 ↔ 0x3ff ≤ g.seq.toNat := by
    rw [BitVec.lt_def, BitVec.toNat_add]
    change 0x3ff < (g.seq.toNat + 1) % 2 ^ 64 ↔ _
    omega
  rw [tick]
  split
  · rename_i hlt
    exact Or.inl ⟨hlt, rfl⟩
  · rename_i hlt
    split
    · rename_i hgt
      exact Or.inr (Or.inl ⟨hlt, by have := hfull.mp hgt; omega, rfl⟩)
    · rename_i hgt
      exact Or.inr (Or.inr ⟨hlt, Nat.lt_of_not_le fun hle => hgt (hfull.mpr hle), rfl⟩)

theorem add_one_toNat {x : BitVec 64} (h : x.toNat < 2 ^ 42) : (x + 1).toNat = x.toNat + 1 := by
  rw [BitVec.toNat_add]
  exact mod_eq_of_lt (by change _ + 1 < _; omega)

variable {c : Clock}

/-- Where the time is not carried, the fields stay in their ranges and the time and the
sequence number increase. -/
theorem tick_spec (h : InRange cluster w.gen) (hcarry : NoCarry w c) :
    InRange cluster (tick w.gen c.ts.ms) ∧
      w.gen.sluid.toNat < (tick w.gen c.ts.ms).sluid.toNat := by
  have hms := h.lastMs_lt
  have hseq := h.seq_lt
  have hclock := c.ms_lt
  have hzero : BitVec.toNat (0 : BitVec 64) = 0 := rfl
  rcases tick_cases h c.ts.ms with ⟨hlt, htick⟩ | ⟨hlt, hfull, htick⟩ | ⟨hlt, hroom, htick⟩
  · rw [htick]
    have hrange : InRange cluster ⟨w.gen.clusterBits, c.ts.ms, 0⟩ :=
      ⟨h.clusterBits, hclock, Nat.two_pow_pos 10⟩
    refine ⟨hrange, ?_⟩
    rw [BitVec.lt_def] at hlt
    rw [sluid_toNat h, sluid_toNat hrange, hzero]
    dsimp only
    omega
  · rw [htick]
    rcases hcarry with hcarry | hcarry | hcarry
    · exact absurd hcarry hlt
    · omega
    · have hone := add_one_toNat hms
      have hrange : InRange cluster ⟨w.gen.clusterBits, w.gen.lastMs + 1, 0⟩ :=
        ⟨h.clusterBits, by rw [hone]; exact hcarry, Nat.two_pow_pos 10⟩
      refine ⟨hrange, ?_⟩
      rw [sluid_toNat h, sluid_toNat hrange, hone, hzero]
      omega
  · rw [htick]
    have hone := add_one_toNat (show w.gen.seq.toNat < 2 ^ 42 by omega)
    have hrange : InRange cluster ⟨w.gen.clusterBits, w.gen.lastMs, w.gen.seq + 1⟩ :=
      ⟨h.clusterBits, hms, by rw [hone]; omega⟩
    refine ⟨hrange, ?_⟩
    rw [sluid_toNat h, sluid_toNat hrange, hone]
    dsimp only
    omega

/-- The SLUIDs that were returned are at most the last one. -/
theorem Inv.le_last (h : Inv cluster w) {s : BitVec 64} (hs : s ∈ w.sluids) :
    s.toNat ≤ w.gen.sluid.toNat := by
  rcases h.last with ⟨hnil, -⟩ | ⟨earlier, hcons⟩
  · rw [hnil] at hs
    exact absurd hs List.not_mem_nil
  · have hpairwise := h.increasing.1
    rw [hcons] at hs hpairwise
    rcases List.mem_cons.mp hs with rfl | hs
    · exact Nat.le_refl _
    · exact Nat.le_of_lt (List.rel_of_pairwise_cons hpairwise hs)

/-- There is no SLUID of the cluster after the last one of the last millisecond. -/
theorem not_increasing (h : Inv cluster w) (hcarry : ¬ NoCarry w c) (new : BitVec 64) :
    ¬ Increasing cluster ⟨tick w.gen c.ts.ms, new :: w.sluids⟩ := by
  intro hincreasing
  have hms := h.range.lastMs_lt
  have hseq := h.range.seq_lt
  have hid := cluster.lt
  rw [NoCarry, not_or, not_or] at hcarry
  obtain ⟨-, hfull, hlast⟩ := hcarry
  have hissued : w.gen.sluid ∈ w.sluids := by
    rcases h.last with ⟨-, hzero⟩ | ⟨earlier, hcons⟩
    · rw [hzero] at hfull
      exact absurd (by decide) hfull
    · rw [hcons]
      exact List.mem_cons_self
  have hlt : w.gen.sluid.toNat < new.toNat := List.rel_of_pairwise_cons hincreasing.1 hissued
  have hcluster := congrArg BitVec.toNat (hincreasing.2 new List.mem_cons_self)
  rw [BitVec.toNat_ushiftRight, shiftRight_eq_div_pow, BitVec.toNat_setWidth] at hcluster
  rw [sluid_toNat h.range] at hlt
  omega

theorem exec_increasing_iff {w' : Issued} (h : Inv cluster w) (hexec : exec w c = some w') :
    (NoCarry w c → Inv cluster w') ∧ (Increasing cluster w' ↔ NoCarry w c) := by
  rw [exec_eq h.range, Option.some.injEq] at hexec
  subst hexec
  have hinv : NoCarry w c → Inv cluster ⟨tick w.gen c.ts.ms, (tick w.gen c.ts.ms).sluid :: w.sluids⟩ := by
    intro hcarry
    obtain ⟨hrange, hlt⟩ := tick_spec h.range hcarry
    refine ⟨hrange, ⟨List.pairwise_cons.mpr ⟨?_, h.increasing.1⟩, ?_⟩, Or.inr ⟨_, rfl⟩⟩
    · exact fun s hs => Nat.lt_of_le_of_lt (h.le_last hs) hlt
    · intro s hs
      rcases List.mem_cons.mp hs with rfl | hs
      · exact sluid_cluster hrange
      · exact h.increasing.2 s hs
  refine ⟨hinv, fun hincreasing => ?_, fun hcarry => (hinv hcarry).increasing⟩
  by_contra hcarry
  exact not_increasing h hcarry _ hincreasing

/-! ## All runs and all strings -/

theorem start_inv (init : Setup) : Inv init.cluster (start init) where
  range := ⟨rfl, init.ms_lt, Nat.two_pow_pos 10⟩
  increasing := ⟨List.Pairwise.nil, fun _ hs => absurd hs List.not_mem_nil⟩
  last := Or.inl ⟨rfl, rfl⟩

theorem runs_isSome (h : w.gen.clusterBits ≠ 0) (readings : List Clock) :
    (run exec w readings).isSome := by
  refine run_isSome (P := fun w => w.gen.clusterBits ≠ 0) ?_ h readings
  intro w c hw
  refine ⟨_, by rw [exec, generateSluid, if_neg hw]; rfl, ?_⟩
  rw [tick]
  split
  · exact hw
  · split <;> exact hw

/-- SLUIDs are as they should be exactly when no call carries the time into the cluster bits and
the string that is read has a first digit that fits. -/
theorem sluidContract_iff (init : Setup) (readings : List Clock) (string : List Char) :
    SluidContract init readings string ↔
      Guarded exec NoCarry (start init) readings ∧ FirstDigitFits string := by
  have hruns : Always exec (Increasing init.cluster) (start init) readings ↔
      Guarded exec NoCarry (start init) readings :=
    always_iff_guarded (I := Inv init.cluster) (fun w hw => hw.increasing)
      (fun w c w' => exec_increasing_iff) (start_inv init)
  constructor
  · exact fun h => ⟨hruns.mp h.increasing, (printed_iff string).mp h.printed⟩
  · rintro ⟨hguarded, hfits⟩
    exact {
      increasing := hruns.mpr hguarded
      runs := runs_isSome (clusterBits_ne_zero (start_inv init).range) readings
      roundTrip := str2sluid_sluid2str
      order := sluid2str_lt
      printed := (printed_iff string).mpr hfits }

/-- The first digit `G` is read as 0, so the string is read as the SLUID 1. -/
theorem sluidContract_fails :
    ¬ SluidContract ⟨generateClusterId 0, 0, by decide⟩ [] "sG000000000001".toList := by
  intro h
  have hprinted := h.printed
  revert hprinted
  decide

end Slurm.Sluid
