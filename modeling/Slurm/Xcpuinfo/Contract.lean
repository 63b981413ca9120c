import Slurm.Bitstring.RoundTrip

/-!
# Abstract and machine CPU IDs

`src/slurmd/common/xcpuinfo.c`: the block map of a node and its inverse, and the two conversions
between strings of abstract cores and strings of machine CPUs.

* `computeBlockMapInv_getD`: the inverse of the block map.
-/

namespace Slurm.Xcpuinfo

open Slurm.Bitstring List

variable {i : Nat}

/-! ## The code -/

/-- The loop of `_compute_block_map` that fills in `block_map_inv`. -/
def computeBlockMapInv (numproc : Nat) (blockMap : List Nat) : List Nat :=
  (List.range numproc).foldl (fun inv i => inv.set (blockMap.getD i 0) i) (List.replicate numproc 0)

/-- A node: its sizes, which are of 16 bits, and its block map, which is a permutation of its
CPUs. -/
structure Conf where
  sockets : Nat
  cores : Nat
  threads : Nat
  actualThreads : Nat
  blockMapSize : Nat
  blockMap : List Nat
  size_eq : sockets * cores * actualThreads = blockMapSize
  size_pos : 0 < blockMapSize
  size_lt : blockMapSize < 2 ^ 16
  threads_pos : 1 ≤ threads
  threads_le : threads ≤ actualThreads
  perm : blockMap.Perm (List.range blockMapSize)

variable (conf : Conf)

/-- `block_map_inv`. -/
def Conf.blockMapInv : List Nat := computeBlockMapInv conf.blockMapSize conf.blockMap

/-- `total_cores`, which is worked out once. -/
def Conf.totalCores : Nat := conf.sockets * conf.cores

theorem Conf.totalCores_pos : 0 < conf.totalCores := by
  have hsize := conf.size_eq
  have hpos := conf.size_pos
  rw [← hsize] at hpos
  exact Nat.pos_of_mul_pos_right hpos

theorem Conf.totalCores_le : conf.totalCores ≤ conf.blockMapSize := by
  have hthreads := conf.threads_pos.trans conf.threads_le
  rw [← conf.size_eq]
  exact Nat.le_mul_of_pos_right _ hthreads

/-- The sizes of the bit strings are valid. -/
theorem Conf.validCores : ValidSize conf.totalCores :=
  ⟨conf.totalCores_pos, conf.totalCores_le.trans (conf.size_lt.le.trans (by decide))⟩

theorem Conf.validCpus : ValidSize conf.blockMapSize :=
  ⟨conf.size_pos, conf.size_lt.le.trans (by decide)⟩

/-- A new bit string for the cores. -/
def Conf.coreBits : Bitstr := bitAlloc conf.totalCores conf.validCores

/-- A new bit string for the CPUs. -/
def Conf.cpuBits : Bitstr := bitAlloc conf.blockMapSize conf.validCpus

/-- The ID of a thread of a core, `% total_cpus`. -/
def Conf.cpuId (icore ithread : Nat) : Nat :=
  (icore * conf.actualThreads + ithread) % conf.blockMapSize

/-- How a conversion ends.  `overrun` is a string too long for the array that it is read into. -/
inductive Conversion where
  | overrun
  | failed
  | range (s : List Char)
  deriving DecidableEq

/-- What a bit string is read as, and what is done with it. -/
def withBits (b : Bitstr) (s : List Char) (f : Bitstr → List Char) : Conversion :=
  match bitUnfmt b (some s) with
  | none => .overrun
  | some (rc, bits) => if rc ≠ 0 then .failed else .range (f bits)

/-- The loops of `xcpuinfo_abs_to_mac`. -/
def absToMacBits (absmap : Bitstr) : Bitstr :=
  (List.range conf.totalCores).foldl (fun macmap icore =>
    if bitTest absmap icore = true then
      (List.range conf.threads).foldl (fun macmap ithread =>
        bitSet macmap (conf.blockMap.getD (conf.cpuId icore ithread) 0 % conf.blockMapSize)) macmap
    else macmap) conf.cpuBits

/-- `xcpuinfo_abs_to_mac`. -/
def xcpuinfoAbsToMac (lrange : List Char) : Conversion :=
  withBits conf.coreBits lrange fun absmap =>
    bitFmt (conf.blockMapSize * 6) (absToMacBits conf absmap)

/-- The first loops of `xcpuinfo_mac_to_abs`: the abstract CPUs. -/
def macToAbsCpus (macmap : Bitstr) : Bitstr :=
  (List.range conf.totalCores).foldl (fun absmap icore =>
    (List.range conf.threads).foldl (fun absmap ithread =>
      if bitTest macmap (conf.cpuId icore ithread) = true then
        bitSet absmap (conf.blockMapInv.getD (conf.cpuId icore ithread) 0 % conf.blockMapSize)
      else absmap) absmap) conf.cpuBits

/-- The other loops of `xcpuinfo_mac_to_abs`: the abstract cores. -/
def macToAbsCores (absmap : Bitstr) : Bitstr :=
  (List.range conf.totalCores).foldl (fun absmapCore icore =>
    if (List.range conf.threads).any (fun ithread => bitTest absmap (conf.cpuId icore ithread)) = true
    then bitSet absmapCore icore
    else absmapCore) conf.coreBits

/-- `xcpuinfo_mac_to_abs`. -/
def xcpuinfoMacToAbs (inRange : List Char) : Conversion :=
  withBits conf.cpuBits inRange fun macmap =>
    bitFmt (conf.totalCores * 6) (macToAbsCores conf (macToAbsCpus conf macmap))

/-! ## The block map -/

theorem length_blockMap : conf.blockMap.length = conf.blockMapSize := by
  simpa using conf.perm.length_eq

theorem blockMap_lt (hi : i < conf.blockMapSize) : conf.blockMap.getD i 0 < conf.blockMapSize := by
  have hi' : i < conf.blockMap.length := by rwa [length_blockMap]
  rw [getD_eq_getElem _ _ hi']
  simpa using conf.perm.mem_iff.mp (getElem_mem hi')

theorem blockMap_inj {j : Nat} (hi : i < conf.blockMapSize) (hj : j < conf.blockMapSize)
    (h : conf.blockMap.getD i 0 = conf.blockMap.getD j 0) : i = j := by
  have hi' : i < conf.blockMap.length := by rwa [length_blockMap]
  have hj' : j < conf.blockMap.length := by rwa [length_blockMap]
  have hnodup : conf.blockMap.Nodup := conf.perm.nodup_iff.mpr nodup_range
  rw [getD_eq_getElem _ _ hi', getD_eq_getElem _ _ hj'] at h
  exact (hnodup.getElem_inj_iff).mp h

theorem blockMap_surj {m : Nat} (hm : m < conf.blockMapSize) :
    ∃ i, i < conf.blockMapSize ∧ conf.blockMap.getD i 0 = m := by
  have hmem : m ∈ conf.blockMap := conf.perm.mem_iff.mpr (List.mem_range.mpr hm)
  obtain ⟨i, hi, heq⟩ := getElem_of_mem hmem
  refine ⟨i, by rwa [← length_blockMap], ?_⟩
  rw [getD_eq_getElem _ _ hi, heq]

theorem length_foldl_set (f : Nat → Nat) (n : Nat) (inv : List Nat) :
    ((List.range n).foldl (fun inv i => inv.set (f i) i) inv).length = inv.length := by
  induction n with
  | zero => rfl
  | succ n ih => simp [range_succ, ih]

/-- The loop that fills in the inverse: an entry that was written is kept, as all numbers of the
block map differ. -/
theorem foldl_set_getD {f : Nat → Nat} {n : Nat} (hinj : ∀ i < n, ∀ j < n, f i = f j → i = j)
    (inv : List Nat) (hlt : ∀ i < n, f i < inv.length) (hi : i < n) :
    ((List.range n).foldl (fun inv i => inv.set (f i) i) inv).getD (f i) 0 = i := by
  induction n with
  | zero => omega
  | succ n ih =>
    have hlen := length_foldl_set f n inv
    have hn := hlt n (Nat.lt_succ_self n)
    rw [range_succ, foldl_append, foldl_cons, foldl_nil]
    by_cases heq : i = n
    · rw [heq, getD_eq_getElem _ _ (by simpa [hlen] using hn), getElem_set_self]
    · have hne : f n ≠ f i := fun h => heq (hinj i hi n (Nat.lt_succ_self n) h.symm)
      rw [getD_eq_getElem?_getD, getElem?_set_ne hne, ← getD_eq_getElem?_getD]
      exact ih (fun i hi j hj => hinj i (by omega) j (by omega)) (fun i hi => hlt i (by omega)) (by omega)

/-- The inverse leads back. -/
theorem computeBlockMapInv_getD (hi : i < conf.blockMapSize) :
    conf.blockMapInv.getD (conf.blockMap.getD i 0) 0 = i :=
  foldl_set_getD (f := fun i => conf.blockMap.getD i 0)
    (fun _ hi _ hj h => blockMap_inj conf hi hj h) _
    (fun i hi => by rw [length_replicate]; exact blockMap_lt conf hi) hi

end Slurm.Xcpuinfo

/-!
## Converting CPU IDs there and back

* `absToMacBits_iff`, `macToAbs_iff`: the bits that the two conversions set.
* `convertContract_iff`: the conversions are inverse, and the second one takes the right cores,
  exactly when the block map keeps the configured threads among the machine IDs that are looked at.
-/

namespace Slurm.Xcpuinfo

open Slurm.Bitstring List Nat

variable (conf : Conf)
variable {b bits : Bitstr} {icore ithread : Nat}

/-! ## What is promised -/

/-- A string of cores or CPUs stands for some bits. -/
def Stands (b : Bitstr) (s : List Char) (bits : Bitstr) : Prop := bitUnfmt b (some s) = some (0, bits)

/-- A core has a CPU of its first threads in the machine CPUs. -/
def CoreIn (macmap : Bitstr) (icore : Nat) : Prop :=
  ∃ ithread < conf.threads,
    macmap.bit (conf.blockMap.getD (icore * conf.actualThreads + ithread) 0) = true

/-- What is promised of the conversions. -/
structure ConvertContract : Prop where
  inverse : ∀ lrange cores, Stands conf.coreBits lrange cores →
    ∃ prange outRange cores', xcpuinfoAbsToMac conf lrange = .range prange ∧
      xcpuinfoMacToAbs conf prange = .range outRange ∧ Stands conf.coreBits outRange cores' ∧
      ∀ icore < conf.totalCores, cores'.bit icore = cores.bit icore
  cores : ∀ inRange macmap, Stands conf.cpuBits inRange macmap →
    ∃ outRange cores, xcpuinfoMacToAbs conf inRange = .range outRange ∧
      Stands conf.coreBits outRange cores ∧
      ∀ icore < conf.totalCores, cores.bit icore = true ↔ CoreIn conf macmap icore

/-- The first threads of every core are CPUs whose machine IDs are looked at. -/
def Aligned : Prop :=
  ∀ icore < conf.totalCores, ∀ ithread < conf.threads,
    conf.blockMap.getD (icore * conf.actualThreads + ithread) 0 % conf.actualThreads < conf.threads

/-! ## The bits that the loops set -/

/-- A loop that sets bits: each turn sets those of `S`, and keeps the others. -/
theorem bit_foldl {α : Type} {f : Bitstr → α → Bitstr} {S : α → Nat → Prop} {n : Nat} {l : List α}
    (hf : ∀ x ∈ l, ∀ b : Bitstr, b.nbits = n →
      (f b x).nbits = n ∧ ∀ i, (f b x).bit i = true ↔ b.bit i = true ∨ S x i) (hb : b.nbits = n) :
    (l.foldl f b).nbits = n ∧ ∀ i, (l.foldl f b).bit i = true ↔ b.bit i = true ∨ ∃ x ∈ l, S x i := by
  induction l generalizing b with
  | nil => exact ⟨hb, fun i => by simp⟩
  | cons x l ih =>
    obtain ⟨hnbits, hbit⟩ := hf x mem_cons_self b hb
    obtain ⟨hnbits', hbit'⟩ := ih (fun y hy => hf y (mem_cons_of_mem x hy)) hnbits
    refine ⟨hnbits', fun i => ?_⟩
    rw [foldl_cons, hbit', hbit, exists_mem_cons_iff, or_assoc]

theorem bitSet_iff {i : Nat} (hi : i < b.nbits) (j : Nat) :
    (bitSet b i).bit j = true ↔ b.bit j = true ∨ j = i := by
  rw [bit_bitSet hi, Bool.or_eq_true, decide_eq_true_eq, or_comm]

theorem coreBits_clear (i : Nat) : conf.coreBits.bit i = false :=
  bit_bitAlloc _ conf.validCores i

theorem cpuBits_clear (i : Nat) : conf.cpuBits.bit i = false :=
  bit_bitAlloc _ conf.validCpus i

theorem cpuId_eq (hcore : icore < conf.totalCores) (hthread : ithread < conf.actualThreads) :
    conf.cpuId icore ithread = icore * conf.actualThreads + ithread ∧
      icore * conf.actualThreads + ithread < conf.blockMapSize := by
  have hlt : icore * conf.actualThreads + ithread < conf.blockMapSize := by
    have hnext : (icore + 1) * conf.actualThreads ≤ conf.totalCores * conf.actualThreads :=
      Nat.mul_le_mul_right _ hcore
    rw [Conf.totalCores, conf.size_eq, succ_mul] at hnext
    omega
  exact ⟨mod_eq_of_lt hlt, hlt⟩

/-- The core and the thread of a CPU ID. -/
theorem core_lt {m : Nat} (hm : m < conf.blockMapSize) : m / conf.actualThreads < conf.totalCores := by
  rw [← conf.size_eq] at hm
  exact Nat.div_lt_of_lt_mul (by rwa [Nat.mul_comm])

theorem core_thread_unique {n icore' ithread' : Nat} (hthread : ithread < n)
    (hthread' : ithread' < n) (h : icore * n + ithread = icore' * n + ithread') :
    icore = icore' ∧ ithread = ithread' := by
  have hpos : 0 < n := zero_lt_of_lt hthread
  have hdiv := congrArg (· / n) h
  have hmod := congrArg (· % n) h
  simp only [Nat.mul_comm _ n, mul_add_div hpos, mul_add_mod, div_eq_of_lt hthread,
    div_eq_of_lt hthread', mod_eq_of_lt hthread, mod_eq_of_lt hthread'] at hdiv hmod
  exact ⟨by omega, hmod⟩

variable {conf} in
theorem thread_lt (h : ithread < conf.threads) : ithread < conf.actualThreads :=
  h.trans_le conf.threads_le

/-- The machine CPUs of some abstract cores. -/
theorem absToMacBits_iff (absmap : Bitstr) :
    (absToMacBits conf absmap).nbits = conf.blockMapSize ∧
      ∀ m, (absToMacBits conf absmap).bit m = true ↔
        ∃ icore < conf.totalCores, absmap.bit icore = true ∧
          ∃ ithread < conf.threads, m = conf.blockMap.getD (icore * conf.actualThreads + ithread) 0 := by
  have hinner : ∀ icore ∈ List.range conf.totalCores, ∀ b : Bitstr, b.nbits = conf.blockMapSize →
      ((List.range conf.threads).foldl (fun macmap ithread =>
          bitSet macmap (conf.blockMap.getD (conf.cpuId icore ithread) 0 % conf.blockMapSize)) b).nbits =
        conf.blockMapSize ∧
      ∀ m, ((List.range conf.threads).foldl (fun macmap ithread =>
          bitSet macmap (conf.blockMap.getD (conf.cpuId icore ithread) 0 % conf.blockMapSize)) b).bit m =
            true ↔ b.bit m = true ∨ ∃ ithread ∈ List.range conf.threads,
              m = conf.blockMap.getD (icore * conf.actualThreads + ithread) 0 := by
    intro icore hcore b hb
    refine bit_foldl (S := fun ithread m =>
      m = conf.blockMap.getD (icore * conf.actualThreads + ithread) 0) (fun ithread hthread b hb => ?_) hb
    obtain ⟨hid, hlt⟩ := cpuId_eq conf (List.mem_range.mp hcore) (thread_lt (List.mem_range.mp hthread))
    have hmac := blockMap_lt conf hlt
    rw [hid, mod_eq_of_lt hmac]
    exact ⟨hb, bitSet_iff (by rw [hb]; exact hmac)⟩
  have houter := bit_foldl (n := conf.blockMapSize) (S := fun icore m => absmap.bit icore = true ∧
    ∃ ithread ∈ List.range conf.threads,
      m = conf.blockMap.getD (icore * conf.actualThreads + ithread) 0)
    (l := List.range conf.totalCores) (b := conf.cpuBits) (f := fun macmap icore =>
      if bitTest absmap icore = true then
        (List.range conf.threads).foldl (fun macmap ithread =>
          bitSet macmap (conf.blockMap.getD (conf.cpuId icore ithread) 0 % conf.blockMapSize)) macmap
      else macmap) (fun icore hcore b hb => by
        rw [bitTest_eq]
        split
        · rename_i hset
          simpa [hset] using hinner icore hcore b hb
        · rename_i hclear
          exact ⟨hb, fun m => (or_iff_left fun h => hclear h.1).symm⟩) rfl
  refine ⟨houter.1, fun m => ?_⟩
  have hclear : conf.cpuBits.bit m ≠ true := by
    rw [cpuBits_clear]
    decide
  rw [absToMacBits, houter.2, or_iff_right hclear]
  simp

/-- The abstract CPUs of some machine CPUs.  Only the machine IDs of the first threads are looked
at. -/
theorem macToAbsCpus_iff (macmap : Bitstr) :
    (macToAbsCpus conf macmap).nbits = conf.blockMapSize ∧
      ∀ a, (macToAbsCpus conf macmap).bit a = true ↔
        ∃ icore < conf.totalCores, ∃ ithread < conf.threads,
          macmap.bit (icore * conf.actualThreads + ithread) = true ∧
            a = conf.blockMapInv.getD (icore * conf.actualThreads + ithread) 0 % conf.blockMapSize := by
  have hpos := conf.size_pos
  have houter := bit_foldl (n := conf.blockMapSize) (S := fun icore a =>
    ∃ ithread ∈ List.range conf.threads, macmap.bit (icore * conf.actualThreads + ithread) = true ∧
      a = conf.blockMapInv.getD (icore * conf.actualThreads + ithread) 0 % conf.blockMapSize)
    (l := List.range conf.totalCores) (b := conf.cpuBits) (f := fun absmap icore =>
      (List.range conf.threads).foldl (fun absmap ithread =>
        if bitTest macmap (conf.cpuId icore ithread) = true then
          bitSet absmap (conf.blockMapInv.getD (conf.cpuId icore ithread) 0 % conf.blockMapSize)
        else absmap) absmap) (fun icore hcore b hb => by
          refine bit_foldl (S := fun ithread a =>
            macmap.bit (icore * conf.actualThreads + ithread) = true ∧
              a = conf.blockMapInv.getD (icore * conf.actualThreads + ithread) 0 % conf.blockMapSize)
            (fun ithread hthread b hb => ?_) hb
          obtain ⟨hid, -⟩ := cpuId_eq conf (List.mem_range.mp hcore)
            (thread_lt (List.mem_range.mp hthread))
          rw [hid, bitTest_eq]
          split
          · rename_i hset
            refine ⟨hb, fun a => ?_⟩
            rw [bitSet_iff (by rw [hb]; exact mod_lt _ hpos), and_iff_right hset]
          · rename_i hclear
            exact ⟨hb, fun a => (or_iff_left fun h => hclear h.1).symm⟩) rfl
  refine ⟨houter.1, fun a => ?_⟩
  have hclear : conf.cpuBits.bit a ≠ true := by
    rw [cpuBits_clear]
    decide
  rw [macToAbsCpus, houter.2, or_iff_right hclear]
  simp

/-- The cores of some abstract CPUs. -/
theorem macToAbsCores_iff (absmap : Bitstr) :
    (macToAbsCores conf absmap).nbits = conf.totalCores ∧
      ∀ icore < conf.totalCores, (macToAbsCores conf absmap).bit icore = true ↔
        ∃ ithread < conf.threads, absmap.bit (icore * conf.actualThreads + ithread) = true := by
  have houter := bit_foldl (n := conf.totalCores) (S := fun icore i => i = icore ∧
    ∃ ithread < conf.threads, absmap.bit (icore * conf.actualThreads + ithread) = true)
    (l := List.range conf.totalCores) (b := conf.coreBits) (f := fun absmapCore icore =>
      if (List.range conf.threads).any (fun ithread => bitTest absmap (conf.cpuId icore ithread)) = true
      then bitSet absmapCore icore
      else absmapCore) (fun icore hcore b hb => by
        have hany : (List.range conf.threads).any
            (fun ithread => bitTest absmap (conf.cpuId icore ithread)) = true ↔
              ∃ ithread < conf.threads,
                absmap.bit (icore * conf.actualThreads + ithread) = true := by
          rw [any_eq_true]
          constructor
          · intro h
            obtain ⟨ithread, hthread, hset⟩ := h
            rw [mem_range] at hthread
            rw [(cpuId_eq conf (List.mem_range.mp hcore) (thread_lt hthread)).1, bitTest_eq] at hset
            exact ⟨ithread, hthread, hset⟩
          · intro h
            obtain ⟨ithread, hthread, hset⟩ := h
            refine ⟨ithread, List.mem_range.mpr hthread, ?_⟩
            rw [(cpuId_eq conf (List.mem_range.mp hcore) (thread_lt hthread)).1, bitTest_eq]
            exact hset
        split
        · rename_i hset
          refine ⟨hb, fun i => ?_⟩
          rw [bitSet_iff (by rw [hb]; exact List.mem_range.mp hcore), and_iff_left (hany.mp hset)]
        · rename_i hclear
          exact ⟨hb, fun i => (or_iff_left fun h => hclear (hany.mpr h.2)).symm⟩) rfl
  refine ⟨houter.1, fun icore hcore => ?_⟩
  have hclear : conf.coreBits.bit icore ≠ true := by
    rw [coreBits_clear]
    decide
  rw [macToAbsCores, houter.2, or_iff_right hclear]
  constructor
  · intro h
    obtain ⟨icore', -, rfl, hset⟩ := h
    exact hset
  · intro hset
    exact ⟨icore, List.mem_range.mpr hcore, rfl, hset⟩

/-- The cores that `xcpuinfo_mac_to_abs` finds: those with a CPU of their first threads whose
machine ID is in the CPUs and is looked at. -/
theorem macToAbs_iff (macmap : Bitstr) (hcore : icore < conf.totalCores) :
    (macToAbsCores conf (macToAbsCpus conf macmap)).bit icore = true ↔
      ∃ ithread < conf.threads,
        conf.blockMap.getD (icore * conf.actualThreads + ithread) 0 % conf.actualThreads < conf.threads ∧
        macmap.bit (conf.blockMap.getD (icore * conf.actualThreads + ithread) 0) = true := by
  rw [(macToAbsCores_iff conf _).2 icore hcore]
  refine exists_congr fun ithread => and_congr_right fun hthread => ?_
  obtain ⟨-, hlt⟩ := cpuId_eq conf hcore (thread_lt hthread)
  rw [(macToAbsCpus_iff conf macmap).2]
  constructor
  · intro h
    obtain ⟨icore', hcore', ithread', hthread', hset, heq⟩ := h
    obtain ⟨-, hlt'⟩ := cpuId_eq conf hcore' (thread_lt hthread')
    obtain ⟨a, ha, hmac⟩ := blockMap_surj conf hlt'
    rw [← hmac, computeBlockMapInv_getD conf ha, mod_eq_of_lt ha] at heq
    rw [heq, hmac]
    refine ⟨?_, hset⟩
    rw [Nat.mul_comm, mul_add_mod, mod_eq_of_lt (thread_lt hthread')]
    exact hthread'
  · intro h
    have hmac := blockMap_lt conf hlt
    have hdecompose := div_add_mod' (conf.blockMap.getD (icore * conf.actualThreads + ithread) 0)
      conf.actualThreads
    refine ⟨_, core_lt conf hmac, _, h.1, ?_, ?_⟩
    · rw [hdecompose]
      exact h.2
    · rw [hdecompose, computeBlockMapInv_getD conf hlt, mod_eq_of_lt hlt]

/-! ## The strings -/

/-- What a conversion writes is read back. -/
theorem stands_bitFmt (hnbits : b.nbits = bits.nbits) (hle : bits.nbits ≤ 100000)
    (hclear : ∀ i, b.bit i = false) :
    ∃ bits', Stands b (bitFmt (bits.nbits * 6) bits) bits' ∧
      ∀ i < bits.nbits, bits'.bit i = bits.bit i := by
  obtain ⟨bits', heq, hequal⟩ := returns_bitFmt hle hnbits fun i _ => hclear i
  have hbits := (bitEqual_iff bits' bits).mp hequal
  exact ⟨bits', heq, fun i hi => hbits.2 i (by rw [hbits.1]; exact hi)⟩

/-- A string stands for one bit string only. -/
theorem stands_unique {bits' : Bitstr} {s : List Char} (h : Stands b s bits)
    (h' : Stands b s bits') : bits = bits' := by
  rw [Stands, h, Option.some.injEq, Prod.mk.injEq] at h'
  exact h'.2

theorem withBits_stands {s : List Char} (h : Stands b s bits) (f : Bitstr → List Char) :
    withBits b s f = .range (f bits) := by
  rw [withBits, h]
  rfl

/-- A string of machine CPUs is read back. -/
theorem stands_cpus (hnbits : bits.nbits = conf.blockMapSize) :
    ∃ macmap, Stands conf.cpuBits (bitFmt (conf.blockMapSize * 6) bits) macmap ∧
      ∀ m < conf.blockMapSize, macmap.bit m = bits.bit m := by
  have hle := conf.size_lt
  rw [← hnbits]
  exact stands_bitFmt hnbits.symm (by omega) (cpuBits_clear conf)

/-- What `xcpuinfo_mac_to_abs` answers, read back. -/
theorem stands_macToAbs {inRange : List Char} {macmap : Bitstr}
    (h : Stands conf.cpuBits inRange macmap) :
    ∃ outRange cores, xcpuinfoMacToAbs conf inRange = .range outRange ∧
      Stands conf.coreBits outRange cores ∧
      ∀ icore < conf.totalCores, cores.bit icore =
        (macToAbsCores conf (macToAbsCpus conf macmap)).bit icore := by
  have hnbits := (macToAbsCores_iff conf (macToAbsCpus conf macmap)).1
  have hle := conf.totalCores_le
  have hlt := conf.size_lt
  obtain ⟨cores, hstands, hbit⟩ := stands_bitFmt (b := conf.coreBits) hnbits.symm (by omega)
    (coreBits_clear conf)
  rw [hnbits] at hstands hbit
  exact ⟨_, cores, withBits_stands h _, hstands, hbit⟩

/-! ## The contract -/

theorem convert_of_aligned (h : Aligned conf) : ConvertContract conf where
  inverse lrange cores hstands := by
    obtain ⟨hnbits, hmachine⟩ := absToMacBits_iff conf cores
    obtain ⟨macmap, hread, hbits⟩ := stands_cpus conf hnbits
    obtain ⟨outRange, cores', hanswer, hread', hcores⟩ := stands_macToAbs conf hread
    refine ⟨_, outRange, cores', withBits_stands hstands _, hanswer, hread', fun icore hcore => ?_⟩
    rw [Bool.eq_iff_iff, hcores icore hcore, macToAbs_iff conf macmap hcore]
    constructor
    · intro hfound
      obtain ⟨ithread, hthread, -, hset⟩ := hfound
      obtain ⟨hid, hlt⟩ := cpuId_eq conf hcore (thread_lt hthread)
      rw [hbits _ (blockMap_lt conf hlt), hmachine] at hset
      obtain ⟨icore', hcore', hset', ithread', hthread', heq⟩ := hset
      obtain ⟨hid', hlt'⟩ := cpuId_eq conf hcore' (thread_lt hthread')
      have hsame := core_thread_unique (thread_lt hthread) (thread_lt hthread')
        (blockMap_inj conf hlt hlt' heq)
      rw [hsame.1]
      exact hset'
    · intro hset
      have hthread := conf.threads_pos
      obtain ⟨hid, hlt⟩ := cpuId_eq conf hcore (thread_lt hthread)
      refine ⟨0, hthread, h icore hcore 0 hthread, ?_⟩
      rw [hbits _ (blockMap_lt conf hlt), hmachine]
      exact ⟨icore, hcore, hset, 0, hthread, rfl⟩
  cores inRange macmap hstands := by
    obtain ⟨outRange, cores, hanswer, hread, hcores⟩ := stands_macToAbs conf hstands
    refine ⟨outRange, cores, hanswer, hread, fun icore hcore => ?_⟩
    rw [hcores icore hcore, macToAbs_iff conf macmap hcore]
    exact exists_congr fun ithread => and_congr_right fun hthread =>
      and_iff_right (h icore hcore ithread hthread)

/-- The CPU of a thread, alone among the machine CPUs, is found only when it is looked at. -/
theorem aligned_of_convert (h : ConvertContract conf) : Aligned conf := by
  intro icore hcore ithread hthread
  obtain ⟨hid, hlt⟩ := cpuId_eq conf hcore (thread_lt hthread)
  have hmac := blockMap_lt conf hlt
  -- the machine CPUs are this one only
  have hnbits : (bitSet conf.cpuBits
    (conf.blockMap.getD (icore * conf.actualThreads + ithread) 0)).nbits = conf.blockMapSize := rfl
  have hone := bitSet_iff (b := conf.cpuBits) hmac
  obtain ⟨macmap, hread, hbits⟩ := stands_cpus conf hnbits
  obtain ⟨outRange, cores, hanswer, hstands, hcores⟩ := h.cores _ macmap hread
  obtain ⟨outRange', cores', hanswer', hstands', hcores'⟩ := stands_macToAbs conf hread
  rw [hanswer, Conversion.range.injEq] at hanswer'
  rw [← hanswer'] at hstands'
  rw [← stands_unique hstands hstands'] at hcores'
  have hcore_in : CoreIn conf macmap icore := by
    refine ⟨ithread, hthread, ?_⟩
    rw [hbits _ hmac, hone]
    exact .inr rfl
  have hfound := (hcores icore hcore).mpr hcore_in
  rw [hcores' icore hcore, macToAbs_iff conf macmap hcore] at hfound
  obtain ⟨ithread', hthread', haligned, hset⟩ := hfound
  obtain ⟨hid', hlt'⟩ := cpuId_eq conf hcore (thread_lt hthread')
  rw [hbits _ (blockMap_lt conf hlt'), hone, cpuBits_clear] at hset
  have hsame := core_thread_unique (thread_lt hthread') (thread_lt hthread)
    (blockMap_inj conf hlt' hlt (hset.resolve_left (by decide)))
  rw [← hsame.2]
  exact haligned

/-- The conversions do what is promised exactly when the machine IDs of the first threads are those
that are looked at. -/
theorem convertContract_iff : ConvertContract conf ↔ Aligned conf :=
  ⟨aligned_of_convert conf, convert_of_aligned conf⟩

/-! ## Siblings far apart -/

theorem farApart_perm : [0, 2, 1, 3].Perm (List.range 4) := by
  decide

theorem farApart_size : 1 * 2 * 2 = 4 := rfl

theorem farApart_pos : 0 < 4 := by
  decide

theorem farApart_lt : 4 < 2 ^ 16 := by
  decide

theorem farApart_threads_pos : 1 ≤ 1 := le_refl 1

theorem farApart_threads_le : 1 ≤ 2 := by
  decide

/-- Two cores of two threads, of which one is configured: CPUs 0 and 2 are the first core. -/
def farApart : Conf :=
  { sockets := 1, cores := 2, threads := 1, actualThreads := 2, blockMapSize := 4,
    blockMap := [0, 2, 1, 3], size_eq := farApart_size, size_pos := farApart_pos,
    size_lt := farApart_lt, threads_pos := farApart_threads_pos,
    threads_le := farApart_threads_le, perm := farApart_perm }

/-- The second core is lost on the way. -/
theorem convertContract_fails : ¬ ConvertContract farApart :=
  fun h => absurd (aligned_of_convert farApart h 1 (by decide) 0 (by decide)) (by decide)

end Slurm.Xcpuinfo
