import Slurm.Gang.Model
import Slurm.JobResources.ClusterCoresContract

/-!
# Filling sockets

A partition by sockets keeps whole sockets in its row.  `_fill_sockets` counts the cores of all
nodes up to those of the job, by `_get_phys_bit_cnt`, so the node table must be readable that
way (`ReadableBelow`).

* `fillNode_spec`, `fillLoop_spec`: the two loops.
* `fillSockets_spec`: the sockets of a job are filled.
-/

namespace Slurm.Gang

open Slurm.Bitstring List
open Slurm.ClusterCores
open Lib.Visit (select)

variable {S : Slurmctld}
variable {i x y c cps : Nat} {n : NodeRecord} {resmap : Bitstr}

/-! ## The node table -/

/-- A node table as it is built from the configuration: the cores of a node are those of its
sockets, and the number of its CPUs fits into 16 bits. -/
structure Configured (S : Slurmctld) : Prop where
  small : coresBefore S.table S.table.length ≤ 0x40000000
  sockets : ∀ i n, nodeRecord S i = some n → 0 < n.totSockets ∧ n.totSockets ∣ n.totCores
  words : ∀ i n, nodeRecord S i = some n → n.cpus < 0x10000

/-- The cluster of the node table. -/
def Configured.cluster (hS : Configured S) : Cluster := ⟨S.table, hS.small⟩

theorem table_getD (S : Slurmctld) (i : Nat) :
    S.table.getD i none = (nodeRecord S i).map (·.totCores) := by
  unfold Slurmctld.table nodeRecord
  simp [getD_eq_getElem?_getD, getElem?_map]
  cases S.nodeRecordTable[i]? <;> simp

theorem totCores_table (h : nodeRecord S i = some n) : totCores S.table i = n.totCores := by
  unfold totCores
  rw [table_getD, h]
  rfl

theorem lt_of_nodeRecord (h : nodeRecord S i = some n) : i < S.table.length := by
  by_contra hge
  unfold Slurmctld.table at hge
  unfold nodeRecord at h
  rw [getD_eq_default _ _ (by simpa using hge)] at h
  cases h

/-! ## Sockets -/

/-- The core is in socket `s` of a node whose cores start at `c`. -/
def InSocket (c cps s x : Nat) : Prop := c + s * cps ≤ x ∧ x < c + s * cps + cps

/-- The cores are in one socket of node `i`. -/
def SameSocketOf (S : Slurmctld) (i x y : Nat) : Prop :=
  ∃ n, nodeRecord S i = some n ∧ ∃ s, s < n.totSockets ∧
    InSocket (coresBefore S.table i) (n.totCores / n.totSockets) s x ∧
    InSocket (coresBefore S.table i) (n.totCores / n.totSockets) s y

/-- The cores are in one socket. -/
def SameSocket (S : Slurmctld) (x y : Nat) : Prop := ∃ i, SameSocketOf S i x y

theorem SameSocketOf.symm (h : SameSocketOf S i x y) : SameSocketOf S i y x := by
  obtain ⟨n, hn, s, hs, hx, hy⟩ := h
  exact ⟨n, hn, s, hs, hy, hx⟩

/-- The core is one of the node. -/
def OfNode (S : Slurmctld) (i x : Nat) : Prop :=
  coresBefore S.table i ≤ x ∧ x < coresBefore S.table (i + 1)

theorem OfNode.unique {j : Nat} (hi : OfNode S i x) (hj : OfNode S j x) : i = j := by
  unfold OfNode at hi hj
  rcases Nat.lt_trichotomy i j with hlt | heq | hlt
  · have hle := coresBefore_mono S.table (show i + 1 ≤ j from hlt)
    omega
  · exact heq
  · have hle := coresBefore_mono S.table (show j + 1 ≤ i from hlt)
    omega

theorem SameSocketOf.ofNode (hS : Configured S) (h : SameSocketOf S i x y) : OfNode S i x := by
  obtain ⟨n, hn, s, hs, hx, -⟩ := h
  have hcores : n.totSockets * (n.totCores / n.totSockets) = n.totCores :=
    Nat.mul_div_cancel' (hS.sockets i n hn).2
  have hle := Nat.mul_le_mul_right (n.totCores / n.totSockets) (Nat.succ_le_of_lt hs)
  rw [Nat.succ_mul, hcores] at hle
  unfold InSocket at hx
  unfold OfNode
  rw [coresBefore_succ, totCores_table hn]
  omega

/-- Every core of a node is in a socket. -/
theorem sameSocketOf_self (hS : Configured S) (hn : nodeRecord S i = some n) (hx : OfNode S i x) :
    SameSocketOf S i x x := by
  obtain ⟨hpos, hdvd⟩ := hS.sockets i n hn
  unfold OfNode at hx
  rw [coresBefore_succ, totCores_table hn] at hx
  have hcores : n.totSockets * (n.totCores / n.totSockets) = n.totCores := Nat.mul_div_cancel' hdvd
  have hcps : 0 < n.totCores / n.totSockets := by
    apply Nat.pos_of_ne_zero
    intro hzero
    rw [hzero, Nat.mul_zero] at hcores
    omega
  have hmod := Nat.mod_lt (x - coresBefore S.table i) hcps
  have hsum := Nat.div_add_mod' (x - coresBefore S.table i) (n.totCores / n.totSockets)
  have hin : InSocket (coresBefore S.table i) (n.totCores / n.totSockets)
      ((x - coresBefore S.table i) / (n.totCores / n.totSockets)) x := by
    unfold InSocket
    omega
  refine ⟨n, hn, _, ?_, hin, hin⟩
  rw [Nat.div_lt_iff_lt_mul hcps, hcores]
  omega

theorem InSocket.unique {s s' : Nat} (h : InSocket c cps s x) (h' : InSocket c cps s' x) :
    s = s' := by
  unfold InSocket at h h'
  rcases Nat.lt_trichotomy s s' with hlt | heq | hlt
  · have hle := Nat.mul_le_mul_right cps (Nat.succ_le_of_lt hlt)
    rw [Nat.succ_mul] at hle
    omega
  · exact heq
  · have hle := Nat.mul_le_mul_right cps (Nat.succ_le_of_lt hlt)
    rw [Nat.succ_mul] at hle
    omega

theorem SameSocket.trans (hS : Configured S) {z : Nat} (h : SameSocket S x y)
    (h' : SameSocket S y z) : SameSocket S x z := by
  obtain ⟨i, hxy⟩ := h
  obtain ⟨j, hyz⟩ := h'
  have hij : i = j := (hxy.symm.ofNode hS).unique (hyz.ofNode hS)
  subst hij
  obtain ⟨n, hn, s, hs, hx, hy⟩ := hxy
  obtain ⟨n', hn', s', -, hy', hz⟩ := hyz
  have hnn : n = n' := Option.some.inj (hn.symm.trans hn')
  subst hnn
  have hss : s = s' := hy.unique hy'
  subst hss
  exact ⟨i, n, hn, s, hs, hx, hz⟩

/-! ## Filling sockets -/

/-- One socket is filled when one of its cores is in the bit string. -/
def fillSocket (cps c : Nat) (resmap : Bitstr) : Bitstr :=
  if (List.range cps).any fun k => bitTest resmap (c + k) then bitNset resmap c (c + cps - 1)
  else resmap

theorem fillNode_succ (cps socks c : Nat) (resmap : Bitstr) :
    fillNode cps (socks + 1) c resmap = fillNode cps socks (c + cps) (fillSocket cps c resmap) := by
  unfold fillSocket
  rw [fillNode]
  split <;> rfl

theorem fillSocket_spec (h : c + cps ≤ resmap.nbits) :
    (fillSocket cps c resmap).nbits = resmap.nbits ∧
      ∀ x, (fillSocket cps c resmap).bit x = true ↔
        resmap.bit x = true ∨ (InSocket c cps 0 x ∧ ∃ y, InSocket c cps 0 y ∧ resmap.bit y = true) := by
  have hany : ((List.range cps).any fun k => bitTest resmap (c + k)) = true ↔
      ∃ y, InSocket c cps 0 y ∧ resmap.bit y = true := by
    simp only [any_eq_true, mem_range, bitTest_eq, InSocket, Nat.zero_mul, Nat.add_zero]
    constructor
    · intro ⟨k, hk, hbit⟩
      exact ⟨c + k, ⟨by omega, by omega⟩, hbit⟩
    · intro ⟨y, hy, hbit⟩
      refine ⟨y - c, by omega, ?_⟩
      rwa [show c + (y - c) = y by omega]
  unfold fillSocket
  by_cases hused : ∃ y, InSocket c cps 0 y ∧ resmap.bit y = true
  · rw [if_pos (hany.mpr hused)]
    obtain ⟨y, hy, hbit⟩ := hused
    unfold InSocket at hy
    obtain ⟨hsize, hbits⟩ := bitNset_spec resmap c (show c + cps - 1 < resmap.nbits by omega)
    refine ⟨hsize, fun x => ?_⟩
    rw [hbits]
    split
    · rename_i hin
      simp only [true_iff]
      exact Or.inr ⟨⟨by omega, by omega⟩, y, hy, hbit⟩
    · rename_i hout
      constructor
      · exact Or.inl
      · intro hx
        rcases hx with hx | ⟨hin, -⟩
        · exact hx
        · unfold InSocket at hin
          exact absurd ⟨by omega, by omega⟩ hout
  · rw [if_neg (fun h => hused (hany.mp h))]
    exact ⟨rfl, fun x => by simp [hused]⟩

/-- The sockets of a node: each is filled when one of its cores is in the bit string. -/
theorem fillNode_spec {socks : Nat} (h : c + socks * cps ≤ resmap.nbits) :
    (fillNode cps socks c resmap).1 = c + socks * cps ∧
      (fillNode cps socks c resmap).2.nbits = resmap.nbits ∧
      ∀ x, (fillNode cps socks c resmap).2.bit x = true ↔
        resmap.bit x = true ∨ ∃ s, s < socks ∧ InSocket c cps s x ∧
          ∃ y, InSocket c cps s y ∧ resmap.bit y = true := by
  induction socks generalizing c resmap with
  | zero => simp [fillNode]
  | succ socks ih =>
    rw [Nat.succ_mul] at h
    obtain ⟨hsize, hbits⟩ := fillSocket_spec (show c + cps ≤ resmap.nbits by omega)
    obtain ⟨hc, hsizes, hall⟩ := ih (show c + cps + socks * cps ≤ (fillSocket cps c resmap).nbits by omega)
    have hnext : ∀ s x, InSocket (c + cps) cps s x ↔ InSocket c cps (s + 1) x := by
      intro s x
      unfold InSocket
      rw [Nat.succ_mul]
      omega
    have hkept : ∀ s y, InSocket c cps (s + 1) y →
        ((fillSocket cps c resmap).bit y = true ↔ resmap.bit y = true) := by
      intro s y hy
      rw [hbits]
      constructor
      · intro hor
        rcases hor with hbit | ⟨hin, -⟩
        · exact hbit
        · cases hin.unique hy
      · exact Or.inl
    rw [fillNode_succ]
    refine ⟨by rw [hc, Nat.succ_mul]; omega, hsizes.trans hsize, fun x => ?_⟩
    rw [hall, hbits]
    constructor
    · intro hx
      rcases hx with (hx | hx) | ⟨s, hs, hin, y, hy, hbit⟩
      · exact Or.inl hx
      · exact Or.inr ⟨0, by omega, hx⟩
      · rw [hnext] at hin hy
        exact Or.inr ⟨s + 1, by omega, hin, y, hy, (hkept s y hy).mp hbit⟩
    · intro hx
      rcases hx with hx | ⟨s, hs, hin, y, hy, hbit⟩
      · exact Or.inl (Or.inl hx)
      · cases s with
        | zero => exact Or.inl (Or.inr ⟨hin, y, hy, hbit⟩)
        | succ s =>
          exact Or.inr ⟨s, by omega, (hnext s x).mpr hin, y, (hnext s y).mpr hy, (hkept s y hy).mpr hbit⟩

/-- The node table can be read up to node `n` as `_fill_sockets` reads it: there is no blank
entry, and the count that `_get_phys_bit_cnt` has for a node is that of its cores. -/
def ReadableBelow (S : Slurmctld) (n : Nat) : Prop :=
  ∀ i, i < n → getPhysBitCnt S i = some (totCores S.table i)

theorem ReadableBelow.nodeRecord {n : Nat} (h : ReadableBelow S n) (hi : i < n) :
    ∃ r, nodeRecord S i = some r := by
  have hread := h i hi
  unfold getPhysBitCnt at hread
  cases hr : Gang.nodeRecord S i with
  | none =>
    rw [hr] at hread
    cases hread
  | some r => exact ⟨r, rfl⟩

theorem skipNodes_spec {m k : Nat} (hread : ReadableBelow S (m + k)) :
    skipNodes S (List.range' m k) (coresBefore S.table m) = some (coresBefore S.table (m + k)) := by
  induction k generalizing m with
  | zero => rfl
  | succ k ih =>
    rw [range'_succ, skipNodes, hread m (by omega)]
    have hnext := ih (m := m + 1) (by rwa [show m + 1 + k = m + (k + 1) by omega])
    rw [coresBefore_succ] at hnext
    rw [show m + (k + 1) = m + 1 + k by omega]
    exact hnext

/-- The nodes from `m` on: the sockets of those of the job are filled. -/
theorem fillLoop_spec (hS : Configured S) (jobNodemap : Bitstr) {m k : Nat}
    (hread : ReadableBelow S (m + k)) {resmap : Bitstr}
    (hsize : resmap.nbits = coresBefore S.table S.table.length) :
    ∃ resmap', fillLoop S jobNodemap (List.range' m k) (coresBefore S.table m) resmap = some resmap' ∧
      resmap'.nbits = resmap.nbits ∧
      ∀ x, resmap'.bit x = true ↔ resmap.bit x = true ∨ ∃ i, (m ≤ i ∧ i < m + k) ∧
        jobNodemap.bit i = true ∧ ∃ y, SameSocketOf S i x y ∧ resmap.bit y = true := by
  induction k generalizing m resmap with
  | zero =>
    refine ⟨resmap, rfl, rfl, fun x => ?_⟩
    simp
  | succ k ih =>
    have hread' : ReadableBelow S (m + 1 + k) := by rwa [show m + 1 + k = m + (k + 1) by omega]
    obtain ⟨n, hn⟩ := hread.nodeRecord (show m < m + (k + 1) by omega)
    rw [range'_succ, fillLoop, hread m (by omega), bitTest_eq]
    by_cases hjob : jobNodemap.bit m = true
    · obtain ⟨hpos, hdvd⟩ := hS.sockets m n hn
      have hcores : n.totSockets * (n.totCores / n.totSockets) = n.totCores :=
        Nat.mul_div_cancel' hdvd
      have hbehind := coresBefore_succ S.table m
      rw [totCores_table hn] at hbehind
      have hroom := coresBefore_mono S.table (show m + 1 ≤ S.table.length from lt_of_nodeRecord hn)
      obtain ⟨hc, hsize₁, hbits₁⟩ := fillNode_spec
        (show coresBefore S.table m + n.totSockets * (n.totCores / n.totSockets) ≤ resmap.nbits by
          omega)
      obtain ⟨resmap', hrun, hsize', hbits'⟩ := ih hread' (hsize₁.trans hsize)
      refine ⟨resmap', ?_, hsize'.trans hsize₁, fun x => ?_⟩
      · have hoffset : coresBefore S.table (m + 1) =
            coresBefore S.table m + n.totSockets * (n.totCores / n.totSockets) := by
          rw [hbehind, hcores]
        rw [hoffset] at hrun
        unfold getSocketCnt
        rw [hn, totCores_table hn]
        simp only [hjob, Option.bind_eq_bind, Option.bind_some, Option.pure_def, Bool.true_eq_false,
          if_false, hpos.ne', hc]
        exact hrun
      · have hsame : ∀ x, (fillNode (n.totCores / n.totSockets) n.totSockets
            (coresBefore S.table m) resmap).2.bit x = true ↔ resmap.bit x = true ∨
              ∃ y, SameSocketOf S m x y ∧ resmap.bit y = true := by
          intro x
          rw [hbits₁]
          apply or_congr_right
          constructor
          · intro ⟨s, hs, hx, y, hy, hbit⟩
            exact ⟨y, ⟨n, hn, s, hs, hx, hy⟩, hbit⟩
          · intro ⟨y, ⟨n', hn', s, hs, hx, hy⟩, hbit⟩
            have hnn : n = n' := Option.some.inj (hn.symm.trans hn')
            subst hnn
            exact ⟨s, hs, hx, y, hy, hbit⟩
        -- what is filled on node `m` is no core of the nodes behind it
        have hlater : ∀ i x y, m < i → SameSocketOf S i x y →
            ((fillNode (n.totCores / n.totSockets) n.totSockets
              (coresBefore S.table m) resmap).2.bit y = true ↔ resmap.bit y = true) := by
          intro i x y hi hxy
          rw [hsame]
          constructor
          · intro hor
            rcases hor with hbit | ⟨z, hyz, -⟩
            · exact hbit
            · exact absurd ((hyz.ofNode hS).unique (hxy.symm.ofNode hS)) (by omega)
          · exact Or.inl
        rw [hbits', hsame]
        constructor
        · intro hx
          rcases hx with (hx | hx) | ⟨i, hi, hbit, y, hxy, hy⟩
          · exact Or.inl hx
          · exact Or.inr ⟨m, by omega, hjob, hx⟩
          · exact Or.inr ⟨i, by omega, hbit, y, hxy, (hlater i x y (by omega) hxy).mp hy⟩
        · intro hx
          rcases hx with hx | ⟨i, hi, hbit, y, hxy, hy⟩
          · exact Or.inl (Or.inl hx)
          · rcases Nat.eq_or_lt_of_le hi.1 with heq | hlt
            · subst heq
              exact Or.inl (Or.inr ⟨y, hxy, hy⟩)
            · exact Or.inr ⟨i, by omega, hbit, y, hxy, (hlater i x y hlt hxy).mpr hy⟩
    · obtain ⟨resmap', hrun, hsize', hbits'⟩ := ih hread' hsize
      rw [coresBefore_succ] at hrun
      refine ⟨resmap', ?_, hsize', fun x => ?_⟩
      · simp only [hjob, Option.bind_eq_bind, Option.bind_some, if_true]
        exact hrun
      · rw [hbits']
        apply or_congr_right
        constructor
        · intro ⟨i, hi, hrest⟩
          exact ⟨i, by omega, hrest⟩
        · intro ⟨i, hi, hrest⟩
          refine ⟨i, ?_, hrest⟩
          rcases Nat.eq_or_lt_of_le hi.1 with heq | hlt
          · exact absurd (heq ▸ hrest.1) hjob
          · omega

/-- The sockets of a job are filled.  The node table must be readable up to its last node. -/
theorem fillSockets_spec (hS : Configured S) {jobNodemap : Bitstr}
    (hsome : ∃ i, i < jobNodemap.nbits ∧ jobNodemap.bit i = true)
    (hread : ∀ i, i < jobNodemap.nbits → jobNodemap.bit i = true → ReadableBelow S (i + 1))
    (hsize : resmap.nbits = coresBefore S.table S.table.length) :
    ∃ resmap', fillSockets S jobNodemap (some resmap) = some (some resmap') ∧
      resmap'.nbits = resmap.nbits ∧
      ∀ x, resmap'.bit x = true ↔ resmap.bit x = true ∨ ∃ i, i < jobNodemap.nbits ∧
        jobNodemap.bit i = true ∧ ∃ y, SameSocketOf S i x y ∧ resmap.bit y = true := by
  have hfirst := bitFfs_isFirst jobNodemap
  have hlast := bitFls_isLast jobNodemap
  obtain ⟨i₀, hi₀⟩ := hsome
  cases hffs : bitFfs jobNodemap with
  | none =>
    rw [hffs] at hfirst
    exact absurd hi₀ (hfirst i₀)
  | some first =>
  cases hfls : bitFls jobNodemap with
  | none =>
    rw [hfls] at hlast
    exact absurd hi₀ (hlast i₀)
  | some last =>
  rw [hffs] at hfirst
  rw [hfls] at hlast
  obtain ⟨hin, hbefore⟩ := hfirst
  obtain ⟨hin', hbehind⟩ := hlast
  have hle : first ≤ last := by
    by_contra hlt
    exact hbehind first (by omega) hin
  have hreadable := hread last hin'.1 hin'.2
  have hskip : skipNodes S (List.range first) 0 = some (coresBefore S.table first) := by
    have hskip := skipNodes_spec (S := S) (m := 0) (k := first)
      fun i hi => hreadable i (by omega)
    rw [Nat.zero_add, ← range_eq_range'] at hskip
    exact hskip
  obtain ⟨resmap', hrun, hsize', hbits⟩ := fillLoop_spec hS jobNodemap (m := first)
    (k := last + 1 - first) (by rwa [show first + (last + 1 - first) = last + 1 by omega]) hsize
  refine ⟨resmap', ?_, hsize', fun x => ?_⟩
  · unfold fillSockets
    rw [hffs, hfls]
    simp only [Option.bind_eq_bind, Option.bind_some, hskip, hrun, Option.pure_def]
  · rw [hbits]
    apply or_congr_right
    constructor
    · intro ⟨i, hi, hbit, hrest⟩
      exact ⟨i, by omega, hbit, hrest⟩
    · intro ⟨i, hi, hbit, hrest⟩
      refine ⟨i, ⟨?_, ?_⟩, hbit, hrest⟩
      · by_contra hlt
        exact hbefore i (by omega) ⟨hi, hbit⟩
      · by_contra hlt
        exact hbehind i (by omega) ⟨hi, hbit⟩

end Slurm.Gang
