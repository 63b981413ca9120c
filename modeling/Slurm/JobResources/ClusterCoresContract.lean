import Slurm.JobResources.ClusterCores

/-!
# The contract of the conflict test

`coresContract` says that `job_fits_into_cores` and `add_job_to_cores` go by the same set of
cores, the cores that a job claims: all cores of its nodes when it needs whole nodes, and those
of its core bit string otherwise.  The test is symmetric therefore, and jobs may be added in
any order.

A job has a core bit string for the cores of its nodes, as `build_job_resources` makes it; it
has none only when its nodes have no core (`exists_job`).

* `crNodeCoresOffset_eq`: where the cores of a node start.
* `fitsLoop_spec`, `addLoop_spec`: the two loops over the nodes.
-/

namespace Slurm.ClusterCores

open Slurm.Bitstring List
open Slurm.JobResources (setWhere setWhere_spec)
open Lib.Visit (select mem_select)

variable {i : Nat} {table : NodeTable}

/-! ## Where the cores of a node are -/

/-- The cores of the nodes before a node. -/
def coresBefore (table : NodeTable) (i : Nat) : Nat := ((List.range i).map (totCores table)).sum

theorem coresBefore_succ (table : NodeTable) (i : Nat) :
    coresBefore table (i + 1) = coresBefore table i + totCores table i := by
  unfold coresBefore
  rw [range_succ, map_append, sum_append]
  simp

theorem coresBefore_mono (table : NodeTable) {j : Nat} (h : i ≤ j) :
    coresBefore table i ≤ coresBefore table j := by
  induction j, h using Nat.le_induction with
  | base => exact le_refl _
  | succ j _ ih =>
    rw [coresBefore_succ]
    omega

/-- What the loop of `cr_init_global_core_data` has done for the nodes before `n`. -/
structure Filled (table : NodeTable) (n : Nat) (s : GlobalCores) : Prop where
  nums_length : s.nodeNumCores.length = table.length
  offsets_length : s.nodeCoresOffset.length = table.length + 1
  prev : s.prevIndex < n ∨ s.prevIndex = 0
  rest : ∀ i, n ≤ i → s.nodeNumCores.getD i 0 = 0
  offsets : ∀ i, i < n → (table.getD i none).isSome → s.nodeCoresOffset.getD i 0 = coresBefore table i
  behind : s.behind = coresBefore table n

theorem filled_initNode {n : Nat} {s : GlobalCores} (hn : n < table.length) (h : Filled table n s) :
    Filled table (n + 1) (initNode table s n) := by
  unfold initNode
  cases hnode : table.getD n none with
  | none =>
    have hzero : totCores table n = 0 := by
      unfold totCores
      rw [hnode]
      rfl
    show Filled table (n + 1) s
    refine ⟨h.nums_length, h.offsets_length, ?_, fun i hi => h.rest i (by omega), ?_, ?_⟩
    · have := h.prev
      omega
    · intro i hi hsome
      have hne : i ≠ n := by
        intro heq
        rw [heq, hnode] at hsome
        cases hsome
      exact h.offsets i (by omega) hsome
    · rw [coresBefore_succ, hzero]
      exact h.behind
  | some cores =>
    have hcores : totCores table n = cores := by
      unfold totCores
      rw [hnode]
      rfl
    have hnums := h.nums_length
    have hoffsets := h.offsets_length
    have hset : ∀ i, (s.nodeNumCores.set n cores).getD i 0 =
        if i = n then cores else s.nodeNumCores.getD i 0 := by
      intro i
      rw [getD_eq_getElem?_getD, getElem?_set]
      by_cases hi : i = n
      · rw [if_pos hi.symm, if_pos (by omega), if_pos hi]
        rfl
      · rw [if_neg (Ne.symm hi), if_neg hi, getD_eq_getElem?_getD]
    have hrest : ∀ i, n + 1 ≤ i → (s.nodeNumCores.set n cores).getD i 0 = 0 := by
      intro i hi
      rw [hset, if_neg (by omega)]
      exact h.rest i (by omega)
    have hoff : ∀ m v i, m ≤ table.length → (s.nodeCoresOffset.set m v).getD i 0 =
        if i = m then v else s.nodeCoresOffset.getD i 0 := by
      intro m v i hm
      rw [getD_eq_getElem?_getD, getElem?_set]
      by_cases hi : i = m
      · rw [if_pos hi.symm, if_pos (by omega), if_pos hi]
        rfl
      · rw [if_neg (Ne.symm hi), if_neg hi, getD_eq_getElem?_getD]
    dsimp only
    by_cases hpos : 0 < n
    · rw [if_pos hpos]
      have hbehind : GlobalCores.behind
          { s with nodeNumCores := s.nodeNumCores.set n cores } = coresBefore table n := by
        have hprev := h.prev
        have hne : s.prevIndex ≠ n := by omega
        rw [← h.behind]
        unfold GlobalCores.behind
        rw [hset, if_neg hne]
      refine ⟨by simpa using hnums, by simpa using hoffsets, Or.inl (Nat.lt_succ_self n), hrest, ?_, ?_⟩
      · intro i hi hsome
        dsimp only
        rw [hbehind, hoff n _ i (by omega)]
        split
        · rename_i heq
          rw [heq]
        · exact h.offsets i (by omega) hsome
      · unfold GlobalCores.behind
        dsimp only
        rw [hoff n _ n (by omega), if_pos rfl, hset n, if_pos rfl, coresBefore_succ, hcores]
        exact congrArg (· + cores) hbehind
    · have hzero : n = 0 := by omega
      rw [if_neg hpos]
      have hprev : s.prevIndex = 0 := by
        have := h.prev
        omega
      refine ⟨by simpa using hnums, by simpa using hoffsets, Or.inr hprev, hrest, ?_, ?_⟩
      · intro i hi _
        have hi0 : i = 0 := by omega
        dsimp only
        rw [hi0, hoff 0 0 0 (Nat.zero_le _), if_pos rfl]
        rfl
      · unfold GlobalCores.behind
        dsimp only
        rw [hprev, hoff 0 0 0 (Nat.zero_le _), if_pos rfl, hset, if_pos hzero.symm, coresBefore_succ,
          hcores, hzero]
        rfl

theorem filled_foldl (table : NodeTable) {n : Nat} (hn : n ≤ table.length) :
    Filled table n ((List.range n).foldl (initNode table)
      ⟨0, List.replicate table.length 0, List.replicate (table.length + 1) 0⟩) := by
  induction n with
  | zero =>
    refine ⟨by simp, by simp, Or.inr rfl, ?_, ?_, ?_⟩
    · intro i _
      simp [getD_eq_getElem?_getD, getElem?_replicate]
      split <;> rfl
    · intro i hi
      omega
    · simp [GlobalCores.behind, coresBefore, getD_eq_getElem?_getD, getElem?_replicate]
      split <;> rfl
  | succ n ih =>
    rw [range_succ, foldl_append]
    exact filled_initNode (by omega) (ih (by omega))

/-- The cores of a node start behind those of the nodes before it. -/
theorem crNodeCoresOffset_eq (table : NodeTable)
    (h : i = table.length ∨ (table.getD i none).isSome) :
    crNodeCoresOffset table i = coresBefore table i := by
  have hfilled := filled_foldl table (le_refl table.length)
  have hoffsets := hfilled.offsets_length
  unfold crNodeCoresOffset crInitGlobalCoreData
  dsimp only
  rw [getD_eq_getElem?_getD, getElem?_set]
  by_cases hi : i = table.length
  · rw [if_pos hi.symm, if_pos (by omega), hfilled.behind, hi]
    rfl
  · have hsome := h.resolve_left hi
    have hlt : i < table.length := by
      by_contra hge
      rw [getD_eq_default _ _ (by omega)] at hsome
      cases hsome
    rw [if_neg (Ne.symm hi), ← getD_eq_getElem?_getD]
    exact hfilled.offsets i hlt hsome

/-! ## The cores that a job claims -/

/-- Where the cores of a node start among those of the job. -/
def jobOffset (table : NodeTable) (r : JobRes) (i : Nat) : Nat :=
  ((select (hasNode table r.nodeBitmap) 0 i).map (totCores table)).sum

/-- Core `m` of the job is claimed by it. -/
def JobRes.ClaimsBit (r : JobRes) (m : Nat) : Prop :=
  r.whole = true ∨ ∃ b, r.coreBitmap = some b ∧ b.bit m = true

/-- Core `x` of the cluster is claimed by the job: all cores of its nodes when it needs whole
nodes, and those of its core bit string otherwise. -/
def Claims (table : NodeTable) (r : JobRes) (x : Nat) : Prop :=
  ∃ i, i < table.length ∧ hasNode table r.nodeBitmap i = true ∧
    ∃ c, c < totCores table i ∧ r.ClaimsBit (jobOffset table r i + c) ∧
      x = coresBefore table i + c

/-- The same for some nodes of the job, with the cores before theirs. -/
def ClaimsFrom (table : NodeTable) (r : JobRes) : List Nat → Nat → Nat → Prop
  | [], _, _ => False
  | i :: nodes, jobBitInx, x =>
    (∃ c, c < totCores table i ∧ r.ClaimsBit (jobBitInx + c) ∧ x = coresBefore table i + c) ∨
      ClaimsFrom table r nodes (jobBitInx + totCores table i) x

theorem select_succ (p : Nat → Bool) (n : Nat) :
    select p 0 (n + 1) = select p 0 n ++ if p n then [n] else [] := by
  unfold select
  rw [Nat.sub_zero, Nat.sub_zero, range'_1_concat, filter_append, Nat.zero_add]
  cases hp : p n <;> simp [hp]

theorem jobOffset_succ (table : NodeTable) (r : JobRes) (i : Nat) :
    jobOffset table r (i + 1) =
      jobOffset table r i + if hasNode table r.nodeBitmap i then totCores table i else 0 := by
  unfold jobOffset
  rw [select_succ, map_append, sum_append]
  split <;> simp

/-- The nodes from `k` on claim what they do as nodes of the job. -/
theorem claimsFrom_select (table : NodeTable) (r : JobRes) (x : Nat) {k : Nat}
    (hk : k ≤ table.length) :
    ClaimsFrom table r (select (hasNode table r.nodeBitmap) k table.length) (jobOffset table r k) x ↔
      ∃ i, (k ≤ i ∧ i < table.length) ∧ hasNode table r.nodeBitmap i = true ∧
        ∃ c, c < totCores table i ∧ r.ClaimsBit (jobOffset table r i + c) ∧
          x = coresBefore table i + c := by
  induction hlen : table.length - k generalizing k with
  | zero =>
    rw [Lib.Visit.select_eq_nil fun i hi => by omega]
    constructor
    · intro h
      cases h
    · intro h
      obtain ⟨i, hi, -⟩ := h
      omega
  | succ len ih =>
    have hlength : table.length - k = table.length - (k + 1) + 1 := by omega
    have hnext := ih (k := k + 1) (by omega) (by omega)
    by_cases hnode : hasNode table r.nodeBitmap k = true
    · rw [Lib.Visit.select_cons ⟨le_refl k, by omega, hnode⟩ fun j hj => by omega]
      have hoffset : jobOffset table r (k + 1) = jobOffset table r k + totCores table k := by
        rw [jobOffset_succ, if_pos hnode]
      rw [hoffset] at hnext
      show (_ ∨ _) ↔ _
      rw [hnext]
      constructor
      · intro h
        rcases h with hc | ⟨i, hi, hrest⟩
        · exact ⟨k, ⟨le_refl k, by omega⟩, hnode, hc⟩
        · exact ⟨i, ⟨by omega, hi.2⟩, hrest⟩
      · intro h
        obtain ⟨i, hi, hrest⟩ := h
        rcases Nat.eq_or_lt_of_le hi.1 with rfl | hlt
        · exact Or.inl hrest.2
        · exact Or.inr ⟨i, ⟨hlt, hi.2⟩, hrest⟩
    · have hskip : select (hasNode table r.nodeBitmap) k table.length =
          select (hasNode table r.nodeBitmap) (k + 1) table.length := by
        unfold select
        rw [hlength, range'_succ, filter_cons_of_neg hnode]
      have hoffset : jobOffset table r (k + 1) = jobOffset table r k := by
        rw [jobOffset_succ, if_neg hnode, Nat.add_zero]
      rw [hskip, ← hoffset, hnext]
      constructor
      · intro h
        obtain ⟨i, hi, hrest⟩ := h
        exact ⟨i, ⟨by omega, hi.2⟩, hrest⟩
      · intro h
        obtain ⟨i, hi, hrest⟩ := h
        rcases Nat.eq_or_lt_of_le hi.1 with rfl | hlt
        · exact absurd hrest.1 hnode
        · exact ⟨i, ⟨hlt, hi.2⟩, hrest⟩

/-! ## The loops -/

variable {r : JobRes}

/-- The cores of one node, until there is a conflict. -/
theorem conflict_spec (full : Bitstr) (fullBitInx jobBitInx : Nat) (cores : List Nat)
    (h : r.whole = true ∨ r.coreBitmap.isSome ∨ cores = []) :
    ∃ found, conflict r full fullBitInx jobBitInx cores = some found ∧
      (found = true ↔
        ∃ c ∈ cores, r.ClaimsBit (jobBitInx + c) ∧ full.bit (fullBitInx + c) = true) := by
  induction cores with
  | nil => exact ⟨false, rfl, by simp⟩
  | cons core cores ih =>
    have huses : ∃ used, r.uses (jobBitInx + core) = some used ∧
        (used = true ↔ r.ClaimsBit (jobBitInx + core)) := by
      unfold JobRes.uses JobRes.ClaimsBit
      by_cases hwhole : r.whole = true
      · rw [if_pos hwhole]
        exact ⟨true, rfl, by simp [hwhole]⟩
      · rw [if_neg hwhole]
        obtain ⟨b, hb⟩ := Option.isSome_iff_exists.mp ((h.resolve_left hwhole).resolve_right (by simp))
        rw [hb]
        exact ⟨bitTest b (jobBitInx + core), rfl, by simp [hwhole, bitTest_eq]⟩
    obtain ⟨found, hfound, hiff⟩ := ih (by
      rcases h with h | h | h
      · exact Or.inl h
      · exact Or.inr (Or.inl h)
      · cases h)
    obtain ⟨used, hused, husediff⟩ := huses
    unfold conflict
    rw [bitTest_eq]
    cases hbit : full.bit (fullBitInx + core) with
    | false =>
      refine ⟨found, by simpa using hfound, ?_⟩
      rw [hiff]
      simp [hbit]
    | true =>
      rw [hused]
      cases used with
      | true =>
        refine ⟨true, by simp, ?_⟩
        simp [hbit, ← husediff]
      | false =>
        refine ⟨found, by simpa using hfound, ?_⟩
        rw [hiff]
        simp [← husediff]

/-- The nodes of the job, until there is a conflict. -/
theorem fitsLoop_spec (full : Bitstr) {nodes : List Nat}
    (hnodes : ∀ i ∈ nodes, (table.getD i none).isSome) (jobBitInx : Nat)
    (h : r.whole = true ∨ r.coreBitmap.isSome ∨ ∀ i ∈ nodes, totCores table i = 0) :
    ∃ fits, fitsLoop table r full nodes jobBitInx = some fits ∧
      (fits = true ↔ ∀ x, ClaimsFrom table r nodes jobBitInx x → full.bit x = false) := by
  induction nodes generalizing jobBitInx with
  | nil => exact ⟨true, rfl, by simp [ClaimsFrom]⟩
  | cons i nodes ih =>
    have hoffset := crNodeCoresOffset_eq table (Or.inr (hnodes i mem_cons_self))
    obtain ⟨found, hfound, hfoundiff⟩ := conflict_spec (r := r) full (crNodeCoresOffset table i)
      jobBitInx (List.range (totCores table i)) (by
        rcases h with h | h | h
        · exact Or.inl h
        · exact Or.inr (Or.inl h)
        · rw [h i mem_cons_self]
          exact Or.inr (Or.inr rfl))
    obtain ⟨fits, hfits, hfitsiff⟩ := ih (fun j hj => hnodes j (mem_cons_of_mem i hj))
      (jobBitInx + totCores table i) (by
        rcases h with h | h | h
        · exact Or.inl h
        · exact Or.inr (Or.inl h)
        · exact Or.inr (Or.inr fun j hj => h j (mem_cons_of_mem i hj)))
    unfold fitsLoop
    rw [hfound]
    rw [hoffset] at hfoundiff
    cases found with
    | true =>
      obtain ⟨c, hc, hclaims, hbit⟩ := hfoundiff.mp rfl
      refine ⟨false, by simp, ?_⟩
      constructor
      · intro hfalse
        cases hfalse
      · intro hall
        have := hall _ (Or.inl ⟨c, List.mem_range.mp hc, hclaims, rfl⟩)
        rw [this] at hbit
        cases hbit
    | false =>
      refine ⟨fits, by simpa using hfits, ?_⟩
      rw [hfitsiff]
      constructor
      · intro hall x hx
        rcases hx with ⟨c, hc, hclaims, rfl⟩ | hx
        · by_contra hbit
          have := hfoundiff.mpr ⟨c, List.mem_range.mpr hc, hclaims, by simpa using hbit⟩
          cases this
        · exact hall x hx
      · intro hall x hx
        exact hall x (Or.inr hx)

/-- The nodes of the job, whose cores are set. -/
theorem addLoop_spec {b : Bitstr} (hb : r.coreBitmap = some b) {nodes : List Nat}
    (hnodes : ∀ i ∈ nodes, i < table.length ∧ (table.getD i none).isSome) (jobBitInx : Nat)
    (full : Bitstr) (hfull : full.nbits = coresBefore table table.length) :
    (addLoop table r b nodes jobBitInx full).nbits = full.nbits ∧
      ∀ x, (addLoop table r b nodes jobBitInx full).bit x = true ↔
        full.bit x = true ∨ ClaimsFrom table r nodes jobBitInx x := by
  induction nodes generalizing jobBitInx full with
  | nil => exact ⟨rfl, by simp [addLoop, ClaimsFrom]⟩
  | cons i nodes ih =>
    obtain ⟨hi, hsome⟩ := hnodes i mem_cons_self
    have hoffset := crNodeCoresOffset_eq table (Or.inr hsome)
    have hroom := coresBefore_mono table (Nat.succ_le_of_lt hi)
    rw [coresBefore_succ] at hroom
    have hfits : crNodeCoresOffset table i + totCores table i ≤ full.nbits := by
      rw [hoffset, hfull]
      exact hroom
    obtain ⟨hsize, hbits⟩ := setWhere_spec
      (fun core => r.whole || bitTest b (jobBitInx + core)) hfits
    obtain ⟨hsize', hbits'⟩ := ih (fun j hj => hnodes j (mem_cons_of_mem i hj))
      (jobBitInx + totCores table i) _ (hsize.trans hfull)
    unfold addLoop
    refine ⟨hsize'.trans hsize, fun x => ?_⟩
    have hclaims : ∀ m, r.ClaimsBit m ↔ (r.whole || bitTest b m) = true := by
      intro m
      unfold JobRes.ClaimsBit
      rw [hb, bitTest_eq, Bool.or_eq_true]
      simp
    rw [hbits', hbits, hoffset]
    show _ ↔ _ ∨ (_ ∨ _)
    rw [← or_assoc]
    apply or_congr_left
    by_cases hin : coresBefore table i ≤ x ∧ x < coresBefore table i + totCores table i
    · rw [if_pos hin, Bool.or_eq_true, ← hclaims]
      apply or_congr_right
      constructor
      · intro h
        exact ⟨x - coresBefore table i, by omega, h, by omega⟩
      · intro h
        obtain ⟨c, -, hc, rfl⟩ := h
        rwa [Nat.add_sub_cancel_left]
    · rw [if_neg hin]
      constructor
      · exact Or.inl
      · intro h
        rcases h with h | ⟨c, hc, -, rfl⟩
        · exact h
        · exact absurd ⟨by omega, by omega⟩ hin

/-! ## The contract -/

/-- A node table whose cores fit into a bit string. -/
structure Cluster where
  table : NodeTable
  small : coresBefore table table.length ≤ 0x40000000

/-- A job on the nodes of the cluster.  It has a core bit string, which has room for the cores
of its nodes, unless these have no core. -/
structure Job (C : Cluster) extends JobRes where
  nodes_size : nodeBitmap.nbits = C.table.length
  cores_none : coreBitmap = none → coreCnt C.table nodeBitmap = 0
  cores_some : ∀ b, coreBitmap = some b →
    0 < coreCnt C.table nodeBitmap ∧ coreCnt C.table nodeBitmap ≤ b.nbits

/-- A bit string over the cores of the cluster, or `NULL`. -/
structure CoreMap (C : Cluster) where
  cores : Option Bitstr
  sized : ∀ b, cores = some b → b.nbits = coresBefore C.table C.table.length

/-- The cores in a bit string, of which `NULL` has none. -/
def coresIn (full : Option Bitstr) (x : Nat) : Prop := ∃ b, full = some b ∧ x ∈ (denote b).elems

/-- Jobs are added one after the other. -/
def addAll {C : Cluster} (js : List (Job C)) (full : Option Bitstr) : Option (Option Bitstr) :=
  js.foldlM (fun full j => addJobToCores C.table j.toJobRes full) full

/-- The contract: a job fits just when the cores that it claims are not in the bit string;
adding a job puts just these into it; the test is symmetric; and jobs may be added in any
order. -/
structure CoresContract (C : Cluster) (j k : Job C) (full : CoreMap C) : Prop where
  fits : ∃ fits, jobFitsIntoCores C.table j.toJobRes full.cores = some fits ∧
    (fits = true ↔ ∀ x, Claims C.table j.toJobRes x → ¬ coresIn full.cores x)
  add : ∃ full', addJobToCores C.table k.toJobRes full.cores = some full' ∧
    ∀ x, coresIn full' x ↔ coresIn full.cores x ∨ Claims C.table k.toJobRes x
  symmetric : ∃ ofJ ofK, addJobToCores C.table j.toJobRes none = some ofJ ∧
    addJobToCores C.table k.toJobRes none = some ofK ∧
    jobFitsIntoCores C.table j.toJobRes ofK = jobFitsIntoCores C.table k.toJobRes ofJ
  order : ∀ js js' : List (Job C), js.Perm js' →
    (addAll js full.cores).map (Option.map denote) =
      (addAll js' full.cores).map (Option.map denote)

variable {C : Cluster}

theorem Job.nodes_eq (j : Job C) :
    nodesOf C.table j.nodeBitmap = select (hasNode C.table j.nodeBitmap) 0 C.table.length :=
  nodesOf_eq j.nodes_size

theorem Job.mem_nodes (j : Job C) (h : i ∈ nodesOf C.table j.nodeBitmap) :
    i < C.table.length ∧ (C.table.getD i none).isSome := by
  rw [j.nodes_eq, mem_select] at h
  exact ⟨h.2.1, (Bool.and_eq_true _ _ ▸ h.2.2).2⟩

theorem jobOffset_le (table : NodeTable) (r : JobRes) (i : Nat) :
    jobOffset table r i ≤ coresBefore table i := by
  induction i with
  | zero => exact Nat.zero_le _
  | succ i ih =>
    rw [jobOffset_succ, coresBefore_succ]
    split <;> omega

theorem Job.coreCnt_eq (j : Job C) :
    coreCnt C.table j.nodeBitmap = jobOffset C.table j.toJobRes C.table.length := by
  unfold coreCnt jobOffset
  rw [j.nodes_eq]

/-- `build_job_resources` makes such a job on any nodes. -/
theorem exists_job (C : Cluster) {nodeBitmap : Bitstr} (hsize : nodeBitmap.nbits = C.table.length)
    (wholeNode : BitVec 8) :
    ∃ j : Job C, j.nodeBitmap = nodeBitmap ∧ j.wholeNode = wholeNode ∧
      buildCoreBitmap C.table nodeBitmap = some j.coreBitmap := by
  unfold buildCoreBitmap
  dsimp only
  by_cases hzero : coreCnt C.table nodeBitmap = 0
  · rw [if_pos hzero]
    exact ⟨⟨⟨nodeBitmap, none, wholeNode⟩, hsize, fun _ => hzero, nofun⟩, rfl, rfl, rfl⟩
  · have hle : coreCnt C.table nodeBitmap ≤ coresBefore C.table C.table.length := by
      have hle := jobOffset_le C.table ⟨nodeBitmap, none, wholeNode⟩ C.table.length
      unfold jobOffset at hle
      unfold coreCnt
      rwa [nodesOf_eq hsize]
    have hvalid : ValidSize (coreCnt C.table nodeBitmap) :=
      ⟨Nat.pos_of_ne_zero hzero, hle.trans C.small⟩
    rw [if_neg hzero, dif_pos hvalid]
    refine ⟨⟨⟨nodeBitmap, some (bitAlloc _ hvalid), wholeNode⟩, hsize, nofun, fun b hb => ?_⟩,
      rfl, rfl, rfl⟩
    rw [← Option.some.inj hb]
    exact ⟨hvalid.1, le_refl _⟩

/-- Without a core bit string no node has a core. -/
theorem Job.totCores_eq_zero (j : Job C) (h : j.coreBitmap = none) :
    ∀ i ∈ nodesOf C.table j.nodeBitmap, totCores C.table i = 0 := by
  intro i hi
  have hsum := j.cores_none h
  unfold coreCnt at hsum
  exact List.sum_eq_zero_iff.mp hsum _ (mem_map_of_mem hi)

theorem Job.claimsFrom_iff (j : Job C) (x : Nat) :
    ClaimsFrom C.table j.toJobRes (nodesOf C.table j.nodeBitmap) 0 x ↔ Claims C.table j.toJobRes x := by
  have h := claimsFrom_select C.table j.toJobRes x (Nat.zero_le C.table.length)
  rw [j.nodes_eq]
  refine h.trans ?_
  unfold Claims
  simp only [Nat.zero_le, true_and]

/-- The cores that are claimed are cores of the cluster. -/
theorem claims_lt {x : Nat} (h : Claims table r x) : x < coresBefore table table.length := by
  obtain ⟨i, hi, -, c, hc, -, rfl⟩ := h
  have hroom := coresBefore_mono table (Nat.succ_le_of_lt hi)
  rw [coresBefore_succ] at hroom
  omega

theorem CoreMap.lt_of_coresIn (full : CoreMap C) {x : Nat} (h : coresIn full.cores x) :
    x < coresBefore C.table C.table.length := by
  obtain ⟨b, hb, hx⟩ := h
  rw [← full.sized b hb]
  exact (mem_denote.mp hx).1

/-- The conflict test. -/
theorem jobFitsIntoCores_spec (j : Job C) (full : CoreMap C) :
    ∃ fits, jobFitsIntoCores C.table j.toJobRes full.cores = some fits ∧
      (fits = true ↔ ∀ x, Claims C.table j.toJobRes x → ¬ coresIn full.cores x) := by
  have husable : j.whole = true ∨ j.coreBitmap.isSome ∨
      ∀ i ∈ nodesOf C.table j.nodeBitmap, totCores C.table i = 0 := by
    cases hb : j.coreBitmap with
    | none => exact Or.inr (Or.inr (j.totCores_eq_zero hb))
    | some b => exact Or.inr (Or.inl rfl)
  cases hfull : full.cores with
  | none =>
    refine ⟨true, rfl, iff_of_true rfl fun x _ h => ?_⟩
    obtain ⟨b, hb, -⟩ := h
    cases hb
  | some b =>
    obtain ⟨fits, hfits, hiff⟩ := fitsLoop_spec (r := j.toJobRes) b
      (fun i hi => (j.mem_nodes hi).2) 0 husable
    refine ⟨fits, hfits, hiff.trans ?_⟩
    apply forall_congr'
    intro x
    rw [j.claimsFrom_iff]
    apply imp_congr_right
    intro hx
    have hlt := claims_lt hx
    rw [← full.sized b hfull] at hlt
    unfold coresIn
    simp [hlt]

/-- The bit string that a job is added to. -/
theorem createClusterCoreBitmap_spec (full : CoreMap C) (hpos : 0 < coresBefore C.table C.table.length) :
    ∃ b, createClusterCoreBitmap C.table full.cores = some b ∧
      b.nbits = coresBefore C.table C.table.length ∧
      ∀ x, x < b.nbits → (b.bit x = true ↔ coresIn full.cores x) := by
  cases hfull : full.cores with
  | some b =>
    refine ⟨b, rfl, full.sized b hfull, fun x hx => ?_⟩
    unfold coresIn
    simp [hx]
  | none =>
    have htotal := crNodeCoresOffset_eq C.table (Or.inl rfl)
    have hvalid : ValidSize (crNodeCoresOffset C.table C.table.length) := by
      rw [htotal]
      exact ⟨hpos, C.small⟩
    refine ⟨bitAlloc _ hvalid, dif_pos hvalid, htotal, fun x _ => ?_⟩
    rw [bit_bitAlloc]
    unfold coresIn
    simp

/-- A job is added. -/
theorem addJobToCores_spec (k : Job C) (full : CoreMap C) :
    ∃ full' : CoreMap C, addJobToCores C.table k.toJobRes full.cores = some full'.cores ∧
      full'.cores.isSome = (full.cores.isSome || k.coreBitmap.isSome) ∧
      ∀ x, coresIn full'.cores x ↔ coresIn full.cores x ∨ Claims C.table k.toJobRes x := by
  unfold addJobToCores
  cases hb : k.coreBitmap with
  | none =>
    refine ⟨full, rfl, by simp, fun x => ?_⟩
    have hnone : ¬ Claims C.table k.toJobRes x := by
      intro h
      obtain ⟨i, hi, hnode, c, hc, -, -⟩ := h
      have hmem : i ∈ nodesOf C.table k.nodeBitmap := by
        rw [k.nodes_eq, mem_select]
        exact ⟨Nat.zero_le i, hi, hnode⟩
      rw [k.totCores_eq_zero hb i hmem] at hc
      omega
    simp [hnone]
  | some b =>
    have hpos : 0 < coresBefore C.table C.table.length := by
      have hcnt := (k.cores_some b hb).1
      have hle := jobOffset_le C.table k.toJobRes C.table.length
      rw [k.coreCnt_eq] at hcnt
      omega
    obtain ⟨full₁, hcreate, hsize, hbits⟩ := createClusterCoreBitmap_spec full hpos
    obtain ⟨hsize', hbits'⟩ := addLoop_spec (r := k.toJobRes) hb
      (fun i hi => k.mem_nodes hi) 0 full₁ hsize
    refine ⟨⟨some (addLoop C.table k.toJobRes b (nodesOf C.table k.nodeBitmap) 0 full₁), ?_⟩,
      ?_, by simp, ?_⟩
    · intro b' hb'
      rw [← Option.some.inj hb', hsize', hsize]
    · dsimp only
      rw [hcreate]
      rfl
    · intro x
      have hin : coresIn (some (addLoop C.table k.toJobRes b (nodesOf C.table k.nodeBitmap) 0 full₁)) x ↔
          x < full₁.nbits ∧ (full₁.bit x = true ∨ Claims C.table k.toJobRes x) := by
        unfold coresIn
        simp only [Option.some.injEq, exists_eq_left', mem_denote, hsize', hbits', k.claimsFrom_iff]
      dsimp only
      rw [hin]
      constructor
      · intro h
        exact h.2.imp_left (hbits x h.1).mp
      · intro h
        have hlt : x < full₁.nbits := by
          rw [hsize]
          exact h.elim full.lt_of_coresIn claims_lt
        exact ⟨hlt, h.imp_left (hbits x hlt).mpr⟩

/-- Jobs are added one after the other. -/
theorem addAll_spec (js : List (Job C)) (full : CoreMap C) :
    ∃ full' : CoreMap C, addAll js full.cores = some full'.cores ∧
      full'.cores.isSome = (full.cores.isSome || js.any fun j => j.coreBitmap.isSome) ∧
      ∀ x, coresIn full'.cores x ↔
        coresIn full.cores x ∨ ∃ j ∈ js, Claims C.table j.toJobRes x := by
  induction js generalizing full with
  | nil => exact ⟨full, rfl, by simp, by simp⟩
  | cons j js ih =>
    obtain ⟨full₁, hadd, hsome, hcores⟩ := addJobToCores_spec j full
    obtain ⟨full₂, hadds, hsomes, hall⟩ := ih full₁
    refine ⟨full₂, ?_, ?_, fun x => ?_⟩
    · unfold addAll at hadds ⊢
      rw [foldlM_cons, hadd]
      exact hadds
    · rw [hsomes, hsome, any_cons, Bool.or_assoc]
    · rw [hall, hcores, exists_mem_cons_iff, or_assoc]

/-- Bit strings with the same cores. -/
theorem map_denote_eq {full full' : CoreMap C} (hsome : full.cores.isSome = full'.cores.isSome)
    (hcores : ∀ x, coresIn full.cores x ↔ coresIn full'.cores x) :
    full.cores.map denote = full'.cores.map denote := by
  cases hb : full.cores with
  | none =>
    rw [hb] at hsome
    have hnone : full'.cores = none := Option.not_isSome_iff_eq_none.mp (by rw [← hsome]; decide)
    rw [hnone]
  | some b =>
    rw [hb] at hsome
    obtain ⟨b', hb'⟩ := Option.isSome_iff_exists.mp hsome.symm
    rw [hb, hb'] at hcores
    rw [hb', Option.map_some, Option.map_some, Option.some.injEq]
    apply BitSet.ext
    · rw [denote_size, denote_size, full.sized b hb, full'.sized b' hb']
    · ext x
      have h := hcores x
      unfold coresIn at h
      simpa only [Option.some.injEq, exists_eq_left'] using h

/-- The conflict test goes by the cores that jobs claim. -/
theorem coresContract (C : Cluster) (j k : Job C) (full : CoreMap C) :
    CoresContract C j k full where
  fits := jobFitsIntoCores_spec j full
  add := by
    obtain ⟨full', hadd, -, hcores⟩ := addJobToCores_spec k full
    exact ⟨full'.cores, hadd, hcores⟩
  symmetric := by
    let empty : CoreMap C := ⟨none, fun b hb => by cases hb⟩
    have hempty : ∀ x, ¬ coresIn empty.cores x := by
      intro x h
      obtain ⟨b, hb, -⟩ := h
      cases hb
    obtain ⟨ofJ, haddJ, -, hcoresJ⟩ := addJobToCores_spec j empty
    obtain ⟨ofK, haddK, -, hcoresK⟩ := addJobToCores_spec k empty
    obtain ⟨fitsJ, hfitsJ, hiffJ⟩ := jobFitsIntoCores_spec j ofK
    obtain ⟨fitsK, hfitsK, hiffK⟩ := jobFitsIntoCores_spec k ofJ
    refine ⟨ofJ.cores, ofK.cores, haddJ, haddK, ?_⟩
    rw [hfitsJ, hfitsK, Option.some.injEq, Bool.eq_iff_iff, hiffJ, hiffK]
    apply forall_congr'
    intro x
    rw [hcoresJ, hcoresK]
    simp only [hempty, false_or]
    exact ⟨fun h hk hj => h hj hk, fun h hj hk => h hk hj⟩
  order js js' hperm := by
    obtain ⟨full₁, hadd, hsome, hcores⟩ := addAll_spec js full
    obtain ⟨full₂, hadd', hsome', hcores'⟩ := addAll_spec js' full
    rw [hadd, hadd', Option.map_some, Option.map_some, Option.some.injEq]
    apply map_denote_eq
    · rw [hsome, hsome', hperm.any_eq]
    · intro x
      rw [hcores, hcores']
      apply or_congr_right
      simp only [hperm.mem_iff]

end Slurm.ClusterCores
