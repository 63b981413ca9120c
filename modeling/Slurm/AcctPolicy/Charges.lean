import Slurm.AcctPolicy.Records
import Slurm.Lib.Run

/-!
# Which records are adjusted

`Charged conf job P k` says that `k` is a record of a QOS in `P`, or of an association, that the
job is charged to.  `adjustLimitUsage` adjusts each record of some QOS once:

* `adjust_part`: the job's QOS and those of all its partitions;
* `adjust_ordered`: the job's QOS and the one of its partition;
* `adjust_unused`: when the job starts, the QOS of its partitions but these two, which it is
  no longer submitted to.
-/

namespace Slurm.AcctPolicy

open Lib.Ledger List

variable {conf : Conf} {job : Job} {type : AdjustType} {b : Books Key Usage}
variable {q : Nat} {qs : List Nat}

/-! ## Records of some QOS -/

/-- The records of the QOS in `P` and of the associations of a job. -/
def Charged (conf : Conf) (job : Job) (P : Nat → Prop) : Key → Prop
  | .qos q => P q
  | .qosUser q userId => P q ∧ userId = job.userId
  | .qosAcct q acct => P q ∧ acct = conf.acct job.assoc
  | .assoc a => a ∈ assocs conf job.assoc

/-- The QOS of a record. -/
def Key.qos? : Key → Option Nat
  | .qos q => some q
  | .qosUser q _ => some q
  | .qosAcct q _ => some q
  | .assoc _ => none

/-- The records of some QOS. -/
def keysOf (conf : Conf) (job : Job) (qs : List Nat) : List Key := qs.flatMap (qosKeys conf job)

def assocKeys (conf : Conf) (job : Job) : List Key := (assocs conf job.assoc).map .assoc

variable {k : Key}

theorem mem_qosKeys (h : k ∈ qosKeys conf job q) : k.qos? = some q := by
  simp only [qosKeys, mem_cons, not_mem_nil, or_false] at h
  rcases h with rfl | rfl | rfl
  · rfl
  · rfl
  · rfl

theorem mem_keysOf : k ∈ keysOf conf job qs ↔ Charged conf job (· ∈ qs) k ∧ k.qos? ≠ none := by
  rw [keysOf, mem_flatMap]
  simp only [qosKeys, mem_cons, not_mem_nil, or_false]
  cases k with
  | qos q => simp [Charged, Key.qos?]
  | qosUser q user => simp [Charged, Key.qos?]
  | qosAcct q acct => simp [Charged, Key.qos?]
  | assoc a => simp [Key.qos?]

theorem mem_assocKeys {P : Nat → Prop} :
    k ∈ assocKeys conf job ↔ Charged conf job P k ∧ k.qos? = none := by
  rw [assocKeys, mem_map]
  cases k with
  | qos q => simp [Key.qos?]
  | qosUser q user => simp [Key.qos?]
  | qosAcct q acct => simp [Key.qos?]
  | assoc a => simp [Charged, Key.qos?]

theorem nodup_keysOf (h : qs.Nodup) : (keysOf conf job qs).Nodup := by
  refine List.nodup_flatMap.mpr ⟨fun q _ => ?_, ?_⟩
  · simp [qosKeys]
  · refine h.imp fun hne => ?_
    refine List.disjoint_left.mpr fun k hk hk' => hne ?_
    exact Option.some.inj ((mem_qosKeys hk).symm.trans (mem_qosKeys hk'))

theorem depth_of_mem_assocsLoop {n a c : Nat} (h : c ∈ assocsLoop conf n a) :
    conf.depth c ≤ conf.depth a := by
  induction n generalizing a with
  | zero => rw [List.mem_singleton.mp h]
  | succ n ih =>
    rw [assocsLoop] at h
    split at h
    · rw [List.mem_singleton.mp h]
    · rename_i parent hp
      rcases List.mem_cons.mp h with rfl | h
      · exact le_rfl
      · exact (ih h).trans (Nat.le_of_lt (conf.parent_depth a parent hp))

theorem nodup_assocsLoop (n a : Nat) : (assocsLoop conf n a).Nodup := by
  induction n generalizing a with
  | zero => exact nodup_singleton a
  | succ n ih =>
    rw [assocsLoop]
    split
    · exact nodup_singleton a
    · rename_i parent hp
      refine List.nodup_cons.mpr ⟨fun hmem => ?_, ih parent⟩
      exact absurd (depth_of_mem_assocsLoop hmem) (Nat.not_le.mpr (conf.parent_depth a parent hp))

theorem nodup_keys (h : qs.Nodup) : (keysOf conf job qs ++ assocKeys conf job).Nodup := by
  refine nodup_append'.mpr ⟨nodup_keysOf h, ?_, ?_⟩
  · exact (nodup_assocsLoop _ _).map fun a c hac => Key.assoc.inj hac
  · refine List.disjoint_left.mpr fun k hk hk' => (mem_keysOf.mp hk).2 ?_
    exact (mem_assocKeys (P := fun _ => True).mp hk').2

theorem mem_keys : k ∈ keysOf conf job qs ++ assocKeys conf job ↔ Charged conf job (· ∈ qs) k := by
  rw [mem_append, mem_keysOf, mem_assocKeys (P := (· ∈ qs)), ← and_or_left]
  exact and_iff_left (ne_or_eq _ _)

theorem Charged.congr {P Q : Nat → Prop} (h : ∀ q, P q ↔ Q q) :
    Charged conf job P k ↔ Charged conf job Q k := by
  cases k with
  | qos q => exact h q
  | qosUser q user => exact and_congr_left fun _ => h q
  | qosAcct q acct => exact and_congr_left fun _ => h q
  | assoc a => rfl

/-! ## The loop over the partitions -/

/-- A partition of the list has this QOS. -/
def PartsQos (conf : Conf) (parts : List Nat) (q : Nat) : Prop := ∃ p ∈ parts, conf.partQos p = some q

/-- The QOS that the loop adjusts. -/
def partsQos (conf : Conf) : List Nat → List Nat → List Nat
  | _, [] => []
  | handled, part :: parts =>
    match conf.partQos part with
    | none => partsQos conf handled parts
    | some q => if q ∈ handled then partsQos conf handled parts else q :: partsQos conf (q :: handled) parts

theorem qosAdjust_some (q : Nat) :
    qosAdjustLimitUsage conf type job (some q) b = b.applyAll (adjust conf type job) (keysOf conf job [q]) := by
  rw [keysOf, flatMap_singleton]
  rfl

theorem partsQos_cons {handled parts : List Nat} {part : Nat} (h : conf.partQos part = some q) :
    partsQos conf handled (part :: parts) =
      if q ∈ handled then partsQos conf handled parts
      else q :: partsQos conf (q :: handled) parts := by
  rw [partsQos, h]

theorem keysOf_cons {q : Nat} {qs : List Nat} :
    keysOf conf job (q :: qs) = keysOf conf job [q] ++ keysOf conf job qs := by
  rw [keysOf, keysOf, keysOf, flatMap_cons, flatMap_singleton]

theorem foldl_foreach (parts handled : List Nat) (b : Books Key Usage) :
    parts.foldl (foreachPartQosLimitUsage conf type job) (handled, b) =
      ((partsQos conf handled parts).reverse ++ handled,
        b.applyAll (adjust conf type job) (keysOf conf job (partsQos conf handled parts))) := by
  induction parts generalizing handled b with
  | nil => rfl
  | cons part parts ih =>
    rw [foldl_cons, foreachPartQosLimitUsage]
    cases hq : conf.partQos part with
    | none =>
      rw [partsQos, hq]
      exact ih handled b
    | some q =>
      rw [partsQos_cons hq]
      by_cases hmem : q ∈ handled
      · simp only [if_pos hmem]
        exact ih handled b
      · simp only [if_neg hmem]
        rw [ih, qosAdjust_some, keysOf_cons, applyAll_append, reverse_cons, append_assoc]
        rfl

theorem mem_partsQos {parts handled : List Nat} :
    q ∈ partsQos conf handled parts ↔ q ∉ handled ∧ PartsQos conf parts q := by
  induction parts generalizing handled with
  | nil => exact iff_of_false not_mem_nil fun h => nomatch h.2
  | cons part parts ih =>
    unfold PartsQos
    rw [exists_mem_cons_iff]
    cases hq : conf.partQos part with
    | none =>
      rw [partsQos, hq, ih]
      simp [PartsQos]
    | some q' =>
      rw [partsQos_cons hq]
      by_cases hmem : q' ∈ handled
      · rw [if_pos hmem, ih]
        refine and_congr_right fun hnot => (or_iff_right fun heq => hnot ?_).symm
        rw [← Option.some.inj heq]
        exact hmem
      · rw [if_neg hmem, mem_cons, ih, mem_cons, not_or, Option.some.injEq]
        by_cases heq : q = q'
        · subst heq
          simp [hmem]
        · simp [heq, Ne.symm heq, PartsQos]

theorem nodup_partsQos (parts handled : List Nat) : (partsQos conf handled parts).Nodup := by
  induction parts generalizing handled with
  | nil => exact nodup_nil
  | cons part parts ih =>
    cases hq : conf.partQos part with
    | none =>
      rw [partsQos, hq]
      exact ih handled
    | some q =>
      rw [partsQos_cons hq]
      split
      · exact ih handled
      · refine List.nodup_cons.mpr ⟨fun hmem => ?_, ih _⟩
        exact (mem_partsQos.mp hmem).1 (mem_cons_self ..)

/-! ## What is adjusted -/

/-- The job's QOS and those of all its partitions are adjusted once each. -/
theorem adjust_part (parts : List Nat) (b : Books Key Usage) : ∃ qs : List Nat, qs.Nodup ∧
    (∀ q, q ∈ qs ↔ job.qosPtr = some q ∨ PartsQos conf parts q) ∧
    adjustPartQos conf type job parts b = b.applyAll (adjust conf type job) (keysOf conf job qs) := by
  unfold adjustPartQos
  cases hqos : job.qosPtr with
  | none =>
    refine ⟨partsQos conf [] parts, nodup_partsQos _ _, fun q => ?_, ?_⟩
    · rw [mem_partsQos]
      simp
    · simp only [Option.any_none, Bool.false_eq_true, if_false, Bool.not_false, Bool.and_false]
      rw [foldl_foreach]
  | some q₀ =>
    by_cases hfirst : conf.overPartQos q₀ = true
    · refine ⟨q₀ :: partsQos conf [q₀] parts, ?_, fun q => ?_, ?_⟩
      · refine List.nodup_cons.mpr ⟨fun hmem => ?_, nodup_partsQos _ _⟩
        exact (mem_partsQos.mp hmem).1 (mem_singleton_self q₀)
      · rw [mem_cons, mem_partsQos, mem_singleton, Option.some.injEq]
        by_cases hq : q = q₀
        · simp [hq]
        · simp [hq, Ne.symm hq]
      · simp only [Option.any_some, hfirst, if_true, Bool.not_true, Bool.false_and, Bool.false_eq_true,
          if_false, Option.toList_some]
        rw [foldl_foreach, qosAdjust_some, @keysOf_cons _ _ q₀ (partsQos conf [q₀] parts), applyAll_append]
    · rw [Bool.not_eq_true] at hfirst
      have hhandled : q₀ ∈ (partsQos conf [] parts).reverse ++ [] ↔ PartsQos conf parts q₀ := by
        rw [append_nil, mem_reverse, mem_partsQos]
        simp
      simp only [Option.any_some, hfirst, Bool.false_eq_true, if_false, Bool.not_false, Bool.true_and,
        decide_eq_true_eq]
      rw [foldl_foreach]
      by_cases hparts : PartsQos conf parts q₀
      · refine ⟨partsQos conf [] parts, nodup_partsQos _ _, fun q => ?_, ?_⟩
        · rw [mem_partsQos, Option.some.injEq]
          constructor
          · exact fun h => Or.inr h.2
          · rintro (rfl | h)
            · exact ⟨not_mem_nil, hparts⟩
            · exact ⟨not_mem_nil, h⟩
        · rw [if_neg fun hnot => hnot (hhandled.mpr hparts)]
      · refine ⟨partsQos conf [] parts ++ [q₀], ?_, fun q => ?_, ?_⟩
        · refine nodup_append'.mpr ⟨nodup_partsQos _ _, nodup_singleton _, ?_⟩
          rw [disjoint_singleton]
          exact fun hmem => hparts (mem_partsQos.mp hmem).2
        · rw [mem_append, mem_singleton, mem_partsQos, or_comm, Option.some.injEq]
          simp [eq_comm]
        · rw [if_pos fun hmem => hparts (hhandled.mp hmem), qosAdjust_some, ← applyAll_append]
          simp [keysOf]

/-- Both QOS are adjusted once each. -/
theorem setQosOrder_adjust (b : Books Key Usage) : ∃ qs : List Nat, qs.Nodup ∧
    (∀ q, q ∈ qs ↔ job.qosPtr = some q ∨ job.partPtr.bind conf.partQos = some q) ∧
    qosAdjustLimitUsage conf type job (setQosOrder conf job).2
        (qosAdjustLimitUsage conf type job (setQosOrder conf job).1 b) =
      b.applyAll (adjust conf type job) (keysOf conf job qs) := by
  unfold setQosOrder
  cases hqos : job.qosPtr with
  | none =>
    cases hpart : job.partPtr.bind conf.partQos with
    | none => exact ⟨[], nodup_nil, fun q => by simp, rfl⟩
    | some p =>
      refine ⟨[p], nodup_singleton p, fun q => by simp [eq_comm], ?_⟩
      simp only
      rw [qosAdjust_some]
      rfl
  | some q₀ =>
    cases hpart : job.partPtr.bind conf.partQos with
    | none =>
      refine ⟨[q₀], nodup_singleton q₀, fun q => by simp [eq_comm], ?_⟩
      simp only
      rw [qosAdjust_some]
      rfl
    | some p =>
      have hpair : ∀ q₁ q₂ : Nat, ∃ qs : List Nat, qs.Nodup ∧ (∀ q, q ∈ qs ↔ q₁ = q ∨ q₂ = q) ∧
          qosAdjustLimitUsage conf type job (if q₁ = q₂ then none else some q₂)
              (qosAdjustLimitUsage conf type job (some q₁) b) =
            b.applyAll (adjust conf type job) (keysOf conf job qs) := by
        intro q₁ q₂
        by_cases heq : q₁ = q₂
        · refine ⟨[q₁], nodup_singleton q₁, fun q => by simp [heq, eq_comm], ?_⟩
          rw [if_pos heq, qosAdjust_some]
          rfl
        · refine ⟨[q₁, q₂], by simp [heq], fun q => by simp [eq_comm], ?_⟩
          rw [if_neg heq, qosAdjust_some, qosAdjust_some, ← applyAll_append,
            @keysOf_cons _ _ q₁ [q₂]]
      by_cases hover : conf.overPartQos q₀ = true
      · obtain ⟨qs, hnodup, hmem, heq⟩ := hpair q₀ p
        refine ⟨qs, hnodup, fun q => by rw [hmem, Option.some.injEq, Option.some.injEq], ?_⟩
        simp only [hover, if_true]
        exact heq
      · obtain ⟨qs, hnodup, hmem, heq⟩ := hpair p q₀
        refine ⟨qs, hnodup, fun q => by rw [hmem, Option.some.injEq, Option.some.injEq, or_comm], ?_⟩
        simp only [hover]
        exact heq

/-- A job that does not start has the QOS of its partition and its own adjusted. -/
theorem adjust_ordered (h : type ≠ .jobBegin ∨ job.partPtrList = none) (b : Books Key Usage) :
    ∃ qs : List Nat, qs.Nodup ∧
      (∀ q, q ∈ qs ↔ job.qosPtr = some q ∨ job.partPtr.bind conf.partQos = some q) ∧
      adjustOrderedQos conf type job b = b.applyAll (adjust conf type job) (keysOf conf job qs) := by
  obtain ⟨qs, hnodup, hmem, heq⟩ := @setQosOrder_adjust conf job type b
  refine ⟨qs, hnodup, hmem, ?_⟩
  rw [← heq]
  unfold adjustOrderedQos
  cases hlist : job.partPtrList with
  | none => cases type <;> rfl
  | some parts =>
    cases type with
    | jobBegin => exact absurd rfl (h.resolve_right fun hnone => by rw [hlist] at hnone; cases hnone)
    | addSubmit => rfl
    | remSubmit => rfl
    | jobFini => rfl

/-- A job that starts is first removed from the QOS of its other partitions. -/
theorem adjust_unused {parts : List Nat} (hlist : job.partPtrList = some parts) (b : Books Key Usage) :
    ∃ rs qs : List Nat, rs.Nodup ∧ qs.Nodup ∧
      (∀ q, q ∈ rs ↔ PartsQos conf parts q ∧ job.qosPtr ≠ some q ∧
        job.partPtr.bind conf.partQos ≠ some q) ∧
      (∀ q, q ∈ qs ↔ job.qosPtr = some q ∨ job.partPtr.bind conf.partQos = some q) ∧
      adjustOrderedQos conf .jobBegin job b =
        (b.applyAll (adjust conf .remSubmit job) (keysOf conf job rs)).applyAll
          (adjust conf .jobBegin job) (keysOf conf job qs) := by
  set handled := (if job.qosPtr ≠ job.partPtr.bind conf.partQos
    then (job.partPtr.bind conf.partQos).toList else []) ++ job.qosPtr.toList with hhandled
  obtain ⟨qs, hnodup, hmem, heq⟩ := @setQosOrder_adjust conf job .jobBegin
    (b.applyAll (adjust conf .remSubmit job) (keysOf conf job (partsQos conf handled parts)))
  refine ⟨partsQos conf handled parts, qs, nodup_partsQos _ _, hnodup, fun q => ?_, hmem, ?_⟩
  · rw [mem_partsQos, and_comm, hhandled, mem_append, not_or]
    refine and_congr_right fun _ => ?_
    rw [Option.mem_toList, and_comm]
    refine and_congr_right fun hqos => not_congr ?_
    split
    · rw [Option.mem_toList]
    · rename_i hsame
      rw [not_not] at hsame
      rw [← hsame]
      exact iff_of_false not_mem_nil hqos
  · rw [← heq]
    unfold adjustOrderedQos
    rw [hlist]
    simp only [← hhandled]
    rw [foldl_foreach]

end Slurm.AcctPolicy

/-!
## Runs of jobs that are charged

`exec` is a step in the life of a job: it is submitted, may start and end, and is removed.
`submittedTo` and `runningIn` are the jobs that are charged to a record: a submitted job to its QOS
of highest priority and to the QOS of the partitions it may start in, or of the one it started
in; a running job to the QOS it runs with and to that of its partition.

* `adjust_submit`, `adjust_begin_books`, `adjust_fini`: the records that a step adjusts.
-/

namespace Slurm.AcctPolicy

open Lib.Ledger List

variable {conf : Conf} {ι : Type}
variable {P : Nat → Prop} {q : Nat}

/-! ## Lives of jobs -/

/-- Where a job is in its life. -/
inductive Phase where
  | new
  | submitted
  | running
  | ended
  | removed
  deriving DecidableEq

structure World (ι : Type) where
  jobs : ι → Job
  phase : ι → Phase
  books : Books Key Usage

inductive Event (ι : Type) where
  /-- `acct_policy_add_job_submit` -/
  | add (i : ι)
  /-- `acct_policy_job_begin`, in a partition and with a QOS. -/
  | start (i : ι) (part qos : Nat) (alloc : Alloc)
  /-- `acct_policy_job_fini` -/
  | fini (i : ι)
  /-- `acct_policy_remove_job_submit`; a job that did not start may not be pending any more. -/
  | remove (i : ι) (pending : Bool)

/-- A job may start in this partition with this QOS. -/
def mayStart (job : Job) (part qos : Nat) : Bool :=
  (match job.partPtrList with
    | some parts => decide (part ∈ parts)
    | none => job.partPtr == some part) &&
  if job.qosList.isEmpty then job.qosPtr == some qos else decide (qos ∈ job.qosList)

/-- A job that starts. -/
def Job.start (job : Job) (part qos : Nat) (alloc : Alloc) : Job :=
  { job with partPtr := some part, qosPtr := some qos, pending := false, alloc := some alloc }

/-! ## The jobs that are charged -/

/-- The QOS that a job is submitted with: the one of highest priority, if there are several. -/
def highest (job : Job) : Option Nat := (setHighestPrioQosPtr job).qosPtr

/-- The QOS of the partition of a job. -/
def partQosOf (conf : Conf) (job : Job) : Option Nat := job.partPtr.bind conf.partQos

/-- The QOS of the partitions that a job may start in. -/
def MayPartQos (conf : Conf) (job : Job) (q : Nat) : Prop :=
  match job.partPtrList with
  | some parts => PartsQos conf parts q
  | none => partQosOf conf job = some q

/-- The QOS that a submitted job is charged to. -/
def SubmitQos (conf : Conf) (job : Job) (phase : Phase) (q : Nat) : Prop :=
  highest job = some q ∨
    if phase = .submitted then MayPartQos conf job q else partQosOf conf job = some q

/-- The QOS that a running job is charged to. -/
def RunQos (conf : Conf) (job : Job) (q : Nat) : Prop :=
  job.qosPtr = some q ∨ partQosOf conf job = some q

/-- A job was submitted and is not removed. -/
def Phase.isSubmitted : Phase → Bool
  | .submitted => true
  | .running => true
  | .ended => true
  | _ => false

/-- A job is submitted and charged to a record. -/
def SubmitsTo (conf : Conf) (w : World ι) (k : Key) (i : ι) : Prop :=
  (w.phase i).isSubmitted = true ∧ Charged conf (w.jobs i) (SubmitQos conf (w.jobs i) (w.phase i)) k

/-- A job is running and charged to a record. -/
def RunsIn (conf : Conf) (w : World ι) (k : Key) (i : ι) : Prop :=
  w.phase i = .running ∧ Charged conf (w.jobs i) (RunQos conf (w.jobs i)) k

/-! ## The records that are adjusted -/

variable {job : Job} {k : Key}

/-- The charges of a job are those of its user and association. -/
theorem Charged.of_job {job' : Job} (huser : job'.userId = job.userId)
    (hassoc : job'.assoc = job.assoc) : Charged conf job' P k ↔ Charged conf job P k := by
  cases k with
  | qos q => rfl
  | qosUser q user => rw [Charged, Charged, huser]
  | qosAcct q acct => rw [Charged, Charged, hassoc]
  | assoc a => rw [Charged, Charged, hassoc]

/-- A record of a QOS is charged when its QOS is, and the user or account is the job's. -/
theorem charged_qos (h : k.qos? = some q) :
    Charged conf job P k ↔ P q ∧ Charged conf job (fun _ => True) k := by
  cases k with
  | qos q' =>
    cases h
    exact (and_iff_left trivial).symm
  | qosUser q' user =>
    cases h
    exact and_congr_right fun _ => (and_iff_right trivial).symm
  | qosAcct q' acct =>
    cases h
    exact and_congr_right fun _ => (and_iff_right trivial).symm
  | assoc a => cases h

theorem charged_assoc {Q : Nat → Prop} (h : k.qos? = none) :
    Charged conf job P k ↔ Charged conf job Q k := by
  cases k with
  | qos q => cases h
  | qosUser q user => cases h
  | qosAcct q acct => cases h
  | assoc a => rfl

theorem setHighest_eq (job : Job) : setHighestPrioQosPtr job = { job with qosPtr := highest job } := by
  unfold highest setHighestPrioQosPtr
  split <;> rfl

theorem highest_eq (job : Job) : highest job = job.qosList.head?.or job.qosPtr := by
  unfold highest setHighestPrioQosPtr
  cases job.qosList with
  | nil => rfl
  | cons q qs => rfl

theorem highest_idem (job : Job) : highest { job with qosPtr := highest job } = highest job := by
  unfold highest setHighestPrioQosPtr
  cases job.qosList with
  | nil => rfl
  | cons q qs => rfl

/-- The QOS of the partitions that are adjusted when a job is submitted or removed. -/
def AdjustedPartQos (conf : Conf) (job : Job) (q : Nat) : Prop :=
  match job.partPtrList with
  | some parts =>
    if job.pending = true ∨ job.alloc.isNone = true then PartsQos conf parts q
    else partQosOf conf job = some q
  | none => partQosOf conf job = some q

/-- The QOS that are adjusted when a job is submitted or removed. -/
def AdjustedQos (conf : Conf) (job : Job) (q : Nat) : Prop :=
  highest job = some q ∨ AdjustedPartQos conf job q

theorem adjustedPartQos_unallocated (halloc : job.alloc = none) (q : Nat) :
    AdjustedPartQos conf job q ↔ MayPartQos conf job q := by
  unfold AdjustedPartQos MayPartQos
  cases job.partPtrList with
  | none => exact Iff.rfl
  | some parts => simp [halloc]

/-- The records of a job for a list of QOS are adjusted. -/
theorem applyAll_charged {f : Key → Usage → Usage × Bool} {qs : List Nat} (hqs : qs.Nodup)
    (hP : ∀ q, q ∈ qs ↔ P q) (b : Books Key Usage) :
    Adjusted f (Charged conf job P) b
      ((b.applyAll f (keysOf conf job qs)).applyAll f (assocKeys conf job)) := by
  rw [← applyAll_append]
  exact applyAll_adjusted (nodup_keys hqs) fun k => mem_keys.trans (Charged.congr hP)

theorem adjust_submit {type : AdjustType} (htype : type.isSubmit = true) (job : Job)
    (b : Books Key Usage) :
    Adjusted (adjust conf type (setHighestPrioQosPtr job)) (Charged conf job (AdjustedQos conf job)) b
      (adjustLimitUsage conf type job b).2 := by
  have hbegin : type ≠ .jobBegin := by
    rintro rfl
    cases htype
  have hlist : (setHighestPrioQosPtr job).partPtrList = job.partPtrList := by rw [setHighest_eq]
  have hpending : (setHighestPrioQosPtr job).pending = job.pending := by rw [setHighest_eq]
  have halloc : (setHighestPrioQosPtr job).alloc = job.alloc := by rw [setHighest_eq]
  have hpart : (setHighestPrioQosPtr job).partPtr = job.partPtr := by rw [setHighest_eq]
  have hcharged : Charged conf job (AdjustedQos conf job) =
      Charged conf (setHighestPrioQosPtr job) (AdjustedQos conf job) := by
    funext k
    rw [setHighest_eq]
    exact propext (Charged.of_job rfl rfl).symm
  obtain ⟨qs, hnodup, hmem, heq⟩ := @adjust_ordered conf (setHighestPrioQosPtr job) type
    (Or.inl hbegin) b
  rw [hpart] at hmem
  rw [hcharged]
  unfold adjustLimitUsage AdjustedQos AdjustedPartQos
  simp only [htype, if_true, true_and, hlist, hpending, halloc]
  cases job.partPtrList with
  | none =>
    simp only
    rw [heq]
    exact applyAll_charged hnodup hmem b
  | some parts =>
    simp only
    split
    · obtain ⟨qs, hnodup, hmem, heq⟩ := @adjust_part conf (setHighestPrioQosPtr job) type parts b
      rw [heq]
      exact applyAll_charged hnodup hmem b
    · rw [heq]
      exact applyAll_charged hnodup hmem b

theorem books_of_not_submit {type : AdjustType} (htype : type.isSubmit = false) (job : Job)
    (b : Books Key Usage) :
    (adjustLimitUsage conf type job b).2 =
      (adjustOrderedQos conf type job b).applyAll (adjust conf type job) (assocKeys conf job) := by
  unfold adjustLimitUsage assocKeys
  simp only [htype, Bool.false_eq_true, if_false, false_and]
  cases job.partPtrList with
  | none => rfl
  | some parts => rfl

theorem adjust_fini (job : Job) (b : Books Key Usage) :
    Adjusted (adjust conf .jobFini job) (Charged conf job (RunQos conf job)) b
      (adjustLimitUsage conf .jobFini job b).2 := by
  obtain ⟨qs, hnodup, hmem, heq⟩ := @adjust_ordered conf job .jobFini
    (Or.inl AdjustType.noConfusion) b
  rw [books_of_not_submit rfl, heq]
  exact applyAll_charged hnodup hmem b

/-- The QOS of the other partitions of a job that starts. -/
def UnusedQos (conf : Conf) (job : Job) (q : Nat) : Prop :=
  ∃ parts, job.partPtrList = some parts ∧ PartsQos conf parts q ∧ job.qosPtr ≠ some q ∧
    partQosOf conf job ≠ some q

/-- A job that starts is removed from the QOS of its other partitions first. -/
theorem adjust_begin_books (job : Job) (b : Books Key Usage) : ∃ b₁ : Books Key Usage,
    Adjusted (adjust conf .remSubmit job)
      (fun k => Charged conf job (UnusedQos conf job) k ∧ k.qos? ≠ none) b b₁ ∧
    Adjusted (adjust conf .jobBegin job) (Charged conf job (RunQos conf job)) b₁
      (adjustLimitUsage conf .jobBegin job b).2 := by
  rw [books_of_not_submit rfl]
  cases hlist : job.partPtrList with
  | none =>
    obtain ⟨qs, hnodup, hmem, heq⟩ := @adjust_ordered conf job .jobBegin (Or.inr hlist) b
    refine ⟨b, ?_, ?_⟩
    · have hnone : ∀ k, ¬ (Charged conf job (UnusedQos conf job) k ∧ k.qos? ≠ none) := by
        have hunused : ∀ q, ¬ UnusedQos conf job q := by
          rintro q ⟨parts, hparts, -⟩
          rw [hlist] at hparts
          cases hparts
        rintro k ⟨hk, hqos⟩
        cases k with
        | qos q => exact hunused q hk
        | qosUser q user => exact hunused q hk.1
        | qosAcct q acct => exact hunused q hk.1
        | assoc a => exact hqos rfl
      exact ⟨fun k hk => absurd hk (hnone k), fun _ _ => rfl,
        (and_iff_left fun k hk => absurd hk (hnone k)).symm⟩
    · rw [heq]
      exact applyAll_charged hnodup hmem b
  | some parts =>
    obtain ⟨rs, qs, hrs, hqs, hmemrs, hmemqs, heq⟩ := @adjust_unused conf job parts hlist b
    refine ⟨b.applyAll (adjust conf .remSubmit job) (keysOf conf job rs), ?_, ?_⟩
    · refine applyAll_adjusted (nodup_keysOf hrs) fun k => mem_keysOf.trans ?_
      refine and_congr_left fun _ => Charged.congr fun q => (hmemrs q).trans ?_
      constructor
      · exact fun h => ⟨parts, hlist, h⟩
      · rintro ⟨parts', hparts', h⟩
        obtain rfl := Option.some.inj (hlist.symm.trans hparts')
        exact h
    · rw [heq]
      exact applyAll_charged hqs hmemqs _

/-! ## A job that starts -/

variable {part qos : Nat} {alloc : Alloc}

theorem partQosOf_start : partQosOf conf (job.start part qos alloc) = conf.partQos part := rfl

theorem runQos_start :
    RunQos conf (job.start part qos alloc) q ↔ qos = q ∨ conf.partQos part = some q := by
  unfold RunQos
  rw [partQosOf_start]
  exact or_congr_left Option.some_inj

theorem highest_start (h : mayStart job part qos = true) :
    highest (job.start part qos alloc) = highest job := by
  unfold mayStart at h
  unfold highest setHighestPrioQosPtr Job.start
  cases hqos : job.qosList with
  | nil =>
    rw [hqos, isEmpty_nil, if_pos rfl, Bool.and_eq_true, beq_iff_eq] at h
    exact h.2.symm
  | cons q qs => rfl

/-- The partition that a job starts in is one that it may start in. -/
theorem mayPartQos_of_start (h : mayStart job part qos = true) (hq : conf.partQos part = some q) :
    MayPartQos conf job q := by
  unfold mayStart at h
  unfold MayPartQos
  rw [Bool.and_eq_true] at h
  cases hlist : job.partPtrList with
  | none =>
    rw [hlist, beq_iff_eq] at h
    show job.partPtr.bind conf.partQos = some q
    rw [h.1]
    exact hq
  | some parts =>
    rw [hlist, decide_eq_true_iff] at h
    exact ⟨part, h.1, hq⟩

/-- A QOS of another partition is the QOS of one in the list. -/
theorem mayPartQos_iff (h : mayStart job part qos = true) (hq : conf.partQos part ≠ some q) :
    MayPartQos conf job q ↔ ∃ parts, job.partPtrList = some parts ∧ PartsQos conf parts q := by
  unfold MayPartQos
  cases hlist : job.partPtrList with
  | none =>
    unfold mayStart at h
    rw [Bool.and_eq_true, hlist, beq_iff_eq] at h
    refine iff_of_false (fun hpart => hq ?_) fun ⟨parts, hparts, _⟩ => nomatch hparts
    rw [partQosOf, h.1] at hpart
    exact hpart
  | some parts =>
    constructor
    · exact fun hparts => ⟨parts, rfl, hparts⟩
    · rintro ⟨parts', hparts', h⟩
      obtain rfl := Option.some.inj hparts'
      exact h

theorem unusedQos_start (h : mayStart job part qos = true) :
    UnusedQos conf (job.start part qos alloc) q ↔
      MayPartQos conf job q ∧ qos ≠ q ∧ conf.partQos part ≠ some q := by
  constructor
  · rintro ⟨parts, hparts, hq, hqos, hpart⟩
    rw [partQosOf_start] at hpart
    exact ⟨(mayPartQos_iff h hpart).mpr ⟨parts, hparts, hq⟩, fun heq => hqos (congrArg some heq),
      hpart⟩
  · rintro ⟨hmay, hqos, hpart⟩
    obtain ⟨parts, hparts, hq⟩ := (mayPartQos_iff h hpart).mp hmay
    exact ⟨parts, hparts, hq, fun heq => hqos (Option.some.inj heq), hpart⟩

/-- A record that the job is removed from is not one that it runs in. -/
theorem not_run_of_unused (hmay : mayStart job part qos = true)
    (hk : Charged conf (job.start part qos alloc)
      (UnusedQos conf (job.start part qos alloc)) k ∧ k.qos? ≠ none) :
    ¬ Charged conf (job.start part qos alloc) (RunQos conf (job.start part qos alloc)) k := by
  obtain ⟨q, hq⟩ := Option.ne_none_iff_exists'.mp hk.2
  intro hrun
  have hunused := (unusedQos_start hmay).mp ((charged_qos hq).mp hk.1).1
  rcases runQos_start.mp ((charged_qos hq).mp hrun).1 with heq | heq
  · exact hunused.2.1 heq
  · exact hunused.2.2 heq

end Slurm.AcctPolicy
