import Slurm.AcctPolicy.Charges

/-!
# Limit usage over whole runs

`limitsContract_iff`: the records always hold the sums over the jobs charged to them exactly when
the counters have room and, whenever a job with several partitions starts with a QOS that is not its
highest one, neither of the two is the QOS of another one of its partitions.
-/

namespace Slurm.AcctPolicy

open Lib.Ledger Lib.Run Finset Function

variable {conf : Conf} {ι : Type}
variable {A B : Finset ι}

/-! ## Right records -/

/-- Nothing is counted. -/
structure Usage.Zero (u : Usage) : Prop where
  submitJobs : u.submitJobs = 0
  jobs : u.jobs = 0
  tres : ∀ t, u.tres t = 0
  nodeBitmap : u.nodeBitmap.getD ∅ = ∅
  nodeJobCnt : ∀ n, u.nodeJobCnt n = 0

theorem zero_of_counted {jobs : ι → Job} {u : Usage} (h : Counted conf jobs ∅ ∅ u) : u.Zero := by
  constructor
  · exact BitVec.eq_of_toNat_eq h.submitJobs
  · exact BitVec.eq_of_toNat_eq h.running
  · intro t
    by_cases ht : t = tresArrayNode
    · subst ht
      exact BitVec.eq_of_toNat_eq h.nodes
    · exact BitVec.eq_of_toNat_eq (h.tres t ht)
  · exact h.nodeBitmap
  · exact fun n => BitVec.eq_of_toNat_eq (h.nodeJobCnt n)

section

variable [Fintype ι]

open Classical in
/-- The submitted jobs that are charged to a record. -/
noncomputable def submittedTo (conf : Conf) (w : World ι) (k : Key) : Finset ι :=
  Finset.univ.filter (SubmitsTo conf w k)

open Classical in
/-- The running jobs that are charged to a record. -/
noncomputable def runningIn (conf : Conf) (w : World ι) (k : Key) : Finset ι :=
  Finset.univ.filter (RunsIn conf w k)

theorem mem_submittedTo {w : World ι} {k : Key} {i : ι} :
    i ∈ submittedTo conf w k ↔ SubmitsTo conf w k i := by
  simp [submittedTo]

theorem mem_runningIn {w : World ι} {k : Key} {i : ι} :
    i ∈ runningIn conf w k ↔ RunsIn conf w k i := by
  simp [runningIn]

/-- The records hold the sums over the jobs that are charged. -/
structure LimitsHold (conf : Conf) (w : World ι) : Prop where
  counted : ∀ k, Counted conf w.jobs (submittedTo conf w k) (runningIn conf w k) (w.books.account k)
  /-- No decrement has underflowed. -/
  noUnderflow : w.books.wrong = false
  removed : (∀ i, w.phase i = .removed) → ∀ k, (w.books.account k).Zero

/-- When all jobs are removed, no job is charged. -/
theorem limitsHold_of_counted {w : World ι} (hcounted : ∀ k, Counted conf w.jobs
    (submittedTo conf w k) (runningIn conf w k) (w.books.account k)) (hwrong : w.books.wrong = false) :
    LimitsHold conf w := by
  refine ⟨hcounted, hwrong, fun hremoved k => ?_⟩
  have hk := hcounted k
  have hsubmit : submittedTo conf w k = ∅ := by
    refine eq_empty_of_forall_notMem fun i hi => ?_
    have hphase := (mem_submittedTo.mp hi).1
    rw [hremoved i] at hphase
    cases hphase
  have hrun : runningIn conf w k = ∅ := by
    refine eq_empty_of_forall_notMem fun i hi => ?_
    have hphase := (mem_runningIn.mp hi).1
    rw [hremoved i] at hphase
    cases hphase
  rw [hsubmit, hrun] at hk
  exact zero_of_counted hk

theorem notMem_running {w : World ι} {i : ι} {k : Key} (h : w.phase i ≠ .running) :
    i ∉ runningIn conf w k := fun hmem =>
  h (mem_runningIn.mp hmem).1

theorem notMem_submitted {w : World ι} {i : ι} {k : Key} (h : (w.phase i).isSubmitted = false) :
    i ∉ submittedTo conf w k := by
  intro hmem
  have hsubmitted := (mem_submittedTo.mp hmem).1
  rw [h] at hsubmitted
  cases hsubmitted

/-- What is known of a job in each phase. -/
def JobOk (job : Job) : Phase → Prop
  | .new => job.alloc = none
  | .submitted => job.alloc = none
  | .running => job.alloc ≠ none ∧ job.pending = false
  | .ended => job.alloc ≠ none ∧ job.pending = false
  | .removed => True

/-- The invariant of a run. -/
structure Inv (conf : Conf) (w : World ι) : Prop where
  counted : ∀ k, Counted conf w.jobs (submittedTo conf w k) (runningIn conf w k) (w.books.account k)
  noUnderflow : w.books.wrong = false
  jobs : ∀ i, JobOk (w.jobs i) (w.phase i)

/-- No job is submitted yet, and nothing is counted. -/
structure Fresh {ι : Type} (w : World ι) : Prop where
  phase : ∀ i, w.phase i = .new
  alloc : ∀ i, (w.jobs i).alloc = none
  account : ∀ k, (w.books.account k).Zero
  wrong : w.books.wrong = false

theorem inv_fresh {w : World ι} (h : Fresh w) : Inv conf w := by
  refine ⟨fun k => ?_, h.wrong, fun i => ?_⟩
  · have hsubmit : submittedTo conf w k = ∅ := eq_empty_of_forall_notMem fun i =>
      notMem_submitted (by rw [h.phase i]; rfl)
    have hrun : runningIn conf w k = ∅ := eq_empty_of_forall_notMem fun i =>
      notMem_running (by rw [h.phase i]; exact Phase.noConfusion)
    have hzero := h.account k
    rw [hsubmit, hrun]
    constructor
    · rw [hzero.submitJobs]
      rfl
    · rw [hzero.jobs]
      rfl
    · intro t _
      rw [hzero.tres]
      rfl
    · rw [hzero.tres]
      rfl
    · rw [hzero.nodeBitmap]
      rfl
    · intro n
      rw [hzero.nodeJobCnt]
      rfl
  · rw [h.phase i]
    exact h.alloc i

end

/-! ## Steps -/

section

variable [DecidableEq ι]

/-- Usage is adjusted for a job, which is in its next phase then. -/
def World.adjust (conf : Conf) (w : World ι) (type : AdjustType) (i : ι) (job : Job) (phase : Phase) :
    World ι :=
  let (job, books) := adjustLimitUsage conf type job w.books
  { jobs := Function.update w.jobs i job, phase := Function.update w.phase i phase, books := books }

/-- A step of a run. -/
def exec (conf : Conf) (w : World ι) : Event ι → Option (World ι)
  | .add i =>
    if w.phase i = .new then some (w.adjust conf .addSubmit i (w.jobs i) .submitted) else none
  | .start i part qos alloc =>
    if w.phase i = .submitted ∧ mayStart (w.jobs i) part qos then
      some (w.adjust conf .jobBegin i ((w.jobs i).start part qos alloc) .running)
    else none
  | .fini i => if w.phase i = .running then some (w.adjust conf .jobFini i (w.jobs i) .ended) else none
  | .remove i pending =>
    if w.phase i = .submitted then
      some (w.adjust conf .remSubmit i { w.jobs i with pending := pending } .removed)
    else if w.phase i = .ended then some (w.adjust conf .remSubmit i (w.jobs i) .removed)
    else none

variable {w w' : World ι} {i : ι} {job : Job} {phase : Phase} {k : Key}

/-- Another job is in another phase. -/
structure Moved (w : World ι) (i : ι) (job : Job) (phase : Phase) (w' : World ι) : Prop where
  jobs : w'.jobs = Function.update w.jobs i job
  phase : w'.phase = Function.update w.phase i phase

theorem Moved.job_self (h : Moved w i job phase w') : w'.jobs i = job := by
  rw [h.jobs, update_self]

theorem Moved.phase_self (h : Moved w i job phase w') : w'.phase i = phase := by
  rw [h.phase, update_self]

theorem Moved.submitsTo_of_ne (h : Moved w i job phase w') {j : ι} (hj : j ≠ i) :
    SubmitsTo conf w' k j ↔ SubmitsTo conf w k j := by
  unfold SubmitsTo
  rw [h.jobs, h.phase, update_of_ne hj, update_of_ne hj]

theorem Moved.runsIn_of_ne (h : Moved w i job phase w') {j : ι} (hj : j ≠ i) :
    RunsIn conf w' k j ↔ RunsIn conf w k j := by
  unfold RunsIn
  rw [h.jobs, h.phase, update_of_ne hj, update_of_ne hj]

/-- Only the job that moves has another record. -/
theorem Moved.counted (h : Moved w i job phase w') {S R : Finset ι} {u : Usage}
    (hc : Counted conf w.jobs S R u) (hi : i ∉ R) : Counted conf w'.jobs S R u := by
  refine hc.congr fun j hj => ?_
  rw [h.jobs]
  exact update_of_ne (fun heq : j = i => hi (heq ▸ hj)) _ _

theorem adjust_moved (conf : Conf) (w : World ι) (type : AdjustType) (i : ι) (job : Job)
    (phase : Phase) :
    Moved w i (adjustLimitUsage conf type job w.books).1 phase (w.adjust conf type i job phase) :=
  ⟨rfl, rfl⟩

/-- A set of jobs that changes for one of them. -/
theorem eq_insert_of (h : ∀ j, j ≠ i → (j ∈ B ↔ j ∈ A)) (hi : i ∈ B) : B = insert i A := by
  ext j
  rw [mem_insert]
  by_cases hj : j = i
  · simp [hj, hi]
  · simp [hj, h j hj]

theorem eq_erase_of (h : ∀ j, j ≠ i → (j ∈ B ↔ j ∈ A)) (hi : i ∉ B) : B = A.erase i := by
  ext j
  rw [mem_erase]
  by_cases hj : j = i
  · simp [hj, hi]
  · simp [hj, h j hj]

theorem eq_of (h : ∀ j, j ≠ i → (j ∈ B ↔ j ∈ A)) (hi : i ∈ B ↔ i ∈ A) : B = A := by
  ext j
  by_cases hj : j = i
  · rw [hj]
    exact hi
  · exact h j hj

end

variable [DecidableEq ι] [Fintype ι] {w w' : World ι} {i : ι} {job : Job} {phase : Phase} {k : Key}

theorem Moved.mem_submitted (h : Moved w i job phase w') :
    ∀ j, j ≠ i → (j ∈ submittedTo conf w' k ↔ j ∈ submittedTo conf w k) := fun j hj => by
  rw [mem_submittedTo, mem_submittedTo, h.submitsTo_of_ne hj]

theorem Moved.mem_running (h : Moved w i job phase w') :
    ∀ j, j ≠ i → (j ∈ runningIn conf w' k ↔ j ∈ runningIn conf w k) := fun j hj => by
  rw [mem_runningIn, mem_runningIn, h.runsIn_of_ne hj]

/-! ## The contract -/

/-- The contract of a run. -/
def LimitsContract (conf : Conf) (w : World ι) (es : List (Event ι)) : Prop :=
  Always (exec conf) (LimitsHold conf) w es

/-- The QOS that a job starts with and its highest one are its only QOS among those of its other
partitions together, or not at all. -/
def CleanStart (conf : Conf) (job : Job) (part qos : Nat) : Prop :=
  ∀ parts, job.partPtrList = some parts → ∀ q, PartsQos conf parts q → conf.partQos part ≠ some q →
    (q = qos ↔ highest job = some q)

/-- When a step keeps the records right. -/
def StepOk (conf : Conf) (w : World ι) : Event ι → Prop
  | .add i => ∀ k, Charged conf (w.jobs i) (SubmitQos conf (w.jobs i) .submitted) k →
      (submittedTo conf w k).card + 1 < 2 ^ 32
  | .start i part qos alloc =>
    let job := (w.jobs i).start part qos alloc
    CleanStart conf (w.jobs i) part qos ∧ ∀ k, Charged conf job (RunQos conf job) k →
      Room conf (Function.update w.jobs i job) (runningIn conf w k) i
  | .fini i => ∀ q, RunQos conf (w.jobs i) q → (runningIn conf w (.qos q)).card - 1 < 2 ^ 31
  | .remove _ _ => True

/-! ## Each step -/

/-- The records are right, and no decrement has underflowed. -/
def Right (conf : Conf) (w : World ι) : Prop :=
  (∀ k, Counted conf w.jobs (submittedTo conf w k) (runningIn conf w k) (w.books.account k)) ∧
    w.books.wrong = false

/-- No running jobs change with a job that does not run before or after. -/
theorem Moved.running_same (h : Moved w i job phase w') (hbefore : w.phase i ≠ .running)
    (hafter : phase ≠ .running) : runningIn conf w' k = runningIn conf w k :=
  eq_of h.mem_running (iff_of_false (notMem_running (by rw [h.phase_self]; exact hafter))
    (notMem_running hbefore))

theorem addSubmit_job (job : Job) (b : Books Key Usage) :
    (adjustLimitUsage conf .addSubmit job b).1 = setHighestPrioQosPtr job := rfl

theorem submitQos_highest (job : Job) (phase : Phase) (q : Nat) :
    SubmitQos conf (setHighestPrioQosPtr job) phase q ↔ SubmitQos conf job phase q := by
  rw [setHighest_eq, SubmitQos, highest_idem]
  rfl

/-- A job is submitted. -/
theorem right_add_iff (hinv : Inv conf w) (hnew : w.phase i = .new) :
    Right conf (w.adjust conf .addSubmit i (w.jobs i) .submitted) ↔ StepOk conf w (.add i) := by
  have hmoved := adjust_moved conf w .addSubmit i (w.jobs i) .submitted
  set w' := w.adjust conf .addSubmit i (w.jobs i) .submitted with hw'
  have hbooks : Adjusted (adjust conf .addSubmit (setHighestPrioQosPtr (w.jobs i)))
      (Charged conf (w.jobs i) (AdjustedQos conf (w.jobs i))) w.books w'.books :=
    adjust_submit rfl (w.jobs i) w.books
  have hok := hinv.jobs i
  rw [hnew] at hok
  have hcharged : ∀ k, Charged conf (w.jobs i) (AdjustedQos conf (w.jobs i)) k ↔
      Charged conf (w.jobs i) (SubmitQos conf (w.jobs i) .submitted) k := fun k => by
    refine Charged.congr fun q => ?_
    unfold AdjustedQos AdjustedPartQos SubmitQos MayPartQos
    rw [show (w.jobs i).alloc = none from hok]
    simp
  have hsubmits : ∀ k, SubmitsTo conf w' k i ↔
      Charged conf (w.jobs i) (AdjustedQos conf (w.jobs i)) k := fun k => by
    unfold SubmitsTo
    rw [hmoved.phase_self, hmoved.job_self, hcharged, addSubmit_job]
    refine (and_iff_right rfl).trans ?_
    rw [Charged.congr (submitQos_highest (w.jobs i) .submitted), setHighest_eq]
    exact Charged.of_job rfl rfl
  have hrun : ∀ k, runningIn conf w' k = runningIn conf w k := fun k =>
    hmoved.running_same (by rw [hnew]; exact Phase.noConfusion) Phase.noConfusion
  have hnotrun : ∀ k, i ∉ runningIn conf w k := fun k =>
    notMem_running (by rw [hnew]; exact Phase.noConfusion)
  have hnot : ∀ k, i ∉ submittedTo conf w k := fun k => notMem_submitted (by rw [hnew]; rfl)
  have hbooksWrong : w'.books.wrong = false :=
    hbooks.wrong.mpr ⟨hinv.noUnderflow, fun k _ => by rw [adjust_addSubmit]⟩
  -- For each record, whether the job is charged to it or not.
  have hcase : ∀ k, Counted conf w'.jobs (submittedTo conf w' k) (runningIn conf w' k)
      (w'.books.account k) ↔ (Charged conf (w.jobs i) (AdjustedQos conf (w.jobs i)) k →
        (submittedTo conf w k).card + 1 < 2 ^ 32) := by
    intro k
    have hk := hmoved.counted (hinv.counted k) (hnotrun k)
    rw [hrun k]
    by_cases hc : Charged conf (w.jobs i) (AdjustedQos conf (w.jobs i)) k
    · rw [eq_insert_of hmoved.mem_submitted (mem_submittedTo.mpr ((hsubmits k).mpr hc)),
        hbooks.account k hc, adjust_addSubmit, counted_addSubmit_iff hk (hnot k)]
      exact ⟨fun h _ => h, fun h => h hc⟩
    · refine iff_of_true ?_ fun h => absurd h hc
      rw [eq_of hmoved.mem_submitted (iff_of_false
        (fun hmem => hc ((hsubmits k).mp (mem_submittedTo.mp hmem))) (hnot k)), hbooks.other k hc]
      exact hk
  unfold Right StepOk
  rw [and_iff_left hbooksWrong]
  exact forall_congr' fun k => by rw [hcase k, hcharged k]

/-- A job is removed from the records that it is charged to. -/
theorem right_remove (hinv : Inv conf w) (hsubmitted : (w.phase i).isSubmitted = true)
    (hrunning : w.phase i ≠ .running) (huser : job.userId = (w.jobs i).userId)
    (hassoc : job.assoc = (w.jobs i).assoc)
    (hadjusted : ∀ q, AdjustedQos conf job q ↔ SubmitQos conf (w.jobs i) (w.phase i) q) :
    Right conf (w.adjust conf .remSubmit i job .removed) := by
  have hmoved := adjust_moved conf w .remSubmit i job .removed
  set w' := w.adjust conf .remSubmit i job .removed with hw'
  have hbooks : Adjusted (adjust conf .remSubmit (setHighestPrioQosPtr job))
      (Charged conf job (AdjustedQos conf job)) w.books w'.books := adjust_submit rfl job w.books
  have hsubmits : ∀ k, i ∈ submittedTo conf w k ↔ Charged conf job (AdjustedQos conf job) k := by
    intro k
    rw [mem_submittedTo, SubmitsTo, and_iff_right hsubmitted, Charged.congr hadjusted]
    exact (Charged.of_job huser hassoc).symm
  have hnot : ∀ k, i ∉ submittedTo conf w' k := fun k =>
    notMem_submitted (by rw [hmoved.phase_self]; rfl)
  constructor
  · intro k
    have hk := hmoved.counted (hinv.counted k) (notMem_running hrunning)
    rw [hmoved.running_same hrunning Phase.noConfusion,
      eq_erase_of hmoved.mem_submitted (hnot k)]
    by_cases hc : Charged conf job (AdjustedQos conf job) k
    · rw [hbooks.account k hc, adjust_remSubmit]
      exact (counted_remSubmit hk ((hsubmits k).mpr hc)).2
    · rw [hbooks.other k hc, erase_eq_of_notMem fun hmem => hc ((hsubmits k).mp hmem)]
      exact hk
  · refine hbooks.wrong.mpr ⟨hinv.noUnderflow, fun k hc => ?_⟩
    rw [adjust_remSubmit]
    exact (counted_remSubmit (hinv.counted k) ((hsubmits k).mpr hc)).1

/-- A job ends. -/
theorem right_fini_iff (hinv : Inv conf w) (hphase : w.phase i = .running) :
    Right conf (w.adjust conf .jobFini i (w.jobs i) .ended) ↔ StepOk conf w (.fini i) := by
  have hmoved : Moved w i (w.jobs i) .ended (w.adjust conf .jobFini i (w.jobs i) .ended) :=
    adjust_moved conf w .jobFini i (w.jobs i) .ended
  set w' := w.adjust conf .jobFini i (w.jobs i) .ended with hw'
  have hjobs : w'.jobs = w.jobs := by
    rw [hmoved.jobs]
    exact update_eq_self _ _
  have hbooks : Adjusted (adjust conf .jobFini (w.jobs i))
      (Charged conf (w.jobs i) (RunQos conf (w.jobs i))) w.books w'.books :=
    adjust_fini (w.jobs i) w.books
  have hok := hinv.jobs i
  rw [hphase] at hok
  obtain ⟨alloc, halloc⟩ := Option.ne_none_iff_exists'.mp hok.1
  have hsubmits : ∀ k, submittedTo conf w' k = submittedTo conf w k := by
    refine fun k => eq_of hmoved.mem_submitted ?_
    rw [mem_submittedTo, mem_submittedTo, SubmitsTo, SubmitsTo, hmoved.phase_self, hphase, hjobs]
    exact Iff.rfl
  have hruns : ∀ k, i ∈ runningIn conf w k ↔ Charged conf (w.jobs i) (RunQos conf (w.jobs i)) k :=
    fun k => by rw [mem_runningIn, RunsIn, and_iff_right hphase]
  have hrun : ∀ k, runningIn conf w' k = (runningIn conf w k).erase i := fun k =>
    eq_erase_of hmoved.mem_running
      (notMem_running (by rw [hmoved.phase_self]; exact Phase.noConfusion))
  have hiff : ∀ k, Charged conf (w.jobs i) (RunQos conf (w.jobs i)) k →
      (((adjust conf .jobFini (w.jobs i) k (w.books.account k)).2 = false ∧
        Counted conf w'.jobs (submittedTo conf w' k) (runningIn conf w' k) (w'.books.account k)) ↔
        (k.isQos = true → (runningIn conf w k).card - 1 < 2 ^ 31)) := fun k hc => by
    rw [hjobs, hsubmits k, hrun k, hbooks.account k hc]
    exact adjust_fini_iff (hinv.counted k) ((hruns k).mpr hc) halloc k
  constructor
  · rintro ⟨hcounted, hwrong⟩ q hq
    exact (hiff (.qos q) hq).mp ⟨(hbooks.wrong.mp hwrong).2 (.qos q) hq, hcounted (.qos q)⟩ rfl
  · intro hstep
    have hboth : ∀ k, Charged conf (w.jobs i) (RunQos conf (w.jobs i)) k →
        (adjust conf .jobFini (w.jobs i) k (w.books.account k)).2 = false ∧
        Counted conf w'.jobs (submittedTo conf w' k) (runningIn conf w' k) (w'.books.account k) := by
      refine fun k hc => (hiff k hc).mpr fun hqos => ?_
      cases k with
      | qos q => exact hstep q hc
      | qosUser q user => cases hqos
      | qosAcct q acct => cases hqos
      | assoc a => cases hqos
    constructor
    · intro k
      by_cases hc : Charged conf (w.jobs i) (RunQos conf (w.jobs i)) k
      · exact (hboth k hc).2
      · rw [hjobs, hsubmits k, hrun k, hbooks.other k hc,
          erase_eq_of_notMem fun hmem => hc ((hruns k).mp hmem)]
        exact hinv.counted k
    · exact hbooks.wrong.mpr ⟨hinv.noUnderflow, fun k hc => (hboth k hc).1⟩

/-! ## A job starts -/

variable {part qos : Nat} {alloc : Alloc}

/-- The two QOS that matter are compared for each QOS of the other partitions. -/
theorem cleanStart_iff (h : mayStart job part qos = true) :
    CleanStart conf job part qos ↔ ∀ q, MayPartQos conf job q → conf.partQos part ≠ some q →
      (q = qos ↔ highest job = some q) := by
  constructor
  · intro hclean q hmay hpart
    obtain ⟨parts, hparts, hq⟩ := (mayPartQos_iff h hpart).mp hmay
    exact hclean parts hparts q hq hpart
  · intro hclean parts hparts q hq hpart
    exact hclean q ((mayPartQos_iff h hpart).mpr ⟨parts, hparts, hq⟩) hpart

/-- What is known when a job starts. -/
structure Started (conf : Conf) (w : World ι) (i : ι) (part qos : Nat) (job : Job) (w' : World ι)
    (b₁ : Books Key Usage) : Prop where
  moved : Moved w i job .running w'
  removed : Adjusted (adjust conf .remSubmit job)
    (fun k => Charged conf job (UnusedQos conf job) k ∧ k.qos? ≠ none) w.books b₁
  begun : Adjusted (adjust conf .jobBegin job) (Charged conf job (RunQos conf job)) b₁ w'.books
  /-- Where the job was submitted to. -/
  before : ∀ k, i ∈ submittedTo conf w k ↔
    Charged conf job (fun q => highest (w.jobs i) = some q ∨ MayPartQos conf (w.jobs i) q) k
  after : ∀ k, i ∈ submittedTo conf w' k ↔
    Charged conf job (fun q => highest (w.jobs i) = some q ∨ conf.partQos part = some q) k
  notRunning : ∀ k, i ∉ runningIn conf w k
  running : ∀ k, i ∈ runningIn conf w' k ↔ Charged conf job (RunQos conf job) k

theorem started (hphase : w.phase i = .submitted) (hmay : mayStart (w.jobs i) part qos = true) :
    ∃ b₁, Started conf w i part qos ((w.jobs i).start part qos alloc)
      (w.adjust conf .jobBegin i ((w.jobs i).start part qos alloc) .running) b₁ := by
  obtain ⟨b₁, hremoved, hbegun⟩ := @adjust_begin_books conf ((w.jobs i).start part qos alloc) w.books
  have hmoved : Moved w i ((w.jobs i).start part qos alloc) .running
      (w.adjust conf .jobBegin i ((w.jobs i).start part qos alloc) .running) :=
    adjust_moved conf w .jobBegin i _ .running
  refine ⟨b₁, hmoved, hremoved, hbegun, fun k => ?_, fun k => ?_, fun k => ?_, fun k => ?_⟩
  · rw [mem_submittedTo, SubmitsTo, hphase]
    exact (and_iff_right rfl).trans (Charged.of_job rfl rfl).symm
  · rw [mem_submittedTo, SubmitsTo, hmoved.phase_self, hmoved.job_self]
    refine (and_iff_right rfl).trans (Charged.congr fun q => ?_)
    rw [SubmitQos, highest_start hmay]
    exact Iff.rfl
  · exact notMem_running (by rw [hphase]; exact Phase.noConfusion)
  · rw [mem_runningIn, RunsIn, hmoved.phase_self, hmoved.job_self]
    exact and_iff_right rfl

variable {b₁ : Books Key Usage}

/-- Other records keep the jobs submitted to them, in a clean start. -/
theorem Started.same (h : Started conf w i part qos ((w.jobs i).start part qos alloc) w' b₁)
    (hmay : mayStart (w.jobs i) part qos = true) (hclean : CleanStart conf (w.jobs i) part qos)
    (hk : ¬ (Charged conf ((w.jobs i).start part qos alloc)
      (UnusedQos conf ((w.jobs i).start part qos alloc)) k ∧ k.qos? ≠ none)) :
    submittedTo conf w' k = submittedTo conf w k := by
  refine eq_of h.moved.mem_submitted ?_
  rw [h.before, h.after]
  cases hq : k.qos? with
  | none => exact charged_assoc hq
  | some q =>
    refine (charged_qos hq).trans (Iff.trans ?_ (charged_qos hq).symm)
    refine and_congr_left fun hcharged => ?_
    constructor
    · rintro (hhigh | hpart)
      · exact Or.inl hhigh
      · exact Or.inr (mayPartQos_of_start hmay hpart)
    · rintro (hhigh | hpart)
      · exact Or.inl hhigh
      · by_cases hpq : conf.partQos part = some q
        · exact Or.inr hpq
        · refine Or.inl (((cleanStart_iff hmay).mp hclean q hpart hpq).mp ?_)
          by_contra hne
          refine hk ⟨(charged_qos hq).mpr ⟨?_, hcharged⟩, by rw [hq]; exact Option.some_ne_none q⟩
          exact (unusedQos_start hmay).mpr ⟨hpart, Ne.symm hne, hpq⟩

/-- A record that the job is removed from was one that it was submitted to, and is not any more in a
clean start. -/
theorem Started.unused (h : Started conf w i part qos ((w.jobs i).start part qos alloc) w' b₁)
    (hmay : mayStart (w.jobs i) part qos = true)
    (hk : Charged conf ((w.jobs i).start part qos alloc)
      (UnusedQos conf ((w.jobs i).start part qos alloc)) k ∧ k.qos? ≠ none) :
    i ∈ submittedTo conf w k ∧
      (CleanStart conf (w.jobs i) part qos → i ∉ submittedTo conf w' k) := by
  obtain ⟨q, hq⟩ := Option.ne_none_iff_exists'.mp hk.2
  obtain ⟨hunused, hcharged⟩ := (charged_qos hq).mp hk.1
  obtain ⟨hpart, hqos, hpq⟩ := (unusedQos_start hmay).mp hunused
  constructor
  · exact (h.before k).mpr ((charged_qos hq).mpr ⟨Or.inr hpart, hcharged⟩)
  · intro hclean hmem
    rcases ((charged_qos hq).mp ((h.after k).mp hmem)).1 with hhigh | hpq'
    · exact hqos (((cleanStart_iff hmay).mp hclean q hpart hpq).mpr hhigh).symm
    · exact hpq hpq'

/-- A record after a clean start. -/
theorem Started.counted_iff (h : Started conf w i part qos ((w.jobs i).start part qos alloc) w' b₁)
    (hinv : Inv conf w) (hmay : mayStart (w.jobs i) part qos = true)
    (hclean : CleanStart conf (w.jobs i) part qos) (k : Key) :
    Counted conf w'.jobs (submittedTo conf w' k) (runningIn conf w' k) (w'.books.account k) ↔
      (Charged conf ((w.jobs i).start part qos alloc)
        (RunQos conf ((w.jobs i).start part qos alloc)) k →
          Room conf w'.jobs (runningIn conf w k) i) := by
  have hk := h.moved.counted (hinv.counted k) (h.notRunning k)
  by_cases hun : Charged conf ((w.jobs i).start part qos alloc)
      (UnusedQos conf ((w.jobs i).start part qos alloc)) k ∧ k.qos? ≠ none
  · have hrun := not_run_of_unused hmay hun
    obtain ⟨hbefore, hafter⟩ := h.unused hmay hun
    refine iff_of_true ?_ fun hcharged => absurd hcharged hrun
    rw [eq_erase_of h.moved.mem_submitted (hafter hclean), eq_of h.moved.mem_running (iff_of_false
        (fun hmem => hrun ((h.running k).mp hmem)) (h.notRunning k)), h.begun.other k hrun,
      h.removed.account k hun, adjust_remSubmit]
    exact (counted_remSubmit hk hbefore).2
  · rw [h.same hmay hclean hun]
    by_cases hrun : Charged conf ((w.jobs i).start part qos alloc)
        (RunQos conf ((w.jobs i).start part qos alloc)) k
    · have halloc : (w'.jobs i).alloc = some alloc := by rw [h.moved.job_self]; rfl
      have hbegin := counted_begin_iff hk (h.notRunning k) halloc
      rw [h.moved.job_self] at hbegin
      rw [eq_insert_of h.moved.mem_running ((h.running k).mpr hrun), h.begun.account k hrun,
        h.removed.other k hun, adjust_begin, hbegin]
      exact ⟨fun hroom _ => hroom, fun hroom => hroom hrun⟩
    · refine iff_of_true ?_ fun hcharged => absurd hcharged hrun
      rw [eq_of h.moved.mem_running (iff_of_false (fun hmem => hrun ((h.running k).mp hmem))
        (h.notRunning k)), h.begun.other k hrun, h.removed.other k hun]
      exact hk

/-- The number of submitted jobs is only right after a clean start. -/
theorem Started.clean (h : Started conf w i part qos ((w.jobs i).start part qos alloc) w' b₁)
    (hinv : Inv conf w) (hmay : mayStart (w.jobs i) part qos = true) (hright : Right conf w') :
    CleanStart conf (w.jobs i) part qos := by
  refine (cleanStart_iff hmay).mpr fun q hpart hpq => ?_
  have hk := hinv.counted (.qos q)
  have hk' := (hright.1 (.qos q)).submitJobs
  have hbefore : i ∈ submittedTo conf w (.qos q) := (h.before (.qos q)).mpr (Or.inr hpart)
  have hcard := Finset.card_pos.mpr ⟨i, hbefore⟩
  have herase := card_erase_of_mem hbefore
  have hafter : i ∈ submittedTo conf w' (.qos q) ↔ highest (w.jobs i) = some q :=
    (h.after (.qos q)).trans (or_iff_left hpq)
  by_cases hq : q = qos
  · subst hq
    refine iff_of_true rfl (hafter.mp ?_)
    -- Otherwise the job is counted by a QOS that it is not submitted to.
    by_contra hnot
    have hrun : Charged conf ((w.jobs i).start part q alloc)
        (RunQos conf ((w.jobs i).start part q alloc)) (.qos q) := runQos_start.mpr (Or.inl rfl)
    have hun : ¬ (Charged conf ((w.jobs i).start part q alloc)
        (UnusedQos conf ((w.jobs i).start part q alloc)) (.qos q) ∧ (Key.qos q).qos? ≠ none) :=
      fun hun => not_run_of_unused hmay hun hrun
    rw [eq_erase_of h.moved.mem_submitted hnot, h.begun.account _ hrun, h.removed.other _ hun,
      adjust_begin] at hk'
    have hsame : (adjustAssoc conf .jobBegin ((w.jobs i).start part q alloc)
        (w.books.account (.qos q))).1.submitJobs = (w.books.account (.qos q)).submitJobs :=
      (addNodes_rest alloc _).1
    rw [hsame, hk.submitJobs] at hk'
    omega
  · refine iff_of_false hq fun hhigh => ?_
    -- Otherwise it is not counted by a QOS that it is submitted to.
    have hun : Charged conf ((w.jobs i).start part qos alloc)
        (UnusedQos conf ((w.jobs i).start part qos alloc)) (.qos q) ∧ (Key.qos q).qos? ≠ none :=
      ⟨(unusedQos_start hmay).mpr ⟨hpart, Ne.symm hq, hpq⟩, nofun⟩
    rw [eq_of h.moved.mem_submitted (iff_of_true (hafter.mpr hhigh) hbefore),
      h.begun.other _ (not_run_of_unused hmay hun), h.removed.account _ hun, adjust_remSubmit,
      (counted_remSubmit hk hbefore).2.submitJobs] at hk'
    omega

theorem right_start_iff (hinv : Inv conf w) (hphase : w.phase i = .submitted)
    (hmay : mayStart (w.jobs i) part qos = true) :
    Right conf (w.adjust conf .jobBegin i ((w.jobs i).start part qos alloc) .running) ↔
      StepOk conf w (.start i part qos alloc) := by
  obtain ⟨b₁, h⟩ := @started conf ι _ _ w i part qos alloc hphase hmay
  have hwrong : (w.adjust conf .jobBegin i ((w.jobs i).start part qos alloc) .running).books.wrong =
      false := by
    refine h.begun.wrong.mpr ⟨h.removed.wrong.mpr ⟨hinv.noUnderflow, fun k hk => ?_⟩,
      fun k _ => adjust_begin_wrong _ _ _⟩
    rw [adjust_remSubmit]
    exact (counted_remSubmit (hinv.counted k) (h.unused hmay hk).1).1
  constructor
  · intro hright
    have hclean := h.clean hinv hmay hright
    exact ⟨hclean, fun k => (h.counted_iff hinv hmay hclean k).mp (hright.1 k)⟩
  · rintro ⟨hclean, hroom⟩
    exact ⟨fun k => (h.counted_iff hinv hmay hclean k).mpr (hroom k), hwrong⟩

/-! ## Runs -/

/-- Each job is as it should be in its phase. -/
theorem Moved.jobOk (h : Moved w i job phase w') (hinv : Inv conf w) (hi : JobOk job phase) :
    ∀ j, JobOk (w'.jobs j) (w'.phase j) := by
  intro j
  by_cases hj : j = i
  · subst hj
    rw [h.job_self, h.phase_self]
    exact hi
  · rw [h.jobs, h.phase, update_of_ne hj, update_of_ne hj]
    exact hinv.jobs j

/-- A step keeps the records right exactly when it is one that does. -/
theorem exec_right_iff (hinv : Inv conf w) {e : Event ι} (hexec : exec conf w e = some w') :
    (Right conf w' ↔ StepOk conf w e) ∧ ∀ j, JobOk (w'.jobs j) (w'.phase j) := by
  cases e with
  | add i =>
    rw [exec] at hexec
    split at hexec
    · rename_i hnew
      cases hexec
      have hok := hinv.jobs i
      rw [hnew] at hok
      refine ⟨right_add_iff hinv hnew, (adjust_moved conf w .addSubmit i _ _).jobOk hinv ?_⟩
      rw [addSubmit_job, setHighest_eq]
      exact hok
    · cases hexec
  | start i part qos alloc =>
    rw [exec] at hexec
    split at hexec
    · rename_i hstart
      cases hexec
      refine ⟨right_start_iff hinv hstart.1 hstart.2, (adjust_moved conf w .jobBegin i _ _).jobOk hinv ?_⟩
      exact ⟨Option.some_ne_none alloc, rfl⟩
    · cases hexec
  | fini i =>
    rw [exec] at hexec
    split at hexec
    · rename_i hrunning
      cases hexec
      have hok := hinv.jobs i
      rw [hrunning] at hok
      exact ⟨right_fini_iff hinv hrunning, (adjust_moved conf w .jobFini i _ _).jobOk hinv hok⟩
    · cases hexec
  | remove i pending =>
    rw [exec] at hexec
    have hok := hinv.jobs i
    split at hexec
    · rename_i hsubmitted
      cases hexec
      rw [hsubmitted] at hok
      refine ⟨iff_of_true (right_remove hinv (by rw [hsubmitted]; rfl)
        (by rw [hsubmitted]; exact Phase.noConfusion) rfl rfl fun q => ?_) trivial,
        (adjust_moved conf w .remSubmit i _ _).jobOk hinv trivial⟩
      unfold AdjustedQos SubmitQos
      rw [highest_eq, highest_eq, hsubmitted, if_pos rfl]
      have hpart := @adjustedPartQos_unallocated conf { w.jobs i with pending := pending } hok q
      exact or_congr_right hpart
    split at hexec
    · rename_i hended
      cases hexec
      rw [hended] at hok
      refine ⟨iff_of_true (right_remove hinv (by rw [hended]; rfl)
        (by rw [hended]; exact Phase.noConfusion) rfl rfl fun q => ?_) trivial,
        (adjust_moved conf w .remSubmit i _ _).jobOk hinv trivial⟩
      obtain ⟨alloc, halloc⟩ := Option.ne_none_iff_exists'.mp hok.1
      unfold AdjustedQos AdjustedPartQos SubmitQos
      rw [hended, hok.2, halloc]
      cases (w.jobs i).partPtrList with
      | none => simp
      | some parts => simp
    · cases hexec

/-- From the first submission on, the records hold the sums over the jobs that are charged to
them exactly when each step is one that keeps them right. -/
theorem limitsContract_iff (conf : Conf) (w : World ι) (h : Fresh w) (es : List (Event ι)) :
    LimitsContract conf w es ↔ Guarded (exec conf) (StepOk conf) w es := by
  refine always_iff_guarded (I := Inv conf)
    (fun w hinv => limitsHold_of_counted hinv.counted hinv.noUnderflow)
    (fun w e w' hinv hexec => ?_) (inv_fresh h)
  obtain ⟨hright, hjobs⟩ := exec_right_iff hinv hexec
  refine ⟨fun hstep => ?_, ?_⟩
  · obtain ⟨hcounted, hwrong⟩ := hright.mpr hstep
    exact ⟨hcounted, hwrong, hjobs⟩
  · rw [← hright]
    constructor
    · exact fun hlimits => ⟨hlimits.counted, hlimits.noUnderflow⟩
    · exact fun hboth => limitsHold_of_counted hboth.1 hboth.2

/-- Partitions 1 and 2 have QOS 10 and 11. -/
def twoParts : Conf where
  tresCnt := 5
  partQos part := if part = 1 then some 10 else if part = 2 then some 11 else none
  overPartQos _ := false
  acct _ := "acct"
  parentAssoc _ := none
  depth _ := 0
  parent_depth _ _ h := nomatch h

/-- A job for both partitions, with QOS 10 before QOS 12. -/
def oneJob : World Unit where
  jobs _ :=
    { assoc := 1, userId := 100, partPtr := some 1, partPtrList := some [1, 2], qosPtr := some 10
      qosList := [10, 12], pending := true, alloc := none }
  phase _ := .new
  books := { account := fun _ => ⟨0, 0, fun _ => 0, none, fun _ => 0⟩, wrong := false }

theorem fresh_oneJob : Fresh oneJob :=
  ⟨fun _ => rfl, fun _ => rfl, fun _ => ⟨rfl, rfl, fun _ => rfl, rfl, fun _ => rfl⟩, rfl⟩

/-- One node. -/
def oneNode : Alloc where
  tresAllocCnt t := if t = tresArrayNode then 1 else 0
  nodeBitmap := some {0}
  node_cnt := rfl
  nonempty _ h := Option.some.inj h ▸ Finset.singleton_nonempty 0
  size _ h := Option.some.inj h ▸ by decide

/-- The job starts in partition 2 with QOS 12, which removes it from QOS 10, and is removed from it
again in the end. -/
theorem limitsContract_fails :
    ¬ LimitsContract twoParts oneJob
      [.add (), .start () 2 12 oneNode, .fini (), .remove () false] := by
  intro h
  obtain ⟨w, hw⟩ : ∃ w, run (exec twoParts) oneJob
      [.add (), .start () 2 12 oneNode, .fini (), .remove () false] = some w := ⟨_, rfl⟩
  have hwrong : (run (exec twoParts) oneJob
      [.add (), .start () 2 12 oneNode, .fini (), .remove () false]).map
        (fun w => w.books.wrong) = some true := by decide +kernel
  have hright := (h.run hw).noUnderflow
  rw [hw, Option.map_some, hright] at hwrong
  cases hwrong

theorem limitsContract_iff_witness :
    LimitsContract twoParts oneJob [.add (), .start () 1 12 oneNode, .fini (), .remove () false] ↔
      Guarded (exec twoParts) (StepOk twoParts) oneJob
        [.add (), .start () 1 12 oneNode, .fini (), .remove () false] :=
  limitsContract_iff twoParts oneJob fresh_oneJob _

end Slurm.AcctPolicy
