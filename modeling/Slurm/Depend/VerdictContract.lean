import Slurm.Depend.Verdict

/-!
# The verdict on dependencies (`slurmctld/job_scheduler.c`)

`verdictContract_iff` says when `test_job_dependency` returns what its header says.
`has_local_depend` is set before a local entry is tested, and so `LOCAL_DEPEND` is also
returned when the test settled the last local entries and the job only depends on remote
ones.

* `testAll_spec`: the traversal tests each entry for itself, as `settle` does, and gathers
  the flags of the entries that it leaves.
* `gather_eq`: what the flags say of the entries.
* `fulfilled_iff`, `failed_iff`: the two halves of the verdict, for entries of one kind.
-/

namespace Slurm.Depend

open List

variable {w : World} {job : TestedJob}

/-! ## The contract -/

/-- Dependencies that are all AND or all OR. -/
structure Entries where
  deps : List FedDependSpec
  same : (∀ d ∈ deps, d.flagsOr = false) ∨ ∀ d ∈ deps, d.flagsOr = true

/-- All are fulfilled, or one is when they are OR. -/
def Fulfilled (deps : List FedDependSpec) : Prop :=
  if deps.any (·.flagsOr) then ∃ d ∈ deps, d.dependState = .fulfilled
  else ∀ d ∈ deps, d.dependState = .fulfilled

/-- One failed, or all did when they are OR. -/
def Failed (deps : List FedDependSpec) : Prop :=
  if deps.any (·.flagsOr) then ∀ d ∈ deps, d.dependState = .failed
  else ∃ d ∈ deps, d.dependState = .failed

/-- A local entry that is not fulfilled. -/
def FedDependSpec.IsOpen (d : FedDependSpec) : Prop :=
  d.remote = false ∧ d.dependState = .notFulfilled

/-- The job has these dependencies. -/
def dependingOn (job : TestedJob) (details : TestedDetails) (deps : List FedDependSpec) :
    TestedJob :=
  { job with details := some { details with dependList := some deps } }

/-- The entries after a test. -/
def entriesAfter (w : World) (job : TestedJob) (deps : List FedDependSpec) : List FedDependSpec :=
  (testAll w job .zero deps).2.2

/-- What a test of the job must come to, where `after` are its entries then. -/
structure VerdictHolds (rc : DependRc) (deps after : List FedDependSpec) : Prop where
  noDepend : rc = .noDepend ↔ Fulfilled after
  failDepend : rc = .failDepend ↔ Failed after
  localDepend : ¬ Fulfilled after → ¬ Failed after →
    (rc = .localDepend ↔ ∃ d ∈ after, d.IsOpen)
  remoteDepend : ¬ Fulfilled after → ¬ Failed after →
    (rc = .remoteDepend ↔ ∀ d ∈ after, d.dependState = .notFulfilled → d.remote = true)
  settled : List.Forall₂ (fun d d' => d.dependState ≠ .notFulfilled → d' = d) deps after

/-- An update of the same entries comes to the same verdict. -/
structure SameVerdict (rc : DependRc) (updated : Updated) : Prop where
  requeue : updated = .requeue ↔ rc = .noDepend
  invalid : updated = .invalid ↔ rc = .failDepend
  dependent : updated = .dependent ↔ rc = .localDepend ∨ rc = .remoteDepend

/-- What `test_job_dependency` and `handle_job_dependency_updates` must do. -/
def VerdictContract (w : World) (job : TestedJob) (details : TestedDetails) (e : Entries) : Prop :=
  let tested := dependingOn job details e.deps
  let after := entriesAfter w tested e.deps
  VerdictHolds (testJobDependency w tested).1 e.deps after ∧
    SameVerdict (testJobDependency w tested).1 (handleJobDependencyUpdates tested after).1

/-! ## One entry at a time -/

/-- What the tests of other entries leave of a job. -/
structure SameJob (job job' : TestedJob) : Prop where
  arrayTaskId : job'.arrayTaskId = job.arrayTaskId
  arrayRecs : job'.arrayRecs = job.arrayRecs
  name : job'.name = job.name

theorem expandJob_same (w : World) (job : TestedJob) (d : FedDependSpec) (djob : DependedJob)
    (tested : Tested) : SameJob job (expandJob w job d djob tested) := by
  unfold expandJob
  split
  · exact ⟨rfl, rfl, rfl⟩
  · simp only
    split <;> split <;> exact ⟨rfl, rfl, rfl⟩

theorem testLocal_same (w : World) (job : TestedJob) (d : FedDependSpec) :
    SameJob job (testLocal w job d).2.1 := by
  unfold testLocal
  simp only
  split
  · split <;> exact ⟨rfl, rfl, rfl⟩
  · split
    · exact ⟨rfl, rfl, rfl⟩
    · exact expandJob_same w job _ _ _

/-- What the test says does not depend on what others made of the job. -/
theorem testLocal_congr {job' : TestedJob} (h : SameJob job job') (d : FedDependSpec) :
    (testLocal w job' d).1 = (testLocal w job d).1 ∧
      (testLocal w job' d).2.2 = (testLocal w job d).2.2 := by
  have hcommon : ∀ (d : FedDependSpec) (djob : DependedJob) (a b c : Bool),
      testJobDependencyCommon w job' d djob a b c = testJobDependencyCommon w job d djob a b c := by
    intro d djob a b c
    unfold testJobDependencyCommon
    rw [h.arrayTaskId, h.arrayRecs]
  unfold testLocal
  simp only [h.name, hcommon]
  split
  · split <;> exact ⟨rfl, rfl⟩
  · split <;> exact ⟨rfl, rfl⟩

/-- A test keeps what kind of entry it is. -/
theorem testLocal_kind (w : World) (job : TestedJob) (d : FedDependSpec) :
    (testLocal w job d).2.2.remote = d.remote ∧ (testLocal w job d).2.2.flagsOr = d.flagsOr ∧
      (testLocal w job d).2.2.dependState = d.dependState := by
  have hsingle : ∀ d : FedDependSpec, (isSingletonSatisfied w d).2.remote = d.remote ∧
      (isSingletonSatisfied w d).2.flagsOr = d.flagsOr ∧
      (isSingletonSatisfied w d).2.dependState = d.dependState := by
    intro d
    unfold isSingletonSatisfied
    split
    · exact ⟨rfl, rfl, rfl⟩
    · simp only
      split_ifs <;> exact ⟨rfl, rfl, rfl⟩
  unfold testLocal
  simp only
  split
  · split
    · exact ⟨rfl, rfl, rfl⟩
    · exact hsingle _
  · split <;> exact ⟨rfl, rfl, rfl⟩

variable {d : FedDependSpec}

theorem leftFed_remote (h : leftFed w d = true) : d.remote = true := by
  simp only [leftFed, Bool.and_eq_true] at h
  exact h.1.1.1.1

theorem testRemote_kind (w : World) (d : FedDependSpec) :
    (testRemote w d).remote = d.remote ∧ (testRemote w d).flagsOr = d.flagsOr := by
  unfold testRemote
  split <;> exact ⟨rfl, rfl⟩

/-- A local entry that is not fulfilled is tested. -/
theorem foreach_open (h : d.IsOpen) (t : TestJobDep) :
    let dep := (testLocal w job d).1.apply (testLocal w job d).2.2
    foreachTestJobDependency w job t d =
      ((testLocal w job d).2.1, testDependencyState dep
        { t with changed := t.changed || (testLocal w job d).1.changes, hasLocalDepend := true },
        dep) := by
  have hfed : leftFed w d = false := by
    simp [leftFed, h.1]
  simp [foreachTestJobDependency, testRemote, hfed, h.1, h.2]

/-- The others are not. -/
theorem foreach_closed (h : ¬ d.IsOpen) (t : TestJobDep) :
    foreachTestJobDependency w job t d =
      (job, testDependencyState (testRemote w d) { t with changed := t.changed || leftFed w d },
        testRemote w d) := by
  have hkind := testRemote_kind w d
  have hskip : (testRemote w d).dependState ≠ .notFulfilled ∨ (testRemote w d).remote = true := by
    by_cases hremote : d.remote = true
    · right
      rw [hkind.1, hremote]
    · left
      have hfed : ¬ leftFed w d = true := fun hfed => hremote (leftFed_remote hfed)
      rw [testRemote, if_neg hfed]
      exact fun hstate => h ⟨by simpa using hremote, hstate⟩
  unfold foreachTestJobDependency
  simp only
  rw [if_pos hskip]

/-- What a test makes of an entry. -/
def settle (w : World) (job : TestedJob) (d : FedDependSpec) : FedDependSpec :=
  (foreachTestJobDependency w job .zero d).2.2

theorem settle_open (h : d.IsOpen) :
    settle w job d = (testLocal w job d).1.apply (testLocal w job d).2.2 := by
  rw [settle, foreach_open h]

theorem settle_closed (h : ¬ d.IsOpen) : settle w job d = testRemote w d := by
  rw [settle, foreach_closed h]

/-- An entry that was fulfilled or failed is as it was. -/
theorem settle_eq_self (h : d.dependState ≠ .notFulfilled) : settle w job d = d := by
  have hfed : leftFed w d = false := by
    simp [leftFed, h]
  rw [settle_closed fun hopen => h hopen.2, testRemote, hfed]
  rfl

theorem apply_kind (tested : Tested) (d : FedDependSpec) :
    (tested.apply d).remote = d.remote ∧ (tested.apply d).flagsOr = d.flagsOr := by
  unfold Tested.apply
  split
  · exact ⟨rfl, rfl⟩
  · split <;> exact ⟨rfl, rfl⟩

/-- A test keeps what kind of entry it is. -/
theorem settle_kind (w : World) (job : TestedJob) (d : FedDependSpec) :
    (settle w job d).remote = d.remote ∧ (settle w job d).flagsOr = d.flagsOr := by
  by_cases h : d.IsOpen
  · have hlocal := testLocal_kind w job d
    have happly := apply_kind (testLocal w job d).1 (testLocal w job d).2.2
    rw [settle_open h]
    exact ⟨happly.1.trans hlocal.1, happly.2.trans hlocal.2.1⟩
  · rw [settle_closed h]
    exact testRemote_kind w d

/-- What the test makes of an entry does not depend on what others made of the job. -/
theorem settle_congr {job' : TestedJob} (h : SameJob job job') (d : FedDependSpec) :
    settle w job' d = settle w job d := by
  by_cases hopen : d.IsOpen
  · obtain ⟨htested, hdep⟩ := testLocal_congr (w := w) h d
    rw [settle_open hopen, settle_open hopen, htested, hdep]
  · rw [settle_closed hopen, settle_closed hopen]

/-! ## The traversal -/

instance (d : FedDependSpec) : Decidable d.IsOpen := inferInstanceAs (Decidable (_ ∧ _))

/-- The flags of the entries, in order. -/
def gather (t : TestJobDep) (deps : List FedDependSpec) : TestJobDep :=
  deps.foldl (fun t dep => testDependencyState dep t) t

/-- `changed` and `has_local_depend` are set, which are apart from the other flags. -/
def TestJobDep.mark (t : TestJobDep) (changed hasLocalDepend : Bool) : TestJobDep :=
  { t with changed := changed, hasLocalDepend := hasLocalDepend }

theorem testDependencyState_mark (d : FedDependSpec) (t : TestJobDep) (a b : Bool) :
    testDependencyState d (t.mark a b) = (testDependencyState d t).mark a b := by
  unfold testDependencyState TestJobDep.mark
  cases d.flagsOr <;> cases d.dependState <;> rfl

theorem gather_mark (t : TestJobDep) (a b : Bool) (deps : List FedDependSpec) :
    gather (t.mark a b) deps = (gather t deps).mark a b := by
  induction deps generalizing t with
  | nil => rfl
  | cons d deps ih =>
    show gather (testDependencyState d (t.mark a b)) deps = _
    rw [testDependencyState_mark, ih]
    rfl

/-- A test of an entry marks the flags, and the entry is added to them as it is then. -/
theorem foreach_spec (w : World) (job : TestedJob) (t : TestJobDep) (d : FedDependSpec) :
    ∃ job' changed, SameJob job job' ∧
      foreachTestJobDependency w job t d =
        (job', (testDependencyState (settle w job d) t).mark changed
          (t.hasLocalDepend || decide d.IsOpen), settle w job d) := by
  by_cases hopen : d.IsOpen
  · refine ⟨_, t.changed || (testLocal w job d).1.changes, testLocal_same w job d, ?_⟩
    rw [foreach_open hopen, settle_open hopen, decide_eq_true hopen, Bool.or_true,
      ← testDependencyState_mark]
    rfl
  · refine ⟨_, t.changed || leftFed w d, ⟨rfl, rfl, rfl⟩, ?_⟩
    rw [foreach_closed hopen, settle_closed hopen, decide_eq_false hopen, Bool.or_false,
      ← testDependencyState_mark]
    rfl

/-- The traversal tests each entry for itself, and gathers the flags of what it leaves. -/
theorem testAll_spec (w : World) (job : TestedJob) (t : TestJobDep) (deps : List FedDependSpec) :
    (testAll w job t deps).2.2 = deps.map (settle w job) ∧
      ∃ changed, (testAll w job t deps).2.1 =
        (gather t (deps.map (settle w job))).mark changed
          (t.hasLocalDepend || deps.any fun d => decide d.IsOpen) := by
  induction deps generalizing job t with
  | nil =>
    refine ⟨rfl, t.changed, ?_⟩
    rw [any_nil, Bool.or_false]
    rfl
  | cons d deps ih =>
    obtain ⟨job', changed, hsame, hstep⟩ := foreach_spec w job t d
    have hmap : deps.map (settle w job') = deps.map (settle w job) :=
      map_congr_left fun d _ => settle_congr hsame d
    obtain ⟨hlist, changed', hflags⟩ := ih job' ((testDependencyState (settle w job d) t).mark
      changed (t.hasLocalDepend || decide d.IsOpen))
    rw [hmap, gather_mark] at hflags
    rw [testAll, hstep]
    refine ⟨?_, changed', ?_⟩
    · show settle w job d :: _ = _
      rw [hlist, hmap, map_cons]
    · show (testAll w job' _ deps).2.1 = _
      rw [hflags, any_cons, ← Bool.or_assoc]
      rfl

/-- What the flags say of the entries. -/
theorem gather_eq (t : TestJobDep) (deps : List FedDependSpec) :
    (gather t deps).orSatisfied =
        (t.orSatisfied || deps.any fun d => d.flagsOr && d.dependState == .fulfilled) ∧
      (gather t deps).andFailed =
        (t.andFailed || deps.any fun d => !d.flagsOr && d.dependState == .failed) ∧
      (gather t deps).hasUnfulfilled =
        (t.hasUnfulfilled || deps.any fun d => d.dependState == .notFulfilled) := by
  induction deps generalizing t with
  | nil => simp [gather]
  | cons d deps ih =>
    have hstep : (testDependencyState d t).orSatisfied =
          (t.orSatisfied || (d.flagsOr && d.dependState == .fulfilled)) ∧
        (testDependencyState d t).andFailed =
          (t.andFailed || (!d.flagsOr && d.dependState == .failed)) ∧
        (testDependencyState d t).hasUnfulfilled =
          (t.hasUnfulfilled || d.dependState == .notFulfilled) := by
      unfold testDependencyState
      cases d.flagsOr <;> cases d.dependState <;> simp
    obtain ⟨h₁, h₂, h₃⟩ := ih (testDependencyState d t)
    rw [hstep.1] at h₁
    rw [hstep.2.1] at h₂
    rw [hstep.2.2] at h₃
    simp only [any_cons, ← Bool.or_assoc]
    exact ⟨h₁, h₂, h₃⟩

variable {deps : List FedDependSpec}

/-- `or_flag` is that of the last entry. -/
theorem gather_orFlag {b : Bool} (h : ∀ d ∈ deps, d.flagsOr = b) (t : TestJobDep) :
    (gather t deps).orFlag = if deps = [] then t.orFlag else b := by
  induction deps generalizing t with
  | nil => rfl
  | cons d deps ih =>
    have hstep : (testDependencyState d t).orFlag = b := by
      rw [← h d mem_cons_self]
      unfold testDependencyState
      cases d.flagsOr <;> cases d.dependState <;> rfl
    have hrest := ih (fun e he => h e (mem_cons_of_mem d he)) (testDependencyState d t)
    rw [hstep, ite_self] at hrest
    rw [if_neg (cons_ne_nil d deps)]
    exact hrest

/-! ## The verdict -/

/-- Entries that are all AND. -/
theorem verdict_and (h : ∀ d ∈ deps, d.flagsOr = false) :
    ((gather .zero deps).fulfilled = true ↔ ∀ d ∈ deps, d.dependState = .fulfilled) ∧
      ((gather .zero deps).failed = true ↔ ∃ d ∈ deps, d.dependState = .failed) := by
  obtain ⟨horSatisfied, handFailed, hunfulfilled⟩ := gather_eq .zero deps
  have hnone : (deps.any fun d => d.flagsOr && d.dependState == .fulfilled) = false := by
    simp only [any_eq_false, Bool.and_eq_true, not_and]
    intro d hd hor
    rw [h d hd] at hor
    cases hor
  have hor : (gather .zero deps).orFlag = false := by
    rw [gather_orFlag h]
    exact ite_self _
  rw [hnone] at horSatisfied
  unfold TestJobDep.fulfilled TestJobDep.failed
  rw [horSatisfied, handFailed, hunfulfilled, hor]
  constructor
  · simp only [TestJobDep.zero, Bool.false_or, Bool.not_false, Bool.true_and, Bool.and_eq_true,
      Bool.not_eq_true', any_eq_false, beq_iff_eq]
    constructor
    · intro ⟨hfailed, hopen⟩ d hd
      cases hstate : d.dependState with
      | fulfilled => rfl
      | failed => exact absurd ⟨h d hd, hstate⟩ (hfailed d hd)
      | notFulfilled => exact absurd hstate (hopen d hd)
    · intro hall
      exact ⟨fun d hd hfailed => absurd (hall d hd) (by simp [hfailed.2]),
        fun d hd hopen => absurd (hall d hd) (by simp [hopen])⟩
  · simp only [TestJobDep.zero, Bool.false_or, Bool.false_and, Bool.or_false, any_eq_true,
      Bool.and_eq_true, Bool.not_eq_true', beq_iff_eq]
    exact ⟨fun ⟨d, hd, _, hfailed⟩ => ⟨d, hd, hfailed⟩,
      fun ⟨d, hd, hfailed⟩ => ⟨d, hd, h d hd, hfailed⟩⟩

/-- Entries that are all OR. -/
theorem verdict_or (h : ∀ d ∈ deps, d.flagsOr = true) (hne : deps ≠ []) :
    ((gather .zero deps).fulfilled = true ↔ ∃ d ∈ deps, d.dependState = .fulfilled) ∧
      ((gather .zero deps).failed = true ↔ ∀ d ∈ deps, d.dependState ≠ .notFulfilled) := by
  obtain ⟨horSatisfied, handFailed, hunfulfilled⟩ := gather_eq .zero deps
  have hnone : (deps.any fun d => !d.flagsOr && d.dependState == .failed) = false := by
    simp only [any_eq_false, Bool.and_eq_true, not_and]
    intro d hd hor
    rw [h d hd] at hor
    cases hor
  have hor : (gather .zero deps).orFlag = true := by
    rw [gather_orFlag h, if_neg hne]
  rw [hnone] at handFailed
  unfold TestJobDep.fulfilled TestJobDep.failed
  rw [horSatisfied, handFailed, hunfulfilled, hor]
  constructor
  · simp only [TestJobDep.zero, Bool.false_or, Bool.not_true, Bool.false_and, Bool.or_false,
      any_eq_true, Bool.and_eq_true, beq_iff_eq]
    exact ⟨fun ⟨d, hd, _, hful⟩ => ⟨d, hd, hful⟩, fun ⟨d, hd, hful⟩ => ⟨d, hd, h d hd, hful⟩⟩
  · simp [TestJobDep.zero]

/-- The flags say whether the dependency is fulfilled, and whether it failed. -/
theorem verdict_iff (h : (∀ d ∈ deps, d.flagsOr = false) ∨ ∀ d ∈ deps, d.flagsOr = true) :
    ((gather .zero deps).fulfilled = true ↔ Fulfilled deps) ∧
      (Failed deps ↔ ¬ Fulfilled deps ∧ (gather .zero deps).failed = true) := by
  by_cases hand : ∀ d ∈ deps, d.flagsOr = false
  · have hany : ¬ deps.any (·.flagsOr) = true := by
      simpa using hand
    obtain ⟨hful, hfail⟩ := verdict_and hand
    unfold Fulfilled Failed
    rw [if_neg hany, if_neg hany]
    refine ⟨hful, hfail.symm.trans ⟨fun h => ⟨fun hall => ?_, h⟩, And.right⟩⟩
    obtain ⟨d, hd, hstate⟩ := hfail.mp h
    rw [hall d hd] at hstate
    cases hstate
  · have hor := h.resolve_left hand
    have hne : deps ≠ [] := by
      rintro rfl
      exact hand (fun d hd => absurd hd not_mem_nil)
    have hany : deps.any (·.flagsOr) = true := by
      obtain ⟨d, hd⟩ := List.exists_mem_of_ne_nil deps hne
      exact List.any_eq_true.mpr ⟨d, hd, hor d hd⟩
    obtain ⟨hful, hfail⟩ := verdict_or hor hne
    unfold Fulfilled Failed
    rw [if_pos hany, if_pos hany, hfail]
    refine ⟨hful, fun hall => ⟨fun ⟨d, hd, hstate⟩ => ?_, fun d hd hstate => ?_⟩, ?_⟩
    · rw [hall d hd] at hstate
      cases hstate
    · rw [hall d hd] at hstate
      cases hstate
    · intro ⟨hnot, hsettled⟩ d hd
      cases hstate : d.dependState with
      | failed => rfl
      | fulfilled => exact absurd ⟨d, hd, hstate⟩ hnot
      | notFulfilled => exact absurd hstate (hsettled d hd)

/-- The test settles the last local entries of a job that still depends on others. -/
def LastLocalSettled (w : World) (job : TestedJob) (deps : List FedDependSpec) : Prop :=
  (∃ d ∈ deps, d.IsOpen) ∧ (∀ d ∈ deps, ¬ (settle w job d).IsOpen) ∧
    ¬ Fulfilled (deps.map (settle w job)) ∧ ¬ Failed (deps.map (settle w job))

/-- The result that the flags of a traversal come to. -/
def TestJobDep.result (t : TestJobDep) : DependRc :=
  if t.fulfilled then .noDepend
  else if t.failed then .failDepend
  else if t.hasLocalDepend then .localDepend
  else .remoteDepend

/-- The result of the test. -/
theorem testJobDependency_rc (w : World) (job : TestedJob) (details : TestedDetails)
    (deps : List FedDependSpec) :
    (testJobDependency w (dependingOn job details deps)).1 =
      (testAll w (dependingOn job details deps) .zero deps).2.1.result := by
  cases deps with
  | nil => rfl
  | cons d deps =>
    unfold testJobDependency TestJobDep.result
    simp only [dependingOn, Option.bind_some]
    by_cases h : (testAll w (dependingOn job details (d :: deps)) .zero
        (d :: deps)).2.1.fulfilled = true
    · simp only [dependingOn] at h
      simp only [h, if_true]
    · simp only [dependingOn] at h
      simp only [h]
      rfl

/-- What an update of the entries comes to. -/
theorem handleJobDependencyUpdates_updated (job : TestedJob) (deps : List FedDependSpec) :
    (handleJobDependencyUpdates job deps).1 =
      if (gather .zero deps).fulfilled then .requeue
      else if (gather .zero deps).failed then .invalid
      else .dependent := by
  show (handleJobDependencyUpdates job deps).1 =
    if (foreachHandle deps).fulfilled then _ else if (foreachHandle deps).failed then _ else _
  unfold handleJobDependencyUpdates
  simp only
  split_ifs <;> rfl

/-- They do what they must unless the test settles the last local entries of a job that still
depends on others. -/
theorem verdictContract_iff (w : World) (job : TestedJob) (details : TestedDetails) (e : Entries) :
    VerdictContract w job details e ↔
      ¬ LastLocalSettled w (dependingOn job details e.deps) e.deps := by
  let tested := dependingOn job details e.deps
  let after := e.deps.map (settle w tested)
  obtain ⟨hlist, changed, hflags⟩ := testAll_spec w tested .zero e.deps
  have hafter : entriesAfter w tested e.deps = after := hlist
  have hkind : (∀ d ∈ after, d.flagsOr = false) ∨ ∀ d ∈ after, d.flagsOr = true := by
    refine e.same.imp (fun h d' hd' => ?_) (fun h d' hd' => ?_) <;>
      obtain ⟨d, hd, rfl⟩ := List.mem_map.mp hd' <;>
      rw [(settle_kind w tested d).2, h d hd]
  obtain ⟨hful, hfail⟩ := verdict_iff hkind
  have hrc : (testJobDependency w tested).1 =
      ((gather .zero after).mark changed (e.deps.any fun d => decide d.IsOpen)).result := by
    rw [testJobDependency_rc, hflags]
    rfl
  have hlocal : (e.deps.any fun d => decide d.IsOpen) = true ↔ ∃ d ∈ e.deps, d.IsOpen := by
    simp
  have hopen : (∃ d ∈ after, d.IsOpen) ↔ ∃ d ∈ e.deps, (settle w tested d).IsOpen := by
    simp [after]
  -- What is left open was open before.
  have hleft : ∀ d, (settle w tested d).IsOpen → d.IsOpen := by
    intro d h
    refine ⟨(settle_kind w tested d).1 ▸ h.1, ?_⟩
    by_contra hstate
    rw [settle_eq_self hstate] at h
    exact hstate h.2
  have hsettled : List.Forall₂ (fun d d' => d.dependState ≠ .notFulfilled → d' = d) e.deps after := by
    rw [List.forall₂_map_right_iff, List.forall₂_same]
    exact fun d _ hstate => settle_eq_self hstate
  have hhandle : SameVerdict (testJobDependency w tested).1
      (handleJobDependencyUpdates tested after).1 := by
    rw [hrc, handleJobDependencyUpdates_updated]
    unfold TestJobDep.result
    show SameVerdict (if (gather .zero after).fulfilled then _ else
      if (gather .zero after).failed then _ else _) _
    split_ifs <;> exact ⟨by simp, by simp, by simp⟩
  have hstill : ¬ Fulfilled after → ¬ Failed after → (testJobDependency w tested).1 =
      if e.deps.any fun d => decide d.IsOpen then .localDepend else .remoteDepend := by
    intro hnot hnotFailed
    have hful' : (gather .zero after).fulfilled = false := by
      simpa using fun h => hnot (hful.mp h)
    have hfail' : (gather .zero after).failed = false := by
      simpa using fun h => hnotFailed (hfail.mpr ⟨hnot, h⟩)
    rw [hrc]
    show (if (gather .zero after).fulfilled then _ else
      if (gather .zero after).failed then _ else _) = _
    rw [hful', hfail']
    rfl
  unfold VerdictContract
  show VerdictHolds _ e.deps (entriesAfter w tested e.deps) ∧
    SameVerdict _ (handleJobDependencyUpdates tested (entriesAfter w tested e.deps)).1 ↔ _
  rw [hafter]
  constructor
  · intro ⟨h, _⟩ ⟨hbefore, hnone, hnot, hnotFailed⟩
    have hres := hstill hnot hnotFailed
    rw [if_pos (hlocal.mpr hbefore)] at hres
    obtain ⟨d, hd, hdopen⟩ := hopen.mp ((h.localDepend hnot hnotFailed).mp hres)
    exact hnone d hd hdopen
  · intro hnotLast
    have hremains : ¬ Fulfilled after → ¬ Failed after →
        ((e.deps.any fun d => decide d.IsOpen) = true ↔ ∃ d ∈ after, d.IsOpen) := by
      intro hnot hnotFailed
      rw [hlocal, hopen]
      refine ⟨fun hbefore => ?_, fun ⟨d, hd, h⟩ => ⟨d, hd, hleft d h⟩⟩
      by_contra hnone
      simp only [not_exists, not_and] at hnone
      exact hnotLast ⟨hbefore, hnone, hnot, hnotFailed⟩
    have hresult : ∀ b : Bool, (((gather .zero after).mark changed b).result = .noDepend ↔
          (gather .zero after).fulfilled = true) ∧
        (((gather .zero after).mark changed b).result = .failDepend ↔
          ¬ (gather .zero after).fulfilled = true ∧ (gather .zero after).failed = true) := by
      intro b
      show ((if (gather .zero after).fulfilled then _ else
          if (gather .zero after).failed then _ else if b then _ else _) = _ ↔ _) ∧
        ((if (gather .zero after).fulfilled then _ else
          if (gather .zero after).failed then _ else if b then _ else _) = _ ↔ _)
      cases (gather .zero after).fulfilled <;> cases (gather .zero after).failed <;> cases b <;>
        simp
    refine ⟨⟨?_, ?_, ?_, ?_, hsettled⟩, hhandle⟩
    · rw [hrc, (hresult _).1, hful]
    · rw [hrc, (hresult _).2, hfail, hful]
    · intro hnot hnotFailed
      rw [hstill hnot hnotFailed, ← hremains hnot hnotFailed]
      cases e.deps.any fun d => decide d.IsOpen <;> simp
    · intro hnot hnotFailed
      have hnone : (∀ d ∈ after, d.dependState = .notFulfilled → d.remote = true) ↔
          ¬ ∃ d ∈ after, d.IsOpen := by
        simp only [FedDependSpec.IsOpen, not_exists, not_and]
        refine forall₂_congr fun d _ => ?_
        cases d.remote <;> simp
      rw [hstill hnot hnotFailed, hnone, ← hremains hnot hnotFailed]
      cases e.deps.any fun d => decide d.IsOpen <;> simp

/-! ## A run -/

/-- A federated cluster that does not know the local job that is depended on. -/
def goneWorld : World where
  now := 0
  findJobArrayRec := fun _ _ => none
  testJobArrayComplete := fun _ => false
  testJobArrayCompleted := fun _ => false
  testJobArrayPending := fun _ => false
  singletonJob := false
  fed := some { bit := 1, isOrigin := true, siblingBits := 3, disableRemoteSingleton := false }
  isJobIdInFed := fun _ => true
  jobStartedOnSib := fun _ => false
  stagedOut := fun _ => false

/-- `afterany` of a job, which is not fulfilled. -/
def afterAnyOf (jobId : Nat) (remote : Bool) : FedDependSpec where
  arrayTaskId := noVal
  dependType := .afterAny
  flagsOr := false
  dependState := .notFulfilled
  dependTime := 0
  jobId := jobId
  jobPtr := none
  remote := remote
  singletonBits := 0

/-- A pending job. -/
def pendingJob : TestedJob where
  arrayTaskId := noVal
  arrayRecs := false
  name := none
  dependent := true
  stateReason := .dependency
  stateDesc := none
  timeLimit := 60
  details := none

def noDetails : TestedDetails :=
  { dependency := none, dependList := none, sharing := { shareRes := 0, wholeNode := 0 } }

/-- A local entry, and one of another cluster. -/
def localAndRemote : Entries where
  deps := [afterAnyOf 67108869 false, afterAnyOf 134217733 true]
  same := Or.inl (by decide)

/-- `LOCAL_DEPEND` is returned when only the remote dependency remains. -/
theorem verdictContract_fails : ¬ VerdictContract goneWorld pendingJob noDetails localAndRemote := by
  intro ⟨h, _⟩
  have hnot : ¬ Fulfilled (entriesAfter goneWorld
      (dependingOn pendingJob noDetails localAndRemote.deps) localAndRemote.deps) := by
    intro hful
    have hrc := h.noDepend.mpr hful
    revert hrc
    decide
  have hnotFailed : ¬ Failed (entriesAfter goneWorld
      (dependingOn pendingJob noDetails localAndRemote.deps) localAndRemote.deps) := by
    intro hfail
    have hrc := h.failDepend.mpr hfail
    revert hrc
    decide
  obtain ⟨d, hd, hopen⟩ := (h.localDepend hnot hnotFailed).mp (by decide)
  revert d
  decide

end Slurm.Depend
