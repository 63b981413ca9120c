import Slurm.JobId.Format

/-!
# When job id strings are parsed safely and canonically

The loop over the step names reads an entry after the last one before it compares its index, an array
task is stored in 32 bits, and numbers that are missing are read as zero.

* `store_denotes`: complete components are stored with their values.
* `jobIdContract_iff`: the strings for which the functions do what is promised.
-/

namespace Slurm.JobId

variable {src : List Char} {max : Nat} {id : SelectedStep} {w : Written}

/-- What is promised of the two functions: reading stays inside its memory, and an id that is read has
what the string has written in it, and it has a text that is read as the same id. -/
structure JobIdContract (src : List Char) (max : Nat) : Prop where
  safe : unfmtJobIdString src max ≠ .error .outOfBounds
  denotes : ∀ id, unfmtJobIdString src max = .ok id →
    ∃ w, scan src = some w ∧ w.Complete ∧ w.Denotes max id
  formats : ∀ id, unfmtJobIdString src max = .ok id →
    ∃ str, fmtJobIdString id = .ok str ∧ unfmtJobIdString str max = .ok id

/-- What is between the job and the step is stored with its value. -/
theorem middle_denotes {middle : Middle} (hin : middle.InRange max) (hcomplete : middle.Complete)
    (hid : id.arrayBitmap = none ∧ id.arrayTaskId = noVal ∧ id.hetJobOffset = noVal) :
    middle.Denotes max (middle.store max id) := by
  have hno : noVal = 4294967294 := rfl
  have hhet : maxHetJobComponents = 128 := rfl
  cases middle with
  | plain => exact hid
  | set items =>
    refine ⟨⟨_, ?_, setDenotes_bitmap hin.2 hin.1⟩, hid.2⟩
    rw [Middle.store, bitmapOf_eq hin.1]
  | task v comp =>
    have hlt : v < noVal := hcomplete
    cases comp with
    | some comp =>
      have hv := u32_of_lt hin.1.1 (by omega)
      have := hin.2.1
      omega
    | none =>
      have hv := u32_of_lt hin.1 (by omega)
      exact ⟨hid.1, ⟨hv, by show u32 v < noVal; omega⟩, rfl, hid.2.2⟩
  | het v =>
    have hle := hin.2
    have hv := u32_of_lt hin.1 (by omega)
    exact ⟨hid.1, hid.2.1, hv, by show u32 v < noVal; omega⟩

/-- A step is stored with its value. -/
theorem part_denotes {part : StepPart} {isHet : Prop} (hin : part.InRange isHet) (hknown : part.id.Known)
    (hid : id.stepHetComp = noVal) : part.Denotes (part.store id) := by
  have hno : noVal = 4294967294 := rfl
  have hhet : maxHetJobComponents = 128 := rfl
  have hmax : slurmMaxNormalStepId = 4294967280 := rfl
  have hstep := store_stepId part id
  obtain ⟨step, plus⟩ := part
  refine ⟨?_, fun habsent => ?_, fun v hv => ?_⟩
  · cases step with
    | number v =>
      have hhi := hin.id.2
      have hv := u32_of_lt hin.id.1 (by omega)
      rw [StepId.val] at hstep
      rw [StepId.Denotes, hstep]
      exact ⟨hv, by omega⟩
    | name stepId =>
      obtain ⟨entry, hentry, rfl⟩ := hknown
      rw [StepId.Denotes, hstep]
      simp only [stepNames, List.mem_cons, List.not_mem_nil, or_false] at hentry
      rcases hentry with rfl | rfl | rfl | rfl <;> rfl
  · rw [StepPart.store, show plus = none from habsent]
    exact hid
  · obtain ⟨hlo, hhi⟩ := hin.plus.het v hv
    have hu32 : (u32 v : Int) = v := u32_of_lt (by omega) (by omega)
    rw [StepPart.store, show plus = some (some v) from hv]
    exact ⟨hu32, by show u32 v < noVal; omega⟩

/-- Complete components are stored with their values. -/
theorem store_denotes (hw : scan src = some w) (hin : w.InRange max) (hcomplete : w.Complete) :
    w.Denotes max (w.store max) := by
  obtain ⟨s, t, -, hstep⟩ := scan_middle hw
  have hmax : maxFedJobId = 4294967293 := rfl
  have hlo := hin.job.1
  have hhi := hin.job.2
  have hjob : (u32 w.job : Int) = w.job := u32_of_lt (by omega) (by omega)
  obtain ⟨hmid₁, hmid₂, hmid₃⟩ := @middle_fields max w.middle { blank with jobId := u32 w.job }
  obtain ⟨hf₁, hf₂, hf₃, hf₄⟩ :=
    storeStep_fields (w.middle.store max { blank with jobId := u32 w.job }) w.step
  have hmiddle := @middle_denotes max { blank with jobId := u32 w.job } w.middle hin.middle
    hcomplete.middle ⟨rfl, rfl, rfl⟩
  refine ⟨?_, ?_, fun habsent => ?_, fun part hpart => ?_⟩
  · rw [show (w.store max).jobId = u32 w.job from hf₁.trans hmid₁]
    exact hjob
  · revert hmiddle
    rw [Middle.Denotes.eq_def, Middle.Denotes.eq_def, Written.store, hf₂, hf₃, hf₄]
    exact fun h => h
  · rw [Written.store, habsent]
    exact ⟨hmid₂, hmid₃⟩
  · rw [Written.store, hpart]
    exact part_denotes (hin.step part hpart) (scanStep_known (hpart ▸ hstep)) hmid₃

/-- **Main result**: the functions do what is promised unless the string has a step that is neither a
number nor a name, behind a job and whatever else that are accepted, or its components are accepted
though one is missing or an array task is too large. -/
theorem jobIdContract_iff (src : List Char) (max : Nat) :
    JobIdContract src max ↔
      ¬ HasUnknownStep src max ∧ ∀ w, scan src = some w → w.InRange max → w.Complete := by
  constructor
  · intro h
    refine ⟨fun hunknown => h.safe (unfmt_outOfBounds.mpr hunknown), fun w hw hin => ?_⟩
    obtain ⟨w', hw', hcomplete, -⟩ := h.denotes _ (unfmt_ok.mpr ⟨w, hw, hin, rfl⟩)
    rw [hw, Option.some.injEq] at hw'
    rwa [hw']
  · intro h
    refine ⟨fun hrun => h.1 (unfmt_outOfBounds.mp hrun), fun id hid => ?_, fun id hid => ?_⟩
    · obtain ⟨w, hw, hin, rfl⟩ := unfmt_ok.mp hid
      have hcomplete := h.2 w hw hin
      exact ⟨w, hw, hcomplete, store_denotes hw hin hcomplete⟩
    · obtain ⟨w, hw, hin, rfl⟩ := unfmt_ok.mp hid
      exact format_reads hw hin (h.2 w hw hin)

/-- The step `x` of job 1 is looked for past the table. -/
theorem jobIdContract_fails : ¬ JobIdContract "1.x".toList 0 := by
  intro h
  refine h.safe (unfmt_outOfBounds.mpr ⟨1, (.plain, ".x".toList), ?_, ⟨?_, ?_⟩, ?_, trivial, ?_, ?_, ?_⟩)
  · rfl
  · decide
  · decide
  · rfl
  · rfl
  · exact List.cons_ne_nil _ _
  · rfl

end Slurm.JobId
