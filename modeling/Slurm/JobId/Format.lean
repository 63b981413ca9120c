import Slurm.JobId.Reads

/-!
# What is written of a job id is read as that id

* `scan_text`: the text of an id with no array expression has the components of the id.
* `scan_setText`: the text of an array expression has the runs of its bitmap.
* `format_reads`: a string with complete components is read as an id whose text is read as that id.
-/

namespace Slurm.JobId

open Lib Lib.Decimal Lib.RangeList List
open Slurm.Bitstring (Bitstr ValidSize bitAlloc bitFfs bitFmtFull)

variable {s t rest : List Char} {v : Int} {id : SelectedStep} {max n : Nat}
variable {src : List Char} {w : Written} {b : Bitstr} {rs : List (Nat × Nat)} {items : List Item}

/-! ## Numbers -/

/-- A text does not go on with a digit. -/
def NoDigit (rest : List Char) : Prop := ∀ c ∈ rest.head?, c.isDigit = false

theorem noDigit_cons {c : Char} (h : c.isDigit = false) (rest : List Char) : NoDigit (c :: rest) := by
  intro d hd
  rwa [← Option.some.inj hd]

theorem noDigit_nil : NoDigit [] := nofun

/-- A number is read as its value. -/
theorem number_decimal (n : Nat) (h : NoDigit rest) : number (decimal n ++ rest) = (some (n : Int), rest) := by
  obtain ⟨hne, hdigits⟩ := isNumber_toDigits n
  obtain ⟨c, ds, hcons⟩ := exists_cons_of_ne_nil hne
  have hc := isDigit_iff.mp (hdigits c (by rw [hcons]; exact mem_cons_self))
  have hspace : ¬ Hostlist.isSpace c = true := by
    rw [Hostlist.isSpace, Bool.or_eq_true, beq_iff_eq, Bool.and_eq_true, decide_eq_true_iff,
      decide_eq_true_iff]
    rintro (rfl | hrange)
    · exact absurd hc.1 (by decide)
    · omega
  have hdrop : (decimal n ++ rest).dropWhile Hostlist.isSpace = decimal n ++ rest := by
    rw [decimal, hcons, cons_append]
    exact dropWhile_cons_of_neg hspace
  have hsign : Hostlist.strtoulSign (decimal n ++ rest) = (false, decimal n ++ rest) := by
    rw [decimal, hcons, cons_append, Hostlist.strtoulSign]
    · intro t' heq
      rw [(List.cons.inj heq).1] at hc
      exact absurd hc.1 (by decide)
    · intro t' heq
      rw [(List.cons.inj heq).1] at hc
      exact absurd hc.1 (by decide)
  obtain ⟨htake, hrest⟩ := @Bitstring.takeWhile_digits (decimal n) hdigits _ h
  simp only [number, hdrop, hsign, htake, hrest]
  rw [if_neg (show decimal n ≠ [] from hne), decimal, value_toDigits]
  rfl

theorem decimal_ne_nil (n : Nat) : decimal n ≠ [] := (isNumber_toDigits n).1

theorem marked_noDigit {mark : Char} (hmark : mark.isDigit = false) (n : Nat) (h : NoDigit rest) :
    NoDigit (marked mark n ++ rest) := by
  rw [marked]
  split
  · exact h
  · exact noDigit_cons hmark _

/-! ## Steps -/

/-- A name is read as its step. -/
theorem nameOf_append {entry : List Char × Nat} (h : entry ∈ stepNames) (rest : List Char) :
    (number (entry.1 ++ rest)).1 = none ∧ nameOf (entry.1 ++ rest) = some (entry.2, rest) ∧
      stepText entry.2 = entry.1 := by
  simp only [stepNames, mem_cons, not_mem_nil, or_false] at h
  rcases h with rfl | rfl | rfl | rfl <;> exact ⟨rfl, rfl, rfl⟩

theorem stepText_number (h : (n : Int) < slurmMaxNormalStepId) : stepText n = decimal n := by
  rw [stepText, List.find?_eq_none.mpr]
  intro entry hentry
  have hmax : slurmMaxNormalStepId = 4294967280 := rfl
  simp only [stepNames, mem_cons, not_mem_nil, or_false] at hentry
  rw [decide_eq_true_iff]
  rcases hentry with rfl | rfl | rfl | rfl <;> omega

/-- A step that is a name is one of the table. -/
def StepId.Known : StepId → Prop
  | .number _ => True
  | .name stepId => ∃ entry ∈ stepNames, entry.2 = stepId

theorem nameOf_known {r : Nat × List Char} (h : nameOf t = some r) : ∃ entry ∈ stepNames, entry.2 = r.1 := by
  obtain ⟨entry, hentry, rfl⟩ := Option.map_eq_some_iff.mp h
  exact ⟨entry, mem_of_find?_eq_some hentry, rfl⟩

theorem scanStepId_known {r : StepId × List Char} (h : scanStepId t = some r) : r.1.Known := by
  rw [scanStepId] at h
  split at h
  · rw [← Option.some.inj h]
    trivial
  · obtain ⟨r', hr', rfl⟩ := Option.map_eq_some_iff.mp h
    exact nameOf_known hr'

theorem scanStep_known {part : StepPart} (h : scanStep s = some (some part)) : part.id.Known := by
  rw [scanStep] at h
  split at h
  · cases h
  · split at h
    · obtain ⟨r, hr, h⟩ := Option.bind_eq_some_iff.mp h
      obtain ⟨plus, -, hpart⟩ := Option.map_eq_some_iff.mp h
      rw [← Option.some.inj hpart]
      exact scanStepId_known hr
    · cases h

/-- The text of a step is read as that step. -/
theorem scanStepId_text {step : StepId} (hin : step.InRange) (hknown : step.Known) (h : NoDigit rest) :
    scanStepId (stepText (u32 step.val) ++ rest) = some (step, rest) := by
  cases step with
  | number v =>
    have hmax : slurmMaxNormalStepId = 4294967280 := rfl
    have hv := u32_of_lt hin.1 (hin.2.trans (by decide))
    rw [StepId.val, stepText_number (by rw [hv]; exact hin.2), scanStepId, number_decimal _ h]
    simp only
    rw [hv]
  | name stepId =>
    obtain ⟨entry, hentry, rfl⟩ := hknown
    obtain ⟨hnum, hname, htext⟩ := nameOf_append hentry rest
    have hu32 : u32 (entry.2 : Int) = entry.2 := by
      simp only [stepNames, mem_cons, not_mem_nil, or_false] at hentry
      rcases hentry with rfl | rfl | rfl | rfl <;> rfl
    rw [StepId.val, hu32, htext, scanStepId, hnum, hname]
    rfl

/-- The text of what is after a step. -/
theorem scanPlus_text {plus : Option (Option Int)} (hplus : plus ≠ some none)
    (hin : ∀ v, plus = some (some v) → 0 < v ∧ v < maxHetJobComponents) (hid : id.stepHetComp = noVal) :
    scanPlus (marked '+' (storePlus id plus).stepHetComp) = some plus := by
  have hhet : maxHetJobComponents = 128 := rfl
  have hno : noVal = 4294967294 := rfl
  cases plus with
  | none =>
    rw [show storePlus id none = id from rfl, hid, marked, if_pos rfl]
    rfl
  | some comp =>
    cases comp with
    | none => exact absurd rfl hplus
    | some v =>
      obtain ⟨hlo, hhi⟩ := hin v rfl
      have hv : (u32 v : Int) = v := u32_of_lt (by omega) (by omega)
      have hnum := @number_decimal [] (u32 v) noDigit_nil
      rw [append_nil] at hnum
      rw [show (storePlus id (some (some v))).stepHetComp = u32 v from rfl, marked, if_neg (by omega), scanPlus,
        if_neg (cons_ne_nil _ _), head?_cons, if_pos rfl, tail_cons,
        if_neg (decimal_ne_nil _), hnum, if_pos rfl, hv]
      rfl

theorem store_stepId (part : StepPart) (id : SelectedStep) : (part.store id).stepId = u32 part.id.val := by
  rw [StepPart.store, storePlus.eq_def]
  split <;> rfl

/-- The text of a step and of what is after it. -/
theorem scanStep_text {part : StepPart} {isHet : Prop} (hin : part.InRange isHet) (hknown : part.id.Known)
    (hplus : part.plus ≠ some none) (hid : id.stepHetComp = noVal) :
    scanStep ('.' :: (stepText (part.store id).stepId ++ marked '+' (part.store id).stepHetComp)) =
      some (some part) := by
  have hstep := store_stepId part id
  have htext := @scanStepId_text (marked '+' (part.store id).stepHetComp) part.id hin.id hknown (by
    have := @marked_noDigit [] '+' rfl (part.store id).stepHetComp noDigit_nil
    rwa [append_nil] at this)
  have htail : scanPlus (marked '+' (part.store id).stepHetComp) = some part.plus :=
    @scanPlus_text { id with stepId := u32 part.id.val } part.plus hplus hin.plus.het hid
  rw [scanStep, if_neg (cons_ne_nil _ _), head?_cons, if_pos rfl, tail_cons, hstep, htext,
    Option.bind_some]
  simp only
  rw [htail]
  rfl

/-! ## Between the job and the step -/

/-- A text goes on with neither of the marks of what is between. -/
structure Ends (rest : List Char) : Prop where
  noDigit : NoDigit rest
  task : rest.head? ≠ some '_'
  het : rest.head? ≠ some '+'

theorem ends_nil : Ends [] := ⟨noDigit_nil, nofun, nofun⟩

theorem ends_dot (rest : List Char) : Ends ('.' :: rest) :=
  ⟨noDigit_cons rfl rest, by simp, by simp⟩

theorem head?_decimal (n : Nat) (rest : List Char) {c : Char} (hc : c.isDigit = false) :
    (decimal n ++ rest).head? ≠ some c := by
  intro h
  rw [head?_append_of_ne_nil _ (decimal_ne_nil n)] at h
  have hdigit := (isNumber_toDigits n).2 c (mem_of_mem_head? h)
  rw [hc] at hdigit
  cases hdigit

/-- The text of what is between the job and the step, where there is no array expression. -/
theorem scanMiddle_text {middle : Middle} (hin : middle.InRange max) (hcomplete : middle.Complete)
    (hset : ∀ items, middle ≠ .set items) (hid : id.arrayTaskId = noVal ∧ id.hetJobOffset = noVal)
    (h : Ends rest) :
    scanMiddle (marked '_' (middle.store max id).arrayTaskId ++
      (marked '+' (middle.store max id).hetJobOffset ++ rest)) = some (middle, rest) := by
  have hno : noVal = 4294967294 := rfl
  cases middle with
  | plain =>
    rw [Middle.store, hid.1, hid.2, marked, marked, if_pos rfl, if_pos rfl, nil_append, nil_append,
      scanMiddle, if_neg h.task, if_neg h.het]
  | set items => exact absurd rfl (hset items)
  | task v comp =>
    have hlt : v < noVal := hcomplete
    cases comp with
    | some comp =>
      exfalso
      have hv := u32_of_lt hin.1.1 (by omega)
      have := hin.2.1
      omega
    | none =>
      have hv := u32_of_lt hin.1 (by omega)
      have htask : ¬ u32 v = noVal := by omega
      rw [Middle.store]
      simp only
      rw [hid.2, marked, marked, if_neg htask, if_pos rfl, nil_append, cons_append, scanMiddle,
        head?_cons, if_pos rfl, tail_cons, if_neg (head?_decimal _ _ rfl), scanTask, number_decimal _ h.noDigit,
        Option.bind_some, if_neg h.het, hv]
  | het v =>
    have hv := u32_of_lt hin.1 (hin.2.trans_lt (by decide))
    rw [Middle.store]
    simp only
    rw [hid.1, marked, marked, if_pos rfl, if_neg (u32_het hin), nil_append, cons_append, scanMiddle,
      head?_cons, if_neg (by decide), if_pos rfl, tail_cons, scanHet, number_decimal _ h.noDigit,
      Option.bind_some, if_neg h.task, hv]
    rfl

/-! ## Ids without an array expression -/

theorem scan_middle (h : scan src = some w) :
    ∃ s t, scanMiddle s = some (w.middle, t) ∧ scanStep t = some w.step := by
  obtain ⟨job, -, h⟩ := Option.bind_eq_some_iff.mp h
  obtain ⟨r, hr, h⟩ := Option.bind_eq_some_iff.mp h
  obtain ⟨step, hstep, rfl⟩ := Option.map_eq_some_iff.mp h
  exact ⟨_, r.2, hr, hstep⟩

/-- The text of what is after the job. -/
def restText (id : SelectedStep) : List Char :=
  if id.stepId = noVal then [] else '.' :: (stepText id.stepId ++ marked '+' id.stepHetComp)

/-- A step is not stored as `NO_VAL`. -/
theorem u32_step {step : StepId} (hin : step.InRange) (hknown : step.Known) : u32 step.val ≠ noVal := by
  have hmax : slurmMaxNormalStepId = 4294967280 := rfl
  have hno : noVal = 4294967294 := rfl
  cases step with
  | number v =>
    have hhi := hin.2
    have hv := u32_of_lt hin.1 (by omega)
    rw [StepId.val]
    omega
  | name stepId =>
    obtain ⟨entry, hentry, rfl⟩ := hknown
    simp only [stepNames, mem_cons, not_mem_nil, or_false] at hentry
    rcases hentry with rfl | rfl | rfl | rfl <;> decide

/-- Storing a step changes no other field. -/
theorem storeStep_fields (id : SelectedStep) (step : Option StepPart) :
    (storeStep id step).jobId = id.jobId ∧ (storeStep id step).arrayTaskId = id.arrayTaskId ∧
      (storeStep id step).hetJobOffset = id.hetJobOffset ∧ (storeStep id step).arrayBitmap = id.arrayBitmap := by
  cases step with
  | none => exact ⟨rfl, rfl, rfl, rfl⟩
  | some part =>
    rw [storeStep, Option.elim_some, StepPart.store, storePlus.eq_def]
    split <;> exact ⟨rfl, rfl, rfl, rfl⟩

theorem middle_fields (middle : Middle) (id : SelectedStep) :
    (middle.store max id).jobId = id.jobId ∧ (middle.store max id).stepId = id.stepId ∧
      (middle.store max id).stepHetComp = id.stepHetComp := by
  rw [Middle.store.eq_def]
  split <;> exact ⟨rfl, rfl, rfl⟩

/-- The text of what is after the job is read as the step. -/
theorem scanStep_restText {step : Option StepPart} {isHet : Prop} (hin : ∀ part, step = some part → part.InRange isHet)
    (hknown : ∀ part, step = some part → part.id.Known) (hplus : ∀ part, step = some part → part.plus ≠ some none)
    (hid : id.stepId = noVal ∧ id.stepHetComp = noVal) :
    Ends (restText (storeStep id step)) ∧ scanStep (restText (storeStep id step)) = some step := by
  cases step with
  | none =>
    rw [storeStep, Option.elim_none, restText, if_pos hid.1]
    exact ⟨ends_nil, rfl⟩
  | some part =>
    rw [storeStep, Option.elim_some, restText, store_stepId, if_neg (u32_step (hin part rfl).id (hknown part rfl)),
      ← store_stepId part id]
    exact ⟨ends_dot _, scanStep_text (hin part rfl) (hknown part rfl) (hplus part rfl) hid.2⟩

/-- The text of an id that has no array expression. -/
theorem fmt_plain (hjob : id.jobId ≠ noVal) (hhet : id.arrayTaskId = noVal ∨ id.hetJobOffset = noVal)
    (hset : id.arrayBitmap = none) (hstep : id.stepId = noVal → id.stepHetComp = noVal) :
    fmtJobIdString id = .ok (decimal id.jobId ++
      (marked '_' id.arrayTaskId ++ (marked '+' id.hetJobOffset ++ restText id))) := by
  rw [fmtJobIdString, if_neg hjob, if_neg (by tauto), hset, if_neg (by simp), if_neg (by tauto), restText]
  simp only [append_assoc, cons_append]

/-- There is no array task and component of a heterogeneous job at once. -/
theorem middle_single {middle : Middle} (hin : middle.InRange max) (hcomplete : middle.Complete)
    (hset : ∀ items, middle ≠ .set items) (hid : id.arrayTaskId = noVal ∧ id.hetJobOffset = noVal) :
    ((middle.store max id).arrayTaskId = noVal ∨ (middle.store max id).hetJobOffset = noVal) ∧
      (middle.store max id).arrayBitmap = id.arrayBitmap := by
  cases middle with
  | plain => exact ⟨.inl hid.1, rfl⟩
  | set items => exact absurd rfl (hset items)
  | task v comp =>
    cases comp with
    | none => exact ⟨.inr hid.2, rfl⟩
    | some comp =>
      have hlt : v < noVal := hcomplete
      have hno : noVal = 4294967294 := rfl
      have hv := u32_of_lt hin.1.1 (by omega)
      have := hin.2.1
      omega
  | het v => exact ⟨.inl hid.1, rfl⟩

/-- An id without an array expression has a text with its components. -/
theorem format_plain (hw : scan src = some w) (hin : w.InRange max) (hcomplete : w.Complete)
    (hset : ∀ items, w.middle ≠ .set items) :
    ∃ str, fmtJobIdString (w.store max) = .ok str ∧ scan str = some w := by
  obtain ⟨s, t, -, hstep⟩ := scan_middle hw
  have hno : noVal = 4294967294 := rfl
  have hmax : maxFedJobId = 4294967293 := rfl
  have hlo := hin.job.1
  have hhi := hin.job.2
  have hjob : (u32 w.job : Int) = w.job := u32_of_lt (by omega) (by omega)
  have hknown : ∀ part, w.step = some part → part.id.Known := fun part hpart => scanStep_known (by
    rw [← hpart]
    exact hstep)
  obtain ⟨hsingle, hbitmap⟩ := @middle_single { blank with jobId := u32 w.job } max w.middle hin.middle
    hcomplete.middle hset ⟨rfl, rfl⟩
  obtain ⟨hmid₁, hmid₂, hmid₃⟩ := @middle_fields max w.middle { blank with jobId := u32 w.job }
  obtain ⟨hf₁, hf₂, hf₃, hf₄⟩ :=
    storeStep_fields (w.middle.store max { blank with jobId := u32 w.job }) w.step
  obtain ⟨hends, hrest⟩ := scanStep_restText hin.step hknown hcomplete.step ⟨hmid₂, hmid₃⟩
  have hmiddle : scanMiddle (marked '_' (w.store max).arrayTaskId ++ (marked '+' (w.store max).hetJobOffset ++
      restText (w.store max))) = some (w.middle, restText (w.store max)) := by
    have htext := @scanMiddle_text _ { blank with jobId := u32 w.job } max w.middle hin.middle
      hcomplete.middle hset ⟨rfl, rfl⟩ hends
    rwa [← hf₂, ← hf₃] at htext
  rw [← hf₂, ← hf₃] at hsingle
  have hid : (w.store max).jobId = u32 w.job := hf₁.trans hmid₁
  have hnoDigit : NoDigit (marked '_' (w.store max).arrayTaskId ++ (marked '+' (w.store max).hetJobOffset ++
      restText (w.store max))) :=
    marked_noDigit rfl _ (marked_noDigit rfl _ hends.noDigit)
  refine ⟨_, fmt_plain ?_ hsingle (hf₄.trans hbitmap) fun habsent => ?_, ?_⟩
  · omega
  · cases hpart : w.step with
    | none =>
      rw [Written.store, hpart]
      exact hmid₃
    | some part =>
      rw [Written.store, hpart, storeStep, Option.elim_some, store_stepId] at habsent
      exact absurd habsent (u32_step (hin.step part hpart).id (hknown part hpart))
  · rw [scan, number_decimal _ hnoDigit, Option.bind_some, hid, hjob]
    simp only
    rw [hmiddle, Option.bind_some, show scanStep (restText (w.store max)) = some w.step from hrest]
    rfl

/-! ## Array expressions -/

/-- Bit strings of one size that have the same bits are the same. -/
theorem bitstr_ext {b' : Bitstr} (hnbits : b.nbits = b'.nbits) (hbits : ∀ i, b.bit i = b'.bit i) :
    b = b' := by
  have hword : ∀ k, b.word k = b'.word k := by
    intro k
    rw [Bitstring.word_eq_iff]
    intro j hj
    have hbit := hbits (64 * k + j)
    rwa [Bitstr.bit, Bitstr.bit, show (64 * k + j) / 64 = k by omega,
      show (64 * k + j) % 64 = j by omega] at hbit
  have hlen : b.words.length = b'.words.length := by rw [b.length_eq, b'.length_eq, hnbits]
  have hwords : b.words = b'.words := ext_getElem hlen fun k hk hk' => by
    have := hword k
    rwa [Bitstr.word, Bitstr.word, getD_eq_getElem _ _ hk, getD_eq_getElem _ _ hk'] at this
  cases b
  cases b'
  simp only at hnbits hwords
  subst hnbits hwords
  rfl

/-- The item of a run. -/
def runItem (r : Nat × Nat) : Item where
  first := some (r.1 : Int)
  last := if r.1 = r.2 then none else some (some (r.2 : Int))
  step := none

theorem has_runItem (r : Nat × Nat) (task : Nat) : (runItem r).Has task ↔ r.1 ≤ task ∧ task ≤ r.2 := by
  rw [Item.Has, Item.stride, Item.hi, Item.lo]
  simp only [runItem, Option.getD_some, Option.map_none, Option.getD_none, one_dvd, and_true]
  split
  · rename_i heq
    simp only [Option.map_none, Option.getD_none]
    omega
  · simp only [Option.map_some, Option.getD_some]
    omega

theorem runItem_inRange {r : Nat × Nat} (hle : r.1 ≤ r.2) (hlt : r.2 < max) : (runItem r).InRange max := by
  have hhi : (runItem r).hi = r.2 := by
    rw [Item.hi, Item.lo]
    simp only [runItem]
    split
    · rename_i heq
      simp [heq]
    · simp
  refine ⟨?_, ?_, ?_, ?_⟩
  · exact Int.natCast_nonneg r.1
  · rw [hhi]
    exact Int.ofNat_le.mpr hle
  · rw [hhi]
    exact Int.ofNat_lt.mpr hlt
  · intro step h
    cases h

/-- A run is read as its item, with or without the closing bracket. -/
theorem scanItem_piece (r : Nat × Nat) {close : List Char} (hclose : close = [] ∨ close = [']']) :
    scanItem (piece r ++ close) = some (runItem r) := by
  have hends : dropClose close = [] := by rcases hclose with rfl | rfl <;> rfl
  have hnoDigit : NoDigit close := by
    rcases hclose with rfl | rfl
    · exact noDigit_nil
    · exact noDigit_cons rfl []
  rw [piece]
  split
  · rename_i heq
    have hnum := number_decimal r.1 hnoDigit
    rw [decimal] at hnum
    simp only [scanItem, hnum, hends, head?_nil, reduceCtorEq, if_false]
    rw [if_pos (.inl rfl), runItem, if_pos heq]
  · rename_i hne
    have hnum₁ := number_decimal r.1 (noDigit_cons (c := '-') rfl (decimal r.2 ++ close))
    have hnum₂ := number_decimal r.2 hnoDigit
    rw [decimal] at hnum₁
    have hdash : dropClose ('-' :: (decimal r.2 ++ close)) = '-' :: (decimal r.2 ++ close) := rfl
    rw [append_assoc, cons_append, show Nat.toDigits 10 r.2 = decimal r.2 from rfl]
    simp only [scanItem, hnum₁, hdash, head?_cons, if_true, tail_cons, hnum₂, hends, head?_nil,
      reduceCtorEq, if_false]
    rw [if_pos (.inl rfl), runItem, if_neg hne]

/-- The tokens of an array expression, without the opening bracket: the last one has the closing
bracket. -/
def closedTokens : List (Nat × Nat) → List (List Char)
  | [] => []
  | [r] => [piece r ++ [']']]
  | r :: rs => piece r :: closedTokens rs

theorem closedTokens_text (h : rs ≠ []) :
    [','].intercalate (closedTokens rs) = text rs ++ [']'] := by
  induction rs with
  | nil => exact absurd rfl h
  | cons r rs ih =>
    cases rs with
    | nil => simp [closedTokens, text]
    | cons q rs =>
      have hne : closedTokens (q :: rs) ≠ [] := by
        cases rs <;> exact cons_ne_nil _ _
      have htext : text (r :: q :: rs) = piece r ++ [','] ++ text (q :: rs) := by
        rw [text, map_cons, intercalate_cons_of_ne_nil (show (q :: rs).map piece ≠ [] by simp)]
        rfl
      rw [closedTokens, intercalate_cons_of_ne_nil hne, ih (cons_ne_nil q rs), htext,
        append_assoc _ (text _)]
      exact cons_ne_nil q rs

/-- Each token is a run, with or without the closing bracket. -/
theorem closedTokens_pieces (rs : List (Nat × Nat)) :
    List.Forall₂ (fun tok r => tok = piece r ∨ tok = piece r ++ [']']) (closedTokens rs) rs := by
  induction rs with
  | nil => exact .nil
  | cons r rs ih =>
    cases rs with
    | nil => exact .cons (.inr rfl) .nil
    | cons q rs => exact .cons (.inl rfl) ih

/-- The tokens of the text of runs. -/
theorem strtok_text {r : Nat × Nat} {rs : List (Nat × Nat)} :
    ∃ tok toks, closedTokens (r :: rs) = tok :: toks ∧
      strtok ('[' :: (text (r :: rs) ++ [']'])) = ('[' :: tok) :: toks := by
  have hpieces := closedTokens_pieces (r :: rs)
  rw [← closedTokens_text (cons_ne_nil r rs)]
  cases htoks : closedTokens (r :: rs) with
  | nil =>
    rw [htoks] at hpieces
    cases hpieces
  | cons tok toks =>
    rw [htoks] at hpieces
    have hclean : ∀ l ∈ tok :: toks, ',' ∉ l ∧ l ≠ [] := by
      intro l hl
      obtain ⟨i, hi, rfl⟩ := getElem_of_mem hl
      have hget := hpieces.get hi (by rw [← hpieces.length_eq]; exact hi)
      rw [get_eq_getElem, get_eq_getElem] at hget
      rcases hget with h | h
      · rw [h]
        exact ⟨comma_not_mem_piece _, piece_ne_nil _⟩
      · rw [h, mem_append, not_or]
        exact ⟨⟨comma_not_mem_piece _, by decide⟩, append_ne_nil_of_left_ne_nil (piece_ne_nil _) _⟩
    have hopen : '[' :: [','].intercalate (tok :: toks) = [','].intercalate (('[' :: tok) :: toks) := by
      cases toks with
      | nil => simp
      | cons tok' toks =>
        rw [intercalate_cons_of_ne_nil (cons_ne_nil _ _),
          intercalate_cons_of_ne_nil (cons_ne_nil _ _)]
        rfl
    refine ⟨tok, toks, rfl, ?_⟩
    rw [hopen, strtok, splitOn_intercalate ',' ?_ (cons_ne_nil _ _), List.filter_eq_self.mpr]
    · intro l hl
      rcases List.mem_cons.mp hl with rfl | hl
      · rfl
      · simpa using (hclean l (mem_cons_of_mem tok hl)).2
    · intro l hl
      rcases List.mem_cons.mp hl with rfl | hl
      · have := (hclean tok mem_cons_self).1
        simpa using this
      · exact (hclean l (mem_cons_of_mem tok hl)).1

theorem scanTok_piece {tok : List Char} {r : Nat × Nat} (h : tok = piece r ∨ tok = piece r ++ [']']) :
    scanTok tok = some (runItem r) ∧ scanTok ('[' :: tok) = some (runItem r) := by
  have hitem : scanItem tok = some (runItem r) := by
    rcases h with rfl | rfl
    · have := scanItem_piece r (.inl rfl)
      rwa [append_nil] at this
    · exact scanItem_piece r (.inr rfl)
  have hhead : dropOpen tok = tok := by
    have hpiece : ∀ c ∈ (piece r).head?, c ≠ '[' := by
      intro c hc heq
      rcases mem_piece (mem_of_mem_head? hc) with h | h
      · rw [heq] at h
        exact absurd h (by decide)
      · rw [heq] at h
        cases h
    have htok : tok.head? = (piece r).head? := by
      rcases h with rfl | rfl
      · rfl
      · exact head?_append_of_ne_nil _ (piece_ne_nil r)
    rw [dropOpen, if_neg]
    intro hopen
    rw [htok] at hopen
    exact hpiece '[' hopen rfl
  rw [scanTok, scanTok, hhead]
  exact ⟨hitem, hitem⟩

/-- The text of runs is read as their items. -/
theorem scan_tokens (h : rs ≠ []) :
    (strtok ('[' :: (text rs ++ [']']))).mapM scanTok = some (rs.map runItem) := by
  cases rs with
  | nil => exact absurd rfl h
  | cons r rs =>
    obtain ⟨tok, toks, htoks, hstrtok⟩ := @strtok_text r rs
    have hpieces := closedTokens_pieces (r :: rs)
    rw [htoks, List.forall₂_cons] at hpieces
    rw [hstrtok, mapM_eq_some, map_cons, List.forall₂_cons, List.forall₂_map_right_iff]
    exact ⟨(scanTok_piece hpieces.1).2, hpieces.2.imp fun _ _ htok => (scanTok_piece htok).1⟩

theorem scanSet_text (h : rs ≠ []) :
    scanSet ('[' :: (text rs ++ [']'])) = some (.set (rs.map runItem), []) := by
  have hchars : ∀ c ∈ text rs, decide (c ≠ ']') = true := by
    intro c hc
    rw [decide_eq_true_iff]
    rintro rfl
    rcases Bitstring.mem_intercalate hc with heq | ⟨p, hp, hmem⟩
    · cases heq
    · obtain ⟨r, -, rfl⟩ := List.mem_map.mp hp
      rcases mem_piece hmem with heq | hdigit
      · cases heq
      · cases hdigit
  rw [scanSet, tail_cons, if_pos, scan_tokens h]
  · rfl
  · rw [dropWhile_append_of_pos hchars]
    rfl

/-- Two bitmaps of one array expression are the same. -/
theorem SetDenotes.unique {b' : Bitstr} (h : SetDenotes max items b)
    (h' : SetDenotes max items b') : b = b' :=
  bitstr_ext (h.nbits.trans h'.nbits.symm) fun i => Bool.eq_iff_iff.mpr ((h.bits i).trans (h'.bits i).symm)

/-- A bitmap has the tasks of its runs. -/
theorem setDenotes_runs (h : SetDenotes max items b) (hin : ∀ item ∈ items, item.InRange max) :
    SetDenotes max ((Bitstring.scanRuns b b.nbits b.nbits 0).map runItem) b := by
  refine ⟨h.nbits, fun task => ?_⟩
  simp only [mem_map, exists_exists_and_eq_and, has_runItem]
  by_cases htask : task < b.nbits
  · exact (Bitstring.denotes_runs htask).symm
  · refine iff_of_false (fun hbit => ?_) fun hruns => ?_
    · obtain ⟨item, hitem, -, hhi, -⟩ := (h.bits task).mp hbit
      have hlt := (hin item hitem).hi_lt
      rw [h.nbits] at htask
      omega
    · obtain ⟨r, hr, -, hhi⟩ := hruns
      have hlt := (Bitstring.scanRuns_within hr).2.2
      omega

/-- An array expression has a token. -/
theorem scanMiddle_set (h : scanMiddle s = some (.set items, t)) : items ≠ [] ∧ t = [] := by
  rw [scanMiddle] at h
  split at h
  · split at h
    · rename_i hopen
      obtain ⟨items', hitems, -, heq⟩ := scanSet_set h
      rw [Prod.mk.injEq, Middle.set.injEq] at heq
      refine ⟨?_, heq.2⟩
      rw [heq.1]
      rintro rfl
      rw [mapM_eq_some, List.forall₂_nil_right_iff] at hitems
      exact strtok_ne_nil hopen (by decide) hitems
    · obtain ⟨v, -, h⟩ := Option.bind_eq_some_iff.mp h
      split at h
      · obtain ⟨r, -, heq⟩ := Option.map_eq_some_iff.mp h
        cases heq
      · cases h
  · split at h
    · obtain ⟨r, -, heq⟩ := Option.map_eq_some_iff.mp h
      cases heq
    · cases h

/-- An id with an array expression has a text that is read as that id. -/
theorem format_set (hw : scan src = some w) (hin : w.InRange max) (hset : w.middle = .set items) :
    ∃ str, fmtJobIdString (w.store max) = .ok str ∧ unfmtJobIdString str max = .ok (w.store max) := by
  obtain ⟨s, t, hmiddle, hstep⟩ := scan_middle hw
  rw [hset] at hmiddle
  obtain ⟨hitems, rfl⟩ := scanMiddle_set hmiddle
  have hnone : w.step = none := (Option.some.inj hstep).symm
  have hmid := hin.middle
  rw [hset] at hmid
  obtain ⟨hsize, hrange⟩ := hmid
  have hno : noVal = 4294967294 := rfl
  have hmax : maxFedJobId = 4294967293 := rfl
  have hlo := hin.job.1
  have hhi := hin.job.2
  have hjob : (u32 w.job : Int) = w.job := u32_of_lt (by omega) (by omega)
  -- the bitmap, its runs and their text
  have hden := setDenotes_bitmap hrange hsize
  have hruns := setDenotes_runs hden hrange
  have hstore : w.store max = { blank with
      jobId := u32 w.job
      arrayBitmap := some (setItems (bitAlloc max hsize) items) } := by
    rw [Written.store, hnone, hset, Middle.store, bitmapOf_eq hsize]
    rfl
  generalize setItems (bitAlloc max hsize) items = b at hden hruns hstore
  obtain ⟨item, hitem⟩ := List.exists_mem_of_ne_nil items hitems
  have hbit : b.bit item.lo.toNat = true := (hden.bits _).mpr ⟨item, hitem, item.has_lo (hrange item hitem)⟩
  have hlt : item.lo.toNat < b.nbits := by
    have h₁ := (hrange item hitem).lo_nonneg
    have h₂ := (hrange item hitem).lo_le
    have h₃ := (hrange item hitem).hi_lt
    rw [hden.nbits]
    omega
  have hne : Bitstring.scanRuns b b.nbits b.nbits 0 ≠ [] := fun hnil => by
    have := Bitstring.runs_eq_nil.mp hnil _ hlt
    rw [hbit] at this
    cases this
  have hffs : (bitFfs b).isSome = true := by
    cases hfirst : bitFfs b with
    | some i => rfl
    | none =>
      have hspec := Bitstring.bitFfs_isFirst b
      rw [hfirst] at hspec
      exact absurd ⟨hlt, hbit⟩ (hspec _)
  have hfull : bitFmtFull b = some (text (Bitstring.scanRuns b b.nbits b.nbits 0)) := by
    rw [bitFmtFull, Bitstring.foldl_catRun_none, if_neg hne]
  have hrunsIn : ∀ r ∈ Bitstring.scanRuns b b.nbits b.nbits 0, (runItem r).InRange max := fun r hr => by
    obtain ⟨-, hle, hlt⟩ := Bitstring.scanRuns_within hr
    exact runItem_inRange hle (hden.nbits ▸ hlt)
  refine ⟨decimal (u32 w.job) ++ '_' :: '[' :: (text (Bitstring.scanRuns b b.nbits b.nbits 0) ++ [']']), ?_, ?_⟩
  · rw [hstore, fmtJobIdString]
    simp only [Option.any_some, Option.bind_some]
    rw [if_neg (by omega), if_neg (by simp [blank]), if_pos hffs, hfull]
    rfl
  · refine unfmt_ok.mpr ⟨⟨w.job, .set ((Bitstring.scanRuns b b.nbits b.nbits 0).map runItem), none⟩,
      ?_, ⟨hin.job, ⟨hsize, List.forall_mem_map.mpr hrunsIn⟩, fun step h => by cases h⟩, ?_⟩
    · rw [scan, number_decimal _ (noDigit_cons rfl _), Option.bind_some, scanMiddle]
      simp only [head?_cons, tail_cons, if_true]
      rw [scanSet_text hne, hjob]
      rfl
    · have hsame := (setDenotes_bitmap (List.forall_mem_map.mpr hrunsIn) hsize).unique hruns
      rw [hstore, Written.store, Middle.store, bitmapOf_eq hsize, hsame]
      rfl

/-- A string with complete components is read as an id whose text is read as that id. -/
theorem format_reads (hw : scan src = some w) (hin : w.InRange max) (hcomplete : w.Complete) :
    ∃ str, fmtJobIdString (w.store max) = .ok str ∧ unfmtJobIdString str max = .ok (w.store max) := by
  by_cases hset : ∃ items, w.middle = .set items
  · obtain ⟨items, hset⟩ := hset
    exact format_set hw hin hset
  · obtain ⟨str, hstr, hscan⟩ := format_plain hw hin hcomplete fun items h => hset ⟨items, h⟩
    exact ⟨str, hstr, unfmt_ok.mpr ⟨w, hscan, hin, rfl⟩⟩

end Slurm.JobId
