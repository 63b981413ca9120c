import Slurm.JobId.Tokens

/-!
# What is read of a job id string

Each part of `unfmt_job_id_string` agrees with what is written: it accepts the text where the
components are in range, and stores them, and it ends with an error elsewhere.

* `readMiddle_agrees`: what is between the job and the step.
* `readStep_agrees`: the step, where its name is known.
* `unfmt_ok`, `unfmt_outOfBounds`: when the function succeeds, and when it reads past `step_names`.
-/

namespace Slurm.JobId

open List

open Slurm.Bitstring (Bitstr ValidSize)

variable {s t : List Char} {v : Int} {id : SelectedStep} {max : Nat}

/-- A run ends with an error, and not with a read of memory that is not there. -/
def Rejects {α : Type} (x : Run α) : Prop := ∃ stop, x = .error stop ∧ stop ≠ .outOfBounds

/-- A part of the function agrees with what is written: either the components are in range and are
stored, or they are not, or the text has none, and the part is an error. -/
inductive Agrees {α β : Type} (x : Run α) (written : Option β) (inRange : β → Prop) (store : β → α) : Prop where
  | accepted (w : β) (hw : written = some w) (hin : inRange w) (hx : x = .ok (store w))
  | rejected (hx : Rejects x) (hout : ∀ w, written = some w → ¬ inRange w)

theorem rejects_fail {α : Type} (code : Rc) : Rejects (fail code : Run α) := ⟨_, rfl, nofun⟩

theorem head?_of_number (h : (number t).1 = some v) : t.head? ≠ none := by
  intro hnil
  rw [head?_eq_none_iff] at hnil
  rw [hnil] at h
  cases h

/-! ## The parts -/

/-- The component of a heterogeneous job. -/
theorem readHet_agrees (hs : s.head? = some '+') (hid : id.arrayTaskId = noVal) :
    Agrees (readHet id s) (scanHet s.tail) (fun r => HetInRange r.1)
      (fun r => ({ id with hetJobOffset := u32 r.1 }, r.2)) := by
  have hmin : longMin = -9223372036854775808 := rfl
  have hlong : longMax = 9223372036854775807 := rfl
  have hhet : maxHetJobComponents = 128 := rfl
  rw [readHet, if_pos hs, if_neg (not_not_intro hid), advance_of_head hs, ok_bind]
  generalize s.tail = t
  cases hnum : (number t).1 with
  | none =>
    refine .rejected ?_ (fun w hw => by simp [scanHet, hnum] at hw)
    simp only [strtol_none hnum, if_true]
    split_ifs <;> exact rejects_fail _
  | some v =>
    have hne : t.head? ≠ none := head?_of_number hnum
    rw [if_neg hne]
    simp only [strtol_some hnum]
    by_cases hmark : (number t).2.head? = some '_'
    · refine .rejected ?_ (fun w hw => by simp [scanHet, hnum, hmark] at hw)
      split_ifs <;> exact rejects_fail _
    · by_cases hin : HetInRange v
      · refine .accepted (v, (number t).2) (by simp [scanHet, hnum, hmark]) hin ?_
        have hlo := hin.1
        have hhi := hin.2
        rw [if_neg (by omega), if_neg (by omega), if_neg (number_some hnum), if_neg (by simp; omega),
          if_neg hmark, show Max.max longMin (min longMax v) = v by omega]
        rfl
      · refine .rejected ?_ (fun w hw => ?_)
        · rw [HetInRange] at hin
          split_ifs
          · exact rejects_fail _
          · exact rejects_fail _
          · exact rejects_fail _
          · exact rejects_fail _
          · omega
        · simp only [scanHet, hnum, hmark, Option.bind_some, if_false, Option.some.injEq] at hw
          rwa [← hw]

/-- An array task. -/
theorem readTask_agrees (hs : s.head? = some '_') :
    Agrees (readTask id s) ((number s.tail).1.map fun v => (v, (number s.tail).2))
      (fun r => TaskInRange r.1) (fun r => ({ id with arrayTaskId := u32 r.1 }, r.2)) := by
  have hmin : longMin = -9223372036854775808 := rfl
  have hlong : longMax = 9223372036854775807 := rfl
  rw [readTask, advance_of_head hs, ok_bind]
  generalize s.tail = t
  cases hnum : (number t).1 with
  | none =>
    refine .rejected ?_ nofun
    simp only [strtol_none hnum, if_true]
    split_ifs <;> exact rejects_fail _
  | some v =>
    have hne : t.head? ≠ none := head?_of_number hnum
    rw [if_neg hne]
    simp only [strtol_some hnum]
    by_cases hin : TaskInRange v
    · refine .accepted (v, (number t).2) rfl hin ?_
      have hlo := hin.1
      have hhi := hin.2
      rw [if_neg (by omega), if_neg (by omega), if_neg (number_some hnum), if_neg (by simp; omega),
        show Max.max longMin (min longMax v) = v by omega]
      rfl
    · refine .rejected ?_ (fun w hw => ?_)
      · rw [TaskInRange] at hin
        split_ifs
        · exact rejects_fail _
        · exact rejects_fail _
        · exact rejects_fail _
        · exact rejects_fail _
        · omega
      · rw [Option.map_some, Option.some.injEq] at hw
        rwa [← hw]

theorem strtok_ne_nil {c : Char} (h : s.head? = some c) (hc : c ≠ ',') : strtok s ≠ [] := by
  intro hnil
  have hmem : c ∈ [','].intercalate (s.splitOn ',') := by
    rw [intercalate_splitOn]
    exact mem_of_mem_head? h
  rcases Bitstring.mem_intercalate hmem with heq | ⟨l, hl, hcl⟩
  · exact hc heq
  · rw [strtok, filter_eq_nil_iff] at hnil
    have hempty : l = [] := by simpa using hnil l hl
    rw [hempty] at hcl
    cases hcl

theorem Rejects.bind {α β : Type} {x : Run α} (h : Rejects x) (f : α → Run β) : Rejects (x >>= f) := by
  obtain ⟨stop, rfl, hstop⟩ := h
  exact ⟨stop, rfl, hstop⟩

theorem scanSet_set {r : Middle × List Char} (h : scanSet s = some r) :
    ∃ items, (strtok s).mapM scanTok = some items ∧ s.tail.dropWhile (· ≠ ']') = [']'] ∧
      r = (.set items, []) := by
  rw [scanSet] at h
  split at h
  · rename_i hclose
    obtain ⟨items, hitems, rfl⟩ := Option.map_eq_some_iff.mp h
    exact ⟨items, hitems, hclose, rfl⟩
  · cases h

/-- An array expression. -/
theorem readSet_agrees (hs : s.head? = some '_') (ht : s.tail.head? = some '[') :
    Agrees (readSet max id s) (scanSet s.tail) (fun r => r.1.InRange max)
      (fun r => (r.1.store max id, r.2)) := by
  rw [readSet]
  by_cases hmax : max = 0 ∨ max = noVal
  · rw [if_pos hmax]
    refine .rejected (rejects_fail _) fun w hw hin => ?_
    obtain ⟨items, -, -, rfl⟩ := scanSet_set hw
    have hpos := hin.1.1
    have hle := hin.1.2
    have hno : noVal = 4294967294 := rfl
    omega
  rw [if_neg hmax, advance_of_head hs, ok_bind, advance_of_head ht, ok_bind]
  simp only
  cases hclose : s.tail.tail.dropWhile (· ≠ ']') with
  | nil =>
    refine .rejected (rejects_fail _) fun w hw => ?_
    obtain ⟨items, -, hclose', -⟩ := scanSet_set hw
    rw [hclose] at hclose'
    cases hclose'
  | cons c rest =>
    have hc : c = ']' := by
      have hhead := head?_dropWhile_not (· ≠ ']') s.tail.tail
      rw [hclose] at hhead
      simpa using hhead
    subst hc
    rw [if_neg (cons_ne_nil _ _), show advance (']' :: rest) = .ok rest from rfl, ok_bind]
    cases rest with
    | cons d rest =>
      refine .rejected (rejects_fail _) fun w hw => ?_
      obtain ⟨items, -, hclose', -⟩ := scanSet_set hw
      rw [hclose] at hclose'
      cases hclose'
    | nil =>
      rw [if_neg (not_not_intro (show ([] : List Char).head? = none from rfl))]
      by_cases hsize : ValidSize max
      · obtain ⟨r, hrun, hr⟩ := str2bitmap_spec hsize (strtok_ne_nil ht (by decide))
        rw [hrun, ok_bind]
        cases r with
        | none =>
          refine .rejected (rejects_fail _) fun w hw hin => ?_
          obtain ⟨items, hitems, -, rfl⟩ := scanSet_set hw
          have hnone := (hr _).mpr ⟨items, hitems, hin.2, bitmapOf_eq hsize items⟩
          cases hnone
        | some b =>
          obtain ⟨items, hitems, hrange, hb⟩ := (hr b).mp rfl
          refine .accepted (.set items, []) ?_ ⟨hsize, hrange⟩ ?_
          · rw [scanSet, if_pos hclose, hitems]
            rfl
          · rw [Middle.store, hb]
            rfl
      · refine .rejected ?_ fun w hw hin => ?_
        · rw [slurmArrayStr2bitmap, dif_neg fun h => hsize h.2]
          exact ⟨.assertFailed, rfl, fun h => by cases h⟩
        · obtain ⟨items, -, -, rfl⟩ := scanSet_set hw
          exact hsize hin.1

/-- What is between the job and the step. -/
theorem readMiddle_agrees (hid : id.arrayTaskId = noVal) :
    Agrees (readArray max id s >>= fun r => readHet r.1 r.2) (scanMiddle s) (fun r => r.1.InRange max)
      (fun r => (r.1.store max id, r.2)) := by
  rw [readArray, scanMiddle]
  by_cases hs : s.head? = some '_'
  · rw [if_pos hs, if_pos hs, advance_of_head hs, ok_bind]
    by_cases ht : s.tail.head? = some '['
    · rw [if_pos ht, if_pos ht]
      rcases @readSet_agrees s id max hs ht with ⟨w, hw, hin, hx⟩ | ⟨hx, hout⟩
      · refine .accepted w hw hin ?_
        obtain ⟨items, -, -, rfl⟩ := scanSet_set hw
        rw [hx, ok_bind]
        rfl
      · exact .rejected (hx.bind _) hout
    · rw [if_neg ht, if_neg ht, scanTask]
      rcases @readTask_agrees s id hs with ⟨w, hw, hin, hx⟩ | ⟨hx, hout⟩
      · obtain ⟨v, hv, rfl⟩ := Option.map_eq_some_iff.mp hw
        rw [hx, ok_bind, hv, Option.bind_some]
        simp only
        by_cases hplus : (number s.tail).2.head? = some '+'
        · rw [if_pos hplus]
          by_cases hno : u32 v = noVal
          · rcases @readHet_agrees _ { id with arrayTaskId := u32 v } hplus hno with
              ⟨w, hw, hin', hx'⟩ | ⟨hx', hout'⟩
            · exact .accepted (.task v (some w.1), w.2) (by rw [hw]; rfl) ⟨hin, hno, hin'⟩ hx'
            · refine .rejected hx' fun w hw hin' => ?_
              obtain ⟨w', hw', rfl⟩ := Option.map_eq_some_iff.mp hw
              exact hout' w' hw' hin'.2.2
          · refine .rejected ?_ fun w hw hin' => ?_
            · rw [readHet, if_pos hplus, if_pos hno]
              exact rejects_fail _
            · obtain ⟨w', -, rfl⟩ := Option.map_eq_some_iff.mp hw
              exact hno hin'.2.1
        · rw [if_neg hplus]
          refine .accepted _ rfl hin ?_
          rw [readHet, if_neg hplus]
          rfl
      · refine .rejected (hx.bind _) fun w hw hin => ?_
        obtain ⟨v, hv, hw⟩ := Option.bind_eq_some_iff.mp hw
        refine hout (v, (number s.tail).2) (by rw [hv]; rfl) ?_
        split at hw
        · obtain ⟨w', -, rfl⟩ := Option.map_eq_some_iff.mp hw
          exact hin.1
        · rw [← Option.some.inj hw] at hin
          exact hin
  · rw [if_neg hs, if_neg hs]
    by_cases hplus : s.head? = some '+'
    · rw [if_pos hplus]
      rcases @readHet_agrees s id hplus hid with ⟨w, hw, hin, hx⟩ | ⟨hx, hout⟩
      · exact .accepted (.het w.1, w.2) (by rw [hw]; rfl) hin hx
      · refine .rejected hx fun w hw hin => ?_
        obtain ⟨w', hw', rfl⟩ := Option.map_eq_some_iff.mp hw
        exact hout w' hw' hin
    · rw [if_neg hplus]
      refine .accepted _ rfl trivial ?_
      show readHet id s = _
      rw [readHet, if_neg hplus]
      rfl

/-! ## Steps -/

/-- The names from one entry on. -/
theorem findName_drop (t : List Char) {n i : Nat} (h : stepNames.length = i + n) :
    findName t i = ((stepNames.drop i).find? fun entry => decide (Named entry.1 t)).elim
      (.error .outOfBounds) fun entry => .ok (entry.2, t.drop entry.1.length) := by
  induction n generalizing i with
  | zero =>
    rw [findName, drop_eq_nil_of_le (by omega)]
    split
    · rfl
    · rename_i hget
      have := (List.getElem?_eq_some_iff.mp hget).1
      omega
  | succ n ih =>
    have hlt : i < stepNames.length := by omega
    rw [findName, drop_eq_getElem_cons hlt]
    split
    · rename_i hget
      rw [getElem?_eq_getElem hlt] at hget
      cases hget
    · rename_i name stepId hget
      rw [getElem?_eq_getElem hlt, Option.some.injEq] at hget
      rw [hget]
      by_cases hname : Named name t
      · rw [if_pos hname, find?_cons_of_pos (by simp [hname])]
        rfl
      · rw [if_neg hname, if_neg (by omega), find?_cons_of_neg (by simp [hname])]
        exact ih (by omega)

/-- The loop over the names goes on past the last one. -/
theorem findName_eq (t : List Char) : findName t 0 = (nameOf t).elim (.error .outOfBounds)
    fun r => .ok ((r.1 : Int), r.2) := by
  rw [findName_drop t (Nat.zero_add stepNames.length).symm, nameOf, drop_zero]
  cases stepNames.find? fun entry => decide (Named entry.1 t) <;> rfl

/-- The step.  One that is neither a number nor a name is looked for past the table. -/
theorem readStepId_spec (t : List Char) :
    (readStepId t = .error .outOfBounds ∧ scanStepId t = none) ∨
      (scanStepId t ≠ none ∧
        Agrees (readStepId t) (scanStepId t) (fun r => r.1.InRange) (fun r => (r.1.val, r.2))) := by
  have hmin : longMin = -9223372036854775808 := rfl
  have hlong : longMax = 9223372036854775807 := rfl
  have hstep : slurmMaxNormalStepId = 4294967280 := rfl
  rw [readStepId, scanStepId]
  cases hnum : (number t).1 with
  | none =>
    rw [strtol_none hnum, if_pos rfl, findName_eq]
    cases hname : nameOf t with
    | none => exact .inl ⟨rfl, rfl⟩
    | some r => exact .inr ⟨nofun, .accepted (.name r.1, r.2) rfl trivial rfl⟩
  | some v =>
    refine .inr ⟨nofun, ?_⟩
    simp only [strtol_some hnum]
    rw [if_neg (number_some hnum)]
    by_cases hin : (StepId.number v).InRange
    · refine .accepted (.number v, (number t).2) rfl hin ?_
      have hlo := hin.1
      have hhi := hin.2
      rw [if_neg (by omega), if_neg (by omega), if_neg (by simp; omega),
        show Max.max longMin (min longMax v) = v by omega]
      rfl
    · refine .rejected ?_ (fun w hw => ?_)
      · rw [StepId.InRange] at hin
        split_ifs
        · exact rejects_fail _
        · exact rejects_fail _
        · exact rejects_fail _
        · omega
      · rw [← Option.some.inj hw]
        exact hin

/-- What is after the step. -/
theorem readHetStep_agrees (id : SelectedStep) (s : List Char) :
    Agrees (readHetStep id s) (scanPlus s) (PlusInRange (id.hetJobOffset ≠ noVal)) (storePlus id) := by
  have hmin : longMin = -9223372036854775808 := rfl
  have hlong : longMax = 9223372036854775807 := rfl
  have hhet : maxHetJobComponents = 128 := rfl
  rw [readHetStep, scanPlus]
  by_cases hnil : s = []
  · rw [if_pos (List.head?_eq_none_iff.mpr hnil), if_pos hnil]
    exact .accepted none rfl ⟨fun h => absurd rfl h, nofun⟩ rfl
  rw [if_neg (List.head?_eq_none_iff.not.mpr hnil), if_neg hnil]
  by_cases hplus : s.head? = some '+'
  · rw [if_neg (not_not_intro hplus), if_pos hplus]
    by_cases hid : id.hetJobOffset = noVal
    · rw [if_neg (not_not_intro hid), advance_of_head hplus, ok_bind]
      generalize s.tail = t
      by_cases ht : t = []
      · rw [if_pos (List.head?_eq_none_iff.mpr ht), if_pos ht]
        exact .accepted (some none) rfl ⟨fun _ h => h hid, nofun⟩ rfl
      rw [if_neg (List.head?_eq_none_iff.not.mpr ht), if_neg ht]
      cases hnum : (number t).1 with
      | none =>
        refine .rejected ?_ fun w hw => ?_
        · rw [strtol_none hnum, if_pos rfl]
          exact rejects_fail _
        · split at hw <;> cases hw
      | some v =>
        simp only [strtol_some hnum]
        rw [if_neg (number_some hnum)]
        by_cases hend : (number t).2 = []
        · rw [if_pos hend, Option.map_some]
          by_cases hin : 0 < v ∧ v < maxHetJobComponents
          · refine .accepted (some (some v)) rfl ⟨fun _ h => h hid, fun v' hv' => ?_⟩ ?_
            · rwa [← Option.some.inj (Option.some.inj hv')]
            · rw [if_neg (by omega), if_neg (by omega), if_neg (by omega), if_neg (by simp; omega),
                if_neg (by simp [hend]), show Max.max longMin (min longMax v) = v by omega]
              rfl
          · refine .rejected ?_ fun w hw hin' => hin (hin'.het v (Option.some.inj hw).symm)
            split_ifs
            · exact rejects_fail _
            · exact rejects_fail _
            · exact rejects_fail _
            · exact rejects_fail _
            · exact rejects_fail _
            · omega
        · rw [if_neg hend]
          refine .rejected ?_ nofun
          split_ifs
          · exact rejects_fail _
          · exact rejects_fail _
          · exact rejects_fail _
          · exact rejects_fail _
          · exact rejects_fail _
          · rename_i hrest
            exact absurd (List.head?_eq_none_iff.mp (not_not.mp hrest)) hend
    · rw [if_pos hid]
      refine .rejected (rejects_fail _) fun w hw hin => hin.single ?_ hid
      rintro rfl
      split at hw
      · cases hw
      · split at hw
        · obtain ⟨v, -, hv⟩ := Option.map_eq_some_iff.mp hw
          cases hv
        · cases hw
  · rw [if_pos hplus, if_neg hplus]
    exact .rejected (rejects_fail _) nofun

/-- There is a step that is neither a number nor a name. -/
structure UnknownStep (s : List Char) : Prop where
  dot : s.head? = some '.'
  tail : s.tail ≠ []
  none : scanStepId s.tail = none

/-- What is after the job. -/
theorem readStep_spec (id : SelectedStep) (s : List Char) :
    (readStep id s = .error .outOfBounds ∧ UnknownStep s) ∨
      (¬ UnknownStep s ∧ Agrees (readStep id s) (scanStep s)
        (fun step => ∀ part, step = some part → part.InRange (id.hetJobOffset ≠ noVal)) (storeStep id)) := by
  rw [readStep, scanStep]
  by_cases hnil : s = []
  · rw [if_pos (List.head?_eq_none_iff.mpr hnil), if_pos hnil]
    refine .inr ⟨fun h => ?_, .accepted none rfl nofun rfl⟩
    rw [hnil] at h
    exact nomatch h.dot
  rw [if_neg (List.head?_eq_none_iff.not.mpr hnil), if_neg hnil]
  by_cases hdot : s.head? = some '.'
  · rw [if_neg (not_not_intro hdot), if_pos hdot, advance_of_head hdot, ok_bind]
    by_cases ht : s.tail = []
    · refine .inr ⟨fun h => h.tail ht, ?_⟩
      rw [if_pos (List.head?_eq_none_iff.mpr ht), ht]
      exact .rejected (rejects_fail _) nofun
    rw [if_neg (List.head?_eq_none_iff.not.mpr ht)]
    rcases readStepId_spec s.tail with ⟨hrun, hnone⟩ | ⟨hsome, hagrees⟩
    · rw [hrun]
      exact .inl ⟨rfl, hdot, ht, hnone⟩
    · refine .inr ⟨fun h => hsome h.none, ?_⟩
      rcases hagrees with ⟨r, hr, hin, hx⟩ | ⟨hx, hout⟩
      · rw [hx, ok_bind, hr, Option.bind_some]
        rcases readHetStep_agrees { id with stepId := u32 r.1.val } r.2 with
          ⟨plus, hplus, hin', hx'⟩ | ⟨hx', hout'⟩
        · refine .accepted (some ⟨r.1, plus⟩) (by rw [hplus]; rfl) (fun part hpart => ?_) hx'
          rw [← Option.some.inj hpart]
          exact ⟨hin, hin'⟩
        · refine .rejected hx' fun w hw hin' => ?_
          obtain ⟨plus, hplus, rfl⟩ := Option.map_eq_some_iff.mp hw
          exact hout' plus hplus (hin' _ rfl).plus
      · refine .rejected (hx.bind _) fun w hw hin' => ?_
        obtain ⟨r, hr, hw⟩ := Option.bind_eq_some_iff.mp hw
        obtain ⟨plus, -, rfl⟩ := Option.map_eq_some_iff.mp hw
        exact hout r hr (hin' _ rfl).id
  · rw [if_pos hdot, if_neg hdot]
    exact .inr ⟨fun h => hdot h.dot, .rejected (rejects_fail _) nofun⟩

/-! ## The whole string -/

/-- The job. -/
theorem readJob_agrees (src : List Char) :
    Agrees (readJob src) ((number src).1.map fun v => (v, (number src).2)) (fun r => JobInRange r.1)
      (fun r => ({ blank with jobId := u32 r.1 }, r.2)) := by
  have hmin : longMin = -9223372036854775808 := rfl
  have hlong : longMax = 9223372036854775807 := rfl
  have hjob : maxFedJobId = 4294967293 := rfl
  rw [readJob]
  cases hnum : (number src).1 with
  | none =>
    refine .rejected ?_ nofun
    simp only [strtol_none hnum, if_true]
    split <;> exact rejects_fail _
  | some v =>
    have hne : src.head? ≠ none := head?_of_number hnum
    rw [if_neg hne]
    simp only [strtol_some hnum]
    by_cases hin : JobInRange v
    · refine .accepted (v, (number src).2) rfl hin ?_
      have hlo := hin.1
      have hhi := hin.2
      rw [if_neg (by omega), if_neg (by omega), if_neg (by omega), if_neg (number_some hnum),
        if_neg (by simp; omega), show Max.max longMin (min longMax v) = v by omega]
    · refine .rejected ?_ fun w hw => ?_
      · rw [JobInRange] at hin
        split_ifs
        · exact rejects_fail _
        · exact rejects_fail _
        · exact rejects_fail _
        · exact rejects_fail _
        · exact rejects_fail _
        · omega
      · rw [Option.map_some, Option.some.injEq] at hw
        rwa [← hw]

/-- A string whose job and whatever else is before the step are accepted, with a step that is neither
a number nor a name. -/
def HasUnknownStep (src : List Char) (max : Nat) : Prop :=
  ∃ job r, (number src).1 = some job ∧ JobInRange job ∧ scanMiddle (number src).2 = some r ∧
    r.1.InRange max ∧ UnknownStep r.2

theorem u32_of_lt (h₀ : 0 ≤ v) (h : v < 4294967296) : (u32 v : Int) = v := by
  rw [u32, Int.emod_eq_of_lt h₀ h, Int.toNat_of_nonneg h₀]

theorem u32_het (h : HetInRange v) : u32 v ≠ noVal := by
  have hv := u32_of_lt h.1 (h.2.trans_lt (by decide))
  have hle := h.2
  have hhet : maxHetJobComponents = 128 := rfl
  have hno : noVal = 4294967294 := rfl
  omega

/-- A heterogeneous job has its field set. -/
theorem isHet_iff {middle : Middle} (hin : middle.InRange max) (hid : id.hetJobOffset = noVal) :
    middle.IsHet ↔ (middle.store max id).hetJobOffset ≠ noVal := by
  cases middle with
  | plain => exact iff_of_false nofun (not_not_intro hid)
  | set items => exact iff_of_false nofun (not_not_intro hid)
  | task v comp =>
    cases comp with
    | none => exact iff_of_false nofun (not_not_intro hid)
    | some comp => exact iff_of_true trivial (u32_het hin.2.2)
  | het v => exact iff_of_true trivial (u32_het hin)

/-- The function agrees with what is written, or it reads past the names. -/
theorem unfmt_spec (src : List Char) (max : Nat) :
    (unfmtJobIdString src max = .error .outOfBounds ∧ HasUnknownStep src max) ∨
      (¬ HasUnknownStep src max ∧
        Agrees (unfmtJobIdString src max) (scan src) (Written.InRange max) (Written.store max)) := by
  have hbind : unfmtJobIdString src max = readJob src >>= fun r =>
      (readArray max r.1 r.2 >>= fun r => readHet r.1 r.2) >>= fun r => readStep r.1 r.2 := by
    rw [unfmtJobIdString]
    simp only [bind_assoc]
  rw [hbind, scan]
  rcases readJob_agrees src with ⟨w, hw, hjob, hx⟩ | ⟨hx, hout⟩
  · obtain ⟨job, hnum, rfl⟩ := Option.map_eq_some_iff.mp hw
    rw [hx, ok_bind, hnum, Option.bind_some]
    rcases @readMiddle_agrees (number src).2 { blank with jobId := u32 job } max rfl with
      ⟨r, hr, hin, hx⟩ | ⟨hx, hout⟩
    · rw [hx, ok_bind, hr, Option.bind_some]
      have hhet := @isHet_iff { blank with jobId := u32 job } max r.1 hin rfl
      rcases readStep_spec (r.1.store max { blank with jobId := u32 job }) r.2 with
        ⟨hrun, hunknown⟩ | ⟨hknown, hagrees⟩
      · exact .inl ⟨hrun, job, r, hnum, hjob, hr, hin, hunknown⟩
      · refine .inr ⟨fun h => ?_, ?_⟩
        · obtain ⟨job', r', -, -, hr', -, hunknown⟩ := h
          rw [hr, Option.some.injEq] at hr'
          rw [← hr'] at hunknown
          exact hknown hunknown
        · rcases hagrees with ⟨step, hstep, hin', hx'⟩ | ⟨hx', hout'⟩
          · refine .accepted ⟨job, r.1, step⟩ (by rw [hstep]; rfl) ⟨hjob, hin, fun part hpart => ?_⟩ hx'
            rw [propext hhet]
            exact hin' part hpart
          · refine .rejected hx' fun w hw hin' => ?_
            obtain ⟨step, hstep, rfl⟩ := Option.map_eq_some_iff.mp hw
            refine hout' step hstep fun part hpart => ?_
            rw [← propext hhet]
            exact hin'.step part hpart
    · refine .inr ⟨fun h => ?_, .rejected (hx.bind _) fun w hw hin => ?_⟩
      · obtain ⟨job', r, -, -, hr, hin, -⟩ := h
        exact hout r hr hin
      · obtain ⟨r, hr, hw⟩ := Option.bind_eq_some_iff.mp hw
        obtain ⟨step, -, rfl⟩ := Option.map_eq_some_iff.mp hw
        exact hout r hr hin.middle
  · refine .inr ⟨fun h => ?_, .rejected (hx.bind _) fun w hw hin => ?_⟩
    · obtain ⟨job, r, hnum, hjob, -⟩ := h
      exact hout (job, (number src).2) (by rw [hnum]; rfl) hjob
    · obtain ⟨job, hnum, hw⟩ := Option.bind_eq_some_iff.mp hw
      obtain ⟨r, -, hw⟩ := Option.bind_eq_some_iff.mp hw
      obtain ⟨step, -, rfl⟩ := Option.map_eq_some_iff.mp hw
      exact hout (job, (number src).2) (by rw [hnum]; rfl) hin.job

/-- When the function succeeds, and with what. -/
theorem unfmt_ok {src : List Char} : unfmtJobIdString src max = .ok id ↔
    ∃ w, scan src = some w ∧ w.InRange max ∧ id = w.store max := by
  rcases unfmt_spec src max with ⟨hrun, job, r, hnum, hjob, hr, hin, hunknown⟩ | ⟨-, hagrees⟩
  · rw [hrun]
    refine iff_of_false nofun fun h => ?_
    obtain ⟨w, hw, -, -⟩ := h
    have hne : r.2 ≠ [] := fun hnil => by
      have hdot := hunknown.dot
      rw [hnil] at hdot
      cases hdot
    simp [scan, hnum, hr, scanStep, hne, hunknown.dot, hunknown.none] at hw
  · rcases hagrees with ⟨w, hw, hin, hx⟩ | ⟨⟨stop, hx, -⟩, hout⟩
    · rw [hx, Except.ok.injEq]
      refine ⟨fun h => ⟨w, hw, hin, h.symm⟩, fun h => ?_⟩
      obtain ⟨w', hw', -, rfl⟩ := h
      rw [hw, Option.some.injEq] at hw'
      rw [hw']
    · rw [hx]
      refine iff_of_false nofun fun h => ?_
      obtain ⟨w, hw, hin, -⟩ := h
      exact hout w hw hin

/-- When the function reads past the names. -/
theorem unfmt_outOfBounds {src : List Char} :
    unfmtJobIdString src max = .error .outOfBounds ↔ HasUnknownStep src max := by
  rcases unfmt_spec src max with ⟨hrun, hunknown⟩ | ⟨hknown, hagrees⟩
  · exact iff_of_true hrun hunknown
  · refine iff_of_false (fun hrun => ?_) hknown
    rcases hagrees with ⟨w, -, -, hx⟩ | ⟨⟨stop, hx, hstop⟩, -⟩
    · rw [hx] at hrun
      cases hrun
    · rw [hx, Except.error.injEq] at hrun
      exact hstop hrun

end Slurm.JobId
