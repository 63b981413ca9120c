import Slurm.Depend.RequestContract
import Slurm.Depend.VerdictContract

/-!
# Dependencies that were written down (`slurmctld/job_scheduler.c`)

The text that `_depend_list2str` makes of a list is a request for the entries that are not
fulfilled, one item each.  The items are separated by `'?'` if the entries are OR, which is
not seen any more when one entry is left.

* `dependList2str_items`: the text of a list.
* `saved_read`: what is read of it.
* `updated_congr`: the verdict on two lists.
* `savedContract`: the list is recovered, with its verdict.
-/

namespace Slurm.ArrayDepend

open List

open Slurm.Depend (DependType DependState FedDependSpec Rc noVal infinite u32 dependText
  dependTypeText dependStateText dependListText dependList2str Fulfilled Failed TestedJob
  handleJobDependencyUpdates lower xlateArrayDep)
open Lib.Decimal (IsNumber value)
open Slurm.Bitstring (ValidSize)

variable {isOr : Bool} {deps : List FedDependSpec}

/-! ## The contract -/

/-- An entry of a list: a job that exists and is a local one, or `singleton`. -/
structure Savable (conf : Conf) (table : JobTable) (d : FedDependSpec) : Prop where
  type : d.dependType ≠ .expand
  minutes : ∃ m : Nat, d.dependTime = (60 * m : Nat) ∧ 60 * m < 2 ^ 32
  singleton : d.dependType = .singleton → d.jobId = 0 ∧ d.arrayTaskId = 0 ∧ d.dependTime = 0
  job : d.dependType ≠ .singleton → 0 < d.jobId ∧ d.jobId < 2 ^ 32 ∧ d.arrayTaskId < 2 ^ 32 ∧
    conf.isOriginJobId d.jobId = true ∧ d.jobPtr.isSome ∧
      d.jobPtr = (findDependentJobPtr table d.jobId d.arrayTaskId).1.map (·.jobId)

/-- A job with dependencies that are all AND or all OR. -/
structure Saved where
  conf : Conf
  table : JobTable
  job : JobRecord
  details : Details
  has_details : job.details = some details
  deps : List FedDependSpec
  isOr : Bool
  flags : ∀ d ∈ deps, d.flagsOr = isOr
  distinct : deps.Pairwise fun d d' => sameJob d d' = false
  savable : ∀ d ∈ deps, Savable conf table d

/-- The entries that are not fulfilled. -/
def unfulfilled (deps : List FedDependSpec) : List FedDependSpec :=
  deps.filter fun d => d.dependState ≠ .fulfilled

/-- The entry is recovered. -/
structure Recovers (d d' : FedDependSpec) : Prop where
  type : d'.dependType = d.dependType
  job : d'.jobId = d.jobId
  task : d'.arrayTaskId = d.arrayTaskId
  time : d'.dependTime = d.dependTime
  state : d'.dependState = d.dependState

/-- What `update_job_dependency` must make of the text of the dependencies. -/
def SavedContract (s : Saved) : Prop :=
  ∃ details, updateJobDependency s.conf s.table s.job (dependList2str s.deps) =
      (.success, some details) ∧
    List.Forall₂ Recovers (unfulfilled s.deps) (details.dependList.getD []) ∧
    (¬ Fulfilled s.deps → ∀ tested,
      (handleJobDependencyUpdates tested (details.dependList.getD [])).1 =
        (handleJobDependencyUpdates tested s.deps).1)

/-- The lists that are taken back as they were. -/
structure Saved.Kept (s : Saved) : Prop where
  /-- The number of an array is not that of a job. -/
  whole : ∀ d ∈ unfulfilled s.deps, d.dependType ≠ .singleton → d.arrayTaskId = noVal →
    (findDependentJobPtr s.table d.jobId noVal).1.any (ofArray d.jobId) = false
  singleton : ∀ d ∈ unfulfilled s.deps, d.dependType = .singleton →
    (s.conf.disableRemoteSingleton && !s.conf.isOriginJob) = false
  circle : ¬ Reaches s.table s.job (unfulfilled s.deps)

/-! ## The text of a list -/

/-- The job that an entry is written as. -/
def refOf (d : FedDependSpec) : Ref where
  job := (toString d.jobId).toList
  task :=
    if d.arrayTaskId = infinite then .all
    else if d.arrayTaskId = noVal then .none
    else .one (toString d.arrayTaskId).toList
  minutes := if d.dependTime = 0 then none else some (toString (u32 d.dependTime / 60)).toList
  state := some (dependStateText d.dependState)

/-- The item that an entry is written as. -/
def itemOf (d : FedDependSpec) : Item :=
  if d.dependType = .singleton then .singleton (some (dependStateText d.dependState))
  else .jobs d.dependType (refOf d) []

theorem itemOf_singleton {d : FedDependSpec} (h : d.dependType = .singleton) :
    itemOf d = .singleton (some (dependStateText d.dependState)) := if_pos h

theorem itemOf_jobs {d : FedDependSpec} (h : d.dependType ≠ .singleton) :
    itemOf d = .jobs d.dependType (refOf d) [] := if_neg h

/-- The separator. -/
def sepOf (isOr : Bool) : Char := if isOr then '?' else ','

theorem isSep_sepOf (isOr : Bool) : IsSep (sepOf isOr) := by
  cases isOr with
  | false => exact isSep_comma
  | true => exact isSep_question

theorem taskText_refOf (d : FedDependSpec) :
    taskText (refOf d).task =
      if d.arrayTaskId = infinite then ['_', '*']
      else if d.arrayTaskId = noVal then []
      else '_' :: (toString d.arrayTaskId).toList := by
  show taskText (if _ then _ else _) = _
  by_cases hall : d.arrayTaskId = infinite
  · rw [if_pos hall, if_pos hall]
    rfl
  · rw [if_neg hall, if_neg hall]
    by_cases hnone : d.arrayTaskId = noVal
    · rw [if_pos hnone, if_pos hnone]
      rfl
    · rw [if_neg hnone, if_neg hnone]
      rfl

theorem minutesText_refOf (d : FedDependSpec) :
    minutesText (refOf d).minutes =
      if d.dependTime = 0 then [] else '+' :: (toString (u32 d.dependTime / 60)).toList := by
  show minutesText (if _ then _ else _) = _
  by_cases hzero : d.dependTime = 0
  · rw [if_pos hzero, if_pos hzero]
    rfl
  · rw [if_neg hzero, if_neg hzero]
    rfl

theorem itemOf_text (d : FedDependSpec) : (itemOf d).text = dependText d.toDependSpec := by
  by_cases htype : d.dependType = .singleton
  · unfold itemOf dependText
    rw [if_pos htype, if_pos htype]
    rfl
  · have hdep : dependText d.toDependSpec = dependTypeText d.dependType ++
        ':' :: (toString d.jobId).toList ++ taskText (refOf d).task ++ minutesText (refOf d).minutes ++
          ('(' :: dependStateText d.dependState ++ [')']) := by
      rw [taskText_refOf, minutesText_refOf]
      unfold dependText
      simp only [if_neg htype]
    have hjob : (refOf d).job = (toString d.jobId).toList := rfl
    have hstate : (refOf d).state = some (dependStateText d.dependState) := rfl
    rw [hdep, itemOf_jobs htype, text_jobs]
    simp only [flatMap_cons, flatMap_nil, append_nil, Ref.text, hjob, hstate,
      stateText, append_assoc, cons_append]

/-- The text of entries behind others. -/
theorem dependListText_more (h : ∀ d ∈ deps, d.flagsOr = isOr) :
    (dependListText false [sepOf isOr] (deps.map FedDependSpec.toDependSpec)).1 =
      (unfulfilled deps).flatMap fun d => sepOf isOr :: (itemOf d).text := by
  induction deps with
  | nil => rfl
  | cons d deps ih =>
    obtain ⟨hd, hdeps⟩ := List.forall_mem_cons.mp h
    have hsep : (if d.flagsOr then ['?'] else [',']) = [sepOf isOr] := by
      rw [hd]
      cases isOr <;> rfl
    unfold unfulfilled at ih ⊢
    rw [map_cons, dependListText]
    by_cases hstate : d.dependState = .fulfilled
    · rw [if_pos hstate, filter_cons_of_neg (by simpa using hstate)]
      exact ih hdeps
    · rw [if_neg hstate, filter_cons_of_pos (by simpa using hstate), flatMap_cons,
        itemOf_text]
      simp only [Bool.or_false, hsep, ih hdeps]
      rfl

/-- The text of a list. -/
theorem dependList2str_items (h : ∀ d ∈ deps, d.flagsOr = isOr) :
    (unfulfilled deps = [] ∧ dependList2str deps = none) ∨
      ∃ d more, unfulfilled deps = d :: more ∧
        dependList2str deps = some (itemsText (sepOf isOr) (itemOf d) (more.map itemOf)) := by
  have htext : (dependListText false [] (deps.map FedDependSpec.toDependSpec)).1 =
      match unfulfilled deps with
      | [] => []
      | d :: more => itemsText (sepOf isOr) (itemOf d) (more.map itemOf) := by
    induction deps with
    | nil => rfl
    | cons d deps ih =>
      obtain ⟨hd, hdeps⟩ := List.forall_mem_cons.mp h
      have hsep : (if d.flagsOr then ['?'] else [',']) = [sepOf isOr] := by
        rw [hd]
        cases isOr <;> rfl
      rw [map_cons, dependListText]
      by_cases hstate : d.dependState = .fulfilled
      · have hskip : unfulfilled (d :: deps) = unfulfilled deps :=
          filter_cons_of_neg (by simpa using hstate)
        rw [if_pos hstate, hskip]
        exact ih hdeps
      · have hkeep : unfulfilled (d :: deps) = d :: unfulfilled deps :=
          filter_cons_of_pos (by simpa using hstate)
        rw [if_neg hstate, hkeep]
        simp only [Bool.or_false, hsep, dependListText_more hdeps, nil_append]
        unfold itemsText
        rw [itemOf_text, flatMap_map]
  unfold dependList2str
  simp only [htext]
  cases hkept : unfulfilled deps with
  | nil => exact Or.inl ⟨rfl, rfl⟩
  | cons d more =>
    have hne := itemsText_ne_nil (sepOf isOr) (itemOf d) (more.map itemOf)
    exact Or.inr ⟨d, more, rfl, if_neg hne⟩

/-! ## What is read of the text -/

section Entry

variable {conf : Conf} {table : JobTable} {job : JobRecord} {d : FedDependSpec}

theorem isWord_stateText (state : DependState) : IsWord (dependStateText state) := by
  unfold IsWord dependStateText
  cases state <;> simp

theorem stateOf_stateText {state : DependState} (h : state ≠ .fulfilled) :
    stateOf (some (dependStateText state)) = state := by
  unfold stateOf dependStateText lower
  cases state with
  | fulfilled => exact absurd rfl h
  | notFulfilled => simp
  | failed => simp

theorem minutesOf_refOf (hd : Savable conf table d) :
    ((60 * (refOf d).minutesOf : Nat) : Int) = d.dependTime := by
  obtain ⟨m, htime, hsmall⟩ := hd.minutes
  unfold Ref.minutesOf
  show ((60 * ((if d.dependTime = 0 then none
    else some (toString (u32 d.dependTime / 60)).toList).map value).getD 0 : Nat) : Int) = d.dependTime
  by_cases hzero : d.dependTime = 0
  · rw [if_pos hzero, hzero]
    rfl
  · have hdiv : 60 * m / 60 = m := by omega
    rw [if_neg hzero, Option.map_some, Option.getD_some, value_toString, htime, u32_natCast hsmall,
      hdiv]

theorem taskNumber_refOf (d : FedDependSpec) : taskNumber (refOf d).task = d.arrayTaskId := by
  show taskNumber (if _ then _ else _) = _
  split
  · rename_i hall
    exact hall.symm
  · split
    · rename_i hnone
      exact hnone.symm
    · exact value_toString _

theorem found_refOf (d : FedDependSpec) :
    (refOf d).found table = findDependentJobPtr table d.jobId d.arrayTaskId := by
  unfold Ref.found
  rw [taskNumber_refOf, show value (refOf d).job = d.jobId from value_toString _]

/-- The job that an entry is written as can be read. -/
theorem refOf_valid (hd : Savable conf table d) (htype : d.dependType ≠ .singleton) :
    (refOf d).Valid ∧ (refOf d).task.Plain := by
  obtain ⟨hpos, hjob, htask, -⟩ := hd.job htype
  obtain ⟨m, htime, hsmall⟩ := hd.minutes
  have hvalue : value (refOf d).job = d.jobId := value_toString _
  refine ⟨⟨⟨isNumber_toString _, by omega, by omega⟩, ?_, ?_⟩, ?_⟩
  · intro ds hds
    have hcase : (if d.dependTime = 0 then none
        else some (toString (u32 d.dependTime / 60)).toList) = some ds := hds
    split at hcase
    · cases hcase
    · rename_i hzero
      have hdiv : 60 * m / 60 = m := by omega
      rw [← Option.some.inj hcase, htime, u32_natCast hsmall, hdiv, value_toString]
      refine ⟨isNumber_toString m, ?_, hsmall⟩
      rw [htime] at hzero
      omega
  · intro w hw
    rw [← Option.some.inj hw]
    exact isWord_stateText d.dependState
  · show Task.Plain (if _ then _ else _)
    split
    · trivial
    · split
      · trivial
      · refine ⟨isNumber_toString _, ?_⟩
        rw [value_toString]
        exact htask

/-- The entry as it is recovered. -/
def restored (table : JobTable) (isOr : Bool) (d : FedDependSpec) : FedDependSpec :=
  if d.dependType = .singleton then asksSingleton isOr (some (dependStateText d.dependState))
  else (refOf d).asks table isOr d.dependType

theorem restored_flagsOr (d : FedDependSpec) : (restored table isOr d).flagsOr = isOr := by
  unfold restored
  split <;> rfl

/-- An entry is recovered as it was. -/
theorem restored_recovers (hd : Savable conf table d) (hstate : d.dependState ≠ .fulfilled)
    (hwhole : d.dependType ≠ .singleton → d.arrayTaskId = noVal →
      (findDependentJobPtr table d.jobId noVal).1.any (ofArray d.jobId) = false) (isOr : Bool) :
    Recovers d (restored table isOr d) := by
  unfold restored
  by_cases htype : d.dependType = .singleton
  · obtain ⟨hjob, htask, htime⟩ := hd.singleton htype
    rw [if_pos htype]
    exact ⟨htype.symm, hjob.symm, htask.symm, htime.symm, stateOf_stateText hstate⟩
  · rw [if_neg htype]
    refine ⟨rfl, value_toString _, ?_, minutesOf_refOf hd, stateOf_stateText hstate⟩
    show (refOf d).onTask table = d.arrayTaskId
    unfold Ref.onTask
    rw [found_refOf, taskNumber_refOf]
    apply if_neg
    intro ⟨hnone, hany⟩
    rw [hnone, show value (refOf d).job = d.jobId from value_toString _, hwhole htype hnone] at hany
    exact absurd hany Bool.false_ne_true

/-- The item of an entry makes the entry. -/
theorem entries_itemOf (hd : Savable conf table d) (isOr : Bool) :
    ((itemOf d).entries table).map (setOr isOr) = [restored table isOr d] := by
  unfold itemOf restored
  by_cases htype : d.dependType = .singleton
  · rw [if_pos htype, if_pos htype, ← setOr_singleton]
    rfl
  · obtain ⟨-, -, -, -, hsome, hptr⟩ := hd.job htype
    have hexists : ((refOf d).found table).1.isSome := by
      rw [found_refOf, ← Option.isSome_map, ← hptr]
      exact hsome
    rw [if_neg htype, if_neg htype, ← setOr_entry hexists (refOf_valid hd htype).1]
    rfl

theorem sameJob_congr {a b a' b' : FedDependSpec} (ha : Recovers a a') (hb : Recovers b b') :
    sameJob a' b' = sameJob a b := by
  unfold sameJob
  rw [ha.type, ha.job, ha.task, hb.type, hb.job, hb.task]

theorem sameJob_comm (a b : FedDependSpec) : sameJob a b = sameJob b a := by
  unfold sameJob
  rw [decide_eq_decide]
  constructor
  · intro ⟨htype, hjob, htask⟩
    exact ⟨htype.symm, hjob.symm, htask.symm⟩
  · intro ⟨htype, hjob, htask⟩
    exact ⟨htype.symm, hjob.symm, htask.symm⟩

theorem not_bracket_itemOf (hd : Savable conf table d) : '[' ∉ (itemOf d).text := by
  by_cases htype : d.dependType = .singleton
  · have hword : '[' ∉ dependStateText d.dependState :=
      fun hmem => absurd (isWord_stateText _ _ hmem) (by decide)
    rw [itemOf_singleton htype]
    unfold Item.text stateText
    simpa using hword
  · obtain ⟨hvalid, hplain⟩ := refOf_valid hd htype
    have htask : '[' ∉ taskText (refOf d).task := by
      cases hcase : (refOf d).task with
      | none => simp [taskText]
      | all => simp [taskText]
      | one digits =>
        rw [hcase] at hplain
        simpa [taskText] using not_bracket_of_digit hplain.1
      | list text =>
        rw [hcase] at hplain
        exact hplain.elim
    have hrefs : '[' ∉ [refOf d].flatMap fun r => ':' :: r.text := by
      rw [flatMap_cons, flatMap_nil, append_nil, mem_cons, not_or]
      exact ⟨by decide, not_bracket_text hvalid htask⟩
    rw [itemOf_jobs htype, text_jobs, mem_append, not_or]
    exact ⟨not_bracket_typeText d.dependType, hrefs⟩

end Entry

section Saved

variable {s : Saved}

theorem mem_unfulfilled {d : FedDependSpec} :
    d ∈ unfulfilled deps ↔ d ∈ deps ∧ d.dependState ≠ .fulfilled := by
  unfold unfulfilled
  simp

/-- The items of the entries can be read. -/
theorem Saved.Kept.ready (h : s.Kept) {d : FedDependSpec} (hd : d ∈ unfulfilled s.deps) :
    (itemOf d).Ready s.conf s.table s.job := by
  have hsavable := s.savable d (mem_unfulfilled.mp hd).1
  unfold itemOf
  by_cases htype : d.dependType = .singleton
  · rw [if_pos htype]
    refine ⟨?_, h.singleton d hd htype⟩
    intro w hw
    rw [← Option.some.inj hw]
    exact isWord_stateText d.dependState
  · obtain ⟨hpos, -, -, horigin, hsome, hptr⟩ := hsavable.job htype
    obtain ⟨hvalid, hplain⟩ := refOf_valid hsavable htype
    rw [if_neg htype]
    refine ⟨htype, fun hexpand => absurd hexpand hsavable.type, ?_, pairwise_singleton _ _⟩
    intro r hr
    rw [mem_singleton] at hr
    subst hr
    have hvalue : value (refOf d).job = d.jobId := value_toString _
    refine ⟨hvalid, hplain, ⟨?_, ?_, hvalue ▸ horigin, fun hexpand => absurd hexpand hsavable.type⟩⟩
    · rw [found_refOf, ← Option.isSome_map, ← hptr]
      exact hsome
    · obtain ⟨ptr, hfound⟩ := Option.isSome_iff_exists.mp hsome
      have htask : (findDependentJobPtr s.table d.jobId d.arrayTaskId).2 = d.arrayTaskId := by
        by_cases hnone : d.arrayTaskId = noVal
        · have hwhole := h.whole d hd htype hnone
          unfold findDependentJobPtr at hwhole ⊢
          simp only [hnone, if_true] at hwhole ⊢
          simp [hwhole]
        · unfold findDependentJobPtr
          rw [if_neg hnone]
      rw [found_refOf, htask, hvalue, ← hptr, hfound, Bool.eq_false_iff]
      intro hsame
      exact h.circle (.here hd (by omega) hfound hsame)

/-- What is read of the text of entries that are not fulfilled. -/
theorem Saved.Kept.readRequest (h : s.Kept) {d : FedDependSpec} {more : List FedDependSpec}
    (hkept : unfulfilled s.deps = d :: more) :
    ∃ request, readRequest s.conf s.table s.job
        (itemsText (sepOf s.isOr) (itemOf d) (more.map itemOf)) =
          (.success, request, s.isOr && !more.isEmpty) ∧
      ∀ isOr, request.dependList.map (setOr isOr) = (d :: more).map (restored s.table isOr) := by
  have hsavable : ∀ e ∈ d :: more, Savable s.conf s.table e ∧ e.dependState ≠ .fulfilled := by
    intro e he
    rw [← hkept] at he
    exact (mem_unfulfilled.mp he).imp_left (s.savable e)
  have hplain : '[' ∉ itemsText (sepOf s.isOr) (itemOf d) (more.map itemOf) := by
    have hsep : '[' ≠ sepOf s.isOr := by
      unfold sepOf
      split <;> decide
    have hitems : ∀ e ∈ d :: more, '[' ∉ (itemOf e).text :=
      fun e he => not_bracket_itemOf (hsavable e he).1
    unfold itemsText
    simp only [mem_append, mem_flatMap, mem_map, mem_cons, not_or, not_exists,
      not_and, forall_exists_index, and_imp, forall_apply_eq_imp_iff₂]
    exact ⟨hitems d mem_cons_self, fun e he => ⟨hsep, hitems e (mem_cons_of_mem d he)⟩⟩
  have htext : (xlateArrayDep s.conf.bitUnfmt
      (itemsText (sepOf s.isOr) (itemOf d) (more.map itemOf))).getD
        (itemsText (sepOf s.isOr) (itemOf d) (more.map itemOf)) =
      itemsText (sepOf s.isOr) (itemOf d) (more.map itemOf) := by
    have hend : ([] : List Char).head? ≠ some '[' := nofun
    obtain ⟨p, hcopy⟩ := xlateLoop_copy s.conf.bitUnfmt hplain hend none []
    rw [append_nil] at hcopy
    exact xlateArrayDep_getD hcopy
  have hready : ∀ i ∈ itemOf d :: more.map itemOf, i.Ready s.conf s.table s.job := by
    intro i hi
    rw [← map_cons] at hi
    obtain ⟨e, he, rfl⟩ := List.mem_map.mp hi
    exact h.ready (hkept ▸ he)
  have hstates : StatesFirst ((itemOf d :: more.map itemOf).flatMap Item.states) := by
    apply pairwise_of_forall_mem_list
    intro a ha b _ hnone
    rw [← map_cons] at ha
    obtain ⟨i, hi, ha⟩ := List.mem_flatMap.mp ha
    obtain ⟨e, -, rfl⟩ := List.mem_map.mp hi
    have hsome : a = some (dependStateText e.dependState) := by
      unfold itemOf at ha
      split at ha
      · simpa [Item.states] using ha
      · simpa [Item.states, refOf] using ha
    rw [hsome] at hnone
    cases hnone
  have hfuel : (more.map itemOf).length <
      (itemsText (sepOf s.isOr) (itemOf d) (more.map itemOf)).length + 1 := by
    have hle := length_le_flatMap (more.map itemOf) (sepOf s.isOr) Item.text
    unfold itemsText
    rw [length_append]
    omega
  have hloop := readLoop_items (isSep_sepOf s.isOr) hfuel hready hstates ⟨[], none⟩ false
  refine ⟨(itemOf d :: more.map itemOf).foldl (Request.addItem s.table) ⟨[], none⟩, ?_, ?_⟩
  · have hor : decide (sepOf s.isOr = '?') = s.isOr := by
      cases s.isOr <;> rfl
    unfold ArrayDepend.readRequest
    rw [htext, hloop, hor, Bool.false_or, isEmpty_map]
  · have hentries (isOr : Bool) :
        (((itemOf d :: more.map itemOf).flatMap (Item.entries s.table)).map (setOr isOr)) =
          (d :: more).map (restored s.table isOr) := by
      rw [← map_cons, flatMap_map, map_flatMap]
      calc (d :: more).flatMap (fun e => ((itemOf e).entries s.table).map (setOr isOr))
          = (d :: more).flatMap fun e => [restored s.table isOr e] :=
            flatMap_congr fun e he => entries_itemOf (hsavable e he).1 isOr
        _ = (d :: more).map (restored s.table isOr) := List.map_eq_flatMap.symm
    have hdistinct : ((itemOf d :: more.map itemOf).flatMap (Item.entries s.table)).Pairwise
        fun a b => findDependency a b = false := by
      have hrestored : ((d :: more).map (restored s.table false)).Pairwise
          fun a b => sameJob b a = false := by
        rw [pairwise_map, ← hkept]
        refine (s.distinct.sublist filter_sublist).imp_of_mem ?_
        intro a b ha hb hab
        have hrec : ∀ e ∈ unfulfilled s.deps, Recovers e (restored s.table false e) := by
          intro e he
          obtain ⟨hmem, hstate⟩ := mem_unfulfilled.mp he
          exact restored_recovers (s.savable e hmem) hstate (h.whole e he) false
        rw [sameJob_congr (hrec b hb) (hrec a ha), sameJob_comm]
        exact hab
      rw [← hentries, pairwise_map] at hrestored
      exact hrestored.imp fun hab => by rwa [findDependency_setOr] at hab
    have hadd : addDependencyToList = fun (l : List FedDependSpec) d =>
        if l.any (findDependency · d) then l else l ++ [d] := rfl
    intro isOr
    rw [addItems_dependList, hadd, Lib.FirstMatch.foldl_absent_distinct
      (r := fun (d kept : FedDependSpec) => findDependency kept d) hdistinct]
    exact hentries isOr

end Saved

/-! ## The verdict -/

/-- Lists of one kind that are fulfilled and fail alike have the same verdict. -/
theorem updated_congr {deps' : List FedDependSpec}
    (h : (∀ d ∈ deps, d.flagsOr = false) ∨ ∀ d ∈ deps, d.flagsOr = true)
    (h' : (∀ d ∈ deps', d.flagsOr = false) ∨ ∀ d ∈ deps', d.flagsOr = true)
    (hfulfilled : Fulfilled deps ↔ Fulfilled deps') (hfailed : Failed deps ↔ Failed deps')
    (tested : TestedJob) :
    (handleJobDependencyUpdates tested deps).1 = (handleJobDependencyUpdates tested deps').1 := by
  obtain ⟨hful, hfail⟩ := Depend.verdict_iff h
  obtain ⟨hful', hfail'⟩ := Depend.verdict_iff h'
  rw [Depend.handleJobDependencyUpdates_updated, Depend.handleJobDependencyUpdates_updated]
  by_cases hall : Fulfilled deps
  · rw [if_pos (hful.mpr hall), if_pos (hful'.mpr (hfulfilled.mp hall))]
  · have hall' : ¬ Fulfilled deps' := fun hcase => hall (hfulfilled.mpr hcase)
    rw [if_neg fun hcase => hall (hful.mp hcase), if_neg fun hcase => hall' (hful'.mp hcase)]
    by_cases hbad : Failed deps
    · rw [if_pos (hfail.mp hbad).2, if_pos (hfail'.mp (hfailed.mp hbad)).2]
    · have hbad' : ¬ Failed deps' := fun hcase => hbad (hfailed.mpr hcase)
      rw [if_neg fun hcase => hbad (hfail.mpr ⟨hall, hcase⟩),
        if_neg fun hcase => hbad' (hfail'.mpr ⟨hall', hcase⟩)]

theorem fulfilled_and (h : ∀ d ∈ deps, d.flagsOr = false) :
    (Fulfilled deps ↔ ∀ d ∈ deps, d.dependState = .fulfilled) ∧
      (Failed deps ↔ ∃ d ∈ deps, d.dependState = .failed) := by
  have hany : ¬ deps.any (·.flagsOr) = true := by simpa using h
  unfold Fulfilled Failed
  rw [if_neg hany, if_neg hany]
  exact ⟨Iff.rfl, Iff.rfl⟩

theorem fulfilled_or (hne : deps ≠ []) (h : ∀ d ∈ deps, d.flagsOr = true) :
    (Fulfilled deps ↔ ∃ d ∈ deps, d.dependState = .fulfilled) ∧
      (Failed deps ↔ ∀ d ∈ deps, d.dependState = .failed) := by
  obtain ⟨d, hd⟩ := List.exists_mem_of_ne_nil deps hne
  have hany : deps.any (·.flagsOr) = true := List.any_eq_true.mpr ⟨d, hd, h d hd⟩
  unfold Fulfilled Failed
  rw [if_pos hany, if_pos hany]
  exact ⟨Iff.rfl, Iff.rfl⟩

/-- The entries that are left of a list that is not fulfilled have its verdict, and are OR only if
there are several. -/
theorem unfulfilled_verdict (h : ∀ d ∈ deps, d.flagsOr = isOr) (hnot : ¬ Fulfilled deps)
    {f : FedDependSpec → FedDependSpec}
    (hf : ∀ d ∈ unfulfilled deps, (f d).dependState = d.dependState ∧
      (f d).flagsOr = (isOr && decide (1 < (unfulfilled deps).length))) :
    (Fulfilled ((unfulfilled deps).map f) ↔ Fulfilled deps) ∧
      (Failed ((unfulfilled deps).map f) ↔ Failed deps) := by
  have hstate : ∀ d ∈ unfulfilled deps, (f d).dependState = d.dependState := fun d hd => (hf d hd).1
  have hexists (state : DependState) : (∃ e ∈ (unfulfilled deps).map f, e.dependState = state) ↔
      ∃ d ∈ unfulfilled deps, d.dependState = state := by
    simp only [mem_map, exists_exists_and_eq_and]
    exact exists_congr fun d => and_congr_right fun hd => by rw [hstate d hd]
  have hforall (state : DependState) : (∀ e ∈ (unfulfilled deps).map f, e.dependState = state) ↔
      ∀ d ∈ unfulfilled deps, d.dependState = state := by
    rw [forall_mem_map]
    exact forall₂_congr fun d hd => by rw [hstate d hd]
  cases isOr with
  | false =>
    have hflags : ∀ e ∈ (unfulfilled deps).map f, e.flagsOr = false := by
      intro e he
      obtain ⟨d, hd, rfl⟩ := List.mem_map.mp he
      exact (hf d hd).2
    rw [(fulfilled_and h).1] at hnot
    rw [(fulfilled_and h).1, (fulfilled_and h).2, (fulfilled_and hflags).1, (fulfilled_and hflags).2,
      hforall, hexists]
    constructor
    · refine iff_of_false (fun hall => hnot fun d hd => ?_) hnot
      by_contra hcase
      exact hcase (hall d (mem_unfulfilled.mpr ⟨hd, hcase⟩))
    · constructor
      · intro ⟨d, hd, hfailed⟩
        exact ⟨d, (mem_unfulfilled.mp hd).1, hfailed⟩
      · intro ⟨d, hd, hfailed⟩
        exact ⟨d, mem_unfulfilled.mpr ⟨hd, by rw [hfailed]; exact nofun⟩, hfailed⟩
  | true =>
    have hne : deps ≠ [] := by
      intro hnil
      apply hnot
      rw [hnil]
      simp [Fulfilled]
    rw [(fulfilled_or hne h).1] at hnot
    have hall : unfulfilled deps = deps := by
      apply List.filter_eq_self.mpr
      intro d hd
      simpa using fun hcase => hnot ⟨d, hd, hcase⟩
    rw [hall] at hf hstate hexists hforall ⊢
    rw [(fulfilled_or hne h).1, (fulfilled_or hne h).2]
    by_cases hlong : 1 < deps.length
    · have hflags : ∀ e ∈ deps.map f, e.flagsOr = true := by
        intro e he
        obtain ⟨d, hd, rfl⟩ := List.mem_map.mp he
        rw [(hf d hd).2]
        simpa using hlong
      have hne' : deps.map f ≠ [] := by simpa using hne
      rw [(fulfilled_or hne' hflags).1, (fulfilled_or hne' hflags).2]
      exact ⟨hexists .fulfilled, hforall .failed⟩
    · obtain ⟨d, rfl⟩ : ∃ d, deps = [d] := List.length_eq_one_iff.mp (by
        have hpos := length_pos_of_ne_nil hne
        omega)
      have hflags : ∀ e ∈ [f d], e.flagsOr = false := by
        intro e he
        rw [List.mem_singleton.mp he, (hf d mem_cons_self).2]
        simp
      have hstate' := hstate d mem_cons_self
      rw [map_singleton, (fulfilled_and hflags).1, (fulfilled_and hflags).2]
      simp [hstate']

/-! ## The list is recovered -/

/-- Lists that are taken back as they were are recovered, with the verdict on them. -/
theorem savedContract (s : Saved) (h : s.Kept) : SavedContract s := by
  have hkind : (∀ d ∈ s.deps, d.flagsOr = false) ∨ ∀ d ∈ s.deps, d.flagsOr = true := by
    have hflags := s.flags
    cases hor : s.isOr with
    | false =>
      rw [hor] at hflags
      exact Or.inl hflags
    | true =>
      rw [hor] at hflags
      exact Or.inr hflags
  rcases dependList2str_items s.flags with ⟨hkept, htext⟩ | ⟨d, more, hkept, htext⟩
  · unfold SavedContract updateJobDependency
    rw [s.has_details, htext]
    refine ⟨_, rfl, ?_, fun hnot tested => ?_⟩
    · rw [hkept]
      exact .nil
    · have hsame := unfulfilled_verdict s.flags hnot (f := id) (by simp [hkept])
      rw [hkept] at hsame
      exact updated_congr (Or.inl fun d hd => absurd hd List.not_mem_nil) hkind hsame.1 hsame.2 tested
  · obtain ⟨request, hread, hlist⟩ := h.readRequest hkept
    have hrecovers (isOr : Bool) : ∀ e ∈ d :: more, Recovers e (restored s.table isOr e) := by
      intro e he
      rw [← hkept] at he
      obtain ⟨hmem, hstate⟩ := mem_unfulfilled.mp he
      exact restored_recovers (s.savable e hmem) hstate (h.whole e he) isOr
    have hcircle : circular s.conf s.table s.job request.dependList = false := by
      rw [Bool.eq_false_iff]
      intro hcircular
      apply h.circle
      refine (circular_reaches hcircular).congr fun x hx hjob => ?_
      have hmem : setOr false x ∈ (d :: more).map (restored s.table false) := by
        rw [← hlist false]
        exact List.mem_map_of_mem hx
      obtain ⟨e, he, heq⟩ := List.mem_map.mp hmem
      obtain ⟨hid, hptr, htask⟩ := setOr_job false x
      rw [← heq] at hid hptr htask
      have hrec := hrecovers false e he
      refine ⟨e, hkept ▸ he, hrec.job.symm.trans hid, ?_, hrec.task.symm.trans htask⟩
      rw [← hptr]
      have hsavable := s.savable e (mem_unfulfilled.mp (hkept ▸ he)).1
      have htype : e.dependType ≠ .singleton := by
        intro hsingleton
        apply hjob
        rw [← hid, hrec.job, (hsavable.singleton hsingleton).1]
      rw [(hsavable.job htype).2.2.2.2.2]
      unfold restored
      rw [if_neg htype]
      show _ = ((refOf e).found s.table).1.map _
      rw [found_refOf]
    unfold SavedContract updateJobDependency
    rw [s.has_details, htext]
    simp only [itemsText_not_empty, Bool.false_eq_true, if_false, hread, hcircle, ne_eq,
      not_true_eq_false]
    refine ⟨_, rfl, ?_, fun hnot tested => ?_⟩
    · unfold Details.setDepends
      simp only [hlist, Option.getD_some, hkept]
      rw [List.forall₂_map_right_iff]
      exact List.forall₂_same.mpr fun e he => hrecovers _ e he
    · unfold Details.setDepends
      simp only [hlist, Option.getD_some]
      have hflags : ∀ e ∈ unfulfilled s.deps,
          (restored s.table (s.isOr && !more.isEmpty) e).dependState = e.dependState ∧
            (restored s.table (s.isOr && !more.isEmpty) e).flagsOr =
              (s.isOr && decide (1 < (unfulfilled s.deps).length)) := by
        intro e he
        have hlength : decide (1 < (unfulfilled s.deps).length) = !more.isEmpty := by
          rw [hkept]
          cases more <;> simp
        rw [hlength, restored_flagsOr]
        exact ⟨(hrecovers _ e (hkept ▸ he)).state, rfl⟩
      have hsame := unfulfilled_verdict s.flags hnot hflags
      rw [hkept] at hsame
      refine updated_congr ?_ hkind hsame.1 hsame.2 tested
      have hall : ∀ x ∈ (d :: more).map (restored s.table (s.isOr && !more.isEmpty)),
          x.flagsOr = (s.isOr && !more.isEmpty) := by
        intro x hx
        obtain ⟨e, -, rfl⟩ := List.mem_map.mp hx
        exact restored_flagsOr e
      cases hor : (s.isOr && !more.isEmpty) with
      | false =>
        rw [hor] at hall
        exact Or.inl hall
      | true =>
        rw [hor] at hall
        exact Or.inr hall

/-! ## Lists of three jobs -/

/-- The list of the first job, whose entries are all AND. -/
def savedByFirst (conf : Conf) (table : JobTable) (deps : List FedDependSpec)
    (hflags : ∀ d ∈ deps, d.flagsOr = false)
    (hdistinct : deps.Pairwise fun d d' => sameJob d d' = false)
    (hsavable : ∀ d ∈ deps, Savable conf table d) : Saved where
  conf := conf
  table := table
  job := pendingJob 1 none
  details := { dependency := none, dependList := none, expandingJobid := 0 }
  has_details := firstJob_details
  deps := deps
  isOr := false
  flags := hflags
  distinct := hdistinct
  savable := hsavable

/-- `after:2` -/
def onSecond : FedDependSpec :=
  newDep .after .notFulfilled 0 2 noVal (some (pendingJob 2 none)) false

/-- `afterok:3+5(failed)` -/
def onThird : FedDependSpec := newDep .afterOk .failed 300 3 noVal (some (pendingJob 3 none)) false

def onSecondDone : FedDependSpec := { onSecond with dependState := .fulfilled }

/-- Remote singletons are disabled, and the origin of the job is another cluster. -/
def remoteConf : Conf := { threeJobsConf with disableRemoteSingleton := true, isOriginJob := false }

/-- The second job is an array of pending tasks. -/
def arrayJob : JobRecord :=
  { pendingJob 2 none with arrayJobId := 2, arrayRecs := some { taskIdBitmap := none } }

theorem arrayTable_meta : ∀ r ∈ [pendingJob 1 none, arrayJob], r.arrayRecs.isSome →
    r.jobId = r.arrayJobId := by
  intro r hr hsome
  simp at hr
  rcases hr with rfl | rfl
  · simp [pendingJob] at hsome
  · rfl

def arrayTable : JobTable where
  jobs := [pendingJob 1 none, arrayJob]
  meta_id := arrayTable_meta

theorem savable_onSecond (deps : Option (List FedDependSpec)) :
    Savable threeJobsConf (threeJobs deps) onSecond where
  type := nofun
  minutes := ⟨0, rfl, by decide⟩
  singleton := nofun
  job := fun _ => ⟨by decide, by decide, by decide, rfl, rfl, rfl⟩

theorem savable_array : Savable threeJobsConf arrayTable onSecond where
  type := nofun
  minutes := ⟨0, rfl, by decide⟩
  singleton := nofun
  job := fun _ => ⟨by decide, by decide, by decide, rfl, rfl, rfl⟩

theorem savable_onThird : Savable threeJobsConf (threeJobs none) onThird where
  type := nofun
  minutes := ⟨5, rfl, by decide⟩
  singleton := nofun
  job := fun _ => ⟨by decide, by decide, by decide, rfl, rfl, rfl⟩

theorem savable_singleton (conf : Conf) (table : JobTable) :
    Savable conf table (newSingleton .notFulfilled) where
  type := nofun
  minutes := ⟨0, rfl, by decide⟩
  singleton := fun _ => ⟨rfl, rfl, rfl⟩
  job := fun h => absurd rfl h

theorem flags_single {d : FedDependSpec} (h : d.flagsOr = false) : ∀ e ∈ [d], e.flagsOr = false := by
  intro e he
  rw [mem_singleton] at he
  rw [he]
  exact h

theorem savable_single {conf : Conf} {table : JobTable} {d : FedDependSpec}
    (h : Savable conf table d) : ∀ e ∈ [d], Savable conf table e := by
  intro e he
  rw [mem_singleton] at he
  rw [he]
  exact h

theorem distinct_single (d : FedDependSpec) : [d].Pairwise fun d d' => sameJob d d' = false :=
  pairwise_singleton _ d

/-- The second job runs after the first. -/
def circleSaved : Saved :=
  savedByFirst threeJobsConf (threeJobs (some secondAfterFirst)) [onSecond] (flags_single rfl)
    (distinct_single _) (savable_single (savable_onSecond _))

def arraySaved : Saved :=
  savedByFirst threeJobsConf arrayTable [onSecond] (flags_single rfl) (distinct_single _)
    (savable_single savable_array)

def singletonSaved : Saved :=
  savedByFirst remoteConf (threeJobs none) [newSingleton .notFulfilled] (flags_single rfl)
    (distinct_single _) (savable_single (savable_singleton _ _))

/-- A list that leads back to the job is refused, an array is depended on as a whole, and a
singleton is left out where it does not count. -/
theorem saved_fail :
    ¬ SavedContract circleSaved ∧ ¬ SavedContract arraySaved ∧ ¬ SavedContract singletonSaved := by
  refine ⟨?_, ?_, ?_⟩
  · intro ⟨details, heq, _⟩
    have hrc : (updateJobDependency circleSaved.conf circleSaved.table circleSaved.job
        (dependList2str circleSaved.deps)).1 = .circularDependency := by
      decide
    have hsuccess : Rc.circularDependency = Rc.success := hrc.symm.trans (congrArg Prod.fst heq)
    exact absurd hsuccess (by decide)
  · intro ⟨details, heq, hlist, _⟩
    have hread : ((updateJobDependency arraySaved.conf arraySaved.table arraySaved.job
        (dependList2str arraySaved.deps)).2.bind Details.dependList).map
          (List.map fun d => d.arrayTaskId) = some [infinite] := by
      decide
    rw [heq, Option.bind_some] at hread
    obtain ⟨deps, hdeps, htasks⟩ := Option.map_eq_some_iff.mp hread
    rw [hdeps, Option.getD_some] at hlist
    have hkept : unfulfilled arraySaved.deps = [onSecond] := rfl
    rw [hkept] at hlist
    cases hlist with
    | cons hrecovers hnil =>
      obtain ⟨htask, -⟩ := List.cons.inj htasks
      exact absurd (hrecovers.task.symm.trans htask) (by decide)
  · intro ⟨details, heq, hlist, _⟩
    have hread : ((updateJobDependency singletonSaved.conf singletonSaved.table singletonSaved.job
        (dependList2str singletonSaved.deps)).2.bind Details.dependList).map List.length = some 0 := by
      decide
    rw [heq, Option.bind_some] at hread
    obtain ⟨deps, hdeps, hlength⟩ := Option.map_eq_some_iff.mp hread
    rw [hdeps, Option.getD_some] at hlist
    rw [← hlist.length_eq] at hlength
    exact absurd hlength (by decide)

theorem flags_three : ∀ d ∈ [onThird, onSecondDone, newSingleton .notFulfilled],
    d.flagsOr = false := by
  decide

theorem distinct_three : [onThird, onSecondDone, newSingleton .notFulfilled].Pairwise
    fun d d' => sameJob d d' = false := by
  decide

theorem savable_three : ∀ d ∈ [onThird, onSecondDone, newSingleton .notFulfilled],
    Savable threeJobsConf (threeJobs none) d := by
  intro d hd
  simp only [mem_cons, not_mem_nil, or_false] at hd
  rcases hd with rfl | rfl | rfl
  · exact savable_onThird
  · have h := savable_onSecond none
    exact ⟨h.type, h.minutes, h.singleton, h.job⟩
  · exact savable_singleton _ _

/-- `afterok:3+5(failed),singleton(unfulfilled)`, where `after:2` is fulfilled. -/
def okSaved : Saved :=
  savedByFirst threeJobsConf (threeJobs none) [onThird, onSecondDone, newSingleton .notFulfilled]
    flags_three distinct_three savable_three

theorem savedContract_okSaved : SavedContract okSaved := by
  have hjobs : ∀ d ∈ unfulfilled okSaved.deps, d.dependType = .singleton ∧ d.jobId = 0 ∨
      (d.jobPtr ≠ some okSaved.job.jobId ∧ d.arrayTaskId ≠ infinite) ∧
        (findDependentJobPtr okSaved.table d.jobId noVal).1.any (ofArray d.jobId) = false := by
    decide
  apply savedContract
  refine ⟨?_, fun _ _ _ => rfl, ?_⟩
  · intro d hd htype _
    exact ((hjobs d hd).resolve_left fun hcase => htype hcase.1).2
  · apply not_reaches
    · intro d hd hjob
      exact ((hjobs d hd).resolve_left fun hcase => hjob hcase.2).1
    · decide

end Slurm.ArrayDepend
