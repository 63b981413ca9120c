import Slurm.Depend.Scan
import Slurm.Lib.Run

/-!
# Reading a request

* `readRequest_rc`: reading does not fail as circular.
* `parseNew_fuel` and `readLoop_fuel`: the bounds of the two loops are no bounds, since what is
  left of the text gets shorter.
-/

namespace Slurm.Depend

open Nat

variable {conf : Conf} {jobs : Jobs} {job : Nat} {rec : Job} {dependType : DependType}

/-! ## Return codes -/

theorem parseJobid_rc (expandCnt : Nat) (time : Int) (request : Request) (s : List Char) :
    (parseJobid jobs job rec dependType expandCnt time request s).1.rc ≠ .circularDependency := by
  unfold parseJobid
  simp only
  split
  · exact Rc.noConfusion
  split
  · exact Rc.noConfusion
  split
  · exact Rc.noConfusion
  split
  · exact Rc.noConfusion
  split
  · exact Rc.noConfusion
  split <;> exact Rc.noConfusion

theorem parseNew_rc (fuel expandCnt : Nat) (time : Int) (request : Request) (s : List Char) :
    (parseDependencyJobidNew jobs job rec dependType fuel expandCnt time request s).rc ≠
      .circularDependency := by
  induction fuel generalizing expandCnt time request s with
  | zero => exact Rc.noConfusion
  | succ fuel ih =>
    have hone := @parseJobid_rc jobs job rec dependType expandCnt time request s
    rw [parseDependencyJobidNew]
    simp only
    split
    · exact hone
    split
    · exact ih _ _ _ _
    · exact hone

theorem parseOld_rc (request : Request) (tok : List Char) :
    (parseDependencyJobidOld jobs job request tok).rc ≠ .circularDependency := by
  unfold parseDependencyJobidOld
  simp only
  split
  · exact Rc.noConfusion
  split <;> exact Rc.noConfusion

theorem dependTypeOf_error {tok : List Char} {rc : Rc} (h : dependTypeOf conf tok = .error rc) :
    rc ≠ .circularDependency := by
  rintro rfl
  unfold dependTypeOf at h
  simp only [apply_ite (· = Except.error Rc.circularDependency)] at h
  simp at h

/-! ## What is left of the text -/

theorem length_strtolSign (t : List Char) : (strtolSign t).2.length ≤ t.length := by
  unfold strtolSign
  split
  · exact le_succ _
  · exact le_succ _
  · exact le_rfl

theorem length_strtol (s : List Char) : (strtol s).2.length ≤ s.length := by
  have hsign := (length_strtolSign (s.dropWhile isSpace)).trans (List.length_dropWhile_le _ _)
  unfold strtol
  simp only
  split
  · exact le_rfl
  · exact (List.length_dropWhile_le _ _).trans hsign

theorem length_parseJobRef (s : List Char) : (parseJobRef s).2.2.length ≤ s.length := by
  have hs := length_strtol s
  unfold parseJobRef
  split
  · rename_i v rest h
    rw [h] at hs
    exact (Nat.le_add_right _ 2).trans hs
  · rename_i v rest _ h
    rw [h] at hs
    exact (length_strtol rest).trans ((le_succ _).trans hs)
  · rename_i v tmp _ _ h
    rw [h] at hs
    exact hs

theorem length_parseDependTime {time time' : Int} {tmp rest : List Char}
    (h : parseDependTime time tmp = some (time', rest)) : rest.length ≤ tmp.length := by
  unfold parseDependTime at h
  split at h
  · rename_i rest'
    simp only at h
    split at h
    · cases h
    · cases h
      exact (length_strtol rest').trans (le_succ _)
  · cases h
    exact le_rfl

theorem length_parseDependState {s rest : List Char} {state : DependState}
    (h : parseDependState s = some (state, rest)) : rest.length ≤ s.length := by
  unfold parseDependState at h
  split at h
  · split at h
    · obtain ⟨-, rfl⟩ := Prod.mk.inj (Option.some.inj h)
      rw [List.length_tail]
      exact (sub_le _ _).trans (List.length_dropWhile_le _ _)
    · cases h
  · obtain ⟨-, rfl⟩ := Prod.mk.inj (Option.some.inj h)
    exact le_rfl

theorem length_parseJobid (expandCnt : Nat) (time : Int) (request : Request) (s : List Char) :
    (parseJobid jobs job rec dependType expandCnt time request s).1.rest.length ≤ s.length := by
  have href := length_parseJobRef s
  unfold parseJobid
  generalize parseJobRef s = ref at href ⊢
  obtain ⟨jobId, arrayTaskId, tmp⟩ := ref
  simp only at href ⊢
  split
  · exact href
  split
  · exact href
  split
  · exact href
  split
  · exact href
  split
  · exact href
  · rename_i time' tmp' htime
    have htmp := (length_parseDependTime htime).trans href
    split
    · exact htmp
    · rename_i hstate
      exact (length_parseDependState hstate).trans htmp

theorem length_parseNew (fuel expandCnt : Nat) (time : Int) (request : Request) (s : List Char) :
    (parseDependencyJobidNew jobs job rec dependType fuel expandCnt time request s).rest.length ≤
      s.length := by
  induction fuel generalizing expandCnt time request s with
  | zero => exact le_rfl
  | succ fuel ih =>
    have hone := @length_parseJobid jobs job rec dependType expandCnt time request s
    rw [parseDependencyJobidNew]
    simp only
    split
    · exact hone
    split
    · rename_i rest hrest
      rw [hrest] at hone
      exact (ih _ _ _ rest).trans ((le_succ _).trans hone)
    · exact hone

/-- The bound of the loop over the job ids is none. -/
theorem parseNew_fuel {fuel fuel' : Nat} (expandCnt : Nat) (time : Int) (request : Request)
    (s : List Char) (h : s.length < fuel) (h' : s.length < fuel') :
    parseDependencyJobidNew jobs job rec dependType fuel expandCnt time request s =
      parseDependencyJobidNew jobs job rec dependType fuel' expandCnt time request s := by
  induction fuel generalizing fuel' expandCnt time request s with
  | zero => exact absurd h (Nat.not_lt_zero _)
  | succ fuel ih =>
    cases fuel' with
    | zero => exact absurd h' (Nat.not_lt_zero _)
    | succ fuel' =>
      have hone := @length_parseJobid jobs job rec dependType expandCnt time request s
      rw [parseDependencyJobidNew, parseDependencyJobidNew]
      simp only
      split
      · rfl
      split
      · rename_i rest hrest
        rw [hrest, List.length_cons] at hone
        exact ih _ _ _ rest (by omega) (by omega)
      · rfl

theorem length_parseOld (request : Request) (tok : List Char) :
    (parseDependencyJobidOld jobs job request tok).rest.length ≤ tok.length := by
  have href := length_parseJobRef tok
  unfold parseDependencyJobidOld
  simp only
  split
  · exact href
  split <;> exact href

/-- How a specification may end: not as circular, or with a shorter text. -/
def Next.Proceeds (length : Nat) : Next → Prop
  | .stop rc => rc ≠ .circularDependency
  | .go _ tok => tok.length < length

theorem readSpec_proceeds (request : Request) (tok : List Char) :
    (readSpec conf jobs job rec request tok).2.Proceeds tok.length := by
  unfold readSpec
  split
  · split
    · exact Rc.noConfusion
    · rename_i state tok' hstate
      have hlen := (length_parseDependState hstate).trans (tok.drop_sublist 9).length_le
      simp only
      split
      · exact Rc.noConfusion
      · exact lt_of_succ_le hlen
      · exact lt_of_succ_le hlen
      · exact Rc.noConfusion
  split
  · split
    · have hrc := @parseOld_rc jobs job request tok
      have hlen := @length_parseOld jobs job request tok
      simp only
      split
      · exact hrc
      split
      · rename_i rest hrest
        rw [hrest] at hlen
        exact lt_of_succ_le hlen
      · exact Rc.noConfusion
    · exact Rc.noConfusion
  · split
    · rename_i h
      exact dependTypeOf_error h
    · rename_i dependType _
      have hs : (tok.dropWhile (· ≠ ':')).tail.length ≤ tok.length := by
        rw [List.length_tail]
        exact (sub_le _ _).trans (List.length_dropWhile_le _ _)
      have hrc := @parseNew_rc jobs job rec dependType
        ((tok.dropWhile (· ≠ ':')).tail.length + 1) 0 0 request (tok.dropWhile (· ≠ ':')).tail
      have hlen := (@length_parseNew jobs job rec dependType
        ((tok.dropWhile (· ≠ ':')).tail.length + 1) 0 0 request _).trans hs
      simp only
      split
      · exact hrc
      split
      · rename_i rest hrest
        rw [hrest] at hlen
        exact lt_of_succ_le hlen
      · rename_i rest hrest
        rw [hrest] at hlen
        exact lt_of_succ_le hlen
      · exact Rc.noConfusion

/-! ## The request -/

theorem readLoop_rc (fuel : Nat) (request : Request) (orFlag : Bool) (tok : List Char) :
    (readLoop conf jobs job rec fuel request orFlag tok).1 ≠ .circularDependency := by
  induction fuel generalizing request orFlag tok with
  | zero => exact Rc.noConfusion
  | succ fuel ih =>
    have hspec := @readSpec_proceeds conf jobs job rec request tok
    rw [readLoop]
    split
    · rename_i rc h
      rw [h] at hspec
      exact hspec
    · exact ih _ _ _

/-- Reading a request does not fail as circular. -/
theorem readRequest_rc (text : List Char) :
    (readRequest conf jobs job rec text).1 ≠ .circularDependency := readLoop_rc _ _ _ _

/-- The bound of the loop over the specifications is none. -/
theorem readLoop_fuel {fuel fuel' : Nat} (request : Request) (orFlag : Bool) (tok : List Char)
    (h : tok.length < fuel) (h' : tok.length < fuel') :
    readLoop conf jobs job rec fuel request orFlag tok =
      readLoop conf jobs job rec fuel' request orFlag tok := by
  induction fuel generalizing fuel' request orFlag tok with
  | zero => exact absurd h (Nat.not_lt_zero _)
  | succ fuel ih =>
    cases fuel' with
    | zero => exact absurd h' (Nat.not_lt_zero _)
    | succ fuel' =>
      have hspec := @readSpec_proceeds conf jobs job rec request tok
      rw [readLoop, readLoop]
      split
      · rfl
      · rename_i request' isOr tok' hgo
        rw [hgo] at hspec
        have hlt : tok'.length < tok.length := hspec
        exact ih _ _ tok' (by omega) (by omega)

end Slurm.Depend

/-!
## No circular dependencies

`dependContract_iff` is about runs of `update_job_dependency` calls.  The graph of the
dependencies stays acyclic, and a request is refused as circular only when it would close a
circle.  But a request that is refused has put 0, or the job of an `expand` dependency,
into `expanding_jobid` by then, and that stays.

* `update_eq`: the calls with a request that is not empty.
* `exec_acyclic`: a call keeps the graph acyclic.
* `unchanged_iff`: when a refused request leaves the job as it was.
-/

namespace Slurm.Depend

open Relation Lib.Cycles Lib.Run

variable {conf : Conf} {jobs jobs' : Jobs} {job : Nat} {rec : Job} {details : Details}
variable {text : List Char} {newDepend : Option (List Char)} {c : Nat × Option (List Char)}

/-! ## Runs -/

/-- How many lists the search of a call comes to, if there is a search. -/
def listsScanned (conf : Conf) (jobs : Jobs) (job : Nat) (rec : Job) (newDepend : Option (List Char)) :
    Option Nat :=
  match newDepend with
  | none => none
  | some text =>
    if isEmptyRequest newDepend then none
    else
      let (rc, request, _) := readRequest conf jobs job rec text
      if rc ≠ .success then none else some (circular conf jobs job request.dependList).2

/-- A call for a job that is not finished, whose search comes to fewer lists than the limit. -/
def exec (conf : Conf) (jobs : Jobs) (c : Nat × Option (List Char)) : Option Jobs :=
  match jobs c.1 with
  | none => none
  | some rec =>
    if rec.state ≠ .finished ∧
        (listsScanned conf jobs c.1 rec c.2).all (· < conf.maxDependDepth) then
      some (setDetails jobs c.1 (updateJobDependency conf jobs c.1 rec c.2).2)
    else none

/-! ## The contract -/

/-- The jobs if the request was accepted. -/
def accepted (conf : Conf) (jobs : Jobs) (job : Nat) (rec : Job) (details : Details)
    (text : List Char) : Jobs :=
  let (_, request, orFlag) := readRequest conf jobs job rec text
  setDetails jobs job (some (details.setDepends request.dependList orFlag))

/-- What a call must do. -/
structure UpdateHolds (conf : Conf) (jobs : Jobs) (c : Nat × Option (List Char)) (jobs' : Jobs) :
    Prop where
  /-- A request that is refused as circular would close a circle. -/
  circular : ∀ rec details text, jobs c.1 = some rec → rec.details = some details →
    c.2 = some text → (updateJobDependency conf jobs c.1 rec c.2).1 = .circularDependency →
      ¬ Acyclic (DependsOn (accepted conf jobs c.1 rec details text))
  /-- A request that is refused leaves the job as it was. -/
  unchanged : ∀ rec details, jobs c.1 = some rec → rec.details = some details →
    isEmptyRequest c.2 = false → (updateJobDependency conf jobs c.1 rec c.2).1 ≠ .success →
      ∃ rec' details', jobs' c.1 = some rec' ∧ rec'.details = some details' ∧
        details'.dependList = details.dependList ∧ details'.dependency = details.dependency ∧
        details'.expandingJobid = details.expandingJobid

/-- The contract of a run. -/
def DependContract (conf : Conf) (jobs : Jobs) (cs : List (Nat × Option (List Char))) : Prop :=
  Always (exec conf) (fun jobs => Acyclic (DependsOn jobs)) jobs cs ∧
    EachStep (exec conf) (UpdateHolds conf) jobs cs

/-- The request cannot be read, or leads back to the job. -/
def Refused (conf : Conf) (jobs : Jobs) (job : Nat) (rec : Job) (text : List Char) : Prop :=
  (readRequest conf jobs job rec text).1 ≠ .success ∨
    Reaches jobs job (readRequest conf jobs job rec text).2.1.dependList

/-- When the contract is met: a request that is refused is for a job that expands the job of the
last `expand` dependency read by then, or none if there is no such dependency. -/
def KeepsExpanding (conf : Conf) (jobs : Jobs) (c : Nat × Option (List Char)) : Prop :=
  ∀ rec details text, jobs c.1 = some rec → rec.details = some details → c.2 = some text →
    isEmptyRequest c.2 = false → Refused conf jobs c.1 rec text →
      (readRequest conf jobs c.1 rec text).2.1.expanding.getD 0 = details.expandingJobid

/-! ## The text of a list -/

/-- Only flags are set. -/
theorem lists_dependListText (setOrFlag : Bool) (sep : List Char) (l : List DependSpec) (j : Nat) :
    Lists (dependListText setOrFlag sep l).2 j ↔ Lists l j := by
  induction l generalizing sep with
  | nil => rfl
  | cons dep deps ih =>
    rw [dependListText]
    split
    · rw [lists_cons, lists_cons, ih]
    · rw [lists_cons, lists_cons, ih]

theorem setDepends_dependList (l : List DependSpec) (orFlag : Bool) :
    (details.setDepends l orFlag).dependList = some (dependListText orFlag [] l).2 := rfl

theorem reaches_congr {l l' : List DependSpec} (h : ∀ j, Lists l j ↔ Lists l' j) :
    Reaches jobs job l ↔ Reaches jobs job l' := by
  constructor
  · intro hr
    cases hr with
    | here hl => exact .here ((h _).mp hl)
    | through hl hp hu hr => exact .through ((h _).mp hl) hp hu hr
  · intro hr
    cases hr with
    | here hl => exact .here ((h _).mpr hl)
    | through hl hp hu hr => exact .through ((h _).mpr hl) hp hu hr

/-- Accepting a list closes a circle exactly when it leads back to the job. -/
theorem acyclic_setDepends_iff (hrec : jobs job = some rec) (hjob : Unfinished jobs job)
    (hacyclic : Acyclic (DependsOn jobs)) (l : List DependSpec) (orFlag : Bool) :
    Acyclic (DependsOn (setDetails jobs job (some (details.setDepends l orFlag)))) ↔
      ¬ Reaches jobs job l := by
  rw [acyclic_setDetails_iff hrec hjob hacyclic _ _ (setDepends_dependList l orFlag),
    reaches_congr (lists_dependListText orFlag [] l)]

/-! ## A call -/

/-- A call with a request that is not empty. -/
theorem update_eq (hdetails : rec.details = some details)
    (hne : isEmptyRequest (some text) = false) :
    updateJobDependency conf jobs job rec (some text) =
      if (readRequest conf jobs job rec text).1 ≠ .success then
        ((readRequest conf jobs job rec text).1, some { details with
          expandingJobid := (readRequest conf jobs job rec text).2.1.expanding.getD 0 })
      else if (circular conf jobs job (readRequest conf jobs job rec text).2.1.dependList).1 then
        (.circularDependency, some { details with
          expandingJobid := (readRequest conf jobs job rec text).2.1.expanding.getD 0 })
      else
        (.success, some (({ details with
          expandingJobid := (readRequest conf jobs job rec text).2.1.expanding.getD 0 } :
            Details).setDepends (readRequest conf jobs job rec text).2.1.dependList
              (readRequest conf jobs job rec text).2.2)) := by
  unfold updateJobDependency
  rw [hdetails]
  simp only [hne]
  rfl

/-- A call with an empty request. -/
theorem update_empty (hdetails : rec.details = some details)
    (hempty : isEmptyRequest newDepend = true) :
    updateJobDependency conf jobs job rec newDepend =
      (.success, some { dependency := none, dependList := none, expandingJobid := 0 }) := by
  unfold updateJobDependency
  rw [hdetails]
  cases newDepend with
  | none => rfl
  | some text =>
    simp only [hempty, if_true]

theorem text_of_not_empty (h : isEmptyRequest newDepend = false) :
    ∃ text, newDepend = some text := by
  cases newDepend with
  | none => cases h
  | some text => exact ⟨text, rfl⟩

/-- The search of a call is exact. -/
theorem circular_call
    (hscan : (listsScanned conf jobs job rec (some text)).all (· < conf.maxDependDepth) = true)
    (hne : isEmptyRequest (some text) = false)
    (hread : (readRequest conf jobs job rec text).1 = .success) :
    (circular conf jobs job (readRequest conf jobs job rec text).2.1.dependList).1 = true ↔
      Reaches jobs job (readRequest conf jobs job rec text).2.1.dependList := by
  refine circular_iff ?_
  unfold listsScanned at hscan
  simp only [hne, hread] at hscan
  simpa using hscan

/-- The request is refused when it is `Refused`. -/
theorem rc_ne_success_iff (hdetails : rec.details = some details)
    (hscan : (listsScanned conf jobs job rec (some text)).all (· < conf.maxDependDepth) = true)
    (hne : isEmptyRequest (some text) = false) :
    (updateJobDependency conf jobs job rec (some text)).1 ≠ .success ↔
      Refused conf jobs job rec text := by
  rw [update_eq hdetails hne, Refused]
  by_cases hread : (readRequest conf jobs job rec text).1 = .success
  · rw [if_neg (fun h => h hread), ← circular_call hscan hne hread]
    split
    · rename_i hfound
      exact iff_of_true Rc.noConfusion (Or.inr hfound)
    · rename_i hfound
      exact iff_of_false (fun h => h rfl) fun h => h.elim (fun h => h hread) hfound
  · rw [if_pos hread]
    exact iff_of_true hread (Or.inl hread)

/-- A refused request only changes `expanding_jobid`. -/
theorem refused_details (hdetails : rec.details = some details)
    (hne : isEmptyRequest (some text) = false)
    (hrc : (updateJobDependency conf jobs job rec (some text)).1 ≠ .success) :
    (updateJobDependency conf jobs job rec (some text)).2 = some { details with
      expandingJobid := (readRequest conf jobs job rec text).2.1.expanding.getD 0 } := by
  rw [update_eq hdetails hne] at hrc ⊢
  split
  · rfl
  · rename_i hread
    rw [if_neg hread] at hrc
    split
    · rfl
    · rename_i hfound
      rw [if_neg hfound] at hrc
      exact absurd rfl hrc

theorem setDetails_at (hrec : jobs job = some rec) (details : Option Details) :
    setDetails jobs job details job = some { rec with details := details } := by
  rw [setDetails, Function.update_self, hrec, Option.map_some]

/-- What is known of a call that is made. -/
theorem exec_some (h : exec conf jobs c = some jobs') :
    ∃ rec, jobs c.1 = some rec ∧ rec.state ≠ .finished ∧
      (listsScanned conf jobs c.1 rec c.2).all (· < conf.maxDependDepth) = true ∧
      jobs' = setDetails jobs c.1 (updateJobDependency conf jobs c.1 rec c.2).2 := by
  unfold exec at h
  split at h
  · cases h
  · rename_i rec hrec
    split at h
    · rename_i hcall
      exact ⟨rec, hrec, hcall.1, hcall.2, (Option.some.inj h).symm⟩
    · cases h

/-- A call keeps the graph acyclic. -/
theorem exec_acyclic (hacyclic : Acyclic (DependsOn jobs)) (h : exec conf jobs c = some jobs') :
    Acyclic (DependsOn jobs') := by
  obtain ⟨rec, hrec, hstate, hscan, rfl⟩ := exec_some h
  obtain ⟨job, newDepend⟩ := c
  have hjob : Unfinished jobs job := ⟨rec, hrec, hstate⟩
  cases hdetails : rec.details with
  | none =>
    have hsame : setDetails jobs job (updateJobDependency conf jobs job rec newDepend).2 = jobs := by
      have hnone : (updateJobDependency conf jobs job rec newDepend).2 = rec.details := by
        unfold updateJobDependency
        rw [hdetails]
      rw [hnone, setDetails, hrec]
      exact Function.update_eq_self_iff.mpr hrec.symm
    rw [hsame]
    exact hacyclic
  | some details =>
    cases hempty : isEmptyRequest newDepend with
    | true =>
      rw [update_empty hdetails hempty]
      exact acyclic_of_dependList hrec hacyclic hdetails (Or.inr rfl)
    | false =>
      obtain ⟨text, rfl⟩ := text_of_not_empty hempty
      by_cases hrc : (updateJobDependency conf jobs job rec (some text)).1 = .success
      · have hnot := fun hrefused => (rc_ne_success_iff hdetails hscan hempty).mpr hrefused hrc
        have hread : (readRequest conf jobs job rec text).1 = .success := by
          by_contra hread
          exact hnot (Or.inl hread)
        have hreach := fun hr => hnot (Or.inr hr)
        rw [update_eq hdetails hempty, if_neg (fun h => h hread),
          if_neg (fun h => hreach ((circular_call hscan hempty hread).mp h))]
        exact (acyclic_setDepends_iff hrec hjob hacyclic _ _).mpr hreach
      · rw [refused_details hdetails hempty hrc]
        exact acyclic_of_dependList hrec hacyclic hdetails (Or.inl rfl)

/-- A call does what it must exactly when the condition is met. -/
theorem updateHolds_iff (hacyclic : Acyclic (DependsOn jobs)) (h : exec conf jobs c = some jobs') :
    UpdateHolds conf jobs c jobs' ↔ KeepsExpanding conf jobs c := by
  obtain ⟨rec, hrec, hstate, hscan, rfl⟩ := exec_some h
  obtain ⟨job, newDepend⟩ := c
  have hjob : Unfinished jobs job := ⟨rec, hrec, hstate⟩
  constructor
  · intro hholds rec' details text hrec' hdetails htext hempty hrefused
    obtain rfl := Option.some.inj (hrec.symm.trans hrec')
    obtain rfl : newDepend = some text := htext
    have hrc := (rc_ne_success_iff hdetails hscan hempty).mpr hrefused
    obtain ⟨rec₁, details₁, hrec₁, hdetails₁, -, -, hexpanding⟩ :=
      hholds.unchanged rec details hrec hdetails hempty hrc
    rw [setDetails_at hrec, refused_details hdetails hempty hrc] at hrec₁
    obtain rfl := Option.some.inj hrec₁
    obtain rfl := Option.some.inj hdetails₁
    exact hexpanding
  · intro hkeeps
    constructor
    · intro rec' details text hrec' hdetails htext hcircular
      obtain rfl := Option.some.inj (hrec.symm.trans hrec')
      obtain rfl : newDepend = some text := htext
      have hempty : isEmptyRequest (some text) = false := by
        rw [← Bool.not_eq_true]
        intro hempty
        rw [update_empty hdetails hempty] at hcircular
        cases hcircular
      have hread : (readRequest conf jobs job rec text).1 = .success := by
        by_contra hread
        rw [update_eq hdetails hempty, if_pos hread] at hcircular
        exact readRequest_rc text hcircular
      have hrc : (updateJobDependency conf jobs job rec (some text)).1 ≠ .success := by
        rw [hcircular]
        exact Rc.noConfusion
      have hreach := ((rc_ne_success_iff hdetails hscan hempty).mp hrc).resolve_left
        fun h => h hread
      exact fun hacc => (acyclic_setDepends_iff hrec hjob hacyclic _ _).mp hacc hreach
    · intro rec' details hrec' hdetails hempty hrc
      obtain rfl := Option.some.inj (hrec.symm.trans hrec')
      obtain ⟨text, rfl⟩ := text_of_not_empty hempty
      refine ⟨_, _, setDetails_at hrec _, refused_details hdetails hempty hrc, rfl, rfl, ?_⟩
      exact hkeeps rec details text hrec hdetails rfl hempty
        ((rc_ne_success_iff hdetails hscan hempty).mp hrc)

/-- Job 7 runs, and job 1 is pending in the same partition. -/
def twoJobs : Jobs := fun j =>
  if j = 7 then some { state := .running, qosId := 1, part := some 0, details := none }
  else if j = 1 then
    some { state := .pending, qosId := 1, part := some 0, details := some ⟨none, none, 0⟩ }
  else none

def expanding : Conf := { permitJobExpansion := true, maxDependDepth := 10, bitUnfmt := fun _ => none }

theorem acyclic_twoJobs : Acyclic (DependsOn twoJobs) := by
  have hnone : ∀ j k, ¬ DependsOn twoJobs j k := by
    rintro j k ⟨-, -, dep, hdep, -⟩
    unfold dependListOf twoJobs at hdep
    split at hdep
    · exact absurd hdep List.not_mem_nil
    split at hdep <;> exact absurd hdep List.not_mem_nil
  intro x h
  obtain ⟨y, hxy, -⟩ := TransGen.head'_iff.mp h
  exact hnone x y hxy

/-- A run that starts with an acyclic graph meets the contract exactly when every request that is
refused is for a job that expands what the request put into `expanding_jobid` by then. -/
theorem dependContract_iff (conf : Conf) (jobs : Jobs) (hacyclic : Acyclic (DependsOn jobs))
    (cs : List (Nat × Option (List Char))) :
    DependContract conf jobs cs ↔ Guarded (exec conf) (KeepsExpanding conf) jobs cs := by
  refine always_eachStep_iff (fun jobs h => h) (fun jobs c jobs' hI hexec => ?_) hacyclic
  have hI' := exec_acyclic hI hexec
  refine ⟨fun _ => hI', ?_⟩
  rw [and_iff_right hI']
  exact updateHolds_iff hI hexec

/-- Job 1 is to expand job 7, and then a request that cannot be read clears what it expands. -/
theorem dependContract_fails :
    ¬ DependContract expanding twoJobs [(1, some "expand:7".toList), (1, some "x".toList)] := by
  rintro ⟨-, hsteps⟩
  obtain ⟨-, h⟩ := hsteps _ rfl
  obtain ⟨h, -⟩ := h _ rfl
  obtain ⟨rec, details, hrec, hdetails, -, -, hexpanding⟩ :=
    h.unchanged _ _ rfl rfl rfl (by decide)
  obtain rfl := Option.some.inj hrec
  obtain rfl := Option.some.inj hdetails
  exact absurd hexpanding (by decide)

theorem dependContract_iff_witness :
    DependContract expanding twoJobs [(1, some "afterany:7".toList), (1, some "x".toList)] ↔
      Guarded (exec expanding) (KeepsExpanding expanding) twoJobs
        [(1, some "afterany:7".toList), (1, some "x".toList)] :=
  dependContract_iff expanding twoJobs acyclic_twoJobs _

end Slurm.Depend
