import Slurm.Depend.Verdict
import Slurm.Lib.Scanf

/-!
# Requests in the documented form

A request names jobs in items, each of one type, or asks for `singleton`; the items are
separated by one separator.  `Ref` is a job as it is named: its id, the task of it, the
minutes to wait, and the state, where all but the id may be missing.

The parser keeps the minutes of one job for those behind it in the item, and takes a state from
anywhere behind a job that has none.  A request is `Steady` when neither can happen.

* `parseJobid_ref`: one job is read.
* `parseNew_refs`, `readSpec_item`: the jobs of an item, and an item.
* `readLoop_items`: the items of a request, in order.
-/

namespace Slurm.ArrayDepend

open List Option

open Slurm.Depend (DependType DependState FedDependSpec Rc Next noVal infinite u32 i32 strtol
  strtolSign isSpace lower startsWith parseDependState parseJobRef parseDependTime endsJobRef
  dependTypeOf dependTypeText)
open Lib.Decimal (IsNumber value)
open Lib.Scanf (NoDigitHead)

variable {tail rest : List Char}

/-! ## Numbers -/

theorem digits_foldl {ds : List Char} (hds : ∀ c ∈ ds, c.isDigit = true) (n : Nat) :
    ds.foldl (fun (n : Int) c => 10 * n + (c.toNat - '0'.toNat)) (n : Int) =
      ((Nat.ofDigitChars 10 ds n : Nat) : Int) := by
  induction ds generalizing n with
  | nil => rfl
  | cons c ds ih =>
    have hrange := Lib.Decimal.isDigit_iff.mp (hds c mem_cons_self)
    have hzero : '0'.toNat = 48 := rfl
    have hstep : 10 * (n : Int) + (c.toNat - '0'.toNat) =
        ((10 * n + (c.toNat - '0'.toNat) : Nat) : Int) := by
      rw [hzero]
      omega
    rw [foldl_cons, Nat.ofDigitChars_cons, hstep]
    exact ih (fun d hd => hds d (mem_cons_of_mem c hd)) _

/-- `strtol` reads a number that is not too large, up to its end. -/
theorem strtol_number {ds : List Char} (rest : List Char) (hds : IsNumber ds)
    (hrest : NoDigitHead rest) (hsmall : value ds < 2 ^ 63) : strtol (ds ++ rest) = ((value ds : Int), rest) := by
  obtain ⟨c, ds', rfl⟩ := exists_cons_of_ne_nil hds.1
  obtain ⟨hblank, hminus, hplus⟩ := Lib.Scanf.digit_plain (hds.2 c mem_cons_self)
  have hspace : isSpace c = false := by
    unfold Lib.Scanf.isSpace at hblank
    unfold isSpace
    simpa using hblank
  have hskip : (c :: ds' ++ rest).dropWhile isSpace = c :: ds' ++ rest := by simp [hspace]
  have hsign : strtolSign (c :: ds' ++ rest) = (false, c :: ds' ++ rest) := by
    unfold strtolSign
    split
    · rename_i h
      exact absurd (List.cons.inj h).1 hminus
    · rename_i h
      exact absurd (List.cons.inj h).1 hplus
    · rfl
  have hvalue := digits_foldl hds.2 0
  unfold strtol
  rw [hskip, hsign]
  simp only [Lib.Scanf.takeWhile_digits hds.2 hrest, Lib.Scanf.dropWhile_digits hds.2 hrest,
    if_neg (cons_ne_nil c ds'), Bool.false_eq_true, if_false]
  rw [show ((0 : Nat) : Int) = 0 from rfl] at hvalue
  rw [hvalue]
  unfold value at hsmall ⊢
  simp only [Prod.mk.injEq, and_true]
  omega

/-- A number that fits is its own 32 bits. -/
theorem u32_natCast {n : Nat} (h : n < 2 ^ 32) : u32 (n : Int) = n := by
  unfold u32
  omega

theorem u32_i32 (i : Int) : u32 (i32 i) = u32 i := by
  unfold u32 i32
  omega

theorem i32_natCast {n : Nat} (h : n < 2 ^ 31) : i32 (n : Int) = n := by
  unfold i32
  omega

/-! ## Requests -/

/-- The task of a job as it is named. -/
inductive Task where
  | none
  | all
  | one (digits : List Char)
  /-- A list of tasks in brackets. -/
  | list (text : List Char)

/-- A job as it is named. -/
structure Ref where
  job : List Char
  task : Task
  minutes : Option (List Char)
  state : Option (List Char)

/-- An item of a request. -/
inductive Item where
  | jobs (type : DependType) (first : Ref) (more : List Ref)
  | singleton (state : Option (List Char))

def taskText : Task → List Char
  | .none => []
  | .all => ['_', '*']
  | .one digits => '_' :: digits
  | .list text => '_' :: '[' :: (text ++ [']'])

def minutesText : Option (List Char) → List Char
  | none => []
  | some digits => '+' :: digits

def stateText : Option (List Char) → List Char
  | none => []
  | some word => '(' :: (word ++ [')'])

def Ref.text (r : Ref) : List Char :=
  r.job ++ taskText r.task ++ minutesText r.minutes ++ stateText r.state

/-- Jobs behind each other in an item. -/
def refsText (first : Ref) (more : List Ref) : List Char :=
  first.text ++ more.flatMap fun r => ':' :: r.text

def Item.text : Item → List Char
  | .jobs type first more => dependTypeText type ++ ':' :: refsText first more
  | .singleton state => "singleton".toList ++ stateText state

/-- The text of a request. -/
def itemsText (sep : Char) (first : Item) (more : List Item) : List Char :=
  first.text ++ more.flatMap fun i => sep :: i.text

/-- The number of the minutes, of which there are none if none are written. -/
def Ref.minutesOf (r : Ref) : Nat := (r.minutes.map value).getD 0

/-- A state is failed if that is what is written. -/
def stateOf (word : Option (List Char)) : DependState :=
  if word.map lower = some "failed".toList then .failed else .notFulfilled

/-- The number of the task. -/
def taskNumber : Task → Nat
  | .none => noVal
  | .all => infinite
  | .one digits => value digits
  | .list _ => noVal

/-! ## Well-formed requests -/

/-- A word for a state. -/
def IsWord (word : List Char) : Prop := ∀ c ∈ word, c.isAlpha = true

/-- The numbers of the job fit into their fields, and the minutes are not 0. -/
structure Ref.Valid (r : Ref) : Prop where
  job : IsNumber r.job ∧ 0 < value r.job ∧ value r.job < 2 ^ 32
  minutes : ∀ ds, r.minutes = some ds → IsNumber ds ∧ 0 < value ds ∧ 60 * value ds < 2 ^ 32
  state : ∀ w, r.state = some w → IsWord w

/-- The task is none, all, or one. -/
def Task.Plain : Task → Prop
  | .none => True
  | .all => True
  | .one digits => IsNumber digits ∧ value digits < 2 ^ 32
  | .list _ => False

/-- What is behind a job that was named. -/
def EndsRef (rest : List Char) : Prop :=
  rest = [] ∨ ∃ c t, rest = c :: t ∧ (c = ',' ∨ c = '?' ∨ c = ':')

/-! ## One job -/

theorem noDigitHead_of_ends (h : endsJobRef tail = true) : NoDigitHead tail := by
  cases tail with
  | nil => exact Lib.Scanf.noDigitHead_nil
  | cons c t =>
    apply Lib.Scanf.noDigitHead_cons
    simp [endsJobRef] at h
    rcases h with rfl | rfl | rfl | rfl | rfl | rfl <;> rfl

variable {r : Ref}

theorem parseJobRef_ref (hr : r.Valid) (hplain : r.task.Plain) (htail : endsJobRef tail = true) :
    parseJobRef (r.job ++ (taskText r.task ++ tail)) = (value r.job, taskNumber r.task, tail) := by
  obtain ⟨hjob, -, hsmall⟩ := hr.job
  have hlong : value r.job < 2 ^ 63 := by omega
  have hword : u32 (value r.job : Int) = value r.job := u32_natCast hsmall
  have hends := noDigitHead_of_ends htail

  unfold parseJobRef
  cases htask : r.task with
  | none =>
    have hread := strtol_number tail hjob hends hlong
    simp only [taskText, nil_append, hread, taskNumber]
    split
    · rename_i heq
      obtain ⟨-, rfl⟩ := Prod.mk.inj heq
      simp [endsJobRef] at htail
    · rename_i heq
      obtain ⟨-, rfl⟩ := Prod.mk.inj heq
      simp [endsJobRef] at htail
    · rename_i heq
      obtain ⟨rfl, rfl⟩ := Prod.mk.inj heq
      rw [hword]
  | all =>
    have hread := strtol_number ('_' :: '*' :: tail) hjob
      (Lib.Scanf.noDigitHead_cons _ (by rfl)) hlong
    simp only [taskText, cons_append, nil_append, hread, taskNumber, hword]
  | one digits =>
    rw [htask] at hplain
    obtain ⟨hdigits, hfits⟩ := hplain
    have hread := strtol_number ('_' :: (digits ++ tail)) hjob
      (Lib.Scanf.noDigitHead_cons _ (by rfl)) hlong
    have htaskRead := strtol_number tail hdigits hends (by omega)
    simp only [taskText, cons_append, hread, taskNumber]
    split
    · rename_i heq
      obtain ⟨-, hstar⟩ := Prod.mk.inj heq
      obtain ⟨d, ds, rfl⟩ := exists_cons_of_ne_nil hdigits.1
      have hdigit := hdigits.2 d mem_cons_self
      simp at hstar
      rw [hstar.1] at hdigit
      exact absurd hdigit (by decide)
    · rename_i heq
      obtain ⟨rfl, hrest⟩ := Prod.mk.inj heq
      simp at hrest
      rw [← hrest, htaskRead, hword, u32_natCast hfits]
    · rename_i hnone heq
      obtain ⟨rfl, rfl⟩ := Prod.mk.inj heq
      exact (hnone _ rfl).elim
  | list text =>
    rw [htask] at hplain
    exact hplain.elim

/-- The minutes of a job.  If there are none, the time from before stays. -/
theorem parseDependTime_ref (hr : r.Valid) (time : Int) (htail : NoDigitHead tail)
    (hplus : tail.head? ≠ some '+') (htime : r.minutes = none → time = 0) :
    ∃ time', parseDependTime time (minutesText r.minutes ++ tail) = some (time', tail) ∧
      u32 time' = u32 (60 * r.minutesOf : Nat) ∧ (r.minutes = none → time' = 0) := by
  unfold parseDependTime Ref.minutesOf
  cases hminutes : r.minutes with
  | none =>
    refine ⟨time, ?_, ?_, fun _ => htime hminutes⟩
    · simp only [minutesText, nil_append]
      split
      · exact absurd rfl hplus
      · rfl
    · rw [htime hminutes]
      simp
  | some ds =>
    obtain ⟨hds, hpos, hfits⟩ := hr.minutes ds hminutes
    have hread := strtol_number tail hds htail (by omega)
    have hint : i32 (value ds : Int) = value ds := i32_natCast (by omega)
    have hnot : ¬ (value ds : Int) ≤ 0 := by omega
    refine ⟨i32 ((value ds : Int) * 60), ?_, ?_, nofun⟩
    · simp only [minutesText, cons_append, hread, hint, if_neg hnot]
    · rw [u32_i32, map_some, getD_some, Nat.cast_mul, mul_comm]
      rfl

/-- The state of a job.  If there is none, there must be none behind it either. -/
theorem parseDependState_ref {word : Option (List Char)} (hword : ∀ w, word = some w → IsWord w)
    {rest : List Char} (hrest : word = none → '(' ∉ rest) :
    parseDependState (stateText word ++ rest) = some (stateOf word, rest) := by
  unfold parseDependState stateOf
  cases word with
  | none => simp [stateText, hrest rfl]
  | some w =>
    have hplain : ∀ c ∈ w, c ≠ ')' := by
      intro c hc heq
      have halpha := hword w rfl c hc
      rw [heq] at halpha
      exact absurd halpha (by decide)
    have htake : (w ++ ')' :: rest).takeWhile (· ≠ ')') = w := by
      rw [takeWhile_append_of_pos (by simpa using hplain)]
      simp
    have hdrop : (w ++ ')' :: rest).dropWhile (· ≠ ')') = ')' :: rest := by
      rw [dropWhile_append_of_pos (by simpa using hplain)]
      simp
    have hopen : ('(' : Char) ≠ ')' := by decide
    simp only [stateText, cons_append, append_assoc, nil_append, mem_cons,
      true_or, if_true, mem_append, or_true, takeWhile_cons, dropWhile_cons, hopen,
      ne_eq, not_false_eq_true, decide_true, not_true_eq_false, decide_false, htake, hdrop,
      tail_cons, map_some, Option.some.injEq]
    simp

/-- The job that is named, with its task as it is found. -/
def Ref.found (table : JobTable) (r : Ref) : Option JobRecord × Nat :=
  findDependentJobPtr table (value r.job) (taskNumber r.task)

/-- The dependency for a job in an item of the type. -/
def Ref.entry (table : JobTable) (type : DependType) (r : Ref) : FedDependSpec :=
  newDep type (stateOf r.state) (60 * r.minutesOf : Nat) (value r.job) (r.found table).2
    (r.found table).1 false

/-- The job exists, is a local one, and is not the job that depends on it.  A job to expand may be
expanded. -/
structure Named (conf : Conf) (table : JobTable) (job : JobRecord) (type : DependType) (r : Ref) :
    Prop where
  exists_job : (r.found table).1.isSome
  other : dependsOnSameJob job ((r.found table).1.map (·.jobId)) (value r.job) (r.found table).2 =
    false
  origin : conf.isOriginJobId (value r.job) = true
  expand : type = .expand → mayExpand job (r.found table).1 = true

variable {conf : Conf} {table : JobTable} {job : JobRecord} {type : DependType}

/-- The request after a dependency was read. -/
def Request.add (request : Request) (type : DependType) (jobId : Nat) (dep : FedDependSpec) :
    Request :=
  { dependList := addDependencyToList request.dependList dep
    expanding := if type = .expand then some jobId else request.expanding }

theorem endsRef_head (h : EndsRef rest) :
    NoDigitHead rest ∧ rest.head? ≠ some '+' ∧ endsJobRef rest = true := by
  rcases h with rfl | ⟨c, t, rfl, rfl | rfl | rfl⟩
  · exact ⟨Lib.Scanf.noDigitHead_nil, nofun, rfl⟩
  · exact ⟨Lib.Scanf.noDigitHead_cons _ rfl, by simp, by simp [endsJobRef]⟩
  · exact ⟨Lib.Scanf.noDigitHead_cons _ rfl, by simp, by simp [endsJobRef]⟩
  · exact ⟨Lib.Scanf.noDigitHead_cons _ rfl, by simp, by simp [endsJobRef]⟩

/-- The state and what is behind it. -/
theorem state_head (word : Option (List Char)) (h : EndsRef rest) :
    NoDigitHead (stateText word ++ rest) ∧ (stateText word ++ rest).head? ≠ some '+' ∧
      endsJobRef (stateText word ++ rest) = true := by
  cases word with
  | none => exact endsRef_head h
  | some w => exact ⟨Lib.Scanf.noDigitHead_cons _ rfl, by simp [stateText],
      by simp [stateText, endsJobRef]⟩

/-- One job is read, with the time that is left for the next one. -/
theorem parseJobid_ref {r : Ref} (hr : r.Valid) (hplain : r.task.Plain) {cnt : Nat}
    (hcnt : type = .expand → cnt = 0) (hnamed : Named conf table job type r) {time : Int}
    (htime : r.minutes = none → time = 0)
    {rest : List Char} (hrest : EndsRef rest) (hstate : r.state = none → '(' ∉ rest)
    (request : Request) :
    ∃ time', parseJobid conf table job type cnt time request (r.text ++ rest) =
        (⟨.success, request.add type (value r.job) (r.entry table type), rest⟩, time') ∧
      (r.minutes = none → time' = 0) := by
  obtain ⟨hdigit, hplus, hends⟩ := state_head r.state hrest
  obtain ⟨time', hparse, htime', hnone⟩ := parseDependTime_ref hr time hdigit hplus htime
  have hends' : endsJobRef (minutesText r.minutes ++ (stateText r.state ++ rest)) = true := by
    cases r.minutes with
    | none => exact hends
    | some ds => rfl
  have href := parseJobRef_ref hr hplain hends'
  have hread := parseDependState_ref hr.state hstate
  obtain ⟨-, hpos, -⟩ := hr.job
  have hnonzero : value r.job ≠ 0 := by omega
  refine ⟨time', ?_, hnone⟩
  obtain ⟨hexists, hother, horigin, hexpand⟩ := hnamed
  unfold Ref.found at hexists hother hexpand
  unfold parseJobid Ref.text Request.add Ref.entry Ref.found
  simp only [append_assoc, href]
  generalize findDependentJobPtr table (value r.job) (taskNumber r.task) = found at *
  obtain ⟨depJob, task⟩ := found
  have hfirst : ¬ (depJob.isNone = true ∧ conf.isOriginJobId (value r.job) = true ∧
      (type = .afterOk ∨ type = .afterNotOk)) := by
    intro h
    rw [isNone_iff_eq_none] at h
    rw [h.1] at hexists
    cases hexists
  have hsame : ¬ dependsOnSameJob job (depJob.map (·.jobId)) (value r.job) task = true := by
    rw [Bool.not_eq_true]
    exact hother
  have hmay : ¬ (type = .expand ∧ (0 < cnt ∨ ¬ mayExpand job depJob = true)) := by
    intro ⟨heq, hor⟩
    rcases hor with hpos | hno
    · rw [hcnt heq] at hpos
      cases hpos
    · exact hno (hexpand heq)
  rw [if_neg (by simp [hnonzero, hends'])]
  dsimp only
  rw [if_neg hfirst, if_neg hsame, if_neg hmay, hparse]
  simp only [hread, horigin, Bool.not_true, Bool.and_false, Bool.false_eq_true, false_and, if_false]
  unfold newDep
  rw [htime']

/-! ## An item -/

/-- A job that is written out, and can be named in an item of the type. -/
structure Ref.Ready (conf : Conf) (table : JobTable) (job : JobRecord) (type : DependType)
    (r : Ref) : Prop where
  valid : r.Valid
  plain : r.task.Plain
  named : Named conf table job type r

/-- Minutes stay for the jobs behind, so these must have their own. -/
def KeepsMinutes (refs : List Ref) : Prop :=
  refs.Pairwise fun a b => b.minutes = none → a.minutes = none

/-- A state is looked for behind a job that has none, so there must be none. -/
def StatesFirst (states : List (Option (List Char))) : Prop :=
  states.Pairwise fun a b => a = none → b = none

theorem not_paren_of_digit {ds : List Char} (h : IsNumber ds) : '(' ∉ ds := by
  intro hmem
  exact absurd (h.2 _ hmem) (by decide)

theorem not_paren_text (hr : r.Valid) (hplain : r.task.Plain) (hstate : r.state = none) :
    '(' ∉ r.text := by
  unfold Ref.text
  rw [hstate]
  simp only [mem_append, not_or]
  refine ⟨⟨⟨not_paren_of_digit hr.job.1, ?_⟩, ?_⟩, by simp [stateText]⟩
  · cases htask : r.task with
    | none => simp [taskText]
    | all => simp [taskText]
    | one digits =>
      rw [htask] at hplain
      simpa [taskText] using not_paren_of_digit hplain.1
    | list text =>
      rw [htask] at hplain
      exact hplain.elim
  · cases hminutes : r.minutes with
    | none => simp [minutesText]
    | some ds => simpa [minutesText] using not_paren_of_digit (hr.minutes ds hminutes).1

/-- The request after jobs of an item were read. -/
def Request.addRefs (table : JobTable) (type : DependType) (request : Request) (refs : List Ref) :
    Request :=
  refs.foldl (fun request r => request.add type (value r.job) (r.entry table type)) request

/-- The jobs of an item are read. -/
theorem parseNew_refs {first : Ref} {more : List Ref} {fuel cnt : Nat} (hfuel : more.length < fuel)
    (hready : ∀ r ∈ first :: more, r.Ready conf table job type)
    (hexpand : type = .expand → cnt = 0 ∧ more = [])
    (hminutes : KeepsMinutes (first :: more)) {time : Int} (htime : first.minutes = none → time = 0)
    (hstates : StatesFirst ((first :: more).map (·.state))) {rest : List Char} (hrest : EndsRef rest)
    (hcolon : rest.head? ≠ some ':') (hparen : ∀ r ∈ first :: more, r.state = none → '(' ∉ rest)
    (request : Request) :
    parseDependencyJobidNew conf table job type fuel cnt time request
        (refsText first more ++ rest) =
      ⟨.success, request.addRefs table type (first :: more), rest⟩ := by
  induction more generalizing first fuel cnt time request with
  | nil =>
    cases fuel with
    | zero => exact absurd hfuel (Nat.not_lt_zero _)
    | succ fuel =>
      have hfirst := hready first mem_cons_self
      obtain ⟨time', hone, -⟩ := parseJobid_ref hfirst.valid hfirst.plain (fun h => (hexpand h).1)
        hfirst.named htime hrest (hparen first mem_cons_self) request
      unfold refsText
      rw [flatMap_nil, append_nil, parseDependencyJobidNew, hone]
      simp only [ne_eq, not_true_eq_false, if_false]
      split
      · exact absurd rfl hcolon
      · rfl
  | cons next more ih =>
    cases fuel with
    | zero => exact absurd hfuel (Nat.not_lt_zero _)
    | succ fuel =>
      have hfirst := hready first mem_cons_self
      have hnotExpand : type ≠ .expand := fun h => cons_ne_nil next more (hexpand h).2
      unfold KeepsMinutes at hminutes
      unfold StatesFirst at hstates
      rw [map_cons] at hstates
      obtain ⟨hminutes₁, hminutes₂⟩ := List.pairwise_cons.mp hminutes
      obtain ⟨hstates₁, hstates₂⟩ := List.pairwise_cons.mp hstates
      have hbehind : first.state = none → '(' ∉ ':' :: (refsText next more ++ rest) := by
        intro hnone
        have htexts : ∀ r ∈ next :: more, '(' ∉ r.text := by
          intro r hr
          have hr' := hready r (mem_cons_of_mem first hr)
          exact not_paren_text hr'.valid hr'.plain (hstates₁ _ (mem_map_of_mem hr) hnone)
        have hlast := hparen first mem_cons_self hnone
        unfold refsText
        simp only [mem_cons, mem_append, mem_flatMap, not_or, not_exists, not_and]
        refine ⟨by decide, ⟨htexts next mem_cons_self, fun r hr => ⟨by decide, ?_⟩⟩, hlast⟩
        exact htexts r (mem_cons_of_mem next hr)
      obtain ⟨time', hone, htime'⟩ := parseJobid_ref hfirst.valid hfirst.plain
        (fun h => absurd h hnotExpand) hfirst.named htime
        (Or.inr ⟨':', refsText next more ++ rest, rfl, Or.inr (Or.inr rfl)⟩) hbehind request
      have hnext : parseDependencyJobidNew conf table job type fuel (cnt + 1) time'
            (request.add type (value first.job) (first.entry table type))
            (refsText next more ++ rest) =
          ⟨.success, request.addRefs table type (first :: next :: more), rest⟩ :=
        ih (by simpa using hfuel) (fun r hr => hready r (mem_cons_of_mem first hr))
        (fun h => absurd h hnotExpand) hminutes₂
        (fun h => htime' (hminutes₁ next mem_cons_self h)) hstates₂
        (fun r hr => hparen r (mem_cons_of_mem first hr)) _
      have htext : refsText first (next :: more) ++ rest =
          first.text ++ ':' :: (refsText next more ++ rest) := by
        unfold refsText
        simp
      rw [htext, parseDependencyJobidNew, hone]
      simp only [ne_eq, not_true_eq_false, if_false]
      exact hnext

/-- An item that can be read. -/
def Item.Ready (conf : Conf) (table : JobTable) (job : JobRecord) : Item → Prop
  | .jobs type first more => type ≠ .singleton ∧
      (type = .expand → conf.permitJobExpansion = true ∧ more = []) ∧
      (∀ r ∈ first :: more, r.Ready conf table job type) ∧ KeepsMinutes (first :: more)
  | .singleton state => (∀ w, state = some w → IsWord w) ∧
      (conf.disableRemoteSingleton && !conf.isOriginJob) = false

/-- The states that are written in an item. -/
def Item.states : Item → List (Option (List Char))
  | .jobs _ first more => (first :: more).map (·.state)
  | .singleton state => [state]

/-- The request after an item was read. -/
def Request.addItem (table : JobTable) (request : Request) : Item → Request
  | .jobs type first more => request.addRefs table type (first :: more)
  | .singleton state =>
    { request with
      dependList := addDependencyToList request.dependList (newSingleton (stateOf state)) }

/-- What is done after an item. -/
def nextOf : List Char → Next
  | [] => .stop .success
  | c :: t => .go (c = '?') t

/-- What is behind an item. -/
def EndsItem (rest : List Char) : Prop := rest = [] ∨ ∃ c t, rest = c :: t ∧ (c = ',' ∨ c = '?')

theorem EndsItem.endsRef (h : EndsItem rest) : EndsRef rest ∧ rest.head? ≠ some ':' := by
  rcases h with rfl | ⟨c, t, rfl, hc⟩
  · exact ⟨Or.inl rfl, nofun⟩
  · refine ⟨Or.inr ⟨c, t, rfl, hc.imp_right Or.inl⟩, ?_⟩
    rcases hc with rfl | rfl <;> simp

theorem dependTypeOf_text (htype : type ≠ .singleton)
    (hexpand : type = .expand → conf.permitJobExpansion = true) (s : List Char) :
    dependTypeOf conf.toConf (dependTypeText type ++ ':' :: s) = .ok type := by
  unfold dependTypeOf dependTypeText startsWith lower
  cases type with
  | singleton => exact absurd rfl htype
  | expand => simp [hexpand rfl]
  | _ => simp

theorem not_singleton_text (htype : type ≠ .singleton) (s : List Char) :
    startsWith "singleton" (dependTypeText type ++ ':' :: s) = false := by
  unfold dependTypeText startsWith lower
  cases type with
  | singleton => exact absurd rfl htype
  | _ => simp

theorem dropWhile_typeText (type : DependType) (s : List Char) :
    (dependTypeText type ++ ':' :: s).dropWhile (· ≠ ':') = ':' :: s := by
  unfold dependTypeText
  cases type <;> simp

theorem not_paren_typeText (type : DependType) : '(' ∉ dependTypeText type := by
  unfold dependTypeText
  cases type <;> simp

/-- A text of several pieces has a character for each. -/
theorem length_le_flatMap {α : Type} (l : List α) (c : Char) (f : α → List Char) :
    l.length ≤ (l.flatMap fun x => c :: f x).length := by
  induction l with
  | nil => simp
  | cons x l ih =>
    rw [flatMap_cons, length_append, length_cons, length_cons]
    omega

/-- An item is read. -/
theorem readSpec_item {i : Item} (hi : i.Ready conf table job) (hstates : StatesFirst i.states)
    {rest : List Char} (hrest : EndsItem rest) (hparen : none ∈ i.states → '(' ∉ rest)
    (request : Request) :
    readSpec conf table job request (i.text ++ rest) = (request.addItem table i, nextOf rest) := by
  cases i with
  | jobs type first more =>
    obtain ⟨htype, hexpand, hready, hminutes⟩ := hi
    obtain ⟨hends, hcolon⟩ := hrest.endsRef
    have hfuel : more.length < (refsText first more ++ rest).length + 1 := by
      have hle := length_le_flatMap more ':' Ref.text
      unfold refsText
      simp only [length_append]
      omega
    have hparse := parseNew_refs hfuel hready (fun h => ⟨rfl, (hexpand h).2⟩) hminutes
      (fun _ => rfl) hstates hends hcolon
      (fun r hr hnone => hparen (List.mem_map.mpr ⟨r, hr, hnone⟩)) request
    have htok : Item.text (.jobs type first more) ++ rest =
        dependTypeText type ++ ':' :: (refsText first more ++ rest) := by
      unfold Item.text
      simp
    unfold readSpec
    rw [htok, not_singleton_text htype, dependTypeOf_text htype fun h => (hexpand h).1,
      dropWhile_typeText]
    simp only [Bool.false_eq_true, if_false, mem_append, mem_cons, true_or, or_true,
      not_true_eq_false, tail_cons, hparse, ne_eq]
    rcases hrest with rfl | ⟨c, t, rfl, rfl | rfl⟩
    · rfl
    · rfl
    · rfl
  | singleton state =>
    obtain ⟨hword, hlocal⟩ := hi
    have hread := parseDependState_ref hword fun hnone => hparen (by simp [Item.states, hnone])
    unfold readSpec Item.text
    rw [append_assoc, if_pos (by simp [startsWith, lower]),
      show ("singleton".toList ++ (stateText state ++ rest)).drop 9 = stateText state ++ rest by simp,
      hread]
    simp only [hlocal, Bool.false_eq_true, if_false]
    rcases hrest with rfl | ⟨c, t, rfl, rfl | rfl⟩
    · rfl
    · rfl
    · rfl

/-! ## A request -/

/-- A separator of items. -/
def IsSep (sep : Char) : Prop := sep = ',' ∨ sep = '?'

/-- Without a state, an item has no parenthesis. -/
theorem not_paren_item {i : Item} (hi : i.Ready conf table job) (hnone : ∀ s ∈ i.states, s = none) :
    '(' ∉ i.text := by
  cases i with
  | jobs type first more =>
    have hrefs : ∀ r ∈ first :: more, '(' ∉ r.text := by
      intro r hr
      have hready := hi.2.2.1 r hr
      exact not_paren_text hready.valid hready.plain (hnone _ (mem_map_of_mem hr))
    unfold Item.text refsText
    simp only [mem_append, mem_cons, mem_flatMap, not_or, not_exists, not_and]
    refine ⟨not_paren_typeText type, by decide, hrefs first mem_cons_self, fun r hr => ?_⟩
    exact ⟨by decide, hrefs r (mem_cons_of_mem first hr)⟩
  | singleton state =>
    have hstate : state = none := hnone state mem_cons_self
    unfold Item.text
    rw [hstate]
    simp [stateText]

/-- The items of a request are read, in order. -/
theorem readLoop_items {sep : Char} (hsep : IsSep sep) {first : Item} {more : List Item} {fuel : Nat}
    (hfuel : more.length < fuel) (hready : ∀ i ∈ first :: more, i.Ready conf table job)
    (hstates : StatesFirst ((first :: more).flatMap Item.states)) (request : Request) (orFlag : Bool) :
    readLoop conf table job fuel request orFlag (itemsText sep first more) =
      (.success, (first :: more).foldl (Request.addItem table) request,
        orFlag || (decide (sep = '?') && !more.isEmpty)) := by
  unfold StatesFirst at hstates
  induction more generalizing first fuel request orFlag with
  | nil =>
    cases fuel with
    | zero => exact absurd hfuel (Nat.not_lt_zero _)
    | succ fuel =>
      have hread := readSpec_item (hready first mem_cons_self)
        (by simpa [StatesFirst] using hstates) (Or.inl rfl) (fun _ => not_mem_nil) request
      unfold itemsText
      rw [flatMap_nil, readLoop, hread]
      simp [nextOf]
  | cons next more ih =>
    cases fuel with
    | zero => exact absurd hfuel (Nat.not_lt_zero _)
    | succ fuel =>
      rw [flatMap_cons, pairwise_append] at hstates
      obtain ⟨hown, hlater, hacross⟩ := hstates
      have htext : itemsText sep first (next :: more) =
          first.text ++ sep :: itemsText sep next more := by
        unfold itemsText
        simp
      have hbehind : none ∈ first.states → '(' ∉ sep :: itemsText sep next more := by
        intro hnone
        have hitems : ∀ i ∈ next :: more, '(' ∉ i.text := by
          intro i hi
          apply not_paren_item (hready i (mem_cons_of_mem first hi))
          intro state hstate
          exact hacross none hnone state (List.mem_flatMap.mpr ⟨i, hi, hstate⟩) rfl
        have hsep' : '(' ≠ sep := by
          rcases hsep with rfl | rfl <;> decide
        unfold itemsText
        simp only [mem_cons, mem_append, mem_flatMap, not_or, not_exists, not_and]
        exact ⟨hsep', hitems next mem_cons_self, fun i hi =>
          ⟨hsep', hitems i (mem_cons_of_mem next hi)⟩⟩
      have hread := readSpec_item (hready first mem_cons_self) hown
        (Or.inr ⟨sep, itemsText sep next more, rfl, hsep⟩) hbehind request
      have hlt : more.length < fuel := by simpa using hfuel
      have hnext := ih hlt
        (fun i hi => hready i (mem_cons_of_mem first hi)) hlater
        (request.addItem table first) (orFlag || decide (sep = '?'))
      rw [htext, readLoop, hread]
      simp only [nextOf]
      rw [hnext]
      cases more <;> simp

end Slurm.ArrayDepend
