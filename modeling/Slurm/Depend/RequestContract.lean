import Slurm.Depend.Expansion
import Slurm.Lib.FirstMatch

/-!
# What a request asks for

A request in the documented form asks for one dependency on each job and task that it names.

* `found_jobId`: the job that is found for a number.
* `circular_reaches`: a request that is circular leads back to the job.
* `requestContract`: the dependencies of the job are those that the request names.
-/

namespace Slurm.ArrayDepend

open List

open Slurm.Depend (DependType DependState FedDependSpec JobState Rc noVal infinite u32
  xlateArrayDep dependTypeText isEmptyRequest)
open Lib.Decimal (IsNumber value)
open Slurm.Bitstring (ValidSize)

variable {deps : List FedDependSpec}

/-! ## The entries -/

/-- Two dependencies are of one type, on the same job and task. -/
def sameJob (d d' : FedDependSpec) : Bool :=
  decide (d.dependType = d'.dependType ∧ d.jobId = d'.jobId ∧ d.arrayTaskId = d'.arrayTaskId)

/-- The task that a dependency is on: all of an array that is named without one. -/
def Ref.onTask (table : JobTable) (r : Ref) : Nat :=
  if taskNumber r.task = noVal ∧ (r.found table).1.any (ofArray (value r.job)) = true then infinite
  else taskNumber r.task

/-- The dependency that a job in an item asks for. -/
def Ref.asks (table : JobTable) (isOr : Bool) (type : DependType) (r : Ref) : FedDependSpec where
  arrayTaskId := r.onTask table
  dependType := type
  flagsOr := isOr
  dependState := stateOf r.state
  dependTime := (60 * r.minutesOf : Nat)
  jobId := value r.job
  jobPtr := (r.found table).1.map (·.jobId)
  remote := false
  singletonBits := 0#64

/-- The dependency on all jobs of the same name. -/
def asksSingleton (isOr : Bool) (state : Option (List Char)) : FedDependSpec where
  arrayTaskId := 0
  dependType := .singleton
  flagsOr := isOr
  dependState := stateOf state
  dependTime := 0
  jobId := 0
  jobPtr := none
  remote := false
  singletonBits := 0#64

/-- The dependencies that an item asks for, one for each job and task. -/
def Item.asks (size : Nat) (table : JobTable) (isOr : Bool) : Item → List FedDependSpec
  | .jobs type first more =>
    ((first :: more).flatMap (Ref.standsFor size)).map (Ref.asks table isOr type)
  | .singleton state => [asksSingleton isOr state]

/-- The dependencies that are made for an item. -/
def Item.entries (table : JobTable) : Item → List FedDependSpec
  | .jobs type first more => (first :: more).map (Ref.entry table type)
  | .singleton state => [newSingleton (stateOf state)]

variable {r : Ref}

section Entries

variable {table : JobTable} {type : DependType}

/-- The record that is found has the number that was named. -/
theorem found_jobId {jobId task : Nat} {dep : JobRecord}
    (h : (findDependentJobPtr table jobId task).1 = some dep) :
    (if (findDependentJobPtr table jobId task).2 = noVal then dep.jobId else dep.arrayJobId) =
      jobId := by
  have hrec : ∀ {id : Nat} {r : JobRecord}, findJobRecord table id = some r →
      r ∈ table.jobs ∧ r.jobId = id := by
    intro id r hr
    unfold findJobRecord at hr
    exact ⟨mem_of_find?_eq_some hr, by simpa using find?_some hr⟩
  have hall : ∀ {r : JobRecord}, findJobArrayRec table jobId infinite = some r →
      r.arrayJobId = jobId ∧ (r.arrayTaskId ≠ noVal ∨ r.arrayRecs.isSome = true) := by
    intro r hr
    unfold findJobArrayRec at hr
    rw [if_neg (by decide), if_pos rfl] at hr
    simp only [Option.or_eq_some_iff, Option.filter_eq_some_iff] at hr
    rcases hr with ⟨-, hr⟩ | ⟨-, hr | ⟨-, hr⟩⟩
    · simp at hr
      exact ⟨hr.2, Or.inr hr.1⟩
    · have hmem := List.mem_filter.mp (mem_of_find?_eq_some hr)
      simp at hmem
      exact ⟨hmem.2.2, Or.inl hmem.2.1⟩
    · have hmem := List.mem_filter.mp (mem_of_getLast? hr)
      simp at hmem
      exact ⟨hmem.2.2, Or.inl hmem.2.1⟩
  unfold findDependentJobPtr at h ⊢
  by_cases hnone : task = noVal
  · simp only [if_pos hnone] at h ⊢
    rw [h]
    by_cases harray : ofArray jobId dep = true
    · have hid : dep.arrayJobId = jobId := by
        unfold ofArray at harray
        simp at harray
        exact harray.1
      simp [harray, noVal, infinite, hid]
    · have hid : dep.jobId = jobId := by
        rw [Option.or_eq_some_iff] at h
        rcases h with h | ⟨-, h⟩
        · exact (hrec h).2
        · refine absurd ?_ harray
          obtain ⟨hid, hor⟩ := hall h
          unfold ofArray
          simp [hid, hor]
      simp [harray, hnone, hid]
  · simp only [if_neg hnone] at h ⊢
    by_cases hinf : task = infinite
    · rw [hinf] at h
      exact (hall h).1
    · unfold findJobArrayRec at h
      rw [if_neg hnone, if_neg hinf] at h
      simp only [Option.or_eq_some_iff, Option.filter_eq_some_iff] at h
      rcases h with h | ⟨-, h, hbit⟩
      · have hid := find?_some h
        simp at hid
        exact hid.1
      · obtain ⟨hmem, hid⟩ := hrec h
        have hsome : dep.arrayRecs.isSome = true := by
          cases hrecs : dep.arrayRecs with
          | none => simp [hrecs] at hbit
          | some recs => rfl
        rw [← table.meta_id dep hmem hsome, hid]

theorem stateOf_ne (word : Option (List Char)) : stateOf word ≠ .fulfilled := by
  unfold stateOf
  split
  · exact nofun
  · exact nofun

/-- The dependency that is made is the one that is asked for, when its flag is set. -/
theorem setOr_entry (hexists : (r.found table).1.isSome) (hr : r.Valid) (isOr : Bool) :
    setOr isOr (r.entry table type) = r.asks table isOr type := by
  obtain ⟨dep, hdep⟩ := Option.isSome_iff_exists.mp hexists
  have hid := found_jobId hdep
  have htask : (r.found table).2 = r.onTask table := by
    unfold Ref.onTask Ref.found findDependentJobPtr
    by_cases hnone : taskNumber r.task = noVal
    · simp [hnone]
    · simp [hnone]
  have hstate : (r.entry table type).dependState ≠ .fulfilled := stateOf_ne r.state
  have htime : u32 ((60 * r.minutesOf : Nat) : Int) = 60 * r.minutesOf := by
    apply u32_natCast
    unfold Ref.minutesOf
    cases hminutes : r.minutes with
    | none => simp
    | some ds => exact (hr.minutes ds hminutes).2.2
  unfold Ref.found at hdep htask
  rw [htask] at hid
  unfold setOr
  rw [if_neg hstate]
  unfold Ref.entry newDep Ref.asks Ref.found
  simp only [Bool.false_eq_true, if_false, hdep, Option.map_some, Option.getD_some, Bool.false_or,
    htask, htime, hid]

theorem setOr_singleton (state : Option (List Char)) (isOr : Bool) :
    setOr isOr (newSingleton (stateOf state)) = asksSingleton isOr state := by
  have hstate : (newSingleton (stateOf state)).dependState ≠ .fulfilled := stateOf_ne state
  unfold setOr
  rw [if_neg hstate]
  simp [newSingleton, newDep, asksSingleton, u32]

/-- The flag is apart from the job. -/
theorem setOr_job (isOr : Bool) (d : FedDependSpec) : (setOr isOr d).jobId = d.jobId ∧
    (setOr isOr d).jobPtr = d.jobPtr ∧ (setOr isOr d).arrayTaskId = d.arrayTaskId := by
  unfold setOr
  split
  · exact ⟨rfl, rfl, rfl⟩
  · exact ⟨rfl, rfl, rfl⟩

/-- How the number of a job is written does not matter. -/
theorem asks_job {isOr : Bool} (r : Ref) (job : List Char) (h : value job = value r.job) :
    Ref.asks table isOr type { r with job := job } = r.asks table isOr type := by
  unfold Ref.asks Ref.onTask Ref.found Ref.minutesOf
  simp only [h]

theorem findDependency_setOr (isOr : Bool) (d d' : FedDependSpec) :
    sameJob (setOr isOr d) (setOr isOr d') = findDependency d' d := by
  have htype : ∀ d : FedDependSpec, (setOr isOr d).dependType = d.dependType := by
    intro d
    unfold setOr
    split <;> rfl
  unfold sameJob findDependency
  rw [htype, htype, (setOr_job isOr d).1, (setOr_job isOr d).2.2, (setOr_job isOr d').1,
    (setOr_job isOr d').2.2, Bool.eq_iff_iff]
  simp
  constructor
  · intro ⟨htype, hjob, htask⟩
    exact ⟨⟨hjob.symm, htask.symm⟩, htype.symm⟩
  · intro ⟨⟨hjob, htask⟩, htype⟩
    exact ⟨htype.symm, hjob.symm, htask.symm⟩

/-- What is read of items: the first of the dependencies of each kind. -/
theorem addItems_dependList (items : List Item) (request : Request) :
    (items.foldl (Request.addItem table) request).dependList =
      (items.flatMap (Item.entries table)).foldl addDependencyToList request.dependList := by
  induction items generalizing request with
  | nil => rfl
  | cons i items ih =>
    have hrefs : ∀ (refs : List Ref) (type : DependType) (request : Request),
        (request.addRefs table type refs).dependList =
          (refs.map (Ref.entry table type)).foldl addDependencyToList request.dependList := by
      intro refs type
      unfold Request.addRefs
      induction refs with
      | nil => exact fun _ => rfl
      | cons r refs ih =>
        exact fun request => ih (request.add type (value r.job) (r.entry table type))
    rw [foldl_cons, ih, flatMap_cons, foldl_append]
    congr 1
    cases i with
    | jobs type first more => exact hrefs (first :: more) type request
    | singleton state => rfl

end Entries

/-! ## Circles -/

/-- A chain of dependencies leads to the job, by way of jobs that are not finished. -/
inductive Reaches (table : JobTable) (job : JobRecord) : List FedDependSpec → Prop where
  | here {deps : List FedDependSpec} {dep : FedDependSpec} {ptr : Nat} (mem : dep ∈ deps)
      (nonzero : dep.jobId ≠ 0) (found : dep.jobPtr = some ptr)
      (same : dependsOnSameJob job (some ptr) dep.jobId dep.arrayTaskId = true) :
      Reaches table job deps
  | there {deps others : List FedDependSpec} {dep : FedDependSpec} {ptr : Nat} {rec : JobRecord}
      (mem : dep ∈ deps) (nonzero : dep.jobId ≠ 0) (found : dep.jobPtr = some ptr)
      (record : findJobRecord table ptr = some rec) (unfinished : rec.state ≠ .finished)
      (depends : rec.details.bind Details.dependList = some others)
      (next : Reaches table job others) : Reaches table job deps

section Circles

variable {table : JobTable} {job : JobRecord}

/-- Only the jobs of the dependencies matter. -/
theorem Reaches.congr {deps' : List FedDependSpec} (h : Reaches table job deps)
    (hsame : ∀ d ∈ deps, d.jobId ≠ 0 → ∃ d' ∈ deps', d'.jobId = d.jobId ∧ d'.jobPtr = d.jobPtr ∧
      d'.arrayTaskId = d.arrayTaskId) : Reaches table job deps' := by
  cases h with
  | here mem nonzero found same =>
    obtain ⟨d', hd', hid, hptr, htask⟩ := hsame _ mem nonzero
    exact .here hd' (hid ▸ nonzero) (hptr ▸ found) (by rw [hid, htask]; exact same)
  | there mem nonzero found record unfinished depends next =>
    obtain ⟨d', hd', hid, hptr, -⟩ := hsame _ mem nonzero
    exact .there hd' (hid ▸ nonzero) (hptr ▸ found) record unfinished depends next

theorem Reaches.tail {dep : FedDependSpec} (h : Reaches table job deps) :
    Reaches table job (dep :: deps) :=
  h.congr fun d hd _ => ⟨d, mem_cons_of_mem dep hd, rfl, rfl, rfl⟩

/-- The job is found in a list where it can be found in those of other jobs. -/
theorem scanList_reaches {scan : List FedDependSpec → Nat → Bool × Nat}
    (hscan : ∀ deps n, (scan deps n).1 = true → Reaches table job deps)
    (deps : List FedDependSpec) (n : Nat) (h : (scanList table job scan deps n).1 = true) :
    Reaches table job deps := by
  induction deps generalizing n with
  | nil => exact absurd h (by simp [scanList])
  | cons dep deps ih =>
    unfold scanList at h
    split at h
    · exact (ih n h).tail
    · rename_i hid
      split at h
      · exact (ih n h).tail
      · rename_i hptr
        obtain ⟨ptr, hptr⟩ : ∃ ptr, dep.jobPtr = some ptr := by
          cases hcase : dep.jobPtr with
          | none => simp [hcase] at hptr
          | some ptr => exact ⟨ptr, rfl⟩
        rw [hptr] at h
        split at h
        · rename_i hsame
          exact .here mem_cons_self hid hptr hsame
        · split at h
          · exact (ih n h).tail
          · rename_i rec hrec
            split at h
            · exact (ih n h).tail
            · rename_i others hothers
              split at h
              · exact (ih n h).tail
              · rename_i hstate
                split at h
                · rename_i counter hfound
                  exact .there mem_cons_self hid hptr hrec hstate hothers
                    (hscan others n (by rw [hfound]))
                · exact (ih _ h).tail

/-- A request that is circular leads back to the job. -/
theorem circular_reaches {conf : Conf} (h : circular conf table job deps = true) :
    Reaches table job deps := by
  have hscan : ∀ (fuel : Nat) (deps : List FedDependSpec) (n : Nat),
      (scanDepend conf table job fuel deps n).1 = true → Reaches table job deps := by
    intro fuel
    induction fuel with
    | zero => exact fun deps n hfalse => absurd hfalse (by simp [scanDepend])
    | succ fuel ih =>
      intro deps n hfound
      unfold scanDepend at hfound
      split at hfound
      · exact absurd hfound Bool.false_ne_true
      · exact scanList_reaches ih deps (n + 1) hfound
  exact hscan _ deps 0 h

/-- There is no chain where no other job depends on any. -/
theorem not_reaches
    (hothers : ∀ d ∈ deps, d.jobId ≠ 0 → d.jobPtr ≠ some job.jobId ∧ d.arrayTaskId ≠ infinite)
    (hnone : ∀ r ∈ table.jobs, (r.details.bind Details.dependList).isNone) :
    ¬ Reaches table job deps := by
  intro h
  cases h with
  | here mem nonzero found same =>
    obtain ⟨hptr, htask⟩ := hothers _ mem nonzero
    unfold dependsOnSameJob at same
    rw [if_neg (fun hcase => htask hcase.1), decide_eq_true_iff, ← found] at same
    exact hptr same
  | there mem nonzero found record unfinished depends next =>
    have hrec := hnone _ (mem_of_find?_eq_some record)
    rw [depends] at hrec
    exact absurd hrec Bool.false_ne_true

end Circles

/-! ## The contract -/

/-- A job that is named exists and is not finished, is a local one, and is not the job itself. -/
structure Names (conf : Conf) (table : JobTable) (job : JobRecord) (r : Ref) : Prop where
  exists_job : ∃ dep, (r.found table).1 = some dep ∧ dep.state ≠ .finished
  other : dependsOnSameJob job ((r.found table).1.map (·.jobId)) (value r.job) (r.found table).2 =
    false
  origin : conf.isOriginJobId (value r.job) = true

/-- A request in the documented form. -/
structure Asked where
  conf : Conf
  table : JobTable
  job : JobRecord
  details : Details
  has_details : job.details = some details
  /-- `max_array_size` -/
  size : Nat
  valid_size : ValidSize size
  unfmt : conf.bitUnfmt = unfmtTasks size valid_size
  sep : Char
  is_sep : IsSep sep
  first : Item
  more : List Item
  written : ∀ i ∈ first :: more, i.Written size
  names : ∀ i ∈ first :: more, ∀ r ∈ i.refs, ∀ x ∈ r.standsFor size, Names conf table job x
  /-- A text that was packed is not longer. -/
  short : (itemsText sep first more).length < 2 ^ 30

def Asked.text (a : Asked) : List Char := itemsText a.sep a.first a.more

/-- A `'?'` is used. -/
def Asked.isOr (a : Asked) : Bool := decide (a.sep = '?') && !a.more.isEmpty

/-- One entry for each type, job and task, as it is first mentioned. -/
def Asked.expected (a : Asked) : List FedDependSpec :=
  ((a.first :: a.more).flatMap (Item.asks a.size a.table a.isOr)).eraseDupsBy sameJob

/-- The requests that are taken as they are written. -/
structure Asked.Taken (a : Asked) : Prop where
  /-- A job to expand is named alone, where this is permitted and the job may be expanded. -/
  expand : ∀ first more, Item.jobs .expand first more ∈ a.first :: a.more →
    a.conf.permitJobExpansion = true ∧ ∃ r, (first :: more).flatMap (Ref.standsFor a.size) = [r] ∧
      mayExpand a.job (r.found a.table).1 = true
  singleton : ∀ state, Item.singleton state ∈ a.first :: a.more →
    (a.conf.disableRemoteSingleton && !a.conf.isOriginJob) = false
  circle : ¬ Reaches a.table a.job a.expected
  single : ∀ i ∈ a.first :: a.more, ∀ r ∈ i.refs, r.Single a.size
  minutes : ∀ i ∈ a.first :: a.more, KeepsMinutes i.refs
  states : StatesFirst ((a.first :: a.more).flatMap Item.states)

/-! ## What is read -/

variable {i : Item}

section Taken

variable {size : Nat}

theorem rewritten_same {x : Ref} (hx : x ∈ r.rewritten size) :
    x.minutes = r.minutes ∧ x.state = r.state := by
  unfold Ref.rewritten at hx
  split at hx
  · split at hx
    · exact absurd hx not_mem_nil
    · rcases List.mem_cons.mp hx with rfl | hmem
      · exact ⟨rfl, rfl⟩
      · obtain ⟨u, -, rfl⟩ := List.mem_map.mp hmem
        exact ⟨rfl, rfl⟩
  · rw [mem_singleton] at hx
    exact ⟨by rw [hx], by rw [hx]⟩

/-- A job that is written in the place of another has no list. -/
theorem rewritten_valid (hsize : ValidSize size) {x : Ref} (hr : r.Valid)
    (hwritten : r.task.Written size) (hx : x ∈ r.rewritten size) : x.Valid ∧ x.task.Plain := by
  obtain ⟨y, hy, hjob, hxy, hnumber, hvalue⟩ := mem_rewritten hr.job.1 hx
  obtain ⟨hminutes, hstate⟩ := rewritten_same hx
  refine ⟨⟨⟨hnumber, hvalue ▸ hr.job.2⟩, hminutes ▸ hr.minutes, hstate ▸ hr.state⟩, ?_⟩
  have htask : x.task = y.task := by rw [hxy]
  rw [htask]
  unfold Ref.standsFor at hy
  split at hy
  · obtain ⟨t, ht, rfl⟩ := List.mem_map.mp hy
    have hlt : t < size := by
      unfold listed at ht
      exact List.mem_range.mp (List.mem_filter.mp ht).1
    have hbound := hsize.2
    refine ⟨isNumber_toString t, ?_⟩
    rw [value_toString]
    omega
  · rename_i hlist
    rw [mem_singleton] at hy
    subst hy
    cases hcase : y.task with
    | none => trivial
    | all => trivial
    | one digits =>
      rw [hcase] at hwritten
      have hlt := hwritten.2
      unfold noVal at hlt
      exact ⟨hwritten.1, by omega⟩
    | list text => exact absurd hcase (hlist text)

/-- What holds between jobs by their minutes or states holds when they are written out. -/
theorem pairwise_rewritten {β : Type} {g : Ref → β} {S : β → β → Prop} (hrefl : ∀ b, S b b)
    (hg : ∀ r x, x ∈ Ref.rewritten size r → g x = g r) {refs : List Ref}
    (h : refs.Pairwise fun a b => S (g a) (g b)) :
    (refs.flatMap (Ref.rewritten size)).Pairwise fun a b => S (g a) (g b) := by
  rw [pairwise_flatMap]
  constructor
  · intro r _
    apply pairwise_of_forall_mem_list
    intro x hx y hy
    rw [hg r x hx, hg r y hy]
    exact hrefl (g r)
  · refine h.imp ?_
    intro a b hab x hx y hy
    rw [hg a x hx, hg b y hy]
    exact hab

theorem keepsMinutes_rewritten (size : Nat) {refs : List Ref} (h : KeepsMinutes refs) :
    KeepsMinutes (refs.flatMap (Ref.rewritten size)) :=
  pairwise_rewritten (g := Ref.minutes) (S := fun a b => b = none → a = none) (fun _ => id)
    (fun _ _ hx => (rewritten_same hx).1) h

theorem mem_states_rewritten (hi : i.Written size) {state : Option (List Char)}
    (h : state ∈ (i.rewritten size).states) : state ∈ i.states := by
  cases i with
  | singleton s => exact h
  | jobs type first more =>
    obtain ⟨x, xs, hrefs, hitem⟩ := rewritten_jobs type more
      (hi.2 first mem_cons_self).2
    rw [hitem] at h
    unfold Item.states at h ⊢
    simp only [← hrefs] at h
    obtain ⟨y, hy, rfl⟩ := List.mem_map.mp h
    obtain ⟨r, hr, hyr⟩ := List.mem_flatMap.mp hy
    rw [(rewritten_same hyr).2]
    exact mem_map_of_mem hr

theorem statesFirst_rewritten {items : List Item} (hwritten : ∀ i ∈ items, i.Written size)
    (h : StatesFirst (items.flatMap Item.states)) :
    StatesFirst ((items.map (Item.rewritten size)).flatMap Item.states) := by
  unfold StatesFirst at h ⊢
  rw [pairwise_flatMap] at h ⊢
  obtain ⟨hown, hacross⟩ := h
  constructor
  · intro j hj
    obtain ⟨i, hi, rfl⟩ := List.mem_map.mp hj
    have hstates := hown i hi
    cases i with
    | singleton s => exact hstates
    | jobs type first more =>
      obtain ⟨x, xs, hrefs, hitem⟩ := rewritten_jobs type more
        ((hwritten _ hi).2 first mem_cons_self).2
      unfold Item.states at hstates
      rw [hitem]
      unfold Item.states
      simp only [← hrefs]
      rw [pairwise_map] at hstates ⊢
      exact pairwise_rewritten (g := Ref.state) (S := fun a b => a = none → b = none) (fun _ => id)
        (fun _ _ hx => (rewritten_same hx).2) hstates
  · rw [pairwise_map]
    refine hacross.imp_of_mem ?_
    intro i j hi hj hij s hs t ht
    exact hij s (mem_states_rewritten (hwritten i hi) hs) t (mem_states_rewritten (hwritten j hj) ht)

/-- The dependencies of an item, with their flags set, are those that it asks for. -/
theorem map_entries {conf : Conf} {table : JobTable} {job : JobRecord} (hsize : ValidSize size)
    (hi : i.Written size) (hnames : ∀ r ∈ i.refs, ∀ x ∈ r.standsFor size, Names conf table job x)
    (isOr : Bool) :
    ((i.rewritten size).entries table).map (setOr isOr) = i.asks size table isOr := by
  cases i with
  | singleton state =>
    show [setOr isOr (newSingleton (stateOf state))] = [asksSingleton isOr state]
    rw [setOr_singleton]
  | jobs type first more =>
    obtain ⟨-, hwritten⟩ := hi
    obtain ⟨x, xs, hrefs, hitem⟩ := rewritten_jobs type more
      (hwritten first mem_cons_self).2
    rw [hitem]
    unfold Item.entries Item.asks
    simp only [← hrefs, map_map]
    have hone : ∀ r ∈ first :: more, (r.rewritten size).map (setOr isOr ∘ Ref.entry table type) =
        (r.standsFor size).map (Ref.asks table isOr type) := by
      intro r hr
      obtain ⟨hvalid, htask⟩ := hwritten r hr
      rw [← map_rewritten (f := Ref.asks table isOr type) asks_job]
      apply map_congr_left
      intro y hy
      obtain ⟨z, hz, hjob, hyz, -, hvalue⟩ := mem_rewritten hvalid.job.1 hy
      obtain ⟨dep, hdep, -⟩ := (hnames r hr z hz).exists_job
      have hfound : y.found table = z.found table := by
        unfold Ref.found
        rw [hvalue, ← hjob, hyz]
      exact setOr_entry (by rw [hfound, hdep]; rfl) (rewritten_valid hsize hvalid htask hy).1 isOr
    rw [map_flatMap, map_flatMap]
    exact flatMap_congr hone

end Taken

/-! ## A request -/

section Request

variable {a : Asked}

/-- The items can be read when they are written out. -/
theorem Asked.Taken.ready (h : a.Taken) (hi : i ∈ a.first :: a.more) :
    (i.rewritten a.size).Ready a.conf a.table a.job := by
  have hwritten := a.written i hi
  have hnames := a.names i hi
  cases i with
  | singleton state => exact ⟨hwritten, h.singleton state hi⟩
  | jobs type first more =>
    obtain ⟨htype, hrefsWritten⟩ := hwritten
    obtain ⟨x, xs, hrefs, hitem⟩ := rewritten_jobs type more
      (hrefsWritten first mem_cons_self).2
    have hlist : (x :: xs).map (Ref.found a.table) =
        ((first :: more).flatMap (Ref.standsFor a.size)).map (Ref.found a.table) := by
      rw [← hrefs, map_flatMap, map_flatMap]
      apply flatMap_congr
      intro r _
      apply map_rewritten
      intro r job hvalue
      unfold Ref.found
      rw [hvalue]
    have halone : type = .expand → a.conf.permitJobExpansion = true ∧ xs = [] ∧
        mayExpand a.job (x.found a.table).1 = true := by
      intro hexpand
      subst hexpand
      obtain ⟨hpermit, r, hr, hmay⟩ := h.expand first more hi
      rw [hr] at hlist
      obtain ⟨hfound, hxs⟩ := List.cons.inj hlist
      exact ⟨hpermit, List.map_eq_nil_iff.mp hxs, by rw [hfound]; exact hmay⟩
    rw [hitem]
    refine ⟨htype, fun hexpand => ⟨(halone hexpand).1, (halone hexpand).2.1⟩, ?_, ?_⟩
    · intro y hy
      have hmem := hy
      rw [← hrefs, mem_flatMap] at hmem
      obtain ⟨r, hr, hyr⟩ := hmem
      obtain ⟨hvalid, htask⟩ := hrefsWritten r hr
      obtain ⟨hyvalid, hyplain⟩ := rewritten_valid a.valid_size hvalid htask hyr
      obtain ⟨z, hz, hjob, hyz, -, hvalue⟩ := mem_rewritten hvalid.job.1 hyr
      obtain ⟨⟨dep, hdep, -⟩, hother, horigin⟩ := hnames r hr z hz
      have hnumber : value y.job = value z.job := by rw [hvalue, hjob]
      have hfound : y.found a.table = z.found a.table := by
        unfold Ref.found
        rw [hnumber, hyz]
      refine ⟨hyvalid, hyplain, ⟨by rw [hfound, hdep]; rfl, ?_, ?_, ?_⟩⟩
      · rw [hfound, hnumber]
        exact hother
      · rw [hnumber]
        exact horigin
      · intro hexpand
        obtain ⟨-, hxs, hmay⟩ := halone hexpand
        rw [hxs, mem_singleton] at hy
        rw [hy]
        exact hmay
    · have hkeeps := keepsMinutes_rewritten a.size (h.minutes _ hi)
      unfold Item.refs at hkeeps
      rw [← hrefs]
      exact hkeeps

/-- What is read of the request. -/
theorem Asked.Taken.readRequest (h : a.Taken) :
    ∃ request, readRequest a.conf a.table a.job a.text = (.success, request, a.isOr) ∧
      request.dependList.map (setOr a.isOr) = a.expected := by
  have hread := xlate_items a.valid_size a.is_sep a.written h.single
    fun i hi r hr => lt_of_le_of_lt (length_ref_le hi hr) a.short
  have hready : ∀ i ∈ a.first.rewritten a.size :: a.more.map (Item.rewritten a.size),
      i.Ready a.conf a.table a.job := by
    intro j hj
    rw [← map_cons] at hj
    obtain ⟨i, hi, rfl⟩ := List.mem_map.mp hj
    exact h.ready hi
  have hstates := statesFirst_rewritten a.written h.states
  rw [map_cons] at hstates
  have hfuel : (a.more.map (Item.rewritten a.size)).length <
      (itemsText a.sep (a.first.rewritten a.size) (a.more.map (Item.rewritten a.size))).length + 1 := by
    have hle := length_le_flatMap (a.more.map (Item.rewritten a.size)) a.sep Item.text
    unfold itemsText
    rw [length_append]
    omega
  have hloop := readLoop_items a.is_sep hfuel hready hstates ⟨[], none⟩ false
  refine ⟨(a.first.rewritten a.size :: a.more.map (Item.rewritten a.size)).foldl
    (Request.addItem a.table) ⟨[], none⟩, ?_, ?_⟩
  · unfold ArrayDepend.readRequest Asked.text Asked.isOr
    rw [a.unfmt, hread, hloop, Bool.false_or, isEmpty_map]
  · have hadd : addDependencyToList = fun (l : List FedDependSpec) d =>
        if l.any (findDependency · d) then l else l ++ [d] := rfl
    rw [addItems_dependList, hadd,
      Lib.FirstMatch.foldl_absent fun (d kept : FedDependSpec) => findDependency kept d,
      Lib.FirstMatch.map_eraseDupsBy (findDependency_setOr a.isOr)]
    unfold Asked.expected
    congr 1
    rw [← map_cons, flatMap_map, map_flatMap]
    exact flatMap_congr fun i hi =>
      map_entries a.valid_size (a.written i hi) (a.names i hi) a.isOr

/-- Requests are not empty. -/
theorem itemsText_not_empty (sep : Char) (first : Item) (more : List Item) :
    isEmptyRequest (some (itemsText sep first more)) = false := by
  have htype : ∀ type : DependType, ∃ c t, dependTypeText type = c :: t ∧ c ≠ '0' := by
    intro type
    unfold dependTypeText
    cases type <;> exact ⟨_, _, rfl, by decide⟩
  obtain ⟨c, t, htext, hc⟩ : ∃ c t, itemsText sep first more = c :: t ∧ c ≠ '0' := by
    unfold itemsText
    cases first with
    | jobs type first more =>
      obtain ⟨c, t, htext, hc⟩ := htype type
      exact ⟨c, _, by rw [text_jobs, htext]; rfl, hc⟩
    | singleton state => exact ⟨'s', _, rfl, by decide⟩
  unfold isEmptyRequest
  rw [htext]
  simp [hc]

theorem itemsText_ne_nil (sep : Char) (first : Item) (more : List Item) :
    itemsText sep first more ≠ [] := by
  intro hnil
  have hempty := itemsText_not_empty sep first more
  rw [hnil] at hempty
  exact absurd hempty (by decide)

end Request

/-! ## Three jobs -/

theorem validSize_default : ValidSize 1001 := by decide

def threeJobsConf : Conf where
  permitJobExpansion := false
  maxDependDepth := 10
  bitUnfmt := unfmtTasks 1001 validSize_default
  disableRemoteSingleton := false
  isOriginJob := true
  isOriginJobId := fun _ => true

/-- A pending job that is no array. -/
def pendingJob (jobId : Nat) (dependList : Option (List FedDependSpec)) : JobRecord where
  jobId := jobId
  arrayJobId := 0
  arrayTaskId := noVal
  arrayRecs := none
  state := .pending
  qosId := 1
  part := some 1
  fedDetails := false
  details := some { dependency := none, dependList := dependList, expandingJobid := 0 }

theorem firstJob_details :
    (pendingJob 1 none).details =
      some { dependency := none, dependList := none, expandingJobid := 0 } := rfl

theorem threeJobs_meta (deps : Option (List FedDependSpec)) :
    ∀ r ∈ [pendingJob 1 none, pendingJob 2 deps, pendingJob 3 none], r.arrayRecs.isSome →
      r.jobId = r.arrayJobId := by
  intro r hr hsome
  simp at hr
  rcases hr with rfl | rfl | rfl <;> simp [pendingJob] at hsome

/-- Jobs 1 and 3 depend on nothing. -/
def threeJobs (deps : Option (List FedDependSpec)) : JobTable where
  jobs := [pendingJob 1 none, pendingJob 2 deps, pendingJob 3 none]
  meta_id := threeJobs_meta deps

theorem isSep_comma : IsSep ',' := Or.inl rfl

theorem isSep_question : IsSep '?' := Or.inr rfl

/-- The second job runs after the first. -/
def secondAfterFirst : List FedDependSpec :=
  [newDep .after .notFulfilled 0 1 noVal (some (pendingJob 1 none)) false]

end Slurm.ArrayDepend
