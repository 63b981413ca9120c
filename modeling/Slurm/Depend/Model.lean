import Slurm.Lib.Cycles

/-!
# Job dependencies (`slurmctld/job_scheduler.c`)

`updateJobDependency` is `update_job_dependency`, for jobs that are no arrays, on a cluster
that is not federated.  Such a job is found by its id alone, so that the id stands for the
pointer to its record.  Texts are lists of characters.

The string of dependencies is read by two loops, `readLoop` over its specifications and
`parseDependencyJobidNew` over the job ids of one of them; both have the length of the string
for a bound.  `scanDepend` is the search for the job in the lists of other jobs, with the
counter that all calls of one search share.

The generic resources of a job that expands another one, and the log, are left out.
-/

namespace Slurm.Depend

/-! ## Data -/

/-- `SLURM_DEPEND_*` -/
inductive DependType where
  | after
  | afterAny
  | afterNotOk
  | afterOk
  | singleton
  | expand
  | afterCorrespond
  | burstBuffer
  deriving DecidableEq, Repr

inductive DependState where
  | notFulfilled
  | fulfilled
  | failed
  deriving DecidableEq, Repr

/-- `depend_spec_t` -/
structure DependSpec where
  arrayTaskId : Nat
  dependType : DependType
  /-- `SLURM_FLAGS_OR` -/
  flagsOr : Bool
  dependState : DependState
  dependTime : Int
  jobId : Nat
  /-- The record of the job, if it was found. -/
  jobPtr : Option Nat
  deriving DecidableEq, Repr

/-- `job_details_t` -/
structure Details where
  dependency : Option (List Char)
  dependList : Option (List DependSpec)
  expandingJobid : Nat

inductive JobState where
  | pending
  | running
  | suspended
  | finished
  deriving DecidableEq, Repr

/-- `job_record_t` -/
structure Job where
  state : JobState
  qosId : Nat
  part : Option Nat
  details : Option Details

/-- `find_job_record`, for the jobs that there are. -/
abbrev Jobs := Nat → Option Job

/-- What the functions read of the configuration. -/
structure Conf where
  permitJobExpansion : Bool
  maxDependDepth : Nat
  /-- `bit_unfmt` into as many bits as an array may have: the bits that are set, in order. -/
  bitUnfmt : List Char → Option (List Nat)

inductive Rc where
  | success
  | einval
  | dependency
  | notSupported
  | circularDependency
  deriving DecidableEq, Repr

def noVal : Nat := 0xfffffffe

def infinite : Nat := 0xffffffff

/-! ## Numbers in texts -/

def isSpace (c : Char) : Bool := c == ' ' || (9 ≤ c.toNat && c.toNat ≤ 13)

/-- The sign before the digits, and what is after it. -/
def strtolSign : List Char → Bool × List Char
  | '-' :: t => (true, t)
  | '+' :: t => (false, t)
  | t => (false, t)

/-- `strtol`: the number at the start, and what is after it. -/
def strtol (s : List Char) : Int × List Char :=
  let (negative, t) := strtolSign (s.dropWhile isSpace)
  let digits := t.takeWhile Char.isDigit
  if digits = [] then (0, s)
  else
    let n : Int := digits.foldl (fun n c => 10 * n + (c.toNat - '0'.toNat)) 0
    (max (-2 ^ 63) (min (2 ^ 63 - 1) (if negative then -n else n)), t.dropWhile Char.isDigit)

/-- A number as a `uint32_t`. -/
def u32 (i : Int) : Nat := (i % 2 ^ 32).toNat

/-- A number as an `int`. -/
def i32 (i : Int) : Int := (i + 2 ^ 31) % 2 ^ 32 - 2 ^ 31

def lower (s : List Char) : List Char := s.map Char.toLower

/-- `xstrncasecmp` finds `key` at the start of the text. -/
def startsWith (key : String) (s : List Char) : Bool := lower (s.take key.toList.length) == key.toList

/-! ## Reading a request -/

/-- The loop of `_xlate_array_dep`, where `skip` characters are passed over, and `jobidPtr` is
where a number started. -/
def xlateLoop (unfmt : List Char → Option (List Nat)) :
    List Char → Nat → Option (List Char) → List Char → Option (List Char)
  | [], _, _, out => some out
  | _ :: rest, skip + 1, jobidPtr, out => xlateLoop unfmt rest skip jobidPtr out
  | c :: rest, 0, jobidPtr, out =>
    if c.isDigit then
      xlateLoop unfmt rest 0 (some (jobidPtr.getD (c :: rest))) (out ++ [c])
    else
      match jobidPtr, c, rest with
      | some p, '_', '[' :: text =>
        let tasks := text.takeWhile (· ≠ ']')
        if ']' ∉ text then none
        else
          match unfmt tasks with
          | some (first :: others) =>
            let jobId := (toString (u32 (strtol p).1)).toList
            let more := others.map fun t => ':' :: jobId ++ '_' :: (toString t).toList
            xlateLoop unfmt rest (tasks.length + 2) none
              (out ++ [c] ++ (toString first).toList ++ more.flatten)
          | _ => none
      | _, _, _ => xlateLoop unfmt rest 0 none (out ++ [c])

/-- `_xlate_array_dep` -/
def xlateArrayDep (unfmt : List Char → Option (List Nat)) (newDepend : List Char) :
    Option (List Char) :=
  if ['_', '['] <:+: newDepend then xlateLoop unfmt newDepend 0 none [] else none

/-- `_find_dependency` -/
def findDependency (dep newDep : DependSpec) : Bool :=
  dep.jobId == newDep.jobId && dep.arrayTaskId == newDep.arrayTaskId &&
    dep.dependType == newDep.dependType

/-- `_add_dependency_to_list` -/
def addDependencyToList (dependList : List DependSpec) (dep : DependSpec) : List DependSpec :=
  if dependList.any (findDependency · dep) then dependList else dependList ++ [dep]

/-- `_parse_depend_state` -/
def parseDependState (s : List Char) : Option (DependState × List Char) :=
  if '(' ∈ s then
    if ')' ∈ s then
      -- The text is cut at the first closing parenthesis.
      let cut := s.takeWhile (· ≠ ')')
      let text := if '(' ∈ cut then (cut.dropWhile (· ≠ '(')).tail else (s.dropWhile (· ≠ '(')).tail
      some (if lower text = "failed".toList then .failed else .notFulfilled,
        (s.dropWhile (· ≠ ')')).tail)
    else none
  else some (.notFulfilled, s)

/-- `_find_dependent_job_ptr`: a job that is no array is found when no task of it is asked
for. -/
def findDependentJobPtr (jobs : Jobs) (jobId arrayTaskId : Nat) : Option Nat :=
  if arrayTaskId = noVal ∧ (jobs jobId).isSome then some jobId else none

/-- `_depends_on_same_job`, of a job that is no array. -/
def dependsOnSameJob (job : Nat) (depJob : Option Nat) : Bool := depJob == some job

/-- A job id, with a task id if there is one, and what is after it. -/
def parseJobRef (s : List Char) : Nat × Nat × List Char :=
  match strtol s with
  | (v, '_' :: '*' :: rest) => (u32 v, infinite, rest)
  | (v, '_' :: rest) => (u32 v, u32 (strtol rest).1, (strtol rest).2)
  | (v, tmp) => (u32 v, noVal, tmp)

/-- What was read so far: `new_depend_list`, and what was put into `expanding_jobid`. -/
structure Request where
  dependList : List DependSpec
  expanding : Option Nat

/-- What a part of the request comes to: a return code, the request so far, and the rest of the
text. -/
structure Parsed where
  rc : Rc
  request : Request
  rest : List Char

/-- `dep_job_ptr` may be expanded by the job. -/
def mayExpand (jobs : Jobs) (job : Job) (depJob : Option Nat) : Bool :=
  match depJob.bind jobs with
  | none => false
  | some dep =>
    dep.state == .running && dep.qosId == job.qosId && dep.part.isSome && job.part.isSome &&
      dep.part == job.part

/-- The time after a `'+'`, if there is one: `none` for an error. -/
def parseDependTime (dependTime : Int) (tmp : List Char) : Option (Int × List Char) :=
  match tmp with
  | '+' :: rest =>
    let minutes := i32 (strtol rest).1
    if minutes ≤ 0 then none else some (i32 (minutes * 60), (strtol rest).2)
  | _ => some (dependTime, tmp)

/-- What may stand after a job id. -/
def endsJobRef (tmp : List Char) : Bool :=
  match tmp with
  | [] => true
  | c :: _ => [',', '?', ':', '+', '('].contains c

/-- The dependency that is made for a job id. -/
def newDep (dependType : DependType) (state : DependState) (time : Int) (jobId arrayTaskId : Nat)
    (depJob : Option Nat) : DependSpec :=
  { arrayTaskId := arrayTaskId
    dependType := dependType
    flagsOr := false
    dependState := state
    dependTime := time
    jobId := jobId
    jobPtr := depJob }

/-- The loop of `_parse_dependency_jobid_new` for one job id, after `expandCnt` jobs to expand and
with the time that was read last: what it comes to, and the time. -/
def parseJobid (jobs : Jobs) (job : Nat) (rec : Job) (dependType : DependType) (expandCnt : Nat)
    (dependTime : Int) (request : Request) (s : List Char) : Parsed × Int :=
  let (jobId, arrayTaskId, tmp) := parseJobRef s
  let depJob := findDependentJobPtr jobs jobId arrayTaskId
  if jobId = 0 ∨ ¬ endsJobRef tmp then (⟨.dependency, request, tmp⟩, dependTime)
  else if depJob = none ∧ (dependType = .afterOk ∨ dependType = .afterNotOk) then
    (⟨.dependency, request, tmp⟩, dependTime)
  else if dependsOnSameJob job depJob then (⟨.dependency, request, tmp⟩, dependTime)
  else if dependType = .expand ∧ (0 < expandCnt ∨ ¬ mayExpand jobs rec depJob) then
    (⟨.dependency, request, tmp⟩, dependTime)
  else
    match parseDependTime dependTime tmp with
    | none => (⟨.dependency, request, tmp⟩, dependTime)
    | some (dependTime, tmp) =>
      match parseDependState tmp with
      | none => (⟨.dependency, request, tmp⟩, dependTime)
      | some (state, tmp) =>
        let dep := newDep dependType state dependTime jobId arrayTaskId depJob
        let request : Request :=
          { dependList := addDependencyToList request.dependList dep
            expanding := if dependType = .expand then some jobId else request.expanding }
        (⟨.success, request, tmp⟩, dependTime)

/-- `_parse_dependency_jobid_new` -/
def parseDependencyJobidNew (jobs : Jobs) (job : Nat) (rec : Job) (dependType : DependType) :
    Nat → Nat → Int → Request → List Char → Parsed
  | 0, _, _, request, s => ⟨.dependency, request, s⟩
  | fuel + 1, expandCnt, dependTime, request, s =>
    let (parsed, dependTime) := parseJobid jobs job rec dependType expandCnt dependTime request s
    if parsed.rc ≠ .success then parsed
    else
      match parsed.rest with
      | ':' :: rest =>
        parseDependencyJobidNew jobs job rec dependType fuel (expandCnt + 1) dependTime parsed.request
          rest
      | _ => parsed

/-- `_parse_dependency_jobid_old` -/
def parseDependencyJobidOld (jobs : Jobs) (job : Nat) (request : Request) (tok : List Char) :
    Parsed :=
  let (jobId, arrayTaskId, tmp) := parseJobRef tok
  let depJob := findDependentJobPtr jobs jobId arrayTaskId
  if jobId = 0 ∨ ¬ (tmp = [] ∨ tmp.head? = some ',') then ⟨.dependency, request, tmp⟩
  else if dependsOnSameJob job depJob then ⟨.dependency, request, tmp⟩
  else
    let dep := newDep .afterAny .notFulfilled 0 jobId arrayTaskId depJob
    ⟨.success, { request with dependList := addDependencyToList request.dependList dep }, tmp⟩

/-- The type of a specification in the new format. -/
def dependTypeOf (conf : Conf) (tok : List Char) : Except Rc DependType :=
  if startsWith "afternotok:" tok then .ok .afterNotOk
  else if startsWith "aftercorr:" tok then .ok .afterCorrespond
  else if startsWith "afterany:" tok then .ok .afterAny
  else if startsWith "afterok:" tok then .ok .afterOk
  else if startsWith "afterburstb" tok then .ok .burstBuffer
  else if startsWith "after:" tok then .ok .after
  else if startsWith "expand:" tok then
    if conf.permitJobExpansion then .ok .expand else .error .notSupported
  else .error .dependency

/-- After a specification: the request ends with a return code, or goes on, after a `'?'` or a
`','`. -/
inductive Next where
  | stop (rc : Rc)
  | go (orFlag : Bool) (tok : List Char)

/-- A specification of `update_job_dependency`. -/
def readSpec (conf : Conf) (jobs : Jobs) (job : Nat) (rec : Job) (request : Request)
    (tok : List Char) : Request × Next :=
  if startsWith "singleton" tok then
    match parseDependState (tok.drop 9) with
    | none => (request, .stop .dependency)
    | some (state, tok) =>
      let dep := newDep .singleton state 0 0 0 none
      let request := { request with dependList := addDependencyToList request.dependList dep }
      match tok with
      | [] => (request, .stop .success)
      | ',' :: tok => (request, .go false tok)
      | '?' :: tok => (request, .go true tok)
      | _ => (request, .stop .dependency)
  else if ':' ∉ tok then
    if tok.head?.any Char.isDigit then
      let parsed := parseDependencyJobidOld jobs job request tok
      if parsed.rc ≠ .success then (parsed.request, .stop parsed.rc)
      else
        match parsed.rest with
        | ',' :: tok => (parsed.request, .go false tok)
        | _ => (parsed.request, .stop .success)
    else (request, .stop .dependency)
  else
    match dependTypeOf conf tok with
    | .error rc => (request, .stop rc)
    | .ok dependType =>
      let s := (tok.dropWhile (· ≠ ':')).tail
      let parsed := parseDependencyJobidNew jobs job rec dependType (s.length + 1) 0 0 request s
      if parsed.rc ≠ .success then (parsed.request, .stop parsed.rc)
      else
        match parsed.rest with
        | ',' :: tok => (parsed.request, .go false tok)
        | '?' :: tok => (parsed.request, .go true tok)
        | _ => (parsed.request, .stop .success)

/-- The loop of `update_job_dependency` over the specifications, with `or_flag`. -/
def readLoop (conf : Conf) (jobs : Jobs) (job : Nat) (rec : Job) :
    Nat → Request → Bool → List Char → Rc × Request × Bool
  | 0, request, orFlag, _ => (.dependency, request, orFlag)
  | fuel + 1, request, orFlag, tok =>
    match readSpec conf jobs job rec request tok with
    | (request, .stop rc) => (rc, request, orFlag)
    | (request, .go isOr tok) => readLoop conf jobs job rec fuel request (orFlag || isOr) tok

/-- The reading of a request that is not empty: the return code, what was read, and `or_flag`. -/
def readRequest (conf : Conf) (jobs : Jobs) (job : Nat) (rec : Job) (newDepend : List Char) :
    Rc × Request × Bool :=
  let tok := (xlateArrayDep conf.bitUnfmt newDepend).getD newDepend
  readLoop conf jobs job rec (tok.length + 1) ⟨[], none⟩ false tok

/-! ## Circular dependencies -/

/-- The loop over a list, which stops where the job is found.  `scan` is the call for the list of
another job. -/
def scanList (jobs : Jobs) (job : Nat) (scan : List DependSpec → Nat → Bool × Nat) :
    List DependSpec → Nat → Bool × Nat
  | [], jobCounter => (false, jobCounter)
  | dep :: deps, jobCounter =>
    if dep.jobId = 0 then scanList jobs job scan deps jobCounter
    else if dep.jobPtr = none then scanList jobs job scan deps jobCounter
    else if dependsOnSameJob job dep.jobPtr then (true, jobCounter)
    else
      match dep.jobPtr.bind jobs with
      | none => scanList jobs job scan deps jobCounter
      | some rec =>
        match rec.details.bind Details.dependList with
        | none => scanList jobs job scan deps jobCounter
        | some dependList =>
          if rec.state = .finished then scanList jobs job scan deps jobCounter
          else
            match scan dependList jobCounter with
            | (true, jobCounter) => (true, jobCounter)
            | (false, jobCounter) => scanList jobs job scan deps jobCounter

/-- `_scan_depend`, with the counter before and after it. -/
def scanDepend (conf : Conf) (jobs : Jobs) (job : Nat) : Nat → List DependSpec → Nat → Bool × Nat
  | 0, _, jobCounter => (false, jobCounter + 1)
  | fuel + 1, dependList, jobCounter =>
    if conf.maxDependDepth ≤ jobCounter then (false, jobCounter + 1)
    else scanList jobs job (scanDepend conf jobs job fuel) dependList (jobCounter + 1)

/-- The search for the job in its new dependencies, with the number of lists it came to.  The
calls are nested no deeper than the counter goes. -/
def circular (conf : Conf) (jobs : Jobs) (job : Nat) (dependList : List DependSpec) : Bool × Nat :=
  scanDepend conf jobs job (conf.maxDependDepth + 1) dependList 0

/-! ## The update -/

def dependTypeText : DependType → List Char
  | .after => "after".toList
  | .afterAny => "afterany".toList
  | .afterNotOk => "afternotok".toList
  | .afterOk => "afterok".toList
  | .afterCorrespond => "aftercorr".toList
  | .expand => "expand".toList
  | .burstBuffer => "afterburstbuffer".toList
  | .singleton => "singleton".toList

def dependStateText : DependState → List Char
  | .notFulfilled => "unfulfilled".toList
  | .fulfilled => "fulfilled".toList
  | .failed => "failed".toList

/-- The text of a dependency. -/
def dependText (dep : DependSpec) : List Char :=
  let state := '(' :: dependStateText dep.dependState ++ [')']
  if dep.dependType = .singleton then dependTypeText .singleton ++ state
  else
    let task :=
      if dep.arrayTaskId = infinite then ['_', '*']
      else if dep.arrayTaskId = noVal then []
      else '_' :: (toString dep.arrayTaskId).toList
    let time :=
      if dep.dependTime = 0 then [] else '+' :: (toString (u32 dep.dependTime / 60)).toList
    dependTypeText dep.dependType ++ ':' :: (toString dep.jobId).toList ++ task ++ time ++ state

/-- `_foreach_depend_list2str` over the list: the text after `sep`, and the list with its flags. -/
def dependListText (setOrFlag : Bool) : List Char → List DependSpec → List Char × List DependSpec
  | _, [] => ([], [])
  | sep, dep :: deps =>
    if dep.dependState = .fulfilled then
      let (text, deps) := dependListText setOrFlag sep deps
      (text, dep :: deps)
    else
      let dep' := { dep with flagsOr := dep.flagsOr || setOrFlag }
      let (text, deps) := dependListText setOrFlag (if dep'.flagsOr then ['?'] else [',']) deps
      (sep ++ dependText dep ++ text, dep' :: deps)

/-- The list is taken over, and `_depend_list2str` makes its text. -/
def Details.setDepends (details : Details) (dependList : List DependSpec) (orFlag : Bool) : Details :=
  let (text, dependList) := dependListText orFlag [] dependList
  { details with
    dependency := if dependList = [] then none else some text
    dependList := some dependList }

/-- The request clears the dependencies. -/
def isEmptyRequest (newDepend : Option (List Char)) : Bool :=
  newDepend == none || newDepend == some [] || newDepend == some ['0']

/-- `update_job_dependency`: the return code, and the details of the job. -/
def updateJobDependency (conf : Conf) (jobs : Jobs) (job : Nat) (rec : Job)
    (newDepend : Option (List Char)) : Rc × Option Details :=
  match rec.details with
  | none => (.einval, none)
  | some details =>
    let details := { details with expandingJobid := 0 }
    match newDepend with
    | none => (.success, some { details with dependency := none, dependList := none })
    | some text =>
      if isEmptyRequest newDepend then
        (.success, some { details with dependency := none, dependList := none })
      else
        let (rc, request, orFlag) := readRequest conf jobs job rec text
        let details := { details with expandingJobid := request.expanding.getD 0 }
        if rc ≠ .success then (rc, some details)
        else if (circular conf jobs job request.dependList).1 then
          (.circularDependency, some details)
        else (.success, some (details.setDepends request.dependList orFlag))

/-- The jobs after it. -/
def setDetails (jobs : Jobs) (job : Nat) (details : Option Details) : Jobs :=
  Function.update jobs job ((jobs job).map fun rec => { rec with details := details })

end Slurm.Depend
