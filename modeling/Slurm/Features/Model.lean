import Slurm.Lib.Scanf

/-!
# Constraint strings (`slurmctld/job_scheduler.c`)

`_feature_string2list` reads a string such as `a&(b|c)|d` into a list of features.  A feature is
appended when the operator behind it is read, with the number of parentheses that are open then: the
last feature of a group has none.

The source writes a `'\0'` over each special character that it reads.  Here `ended` says that the
name has one behind it, and `cut` that the character before was overwritten.  A string is the list of
its characters.  The plugins' `changeable` is a parameter; the two bitmaps of a feature are not set
here.
-/

namespace Slurm.Features

open Lib.Scanf (decimal)

/-- The name of a feature. -/
abbrev Name := List Char

/-- `FEATURE_OP_OR` and the others -/
inductive FeatureOp where
  | or
  | and
  | mor
  | xand
  | fin
  deriving DecidableEq

/-- `job_feature_t` -/
structure JobFeature where
  name : Name
  bracket : Nat
  changeable : Bool
  count : Nat
  opCode : FeatureOp
  paren : Nat
  deriving DecidableEq

/-- `ESLURM_INVALID_FEATURE` -/
def eslurmInvalidFeature : Int := 2029

/-- `strtol` in base 10, given to an `int`: the number and the rest of the string. -/
def strtol (s : List Char) : Int × List Char :=
  match decimal s with
  | none => (0, s)
  | some (n, rest) => ((max (-2 ^ 63) (min (2 ^ 63 - 1) n)).bmod (2 ^ 32), rest)

/-- The local variables. -/
structure Scan where
  bracket : Nat
  paren : Nat
  brackSetCount : Nat
  count : Int
  feature : Option Name
  ended : Bool
  cut : Bool
  hasChangeable : Bool
  hasOr : Bool
  hasAsterisk : Bool
  featureList : List JobFeature

/-- Before the loop. -/
def Scan.init : Scan := ⟨0, 0, 0, 0, none, false, false, false, false, false, []⟩

/-- A feature is appended, and none is being read. -/
def Scan.append (st : Scan) (changeable : Name → Bool) (name : Name) (bracket : Nat)
    (opCode : FeatureOp) : Scan :=
  { st with
    count := 0
    feature := none
    cut := true
    hasChangeable := st.hasChangeable || changeable name
    featureList := st.featureList ++
      [⟨name, bracket, changeable name, (st.count % 2 ^ 16).toNat, opCode, st.paren⟩] }

/-- The operator that `&` stands for. -/
def andOp (st : Scan) (convert : Bool) : FeatureOp :=
  if st.paren ≠ 0 ∨ convert then .and else if st.bracket ≠ 0 then .xand else .and

/-- The operator that `|` stands for. -/
def orOp (st : Scan) (convert changeable : Bool) : FeatureOp :=
  if st.paren ≠ 0 ∧ ¬ convert then .or
  else if st.bracket ≠ 0 ∨ changeable ∨ convert then .mor
  else .or

/-- The body of the loop for the character `c`, with the string behind it: the variables, and the
number of characters that are passed over. -/
def turn (changeable : Name → Bool) (convert : Bool) (c : Char) (rest : List Char) (st : Scan) :
    Except Int (Scan × Nat) :=
  if c = '*' then
    if st.feature = none ∨ (strtol rest).1 ≤ 0 ∨ st.paren ≠ 0 then .error eslurmInvalidFeature
    else
      .ok ({ st with
        count := (strtol rest).1
        hasAsterisk := st.hasAsterisk || st.bracket = 0
        ended := true
        cut := false }, rest.length - (strtol rest).2.length)
  else if c = '&' then
    match st.feature with
    | none => .error eslurmInvalidFeature
    | some feature =>
      .ok (st.append changeable feature (if convert then 1 else st.bracket) (andOp st convert), 0)
  else if c = '|' then
    match st.feature with
    | none => .error eslurmInvalidFeature
    | some feature =>
      .ok ({ st.append changeable feature (if convert then 1 else st.bracket)
        (orOp st convert (changeable feature)) with hasOr := true }, 0)
  else if c = '[' then
    if st.feature ≠ none ∨ st.bracket ≠ 0 ∨ st.paren ≠ 0 ∨ st.brackSetCount + 1 > 1 then
      .error eslurmInvalidFeature
    else
      .ok ({ st with
        bracket := st.bracket + 1
        brackSetCount := st.brackSetCount + 1
        cut := true }, 0)
  else if c = ']' then
    if st.feature = none ∨ st.bracket = 0 ∨ st.paren ≠ 0 then .error eslurmInvalidFeature
    else .ok ({ st with bracket := st.bracket - 1, ended := true, cut := true }, 0)
  else if c = '(' then
    if st.feature ≠ none ∨ st.paren ≠ 0 then .error eslurmInvalidFeature
    else .ok ({ st with paren := st.paren + 1, cut := true }, 0)
  else if c = ')' then
    if st.feature = none ∨ st.paren = 0 then .error eslurmInvalidFeature
    else .ok ({ st with paren := st.paren - 1, ended := true, cut := true }, 0)
  else
    match st.feature with
    | none => .ok ({ st with feature := some [c], ended := false, cut := false }, 0)
    | some feature =>
      -- ')' and ']' should be followed by a token.
      if st.cut then .error eslurmInvalidFeature
      else
        .ok ({ st with
          feature := some (if st.ended then feature else feature ++ [c])
          cut := false }, 0)

/-- The loop; `skip` characters are still to be passed over. -/
def scan (changeable : Name → Bool) (convert : Bool) : List Char → Nat → Scan → Except Int Scan
  | [], _, st => .ok st
  | _ :: rest, skip + 1, st => scan changeable convert rest skip st
  | c :: rest, 0, st =>
    match turn changeable convert c rest st with
    | .ok (st', skip) => scan changeable convert rest skip st'
    | .error e => .error e

/-- The last feature, which has no operator behind it. -/
def finish (changeable : Name → Bool) (st : Scan) : Scan :=
  match st.feature with
  | none => st
  | some feature => st.append changeable feature st.bracket .fin

/-- `_feature_string2list`: the list, and `convert_to_matching_or` afterwards. -/
def featureString2list (changeable : Name → Bool) (features : List Char) (convert : Bool) :
    Except Int (List JobFeature × Bool) :=
  match scan changeable convert (features.map fun c => if c = ',' then '&' else c) 0 .init with
  | .error e => .error e
  | .ok st =>
    if (finish changeable st).bracket ≠ 0 then .error eslurmInvalidFeature
    else if (finish changeable st).paren ≠ 0 then .error eslurmInvalidFeature
    else if (finish changeable st).hasAsterisk ∧ (finish changeable st).featureList.length > 1 then
      .error eslurmInvalidFeature
    else
      .ok ((finish changeable st).featureList,
        (finish changeable st).hasChangeable && (finish changeable st).hasOr)

end Slurm.Features

/-!
## Active features (`slurmctld/node_scheduler.c`)

`find_feature_nodes` gives each feature of a list the nodes on which it is active and those on which it
is available.  `_match_feature` takes the list from left to right, and keeps a bitmap of nodes for the
operators outside parentheses and another one for those inside.

A bitmap has `w` bits, one for each node record.  `work_bitmap` is one of the other two bitmaps.
-/

namespace Slurm.Features

variable {w : Nat}

/-- The node table: the nodes that there are, and the two lists of features. -/
structure NodeTable (w : Nat) where
  existing : BitVec w
  activeFeatureList : Name → Option (BitVec w)
  availFeatureList : Name → Option (BitVec w)

/-- A feature with its two bitmaps. -/
structure FoundFeature (w : Nat) where
  feature : JobFeature
  nodeBitmapActive : BitVec w
  nodeBitmapAvail : Option (BitVec w)

/-- `find_feature_nodes`, for one feature. -/
def findFeature (table : NodeTable w) (canReboot : Bool) (f : JobFeature) : FoundFeature w :=
  ⟨f, (table.activeFeatureList f.name).getD 0,
    some (if canReboot && f.changeable then (table.availFeatureList f.name).getD 0
      else (table.activeFeatureList f.name).getD 0)⟩

/-- `find_feature_nodes` -/
def findFeatureNodes (table : NodeTable w) (canReboot : Bool) (featureList : List JobFeature) :
    List (FoundFeature w) := featureList.map (findFeature table canReboot)

/-- The two bitmaps that `work_bitmap` may be. -/
inductive Work where
  | feature
  | paren
  deriving DecidableEq

/-- The local variables. -/
structure MatchArg (w : Nat) where
  lastOp : FeatureOp
  lastParenOp : FeatureOp
  lastParenCnt : Nat
  featureBitmap : BitVec w
  parenBitmap : BitVec w
  workBitmap : Work

/-- The operator between two bitmaps: only an or adds nodes. -/
def applyOp (op : FeatureOp) (a b : BitVec w) : BitVec w := if op = .or then a ||| b else a &&& b

/-- `work_bitmap` is changed. -/
def MatchArg.modifyWork (args : MatchArg w) (g : BitVec w → BitVec w) : MatchArg w :=
  match args.workBitmap with
  | .feature => { args with featureBitmap := g args.featureBitmap }
  | .paren => { args with parenBitmap := g args.parenBitmap }

/-- The bits of `work_bitmap`. -/
def MatchArg.work (args : MatchArg w) : BitVec w :=
  match args.workBitmap with
  | .feature => args.featureBitmap
  | .paren => args.parenBitmap

/-- The start of an expression in parentheses. -/
def matchStart (existing : BitVec w) (f : FoundFeature w) (args : MatchArg w) : MatchArg w :=
  if args.lastParenCnt < f.feature.paren then
    { args with
      lastParenOp := args.lastOp
      lastOp := .and
      parenBitmap := existing
      workBitmap := .paren }
  else args

/-- The feature itself. -/
def matchAdd (f : FoundFeature w) (args : MatchArg w) : MatchArg w :=
  match f.nodeBitmapAvail with
  | some _ => args.modifyWork fun b => applyOp args.lastOp b f.nodeBitmapActive
  | none => if args.lastOp = .and then args.modifyWork fun _ => 0 else args

/-- The end of an expression in parentheses. -/
def matchEnd (f : FoundFeature w) (args : MatchArg w) : MatchArg w :=
  if args.lastParenCnt > f.feature.paren then
    { args with
      featureBitmap := applyOp args.lastParenOp args.featureBitmap args.work
      workBitmap := .feature }
  else args

/-- The body of the loop. -/
def matchOne (existing : BitVec w) (args : MatchArg w) (f : FoundFeature w) : MatchArg w :=
  { matchEnd f (matchAdd f (matchStart existing f args)) with
    lastOp := f.feature.opCode
    lastParenCnt := f.feature.paren }

/-- Before the loop. -/
def MatchArg.init (existing : BitVec w) : MatchArg w := ⟨.and, .and, 0, existing, 0, .feature⟩

/-- `_match_feature`: what it returns, and `inactive_bitmap`, where it is set.  `count` is what
`node_features_g_count` returns. -/
def matchFeature (count : Nat) (existing : BitVec w) (featureList : Option (List (FoundFeature w))) :
    Int × Option (BitVec w) :=
  match featureList with
  | none => (0, none)
  | some list =>
    if count = 0 then (0, none)
    else if (list.foldl (matchOne existing) (.init existing)).featureBitmap = BitVec.allOnes w then
      (0, none)
    else (1, some (~~~ (list.foldl (matchOne existing) (.init existing)).featureBitmap))

end Slurm.Features

/-!
## Feature sets (`common/job_features.c`)

`job_features_list2feature_sets` turns a list of features into a list of sets, each of which is enough
for the job.  Inside parentheses the sets of the group are in `paren_lists`; at its end they are
distributed over the sets that there are.  At an `|` outside the sets are final.

`working_list` is one of the other two lists.  `tmp_feature_list` is the last list of `paren_lists`
wherever it is used, and what is kept of it is whether it is set.
-/

namespace Slurm.Features

/-- A set of features, in the order in which they were added. -/
abbrev FeatureSet := List JobFeature

/-- `_copy_job_feature_ptr_unique`, and the same in `_evaluate_job_feature` -/
def copyUnique (featureSet : FeatureSet) (f : JobFeature) : FeatureSet :=
  if featureSet.any fun g => g.name == f.name then featureSet else featureSet ++ [f]

/-- `_distribute_lists` -/
def distributeLists (featureSets distributeLists : List FeatureSet) : List FeatureSet :=
  if featureSets.isEmpty then distributeLists
  else featureSets.flatMap fun featureSet => distributeLists.map fun s => s.foldl copyUnique featureSet

/-- The two lists that `working_list` may be. -/
inductive Working where
  | curr
  | paren
  deriving DecidableEq

/-- `evalute_feature_arg_t` -/
structure EvalArg where
  lastParenCnt : Nat
  lastOp : FeatureOp
  lastParenOp : FeatureOp
  parenLists : Option (List FeatureSet)
  currFeatureSets : List FeatureSet
  finalFeatureSets : List FeatureSet
  tmpFeatureList : Bool
  workingList : Working

/-- Before the first feature. -/
def EvalArg.init : EvalArg := ⟨0, .and, .and, none, [], [], false, .curr⟩

/-- The operators that make an or. -/
def FeatureOp.isOr (op : FeatureOp) : Bool := op == .or || op == .mor

/-- A set is appended to `working_list`. -/
def EvalArg.appendWorking (args : EvalArg) (s : FeatureSet) : EvalArg :=
  match args.workingList with
  | .curr => { args with currFeatureSets := args.currFeatureSets ++ [s] }
  | .paren => { args with parenLists := args.parenLists.map (· ++ [s]) }

/-- A feature is added to the last list of `paren_lists`. -/
def addToLast (lists : List FeatureSet) (f : JobFeature) : List FeatureSet :=
  match lists.getLast? with
  | none => lists
  | some s => lists.dropLast ++ [copyUnique s f]

/-- The start of an expression in parentheses. -/
def startParen (f : JobFeature) (args : EvalArg) : EvalArg :=
  if args.lastParenCnt < f.paren then
    { args with
      lastParenOp := args.lastOp
      lastOp := .and
      parenLists := some []
      workingList := .paren
      tmpFeatureList := false }
  else args

/-- The feature itself. -/
def addFeature (f : JobFeature) (args : EvalArg) : EvalArg :=
  if args.lastOp.isOr then { args.appendWorking [f] with tmpFeatureList := true }
  else
    match args.parenLists with
    | some lists =>
      if args.tmpFeatureList then { args with parenLists := some (addToLast lists f) }
      else { args with parenLists := some (lists ++ [[f]]), tmpFeatureList := true }
    | none =>
      { args with
        currFeatureSets := distributeLists args.currFeatureSets [[f]]
        workingList := .curr }

/-- The end of an expression in parentheses. -/
def endParen (f : JobFeature) (args : EvalArg) : EvalArg :=
  if args.lastParenCnt > f.paren then
    { args with
      currFeatureSets :=
        if args.lastParenOp.isOr then args.currFeatureSets ++ args.parenLists.getD []
        else distributeLists args.currFeatureSets (args.parenLists.getD [])
      parenLists := none
      tmpFeatureList := false
      workingList := .curr }
  else args

/-- An `|` that is not inside parentheses. -/
def closeSets (f : JobFeature) (args : EvalArg) : EvalArg :=
  if args.parenLists = none ∧ f.opCode.isOr then
    { args with
      finalFeatureSets := args.finalFeatureSets ++ args.currFeatureSets
      currFeatureSets := [] }
  else args

/-- `_evaluate_job_feature` -/
def evaluateJobFeature (args : EvalArg) (f : JobFeature) : EvalArg :=
  { closeSets f (endParen f (addFeature f (startParen f args))) with
    lastOp := f.opCode
    lastParenCnt := f.paren }

/-- `job_features_list2feature_sets` -/
def list2featureSets (jobFeatureList : List JobFeature) : List FeatureSet :=
  (jobFeatureList.foldl evaluateJobFeature .init).finalFeatureSets ++
    (jobFeatureList.foldl evaluateJobFeature .init).currFeatureSets

/-- The names of a set, with commas between them. -/
def setNames : FeatureSet → List Char
  | [] => []
  | f :: s => f.name ++ s.flatMap fun g => ',' :: g.name

/-- `job_features_set2str` -/
def featuresSet2str (str : Option (List Char)) (s : FeatureSet) : Option (List Char) :=
  if ')' ∈ str.getD [] then some (str.getD [] ++ "|(".toList ++ setNames s ++ ")".toList)
  else some (str.getD [] ++ "(".toList ++ setNames s ++ ")".toList)

/-- The string of all sets; `NULL` where there is none. -/
def featureSets2str (sets : List FeatureSet) : Option (List Char) := sets.foldl featuresSet2str none

end Slurm.Features
