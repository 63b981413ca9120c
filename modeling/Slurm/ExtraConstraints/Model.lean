import Mathlib

/-!
# Extra constraints (`common/extra_constraints.c`)

A string such as `a=23&(b<=42|c=foo)` is parsed by recursive descent into a tree of
elements, and a tree is tested on the data of a node, which is a dictionary.

`recurse` is `_recurse`.  Its loop and its recursion both go on in the same string, so
they have one bound: `fuel` is how many more steps there may be.  `compare` is `_compare`
with the conversions of `common/data.c` that it uses.  Doubles, and the C library's
reading of numbers, are the parameter `Numbers`.
-/

namespace Slurm.ExtraConstraints

/-! ## Operators -/

/-- `op_t` -/
inductive Op where
  | none
  | childAnd
  | childAndComma
  | childOr
  | leafEq
  | leafNe
  | leafGt
  | leafGte
  | leafLt
  | leafLte
  deriving DecidableEq, Repr

/-- `op_table`, from `OP_BEGIN` on. -/
def opTable : List (Op × List Char) :=
  [(.childAnd, ['&']), (.childAndComma, [',']), (.childOr, ['|']), (.leafEq, ['=']),
    (.leafNe, ['!', '=']), (.leafGt, ['>']), (.leafGte, ['>', '=']), (.leafLt, ['<']),
    (.leafLte, ['<', '='])]

def childOpChars : List Char := [',', '&', '|']

def leafOpChars : List Char := ['<', '>', '=', '!']

def opChars : List Char := [',', '&', '|', '<', '>', '=', '!']

/-- `_str2op`: the operator at the start of `str`, which goes as far as there are
`validChars`, and what is after it. -/
def str2op (str validChars : List Char) : Op × List Char :=
  let run := str.takeWhile (validChars.contains ·)
  let op := ((opTable.find? fun e => e.2 == run).map Prod.fst).getD .none
  (if op = .childAndComma then .childAnd else op, str.dropWhile (validChars.contains ·))

/-! ## Elements -/

/-- `elem_t`.  A leaf has no children, and only a leaf has a key and a value. -/
inductive Elem where
  | mk (operator : Op) (children : List Elem) (key value : Option (List Char))

def Elem.operator : Elem → Op
  | .mk op _ _ _ => op

/-- An element as `xmalloc` makes it. -/
def Elem.alloc : Elem := .mk .none [] none none

def Elem.setOperator (op : Op) : Elem → Elem
  | .mk _ cs k v => .mk op cs k v

/-- `_add_child` -/
def Elem.addChild : Elem → Elem → Elem
  | .mk op cs k v, child => .mk op (cs ++ [child]) k v

/-! ## Parsing -/

/-- `_valid_key_value` -/
def validKeyValue (str : List Char) : Bool := !str.isEmpty && str.all fun c => !opChars.contains c

/-- `_parse_leaf` -/
def parseLeaf (str : List Char) : Option Elem :=
  let key := str.takeWhile fun c => !leafOpChars.contains c
  let opPtr := str.dropWhile fun c => !leafOpChars.contains c
  if opPtr = [] then none
  else
    let (op, val) := str2op opPtr leafOpChars
    if op = .none then none
    else if validKeyValue key && validKeyValue val then some (.mk op [] (some key) (some val))
    else none

/-- No character of a leaf, for `_find_leaf_end`. -/
def endsLeaf (c : Char) : Bool := childOpChars.contains c || c == '(' || c == ')'

/-- What `_recurse` works on: the rest of the string, the level and the return code. -/
structure Cursor where
  str : List Char
  level : Nat
  failed : Bool

/-- After the loop of `_recurse`: an error unless all parentheses are closed. -/
def Cursor.finish (s : Cursor) : Cursor := { s with failed := s.failed || decide (s.level ≠ 0) }

def Cursor.fail (s : Cursor) : Cursor := { s with failed := true }

/-- `_recurse`, in the loop. -/
def recurse : Nat → Cursor → Bool → Bool → Elem → Option (Cursor × Elem)
  | 0, _, _, _, _ => none
  | fuel + 1, s, gotOp, gotLeaf, parent =>
    if s.failed then some (s.finish, parent)
    else
      match s.str with
      | [] => some ({ s with failed := gotOp || !gotLeaf }.finish, parent)
      | c :: rest =>
        if c = '(' then
          if !gotOp then some (s.fail.finish, parent)
          else
            -- A level deeper, up to its closing parenthesis.
            match recurse fuel { s with str := rest, level := s.level + 1 } true false .alloc with
            | none => none
            | some (s', child) => recurse fuel s' false true (parent.addChild child)
        else if c = ')' then
          if s.level = 0 then some ({ s with str := rest }.fail.finish, parent)
          else some ({ str := rest, level := s.level - 1, failed := gotOp || !gotLeaf }, parent)
        else if childOpChars.contains c then
          if !gotLeaf then some (s.fail.finish, parent)
          else
            let (op, tmpEnd) := str2op s.str childOpChars
            if op = .none then some (s.fail.finish, parent)
            else if parent.operator ≠ .none ∧ parent.operator ≠ op then some (s.fail.finish, parent)
            else recurse fuel { s with str := tmpEnd } true false (parent.setOperator op)
        else if !gotOp then some (s.fail.finish, parent)
        else
          match parseLeaf (s.str.takeWhile fun c => !endsLeaf c) with
          | none => some (s.fail.finish, parent)
          | some leaf =>
            recurse fuel { s with str := s.str.dropWhile fun c => !endsLeaf c } false true
              (parent.addChild leaf)

/-- The return codes. -/
inductive Rc where
  | success
  | invalidExtra
  deriving DecidableEq, Repr

/-- `extra_constraints_parse`: the return code and `*head`, where `parsing` says whether
parsing is enabled. -/
def extraConstraintsParse (parsing : Bool) (extra : Option (List Char)) (head : Option Elem) :
    Option (Rc × Option Elem) :=
  match extra with
  | none => some (.success, head)
  | some extra =>
    if !parsing then some (.success, head)
    else
      (recurse (extra.length + 1) ⟨extra, 0, false⟩ true false .alloc).map fun (s, tree) =>
        if s.failed then (.invalidExtra, none)
        else if tree.operator = .none then (.success, some (tree.setOperator .childAnd))
        else (.success, some tree)

/-! ## Data -/

/-- Doubles, and the reading of numbers with `sscanf`. -/
structure Numbers (D : Type) where
  /-- `(double) i` -/
  ofInt : Int → D
  infinity : D
  nan : D
  neg : D → D
  sub : D → D → D
  lt : D → D → Bool
  isZero : D → Bool
  /-- `FUZZY_EPSILON` -/
  epsilon : D
  /-- The format `%lf%c`, where it reads the number and nothing else. -/
  scanDouble : List Char → Option D
  /-- The format for a hexadecimal integer. -/
  scanHex : List Char → Option Int
  /-- The format for a decimal integer. -/
  scanInt : List Char → Option Int

/-- `data_t`.  Nothing here looks into lists, nor into dictionaries other than the outer
one. -/
inductive Data (D : Type) where
  | null
  | list
  | dict
  | int (i : Int)
  | string (s : List Char)
  | float (d : D)
  | bool (b : Bool)

variable {D : Type}

def lower (s : List Char) : List Char := s.map Char.toLower

/-- `_convert_data_null`, of a string. -/
def isNullText (s : List Char) : Bool :=
  s.isEmpty || s.head? == some '~' || lower s == ['n', 'u', 'l', 'l']

/-- `_convert_data_int`, of a string. -/
def convertInt (nums : Numbers D) (force : Bool) (s : List Char) : Option Int :=
  match s with
  | [] => none
  | c :: rest =>
    if c = '0' ∧ rest.head?.map Char.toLower = some 'x' then nums.scanHex s
    else if !force && !s.all Char.isDigit then none
    else nums.scanInt s

/-- `_convert_data_float_from_string`, after the sign. -/
def convertUnsigned (nums : Numbers D) (negative : Bool) (s : List Char) : Option D :=
  let signed := fun d => if negative then nums.neg d else d
  match s with
  | [] => none
  | c :: rest =>
    if c.toLower = 'i' then
      if lower rest = ['n', 'f'] ∨ lower rest = ['n', 'f', 'i', 'n', 'i', 't', 'y'] then
        some (signed nums.infinity)
      else none
    else if c.toLower = 'n' then
      if lower rest = ['a', 'n'] then some (signed nums.nan) else none
    else if c.isDigit then (nums.scanDouble s).map signed
    else none

/-- `_convert_data_float_from_string` -/
def convertFloat (nums : Numbers D) (s : List Char) : Option D :=
  match s with
  | '+' :: rest => convertUnsigned nums false rest
  | '-' :: rest => convertUnsigned nums true rest
  | _ => convertUnsigned nums false s

/-- `_convert_data_bool`, of a string. -/
def convertBool (s : List Char) : Option Bool :=
  let t := lower s
  if t = ['y'] ∨ t = ['y', 'e', 's'] ∨ t = ['t'] ∨ t = ['t', 'r', 'u', 'e'] ∨ t = ['o', 'n'] then
    some true
  else if t = ['n'] ∨ t = ['n', 'o'] ∨ t = ['f'] ∨ t = ['f', 'a', 'l', 's', 'e'] ∨
      t = ['o', 'f', 'f'] then some false
  else none

/-- `data_convert_type` of a string, to no given type. -/
def detectType (nums : Numbers D) (s : List Char) : Data D :=
  if isNullText s then .null
  else
    match convertInt nums false s with
    | some i => .int i
    | none =>
      match convertFloat nums s with
      | some d => .float d
      | none =>
        match convertInt nums true s with
        | some i => .int i
        | none =>
          match convertBool s with
          | some b => .bool b
          | none => .string s

/-- `_convert_data_force_bool`, of a string. -/
def convertForceBool (nums : Numbers D) (s : List Char) : Bool :=
  match detectType nums s with
  | .string _ => true
  | .bool b => b
  | .float d => !nums.isZero d
  | .int i => i != 0
  | _ => false

/-- `cmp_t` -/
inductive Cmp where
  | invalid
  | lt
  | eq
  | gt
  deriving DecidableEq, Repr

def Cmp.toInt : Cmp → Int
  | .invalid => -2
  | .lt => -1
  | .eq => 0
  | .gt => 1

/-- `strcmp` -/
def strcmp : List Char → List Char → Int
  | [], [] => 0
  | [], _ :: _ => -1
  | _ :: _, [] => 1
  | a :: s, b :: t => if a = b then strcmp s t else (a.toNat : Int) - b.toNat

/-- `NUMBER_COMPARE` of doubles, with `fuzzy_equal`. -/
def compareDouble (nums : Numbers D) (a b : D) : Cmp :=
  let d := nums.sub a b
  if nums.lt (nums.neg nums.epsilon) d && nums.lt d nums.epsilon then .eq
  else if nums.lt a b then .lt
  else .gt

/-- `_compare` -/
def compare (nums : Numbers D) (data : Data D) (value : List Char) : Cmp :=
  match data with
  | .int i =>
    match convertFloat nums value with
    | none => .invalid
    | some d => compareDouble nums (nums.ofInt i) d
  | .string s =>
    if strcmp s value < 0 then .lt else if 0 < strcmp s value then .gt else .eq
  | .float f =>
    match convertFloat nums value with
    | none => .invalid
    | some d => compareDouble nums f d
  | .bool b =>
    let v := convertForceBool nums value
    if b = v then .eq else if !b && v then .lt else .gt
  | _ => .invalid

/-! ## Testing -/

/-- `_test` -/
def testOp (comparison : Cmp) (op : Op) : Bool :=
  match op with
  | .leafEq => decide (comparison = .eq)
  | .leafNe => decide (comparison ≠ .eq)
  | .leafGt => decide (comparison = .gt)
  | .leafGte => decide (Cmp.eq.toInt ≤ comparison.toInt)
  | .leafLt => decide (comparison = .lt)
  | .leafLte => decide (comparison.toInt ≤ Cmp.eq.toInt)
  | _ => false

/-- `data_key_get` -/
def dataKeyGet (data : List (List Char × Data D)) (key : Option (List Char)) : Option (Data D) :=
  key.bind fun key => (data.find? fun e => e.1 == key).map Prod.snd

/-- `_test_extra_constraints`, of a leaf. -/
def testLeaf (nums : Numbers D) (data : List (List Char × Data D)) (op : Op)
    (key value : Option (List Char)) : Bool :=
  match dataKeyGet data key with
  | none => false
  | some d =>
    let comparison := compare nums d (value.getD [])
    if comparison = .invalid then false else testOp comparison op

mutual

/-- `_test_extra_constraints` -/
def testExtraConstraints (nums : Numbers D) (data : List (List Char × Data D)) : Elem → Bool
  | .mk op [] key value => testLeaf nums data op key value
  | .mk op (child :: children) _ _ => testChildren nums data op false (child :: children)

/-- Its loop over the children, after `testResult`. -/
def testChildren (nums : Numbers D) (data : List (List Char × Data D)) (op : Op) :
    Bool → List Elem → Bool
  | testResult, [] => testResult
  | _, child :: children =>
    let testResult := testExtraConstraints nums data child
    if op = .childOr then
      if testResult then testResult else testChildren nums data op testResult children
    else if testResult then testChildren nums data op testResult children
    else testResult

end

/-- `extra_constraints_test` -/
def extraConstraintsTest (nums : Numbers D) (parsing : Bool) (head : Option Elem)
    (data : Option (List (List Char × Data D))) : Bool :=
  if !parsing then true
  else
    match head, data with
    | none, _ => true
    | some _, none => false
    | some head, some data => testExtraConstraints nums data head

end Slurm.ExtraConstraints
