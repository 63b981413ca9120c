import Slurm.Lib.Document

/-!
# Trees of data

`src/common/data.c`: the nodes of a tree, what a dictionary has under a key, `data_copy` and
`data_check_match`.  The functions of a tree go down it as the source does; what it frees and logs
is left out.
-/

namespace Slurm.DataTree

open Lib.Document Lib.Document.Doc

/-! ## Nodes -/

/-- A string that a node can hold: `data_set_string` counts its characters in an `int`, and one
that looks shorter than it is would be stored in part. -/
structure Text where
  chars : List Char
  held : chars.length < 8 ∨ 8 ≤ chars.length % 2 ^ 32

/-- The nodes other than lists and dictionaries: `F` are the floats. -/
inductive Leaf (F : Type) where
  | null
  | int (i : Int)
  | stringPtr (s : Text)
  | stringInline (s : Text)
  | float (x : F)
  | bool (b : Bool)

/-- The external types that a leaf can have. -/
inductive DataType where
  | null
  | int64
  | string
  | float
  | bool
  deriving DecidableEq

/-- A tree: a `data_t` with all that is below it. -/
abbrev Data (F : Type) : Type := Doc (List Char) (Leaf F)

/-- The entries of a dictionary. -/
abbrev Entries (F : Type) : Type := List (List Char × Data F)

variable {F : Type}

/-- `data_get_type` of a leaf. -/
def Leaf.type : Leaf F → DataType
  | .null => .null
  | .int _ => .int64
  | .stringPtr _ => .string
  | .stringInline _ => .string
  | .float _ => .float
  | .bool _ => .bool

/-- `data_get_string`. -/
def Leaf.getString : Leaf F → Option (List Char)
  | .stringPtr s => some s.chars
  | .stringInline s => some s.chars
  | _ => none

/-- What is used of the floats, and what `data_convert_type` makes of a leaf: neither is needed
where types are the same. -/
structure Env (F : Type) where
  eq : F → F → Bool
  fuzzyEqual : F → F → Bool
  isnan : F → Bool
  signbit : F → Bool
  isinf : F → Int
  convert : Leaf F → DataType → Option (Leaf F)

/-! ## Dictionaries -/

/-- `data_dict_find_first`: the number of the first entry that matches. -/
def dataDictFindFirst (entries : Entries F) (found : List Char → Data F → Bool) : Option Nat :=
  entries.findIdx? fun e => found e.1 e.2

/-- `data_key_get`: the number of the entry with a key. -/
def dataKeyGet (entries : Entries F) (key : List Char) : Option Nat :=
  dataDictFindFirst entries fun k _ => decide (k = key)

/-- `data_key_get_const`. -/
def dataKeyGetConst (entries : Entries F) (key : List Char) : Option Nat :=
  entries.findIdx? fun e => decide (key = e.1)

/-- `data_key_set`: the number of the entry, and the entries with it. -/
def dataKeySet (entries : Entries F) (key : List Char) : Nat × Entries F :=
  match dataKeyGet entries key with
  | some i => (i, entries)
  | none => (entries.length, entries ++ [(key, .leaf .null)])

/-! ## `data_copy` -/

/-- `data_set_string`: `len` is an `int`, which is compared with a `size_t`. -/
def dataSetString (s : Text) : Leaf F :=
  if s.chars.length % 2 ^ 32 < 8 then .stringInline s else .stringPtr s

/-- `data_copy` of a leaf. -/
def copyLeaf : Leaf F → Leaf F
  | .stringInline s => dataSetString s
  | .stringPtr s => dataSetString s
  | .bool b => .bool b
  | .int i => .int i
  | .float x => .float x
  | .null => .null

mutual

/-- `data_copy`: what `dest` was is released. -/
def dataCopy (_dest src : Data F) : Data F :=
  match src with
  | .leaf x => .leaf (copyLeaf x)
  | .list items => .list (copyItems [] items)
  | .dict entries => .dict (copyEntries [] entries)

/-- The items that are copied to a list. -/
def copyItems (dest items : List (Data F)) : List (Data F) :=
  match items with
  | [] => dest
  | x :: items => copyItems (dest ++ [dataCopy (.leaf .null) x]) items

/-- The entries that are copied to a dictionary. -/
def copyEntries (dest entries : Entries F) : Entries F :=
  match entries with
  | [] => dest
  | (key, x) :: entries =>
    copyEntries ((dataKeySet dest key).2.modify (dataKeySet dest key).1 fun e =>
      (e.1, dataCopy e.2 x)) entries

end

/-! ## `data_check_match` -/

/-- The branch for floats. -/
def floatMatch (env : Env F) (a b : F) : Bool :=
  if env.eq a b = true ∧ env.fuzzyEqual a b = true then true
  else if env.isnan a = env.isnan a then true
  else if env.signbit a ≠ env.signbit b then false
  else if env.isinf a ≠ env.isinf b then false
  else false

/-- The branches for leaves. -/
def leafMatch (env : Env F) (a b : Leaf F) : Bool :=
  match a, b with
  | .null, .null => true
  | .stringInline s, b => decide (some s.chars = b.getString)
  | .stringPtr s, b => decide (some s.chars = b.getString)
  | .bool x, .bool y => decide (x = y)
  | .int x, .int y => decide (x = y)
  | .float x, .float y => floatMatch env x y
  | _, _ => false

/-- Two leaves: the second one is converted when their types differ. -/
def leafCheck (env : Env F) (a b : Leaf F) : Bool :=
  if a.type ≠ b.type then
    if a.type = .null ∨ b.type = .null then false
    else
      match env.convert b a.type with
      | none => false
      | some conv => leafMatch env a conv
  else leafMatch env a b

/-- What a function answers to a walk over constant entries. -/
inductive ForEachCmd where
  | cont
  | fail
  | stop

/-- `data_dict_for_each_const`, with what the function answers to the entries: an `int` counts
them. -/
def dataDictForEachConst : List ForEachCmd → BitVec 32 → Int
  | [], count => count.toInt
  | .cont :: cmds, count => dataDictForEachConst cmds (count + 1)
  | .fail :: _, count => (-(count + 1)).toInt
  | .stop :: _, count => (count + 1).toInt

mutual

/-- `data_check_match`, without a mask.  A list or a dictionary is never converted to another type,
and no leaf to one of them. -/
def dataCheckMatch (env : Env F) (a b : Data F) : Bool :=
  match a, b with
  | .leaf x, .leaf y => leafCheck env x y
  | .list xs, .list ys => decide (xs.length = ys.length) && matchItems env xs ys
  | .dict as, .dict bs =>
    decide (as.length = bs.length) && decide (0 ≤ dataDictForEachConst (findDictMatch env as bs) 0)
  | _, _ => false

/-- The loop of `_data_match_lists`. -/
def matchItems (env : Env F) (xs ys : List (Data F)) : Bool :=
  match xs, ys with
  | [], _ => true
  | _ :: _, [] => false
  | x :: xs, y :: ys => if dataCheckMatch env x y = true then matchItems env xs ys else false

/-- What `_find_dict_match` answers to the entries. -/
def findDictMatch (env : Env F) (as bs : Entries F) : List ForEachCmd :=
  match as with
  | [] => []
  | (key, a) :: as =>
    (match (dataKeyGetConst bs key).bind fun i => bs[i]? with
      | none => .fail
      | some e => if dataCheckMatch env a e.2 = true then .cont else .fail) ::
      findDictMatch env as bs

end

end Slurm.DataTree
