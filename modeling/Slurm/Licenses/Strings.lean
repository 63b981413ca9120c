import Slurm.Lib.Items
import Slurm.Licenses.Model
import Slurm.ParseTime.Parse
import Slurm.Tres.Model

/-!
# License strings (`slurmctld/licenses.c`)

`_build_license_list` makes a list of entries of a string such as `matlab:2,ansys(node[1-4]):1`, and
`license_list_to_string` prints one.

A string is the list of its characters, and a pointer into it the characters from there on.  The
source ends the parts of a token by writing `'\0'` into its copy of the string; here they are returned.
`'\0'` is a character of `strchr(delim, ..)`, so where it comes right after the nodes of a license the
next token starts behind it: `.outside`.
-/

namespace Slurm.Licenses

open Lib.FirstMatch (modifyFirst)
open Lib.Scanf (isSpace)
open Slurm.ParseTime (strtol)
open Slurm.Tres (strchr)

/-- Why there is no list. -/
inductive Fault where
  /-- `*valid` is false. -/
  | invalid
  /-- A character behind the `'\0'` is read. -/
  | outside
  deriving DecidableEq

/-- What is read of one token. -/
structure Item where
  name : String
  nodes : Option String
  num : Int
  deriving DecidableEq

/-! ## Finding entries -/

/-- `_license_find_rec` -/
def findRec (name : String) (e : ConfEntry) : Bool := e.name == name

/-- `_license_find_rec_by_nodes` -/
def findRecByNodes (name nodes : String) (e : ConfEntry) : Bool :=
  e.name == name && e.nodes == some nodes

/-! ## `_build_license_list` -/

/-- The parts of a token. -/
def token (name : List Char) (nodes : Option (List Char)) (num : Int) : Item :=
  ⟨String.ofList name, nodes.map String.ofList, num⟩

/-- The token ends here: `(*end_num == '\0') || strchr(delim, *end_num)`. -/
def endsToken (delim : List Char) : List Char → Bool
  | [] => true
  | c :: _ => delim.contains c

/-- The count after `':'` or `'='`. -/
def readCount (delim name : List Char) (nodes : Option (List Char)) (s : List Char) :
    Except Fault (Item × List Char) :=
  let num := strtol s
  if endsToken delim num.2 then .ok (token name nodes (Lib.Int32.wrap num.1), num.2)
  else .error .invalid

/-- `'('` starts the nodes, which go up to the next `')'`: the nodes and the string after it. -/
def enterNodes (hres : Bool) (nodes : Option (List Char)) (c : Char) (rest : List Char) :
    Option (Option (List Char) × List Char) :=
  if c = '(' ∧ hres then
    (strchr ')' rest).map fun close => (some (rest.takeWhile (· ≠ ')')), close.tail)
  else some (nodes, c :: rest)

/-- Where the nodes are passed, something was. -/
theorem enterNodes_suffix {hres : Bool} {nodes nodes' : Option (List Char)} {c d : Char}
    {rest t : List Char} (h : enterNodes hres nodes c rest = some (nodes', d :: t)) :
    t <:+ rest := by
  unfold enterNodes at h
  split at h
  · rcases hclose : strchr ')' rest with _ | close
    · rw [hclose] at h
      cases h
    · rw [hclose, Option.map_some, Option.some.injEq, Prod.mk.injEq] at h
      have hsuffix : close <:+ rest := by
        unfold strchr at hclose
        split at hclose
        · cases hclose
        · rename_i b u hdrop
          rw [← Option.some.inj hclose, ← hdrop]
          exact List.dropWhile_suffix _
      have hcons : d :: t <:+ rest := h.2 ▸ (List.tail_suffix close).trans hsuffix
      exact (List.suffix_cons d t).trans hcons
  · cases h
    exact List.suffix_refl _

/-- The loop over the characters of a token, with the name and nodes so far.  Once there are nodes the
name has ended, and what comes after them, up to the count or the end, is left out. -/
def scanItem (hres : Bool) (delim name : List Char) (nodes : Option (List Char)) :
    List Char → Except Fault (Item × List Char)
  | [] => .ok (token name nodes 1, [])
  | c :: rest =>
    if isSpace c then .error .invalid
    else
      match _ : enterNodes hres nodes c rest with
      | none => .error .invalid
      | some (_, []) => .error .outside
      | some (nodes, d :: t) =>
        if d = ':' ∨ d = '=' then readCount delim name nodes t
        else if delim.contains d then .ok (token name nodes 1, t)
        else scanItem hres delim (if nodes.isSome then name else name ++ [d]) nodes t
termination_by s => s.length
decreasing_by
  rename_i h _ _
  exact Nat.lt_succ_of_le (enterNodes_suffix h).length_le

theorem strtol_suffix (s : List Char) : (strtol s).2 <:+ s := by
  unfold strtol
  split
  · exact List.suffix_refl s
  · rename_i n rest h
    exact Lib.Scanf.decimal_suffix h

/-- What is left after a token is the end of the string, and something was read. -/
theorem scanItem_suffix {hres : Bool} {delim name : List Char} {nodes : Option (List Char)}
    {s rest : List Char} {item : Item} (h : scanItem hres delim name nodes s = .ok (item, rest)) :
    rest <:+ s.tail := by
  fun_induction scanItem hres delim name nodes s with
  | case1 => cases h; exact List.suffix_refl []
  | case2 => cases h
  | case3 => cases h
  | case4 => cases h
  | case5 name nodes' c tail _ nodes d t henter _ =>
    unfold readCount at h
    dsimp only at h
    split at h
    · cases h
      exact (strtol_suffix t).trans (enterNodes_suffix henter)
    · cases h
  | case6 name nodes' c tail _ nodes d t henter _ _ =>
    cases h
    exact enterNodes_suffix henter
  | case7 name nodes' c tail _ nodes d t henter _ _ ih =>
    exact ((ih h).trans (List.tail_suffix t)).trans (enterNodes_suffix henter)

/-- One token.  A negative count is not valid. -/
def readItem (hres : Bool) (delim s : List Char) : Except Fault (Item × List Char) := do
  let r ← scanItem hres delim [] none s
  if r.1.num < 0 then .error .invalid else .ok r

/-- The entry that an item is added to. -/
def findItem (item : Item) : ConfEntry → Bool :=
  match item.nodes with
  | some nodes => findRecByNodes item.name nodes
  | none => findRec item.name

/-- An item is added to the list, where the entry of its name, or of its name and nodes, takes the
count. -/
def addLicense (opOr : Bool) (l : List ConfEntry) (item : Item) : List ConfEntry :=
  let num := UInt32.ofNat item.num.toNat
  if l.any (findItem item) then
    modifyFirst (findItem item) (fun e => { e with total := e.total + num }) l
  else l ++ [⟨item.name, item.nodes, opOr, num, 0⟩]

theorem readItem_shorter (hres : Bool) (delim : List Char) (c : Char) (t : List Char) (item : Item)
    (rest : List Char) (h : readItem hres delim (c :: t) = .ok (item, rest)) :
    rest.length ≤ t.length := by
  unfold readItem at h
  rcases hscan : scanItem hres delim [] none (c :: t) with e | r
  · rw [hscan] at h
    cases h
  · rw [hscan] at h
    change (if r.1.num < 0 then _ else _) = _ at h
    split at h
    · cases h
    · cases h
      exact (scanItem_suffix hscan).length_le

/-- The tokens of a string. -/
def tokens (hres : Bool) (delim : List Char) : Lib.Items.Reader Item Char Fault where
  skip c := delim.contains c
  read := readItem hres delim
  shorter := readItem_shorter hres delim

/-- `delim` -/
def delimOf (licenses : List Char) : List Char :=
  if licenses.contains '|' then ['|'] else [',', ';']

/-- Both OR and AND requested. -/
def mixed (licenses : List Char) : Bool :=
  licenses.contains '|' &&
    (licenses.contains ',' || licenses.contains ';' || licenses.contains '(')

/-- `_build_license_list` -/
def buildLicenseList (licenses : Option (List Char)) (hres : Bool) :
    Except Fault (Option (List ConfEntry)) :=
  match licenses with
  | none => .ok none
  | some [] => .ok none
  | some (c :: s) =>
    if mixed (c :: s) then .error .invalid
    else do
      let delim := delimOf (c :: s)
      let l ← (tokens hres delim).fold (addLicense (delim.head? = some '|')) (c :: s) []
      pure (some l)

/-! ## `license_list_to_string` -/

/-- `"%s(%s):%u"`, or `"%s:%u"` for an entry without nodes. -/
def entryText (e : ConfEntry) : List Char :=
  match e.nodes with
  | some nodes =>
    e.name.toList ++ '(' :: (nodes.toList ++ ')' :: ':' :: Nat.toDigits 10 e.total.toNat)
  | none => e.name.toList ++ ':' :: Nat.toDigits 10 e.total.toNat

/-- The loop over the list, with the separator that is printed before the next entry. -/
def joinText : List Char → List ConfEntry → List Char
  | _, [] => []
  | sep, e :: l => sep ++ entryText e ++ joinText (if e.opOr then ['|'] else [';']) l

/-- `license_list_to_string` -/
def licenseListToString (l : Option (List ConfEntry)) : Option (List Char) :=
  match l with
  | none => none
  | some [] => none
  | some (e :: l) => some (joinText [] (e :: l))

/-- `license_job_merge`: the list and the string of a job, made again of its string.  Where that is
not valid the list is `NULL`. -/
def licenseJobMerge (licenses : Option (List Char)) :
    Except Fault (Option (List ConfEntry) × Option (List Char)) :=
  match buildLicenseList licenses false with
  | .ok l => .ok (l, licenseListToString l)
  | .error .invalid => .ok (none, licenseListToString none)
  | .error .outside => .error .outside

end Slurm.Licenses
