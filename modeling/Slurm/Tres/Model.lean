import Slurm.Hostlist.Model
import Slurm.Lib.Int32
import Slurm.Lib.Upsert

/-!
# TRES strings (`common/slurmdb_defs.c`)

A TRES string has a count for each TRES, as `1=4,2=1024`.  The functions here read such a
string into a list of records, write a list as a string, and combine two strings.

A string is the list of its characters, or none for `NULL`; so is a list of records.
`mgrTresList` is the list in which names of TRES are looked up, which is `sub_tres_list` or
`assoc_mgr_tres_list`.  Messages and locks are left out.
-/

namespace Slurm.Tres

open Lib.Decimal List
open Lib.FirstMatch (modifyFirst)
open Slurm.Hostlist (strtoul)

/-- `slurmdb_tres_rec_t`, without what it is used for in accounting. -/
structure TresRec where
  count : BitVec 64
  id : BitVec 32
  name : Option (List Char)
  type : Option (List Char)

/-- `INFINITE64` -/
def infinite64 : BitVec 64 := 0xffffffffffffffff

/-- `TRES_STATIC_CNT` -/
def tresStaticCnt : Nat := 9

/-! ## Flags -/

/-- `TRES_STR_FLAG_ONLY_CONCAT` -/
def flagOnlyConcat : BitVec 32 := 0x1

/-- `TRES_STR_FLAG_REPLACE` -/
def flagReplace : BitVec 32 := 0x2

/-- `TRES_STR_FLAG_REMOVE` -/
def flagRemove : BitVec 32 := 0x4

/-- `TRES_STR_FLAG_SORT_ID` -/
def flagSortId : BitVec 32 := 0x8

/-- `TRES_STR_FLAG_SIMPLE` -/
def flagSimple : BitVec 32 := 0x10

/-- `TRES_STR_FLAG_COMMA1` -/
def flagComma1 : BitVec 32 := 0x20

/-- `TRES_STR_FLAG_NO_NULL` -/
def flagNoNull : BitVec 32 := 0x40

/-- `TRES_STR_FLAG_SUM` -/
def flagSum : BitVec 32 := 0x100

/-- `TRES_STR_FLAG_MAX` -/
def flagMax : BitVec 32 := 0x200

/-- `TRES_STR_FLAG_MIN` -/
def flagMin : BitVec 32 := 0x400

/-- `flags & flag` -/
def has (flags flag : BitVec 32) : Bool := flags &&& flag ≠ 0

/-! ## Writing -/

/-- What is written for one record. -/
def tresText (flags : BitVec 32) (r : TresRec) : List Char :=
  let count := padded 1 r.count.toNat
  match r.type with
  | none => padded 1 r.id.toNat ++ '=' :: count
  | some type =>
    if has flags flagSimple then padded 1 r.id.toNat ++ '=' :: count
    else type ++ (if r.name.isSome then ['/'] else []) ++ r.name.getD [] ++ '=' :: count

/-- One record is added to the string. -/
def addTres (flags : BitVec 32) (tresStr : Option (List Char)) (r : TresRec) : Option (List Char) :=
  if has flags flagRemove && r.count = infinite64 then tresStr
  else
    let comma := if tresStr.isSome || has flags flagComma1 then [','] else []
    some (tresStr.getD [] ++ comma ++ tresText flags r)

/-- `slurmdb_make_tres_string` -/
def makeTresString (tres : Option (List TresRec)) (flags : BitVec 32) : Option (List Char) :=
  match tres with
  | none => none
  | some l => l.foldl (addTres flags) none

/-! ## Reading -/

/-- `strchr`: the string from the first such character on. -/
def strchr (c : Char) (s : List Char) : Option (List Char) :=
  match s.dropWhile (· ≠ c) with
  | [] => none
  | d :: s => some (d :: s)

theorem length_strchr {c : Char} {s t : List Char} (h : strchr c s = some t) :
    0 < t.length ∧ t.length ≤ s.length := by
  have hle : (s.dropWhile fun x : Char => decide (x ≠ c)).length ≤ s.length :=
    (dropWhile_suffix _).length_le
  unfold strchr at h
  split at h
  · cases h
  · rename_i d u hdrop
    rw [hdrop] at hle
    rw [← Option.some.inj h]
    exact ⟨Nat.succ_pos _, hle⟩

/-- `atoi` of a string that starts with a digit: a number that is too large for a `long` is
`LONG_MAX`, and the low bits of it are kept. -/
def atoi (s : List Char) : Int :=
  Lib.Int32.wrap (min (value (s.takeWhile Char.isDigit)) (2 ^ 63 - 1) : Nat)

/-- `slurmdb_find_tres_in_list_by_type` -/
def findTresInListByType (key : List Char) (r : TresRec) : Bool :=
  let wanted := key.takeWhile (· ≠ '/')
  let found := wanted.length < key.length
  match r.type with
  | none => false
  | some type =>
    (type.take wanted.length).map Char.toLower == wanted.map Char.toLower &&
      match r.name with
      | none => !found
      | some name =>
        found && name.map Char.toLower == (key.drop (wanted.length + 1)).map Char.toLower

/-- The id at the start of the string, or none where the loop is left. -/
def tresId (mgrTresList : Option (List TresRec)) (tmpStr : List Char) : Option Int :=
  if tmpStr.head?.any Char.isDigit then some (atoi tmpStr)
  else
    let tresName := tmpStr.takeWhile (· ≠ '=')
    if tresName.length = tmpStr.length then none
    else do
      let l ← mgrTresList
      let r ← l.find? (findTresInListByType tresName)
      pure (Lib.Int32.wrap r.id.toNat)

/-- The count of a TRES that was found before. -/
def newCount (flags : BitVec 32) (old count : BitVec 64) : BitVec 64 :=
  if has flags flagReplace then count
  else if has flags flagSum then
    if count ≠ infinite64 then if old = infinite64 then count else old + count else old
  else if has flags flagMax then
    if count ≠ infinite64 then
      if old = infinite64 then count else if count < old then old else count
    else old
  else if has flags flagMin then
    if count ≠ infinite64 then
      if old = infinite64 then count else if old < count then old else count
    else old
  else old

/-- The list that is made, and how many records are there to remove. -/
structure Reading where
  tresList : Option (List TresRec)
  removeFound : Nat

/-- One TRES with its count. -/
def Reading.add (flags : BitVec 32) (st : Reading) (id : BitVec 32) (count : BitVec 64) : Reading :=
  let l := st.tresList.getD []
  if l.any (fun r => r.id == id) then
    { st with tresList := some (modifyFirst (fun r => r.id == id)
        (fun r => { r with count := newCount flags r.count count }) l) }
  else
    { tresList := some (l ++ [{ count := count, id := id, name := none, type := none }])
      removeFound := if count = infinite64 then st.removeFound + 1 else st.removeFound }

/-- The loop of `slurmdb_tres_list_from_string`. -/
def readLoop (mgrTresList : Option (List TresRec)) (flags : BitVec 32) (tmpStr : List Char)
    (st : Reading) : Reading :=
  match tresId mgrTresList tmpStr with
  | none => st
  | some id =>
    if id ≤ 0 then st
    else
      match _ : strchr '=' tmpStr with
      | none => st
      | some tmpStr' =>
        let count := (strtoul tmpStr'.tail).1
        let st := st.add flags (BitVec.ofInt 32 id) count
        match _ : strchr ',' tmpStr'.tail with
        | none => st
        | some tmpStr'' => readLoop mgrTresList flags tmpStr''.tail st
termination_by tmpStr.length
decreasing_by
  rename_i hvalue hnext
  have h := length_strchr hvalue
  have h' := length_strchr hnext
  rw [length_tail] at h' ⊢
  omega

/-- `xstrcmp` of the types, then the ids. -/
def sortTresByIdAsc (a b : TresRec) : Ordering :=
  let types : Ordering :=
    if tresStaticCnt < a.id.toNat && tresStaticCnt < b.id.toNat then
      match a.type, b.type with
      | none, none => .eq
      | none, some _ => .lt
      | some _, none => .gt
      | some s, some t => compare s t
    else .eq
  types.then (compare a.id.toNat b.id.toNat)

/-- `slurmdb_tres_list_from_string` -/
def tresListFromString (mgrTresList tresList : Option (List TresRec)) (tres : Option (List Char))
    (flags : BitVec 32) : Option (List TresRec) :=
  match tres with
  | none => tresList
  | some [] => tresList
  | some (c :: s) =>
    let st := readLoop mgrTresList flags (if c = ',' then s else c :: s) ⟨tresList, 0⟩
    let l :=
      if st.removeFound ≠ 0 && has flags flagRemove then
        st.tresList.map (List.filter fun r => r.count ≠ infinite64)
      else st.tresList
    if has flags flagSortId then l.map fun l => l.mergeSort fun a b => (sortTresByIdAsc a b).isLE
    else l

/-! ## Combining -/

/-- The new string is added to the old one. -/
def concatTres (old new : Option (List Char)) (flags : BitVec 32) : Option (List Char) :=
  match new with
  | none => old
  | some [] => old
  | some (c :: s) =>
    let comma1 := if has flags (flagComma1 ||| flagOnlyConcat) then [','] else []
    let comma := if old.isSome && c ≠ ',' then [','] else []
    some (old.getD [] ++ comma1 ++ comma ++ c :: s)

/-- `slurmdb_combine_tres_strings` -/
def combineTresStrings (mgrTresList : Option (List TresRec)) (old new : Option (List Char))
    (flags : BitVec 32) : Option (List Char) :=
  let concat := concatTres old new flags
  let str :=
    if has flags flagOnlyConcat then concat
    else makeTresString (tresListFromString mgrTresList none concat flags) (flags ||| flagSimple)
  if str.isNone && has flags flagNoNull then some [] else str

end Slurm.Tres

/-!
## Simple TRES strings

A simple TRES string is `id=count,id=count,...`, perhaps with a comma before it.  An id is a
number from 1 on that fits into an `int`, and a count is a number of 64 bits, or `-1` for
`INFINITE64`.

* `readLoop_entries`: the loop takes the entries one after the other.
* `simple_makeTresString`: what is written for a list of records.
* `simple_concatTres`: two strings, one after the other.
-/

namespace Slurm.Tres

open Lib.Decimal List
open Lib.FirstMatch (map_modifyFirst_image)
open Lib.Upsert
open Slurm.Hostlist (strtoul strtoulSign isSpace not_isSpace)

variable {s rest : List Char} {flags : BitVec 32}

/-- An id and its count. -/
abbrev Entry := BitVec 32 × BitVec 64

/-- An id from 1 on that fits into an `int`. -/
def ValidId (id : BitVec 32) : Prop := 0 < id.toNat ∧ id.toNat < 2 ^ 31

/-- The text of a count. -/
inductive CountText : List Char → BitVec 64 → Prop where
  | number {t} : IsNumber t → value t < 2 ^ 64 → CountText t (BitVec.ofNat 64 (value t))
  | cleared : CountText ['-', '1'] infinite64

/-- The text of an id and its count. -/
structure EntryText (t : List Char) (e : Entry) : Prop where
  valid : ValidId e.1
  split : ∃ i c, t = i ++ '=' :: c ∧ IsNumber i ∧ value i = e.1.toNat ∧ CountText c e.2

/-- The text of one or more entries. -/
inductive Entries : List Char → List Entry → Prop where
  | one {t e} : EntryText t e → Entries t [e]
  | more {t s e es} : EntryText t e → Entries s es → Entries (t ++ ',' :: s) (e :: es)

/-- A simple TRES string, where `NULL` and the empty string are no entries. -/
inductive Simple : Option (List Char) → List Entry → Prop where
  | null : Simple none []
  | blank : Simple (some []) []
  | plain {t es} : Entries t es → Simple (some t) es
  | comma {t es} : Entries t es → Simple (some (',' :: t)) es

/-! ## Texts -/

theorem CountText.noComma {t : List Char} {c : BitVec 64} (h : CountText t c) : ',' ∉ t := by
  cases h with
  | number ht => exact fun hmem => absurd (ht.2 ',' hmem) (by decide)
  | cleared => decide

variable {es : List Entry}

theorem Entries.append {t : List Char} {es' : List Entry} (hs : Entries s es) (ht : Entries t es') :
    Entries (s ++ ',' :: t) (es ++ es') := by
  induction hs with
  | one he => exact .more he ht
  | more he _ ih =>
    rw [append_assoc, cons_append]
    exact .more he ih

theorem Entries.valid (h : Entries s es) : ∀ e ∈ es, ValidId e.1 := by
  induction h with
  | one he =>
    intro e hmem
    rw [List.mem_singleton.mp hmem]
    exact he.valid
  | more he _ ih => exact List.forall_mem_cons.mpr ⟨he.valid, ih⟩

/-- A text starts with a digit. -/
theorem EntryText.starts {t : List Char} {e : Entry} (h : EntryText t e) :
    ∃ c s, t = c :: s ∧ c.isDigit = true := by
  obtain ⟨i, c, rfl, hi, -, -⟩ := h.split
  obtain ⟨d, i, rfl⟩ := exists_cons_of_ne_nil hi.1
  exact ⟨d, i ++ '=' :: c, rfl, hi.2 d mem_cons_self⟩

theorem Entries.starts {t : List Char} (h : Entries t es) : ∃ c s, t = c :: s ∧ c ≠ ',' := by
  cases h with
  | one he =>
    obtain ⟨c, s, rfl, hc⟩ := he.starts
    exact ⟨c, s, rfl, fun heq => absurd (heq ▸ hc) (by decide)⟩
  | more he _ =>
    obtain ⟨c, s, rfl, hc⟩ := he.starts
    exact ⟨c, _, rfl, fun heq => absurd (heq ▸ hc) (by decide)⟩

/-! ## Reading one entry -/

theorem strchr_append {c : Char} (hs : c ∉ s) (t : List Char) :
    strchr c (s ++ c :: t) = some (c :: t) := by
  have hall : ∀ d ∈ s, decide (d ≠ c) = true := fun d hd =>
    decide_eq_true fun heq => hs (heq ▸ hd)
  unfold strchr
  rw [dropWhile_append_of_pos hall]
  simp

theorem strchr_none {c : Char} (hs : c ∉ s) : strchr c s = none := by
  have hall : ∀ d ∈ s, decide (d ≠ c) = true := fun d hd =>
    decide_eq_true fun heq => hs (heq ▸ hd)
  unfold strchr
  rw [List.dropWhile_eq_nil_iff.mpr hall]

/-- What may come after an entry. -/
def Ends (rest : List Char) : Prop := rest = [] ∨ ∃ s, rest = ',' :: s

theorem takeWhile_ends {r : List Char} (hr : ∀ c ∈ r, c.isDigit = true) (hrest : Ends rest) :
    (r ++ rest).takeWhile Char.isDigit = r := by
  rw [takeWhile_append_of_pos hr]
  rcases hrest with rfl | ⟨s, rfl⟩
  · simp
  · simp [show (','.isDigit) = false by decide]

/-- `strtoul` of the text of a count. -/
theorem strtoul_count {t : List Char} {c : BitVec 64} (ht : CountText t c) (hrest : Ends rest) :
    (strtoul (t ++ rest)).1 = c := by
  cases ht with
  | number ht hlt =>
    obtain ⟨d, t, rfl⟩ := exists_cons_of_ne_nil ht.1
    have hd := ht.2 d mem_cons_self
    have hskip : (d :: t ++ rest).dropWhile isSpace = d :: t ++ rest := by
      simp [not_isSpace hd]
    have hsign : strtoulSign (d :: t ++ rest) = (false, d :: t ++ rest) := by
      rw [cons_append, strtoulSign]
      · intro s hs
        rw [(List.cons.inj hs).1] at hd
        exact absurd hd (by decide)
      · intro s hs
        rw [(List.cons.inj hs).1] at hd
        exact absurd hd (by decide)
    unfold strtoul
    rw [hskip, hsign]
    simp only [takeWhile_ends ht.2 hrest]
    rw [if_neg ht.1, if_neg (by omega)]
    rfl
  | cleared =>
    have hskip : (['-', '1'] ++ rest).dropWhile isSpace = '-' :: '1' :: rest := by
      simp [isSpace]
    have htake := takeWhile_ends (r := ['1']) (by simp) hrest
    unfold strtoul
    rw [hskip]
    simp only [strtoulSign]
    rw [show '1' :: rest = ['1'] ++ rest from rfl, htake, if_neg (by decide), if_neg (by decide)]
    rfl

theorem atoi_id {i : List Char} {id : BitVec 32} (hi : IsNumber i) (hvalue : value i = id.toNat)
    (hid : ValidId id) : atoi (i ++ '=' :: rest) = id.toNat := by
  have htake : (i ++ '=' :: rest).takeWhile Char.isDigit = i := by
    rw [takeWhile_append_of_pos hi.2]
    simp [show ('='.isDigit) = false by decide]
  have hlt := hid.2
  unfold atoi
  rw [htake, hvalue, Nat.min_eq_left (by omega)]
  exact Lib.Int32.wrap_eq (by omega) (by omega)

/-- One round of the loop. -/
theorem readLoop_step {mgr : Option (List TresRec)} {tmpStr : List Char} {id : Int} (st : Reading)
    (hid : tresId mgr tmpStr = some id) (hpos : 0 < id)
    (hvalue : strchr '=' tmpStr = some ('=' :: s)) :
    readLoop mgr flags tmpStr st =
      match strchr ',' s with
      | none => st.add flags (BitVec.ofInt 32 id) (strtoul s).1
      | some t => readLoop mgr flags t.tail (st.add flags (BitVec.ofInt 32 id) (strtoul s).1) := by
  rw [readLoop, hid]
  dsimp only
  rw [if_neg (by omega)]
  split
  · rename_i hnone
    rw [hvalue] at hnone
    cases hnone
  · rename_i t ht
    rw [hvalue, Option.some.injEq] at ht
    rw [← ht]
    split
    · rename_i hnext
      rw [tail_cons] at hnext
      rw [hnext]
      rfl
    · rename_i u hnext
      rw [tail_cons] at hnext
      rw [hnext]
      rfl

/-- The loop takes an entry. -/
theorem readLoop_entry (mgr : Option (List TresRec)) (flags : BitVec 32) {t : List Char} {e : Entry}
    (h : EntryText t e) (st : Reading) :
    readLoop mgr flags t st = st.add flags e.1 e.2 ∧
      ∀ s, readLoop mgr flags (t ++ ',' :: s) st = readLoop mgr flags s (st.add flags e.1 e.2) := by
  obtain ⟨i, c, rfl, hi, hnumber, hc⟩ := h.split
  have hvalid := h.valid
  have hne : '=' ∉ i := fun hmem => absurd (hi.2 '=' hmem) (by decide)
  have hid : ∀ rest, tresId mgr (i ++ '=' :: rest) = some (e.1.toNat : Int) := by
    intro rest
    have hfirst : (i ++ '=' :: rest).head?.any Char.isDigit = true := by
      obtain ⟨d, i, rfl⟩ := exists_cons_of_ne_nil hi.1
      simpa using hi.2 d mem_cons_self
    unfold tresId
    rw [if_pos hfirst, atoi_id hi hnumber hvalid]
  have hpos : 0 < (e.1.toNat : Int) := by
    have := hvalid.1
    omega
  have hofInt : BitVec.ofInt 32 (e.1.toNat : Int) = e.1 := by simp
  constructor
  · have hcount := strtoul_count hc (Or.inl rfl)
    rw [append_nil] at hcount
    rw [readLoop_step st (hid c) hpos (strchr_append hne c), strchr_none hc.noComma, hofInt, hcount]
  · intro s
    have hcount := strtoul_count hc (Or.inr ⟨s, rfl⟩)
    rw [append_assoc, cons_append,
      readLoop_step st (hid _) hpos (strchr_append hne _), strchr_append hc.noComma, hofInt, hcount]
    rfl

/-- The loop takes the entries one after the other. -/
theorem readLoop_entries (mgr : Option (List TresRec)) (flags : BitVec 32) {t : List Char}
    (h : Entries t es) (st : Reading) :
    readLoop mgr flags t st = es.foldl (fun st e => st.add flags e.1 e.2) st := by
  induction h generalizing st with
  | one he => exact (readLoop_entry mgr flags he st).1
  | more he _ ih =>
    rw [(readLoop_entry mgr flags he st).2, ih]
    rfl

/-! ## The list that is read -/

/-- The entries of a list of records. -/
def entriesOf (l : Option (List TresRec)) : List Entry := (l.getD []).map fun r => (r.id, r.count)

/-- A TRES is added to the entries, or its count is made from both counts. -/
theorem entriesOf_add (flags : BitVec 32) (st : Reading) (e : Entry) :
    entriesOf (st.add flags e.1 e.2).tresList =
      upsert (newCount flags) (entriesOf st.tresList) e := by
  have hmem : ∀ l : List TresRec, l.any (fun r => r.id == e.1) = true ↔
      e.1 ∈ (l.map fun r => (r.id, r.count)).map Prod.fst := by
    intro l
    rw [any_eq_true, map_map, mem_map]
    constructor
    · intro h
      obtain ⟨r, hr, heq⟩ := h
      exact ⟨r, hr, eq_of_beq heq⟩
    · intro h
      obtain ⟨r, hr, heq⟩ := h
      exact ⟨r, hr, beq_iff_eq.mpr heq⟩
  unfold Reading.add upsert entriesOf
  dsimp only
  split
  · rename_i hany
    rw [if_pos ((hmem _).mp hany)]
    exact map_modifyFirst_image (p := fun r : TresRec => r.id == e.1) (q := fun a => a.1 == e.1)
      (f := fun r : TresRec => { r with count := newCount flags r.count e.2 })
      (k := fun a => (a.1, newCount flags a.2 e.2)) (g := fun r => (r.id, r.count))
      (fun _ => rfl) (fun _ => rfl) _
  · rename_i hnew
    rw [if_neg fun h => hnew ((hmem _).mpr h)]
    simp

theorem entriesOf_foldl (flags : BitVec 32) (st : Reading) (es : List Entry) :
    entriesOf (es.foldl (fun st e => st.add flags e.1 e.2) st).tresList =
      es.foldl (upsert (newCount flags)) (entriesOf st.tresList) := by
  induction es generalizing st with
  | nil => rfl
  | cons e es ih => rw [foldl_cons, ih, entriesOf_add, foldl_cons]

/-- What is read of a simple string, where nothing is removed. -/
theorem perm_tresListFromString (mgr : Option (List TresRec)) {t : Option (List Char)}
    (h : Simple t es) (hremove : has flags flagRemove = false) :
    (entriesOf (tresListFromString mgr none t flags)).Perm (es.foldl (upsert (newCount flags)) []) := by
  have hsorted : ∀ l : Option (List TresRec), (entriesOf (if has flags flagSortId then
      l.map fun l => l.mergeSort fun a b => (sortTresByIdAsc a b).isLE else l)).Perm (entriesOf l) := by
    intro l
    split
    · cases l with
      | none => exact List.Perm.refl _
      | some l => exact (mergeSort_perm l _).map _
    · exact List.Perm.refl _
  have hread : ∀ s, Entries s es →
      entriesOf (readLoop mgr flags s ⟨none, 0⟩).tresList = es.foldl (upsert (newCount flags)) [] :=
    fun s hs => by rw [readLoop_entries mgr flags hs, entriesOf_foldl]; rfl
  cases h with
  | null => exact List.Perm.refl _
  | blank => exact List.Perm.refl _
  | plain h =>
    obtain ⟨c, s, rfl, hc⟩ := h.starts
    unfold tresListFromString
    simp only [hremove, if_neg hc, Bool.and_false, Bool.false_eq_true, if_false]
    rw [← hread _ h]
    exact hsorted _
  | comma h =>
    unfold tresListFromString
    simp only [hremove, Bool.and_false, Bool.false_eq_true, if_false, if_true]
    rw [← hread _ h]
    exact hsorted _

/-! ## The string that is written -/

/-- The text of one record. -/
theorem entryText_tresText (hsimple : has flags flagSimple = true) {r : TresRec}
    (hid : ValidId r.id) : EntryText (tresText flags r) (r.id, r.count) := by
  have htext : tresText flags r = padded 1 r.id.toNat ++ '=' :: padded 1 r.count.toNat := by
    unfold tresText
    cases r.type with
    | none => rfl
    | some type => exact if_pos hsimple
  have hcount : CountText (padded 1 r.count.toNat) r.count := by
    have hlt := r.count.isLt
    have h := CountText.number (isNumber_padded 1 r.count.toNat) (by rw [value_padded]; exact hlt)
    rw [value_padded, BitVec.ofNat_toNat, BitVec.setWidth_eq] at h
    exact h
  exact ⟨hid, _, _, htext, isNumber_padded 1 _, value_padded 1 _, hcount⟩

/-- What is written for a list of records. -/
theorem simple_makeTresString (hsimple : has flags flagSimple = true)
    (hremove : has flags flagRemove = false) (hcomma : has flags flagComma1 = false)
    {l : Option (List TresRec)} (hid : ∀ e ∈ entriesOf l, ValidId e.1) :
    Simple (makeTresString l flags) (entriesOf l) := by
  have hmore : ∀ (l : List TresRec) (s : List Char) (es : List Entry), Entries s es →
      (∀ e ∈ entriesOf (some l), ValidId e.1) →
      ∃ t, l.foldl (addTres flags) (some s) = some t ∧ Entries t (es ++ entriesOf (some l)) := by
    intro l
    induction l with
    | nil =>
      intro s es hs _
      exact ⟨s, rfl, by simpa [entriesOf] using hs⟩
    | cons r l ih =>
      intro s es hs hid
      have hr := entryText_tresText hsimple (hid (r.id, r.count) (by simp [entriesOf]))
      have hstep : addTres flags (some s) r = some (s ++ ',' :: tresText flags r) := by
        simp [addTres, hremove]
      obtain ⟨t, ht, htext⟩ := ih _ _ (hs.append (.one hr)) fun e he =>
        hid e (mem_cons_of_mem _ he)
      refine ⟨t, ?_, ?_⟩
      · rw [foldl_cons, hstep, ht]
      · rw [append_assoc] at htext
        exact htext
  match l with
  | none => exact .null
  | some [] => exact .null
  | some (r :: l) =>
    have hr := entryText_tresText hsimple (hid (r.id, r.count) (by simp [entriesOf]))
    have hstep : addTres flags none r = some (tresText flags r) := by
      simp [addTres, hremove, hcomma]
    obtain ⟨t, ht, htext⟩ := hmore l _ _ (.one hr) fun e he => hid e (mem_cons_of_mem _ he)
    unfold makeTresString
    dsimp only
    rw [foldl_cons, hstep, ht]
    exact .plain htext

/-- The string that both strings make one after the other. -/
theorem simple_concatTres (hflags : has flags (flagComma1 ||| flagOnlyConcat) = false)
    {old new : Option (List Char)} {es' : List Entry} (hold : Simple old es)
    (hnew : Simple new es') : Simple (concatTres old new flags) (es ++ es') := by
  have hplain : ∀ t, Entries t es' → Simple (concatTres old (some t) flags) (es ++ es') := by
    intro t ht
    obtain ⟨c, s, rfl, hc⟩ := ht.starts
    cases hold with
    | null => simpa [concatTres, hflags] using Simple.plain ht
    | blank => simpa [concatTres, hflags, hc] using Simple.comma ht
    | plain h => simpa [concatTres, hflags, hc] using Simple.plain (h.append ht)
    | comma h => simpa [concatTres, hflags, hc] using Simple.comma (h.append ht)
  cases hnew with
  | null => simpa [concatTres] using hold
  | blank => simpa [concatTres] using hold
  | plain ht => exact hplain _ ht
  | @comma t _ ht =>
    cases hold with
    | null => simpa [concatTres, hflags] using Simple.comma ht
    | blank => simpa [concatTres, hflags] using Simple.comma ht
    | plain h => simpa [concatTres, hflags] using Simple.plain (h.append ht)
    | comma h => simpa [concatTres, hflags] using Simple.comma (h.append ht)

end Slurm.Tres
