import Slurm.DataTree.Model
import Slurm.Lib.Scanf

/-!
# Dictionary paths

`src/common/data.c`: `data_resolve_dict_path`, `data_resolve_dict_path_const` and
`data_define_dict_path`.  A node of a tree is known by its path of numbers, as the source knows it
by its address: `data_define_dict_path` adds nodes at the end of dictionaries only.

* `trimToken_eq`, `xstrtrim_eq`: the loops trim alike.
* `define_found`, `define_kept`, `define_failed`: what is found, kept, and left as it was.
* `pathContract`: what is promised of the three functions.
-/

namespace Slurm.DataTree

open Lib.Document Lib.Document.Doc Lib.Scanf Option

variable {F : Type}
variable {tokens : List (List Char)} {key : List Char} {d : Data F} {m : List Nat}
    {entries : Entries F} {i : Nat} {e : List Char × Data F}

/-! ## The code -/

/-- `strtok_r` with slashes: what stands between them, unless it is empty. -/
def strtok (path : List Char) : List (List Char) :=
  (path.splitOn '/').filter fun token => decide (token ≠ [])

/-- The loop that sets blanks to zero: `i` characters are still to be looked at. -/
def zeroTail (token : List Char) : Nat → List Char
  | 0 => token
  | i + 1 =>
    if (token[i]?.any isSpace) = true then zeroTail (token.take i) i else token

/-- The trimming loops of `data_resolve_dict_path`: the index of the last character is an `int`. -/
def trimToken (token : List Char) : List Char :=
  zeroTail (token.dropWhile isSpace)
    ((BitVec.ofNat 32 (token.dropWhile isSpace).length - 1).toInt + 1).toNat

/-- `xstrtrim`: the way back ends at the first character that is no blank. -/
def xstrtrim (token : List Char) : List Char :=
  match token.dropWhile isSpace with
  | [] => []
  | start :: rest => start :: rest.rdropWhile isSpace

/-- The loop of the two functions that resolve a path. -/
def resolveLoop (trim : List Char → List Char) (get : Entries F → List Char → Option Nat) :
    List (List Char) → Data F → Option (List Nat)
  | [], _ => some []
  | token :: tokens, .dict entries =>
    match get entries (trim token) with
    | none => none
    | some i => entries[i]?.bind fun e => (resolveLoop trim get tokens e.2).map (i :: ·)
  | _ :: _, .leaf _ => none
  | _ :: _, .list _ => none

/-- `data_resolve_dict_path`. -/
def dataResolveDictPath (data : Data F) (path : List Char) : Option (List Nat) :=
  resolveLoop trimToken dataKeyGet (strtok path) data

/-- `data_resolve_dict_path_const`. -/
def dataResolveDictPathConst (data : Data F) (path : List Char) : Option (List Nat) :=
  resolveLoop xstrtrim dataKeyGetConst (strtok path) data

/-- The dictionary that a node is, or becomes. -/
def asDict : Data F → Option (Entries F)
  | .leaf .null => some []
  | .dict entries => some entries
  | _ => none

/-- The loop of `data_define_dict_path`: the node, if any, and the tree as it is then. -/
def defineLoop : List (List Char) → Data F → Option (List Nat) × Data F
  | [], d => (some [], d)
  | token :: tokens, d =>
    match asDict d with
    | none => (none, d)
    | some entries =>
      match (dataKeySet entries (xstrtrim token)).2[(dataKeySet entries (xstrtrim token)).1]? with
      | none => (none, .dict (dataKeySet entries (xstrtrim token)).2)
      | some e =>
        ((defineLoop tokens e.2).1.map ((dataKeySet entries (xstrtrim token)).1 :: ·),
          .dict ((dataKeySet entries (xstrtrim token)).2.set
            (dataKeySet entries (xstrtrim token)).1 (e.1, (defineLoop tokens e.2).2)))

/-- `data_define_dict_path`. -/
def dataDefineDictPath (data : Data F) (path : List Char) : Option (List Nat) × Data F :=
  defineLoop (strtok path) data

/-! ## What is promised -/

/-- A path whose components an `int` can index. -/
structure Path where
  chars : List Char
  short : ∀ token ∈ strtok chars, token.length < 2 ^ 31

/-- The components of a path without the blanks around them: one of blanks only is the empty
key. -/
def Path.components (path : Path) : List (List Char) := (strtok path.chars).map xstrtrim

/-- The components that are not empty without the blanks around them. -/
def Path.nonEmptyComponents (path : Path) : List (List Char) :=
  path.components.filter fun key => decide (key ≠ [])

/-- What may become of a node that was there before: `passed` are the nodes above the one that is
defined. -/
inductive NodeKept (passed : Prop) : Data F → Data F → Prop
  | same (x : Data F) : NodeKept passed x x
  | filled (h : passed) (entries : Entries F) : NodeKept passed (.leaf .null) (.dict entries)
  | grown (h : passed) {entries entries' : Entries F} (hkeys : keys entries <+: keys entries') :
      NodeKept passed (.dict entries) (.dict entries')

/-- What is promised of the functions for paths, where `components` are what paths have to have in
common. -/
structure PathContract (components : Path → List (List Char)) (data : Data F) (path : Path) :
    Prop where
  agree : dataResolveDictPath data path.chars = dataResolveDictPathConst data path.chars
  found : ∀ n data', dataDefineDictPath data path.chars = (some n, data') →
    ∀ path', components path' = components path →
      dataResolveDictPath data' path'.chars = some n ∧
        dataResolveDictPathConst data' path'.chars = some n
  resolved : ∀ n data', dataDefineDictPath data path.chars = (some n, data') →
    ∀ (old : Path) (m : List Nat), dataResolveDictPath data old.chars = some m →
      dataResolveDictPath data' old.chars = some m
  kept : ∀ n data', dataDefineDictPath data path.chars = (some n, data') →
    ∀ m x, data.node m = some x →
      ∃ x', data'.node m = some x' ∧ NodeKept (m <+: n ∧ m ≠ n) x x'
  failed : ∀ data', dataDefineDictPath data path.chars = (none, data') → data' = data

/-! ## Trimming -/

theorem rdropWhile_cons {p : Char → Bool} {c : Char} (h : p c = false) (s : List Char) :
    (c :: s).rdropWhile p = c :: s.rdropWhile p := by
  induction s using List.reverseRecOn with
  | nil => simp [List.rdropWhile, h]
  | append_singleton s x ih =>
    rw [← List.cons_append, List.rdropWhile_concat, List.rdropWhile_concat]
    split
    · exact ih
    · rfl

theorem xstrtrim_eq (token : List Char) :
    xstrtrim token = (token.dropWhile isSpace).rdropWhile isSpace := by
  rw [xstrtrim]
  split
  · rename_i hempty
    rw [hempty]
    rfl
  · rename_i start rest hstart
    have hsolid : isSpace start = false := by
      have hne : token.dropWhile isSpace ≠ [] := by simp [hstart]
      simpa [hstart] using List.head_dropWhile_not isSpace hne
    rw [hstart, rdropWhile_cons hsolid]

theorem zeroTail_length (token : List Char) :
    zeroTail token token.length = token.rdropWhile isSpace := by
  induction token using List.reverseRecOn with
  | nil => rfl
  | append_singleton s x ih =>
    rw [List.length_append, List.length_singleton, zeroTail, List.rdropWhile_concat]
    simp [ih]

/-- The index of the last character fits. -/
theorem lastIndex_eq {n : Nat} (h : n < 2 ^ 31) : ((BitVec.ofNat 32 n - 1).toInt + 1).toNat = n := by
  rw [BitVec.toInt_sub]
  cases n with
  | zero => rfl
  | succ n =>
    rw [BitVec.toInt_ofNat', Int.bmod_def, Int.bmod_def]
    simp
    omega

/-- The loops trim alike. -/
theorem trimToken_eq {token : List Char} (h : token.length < 2 ^ 31) :
    trimToken token = xstrtrim token := by
  have hle : (token.dropWhile isSpace).length ≤ token.length :=
    (List.dropWhile_suffix isSpace).length_le
  rw [trimToken, lastIndex_eq (by omega), zeroTail_length, xstrtrim_eq]

/-! ## Following keys -/

/-- The node at the end of some keys. -/
def follow (keys : List (List Char)) (d : Data F) : Option (List Nat) :=
  resolveLoop id dataKeyGet keys d

theorem dataKeyGet_eq (entries : Entries F) (key : List Char) :
    dataKeyGet entries key = (keys entries).findIdx? fun k => decide (k = key) := by
  rw [keys, List.findIdx?_map]
  rfl

theorem dataKeyGetConst_eq (entries : Entries F) (key : List Char) :
    dataKeyGetConst entries key = dataKeyGet entries key := by
  rw [dataKeyGetConst, dataKeyGet, dataDictFindFirst]
  simp only [eq_comm (a := key)]

theorem resolveLoop_follow {trim : List Char → List Char} {get : Entries F → List Char → Option Nat}
    (hget : ∀ entries key, get entries key = dataKeyGet entries key)
    (htrim : ∀ token ∈ tokens, trim token = xstrtrim token) (d : Data F) :
    resolveLoop trim get tokens d = follow (tokens.map xstrtrim) d := by
  induction tokens generalizing d with
  | nil => cases d <;> rfl
  | cons token tokens ih =>
    have ih := ih fun t ht => htrim t (List.mem_cons_of_mem _ ht)
    cases d with
    | leaf x => rfl
    | list items => rfl
    | dict entries =>
      rw [follow, List.map_cons, resolveLoop, resolveLoop, hget, htrim token List.mem_cons_self]
      simp only [ih, id_eq]
      rfl

theorem resolve_follow (path : Path) (d : Data F) :
    dataResolveDictPath d path.chars = follow path.components d :=
  resolveLoop_follow (fun _ _ => rfl) (fun token h => trimToken_eq (path.short token h)) d

theorem resolveConst_follow (path : Path) (d : Data F) :
    dataResolveDictPathConst d path.chars = follow path.components d :=
  resolveLoop_follow dataKeyGetConst_eq (fun _ _ => rfl) d

theorem follow_nil (d : Data F) : follow [] d = some [] := by
  cases d <;> rfl

theorem follow_cons (key : List Char) (ks : List (List Char)) (entries : Entries F) :
    follow (key :: ks) (.dict entries) = (dataKeyGet entries key).bind fun i =>
      entries[i]?.bind fun e => (follow ks e.2).map (i :: ·) := by
  rw [follow, resolveLoop]
  cases h : dataKeyGet entries key <;> simp [h, follow]

theorem follow_dict {ks : List (List Char)} (h : follow (key :: ks) d = some m) :
    ∃ entries, d = .dict entries := by
  cases d with
  | leaf x => cases h
  | list items => cases h
  | dict entries => exact ⟨entries, rfl⟩

/-! ## One step of the definition -/

/-- What `data_key_set` makes of a dictionary: the entry is there, after the ones that were. -/
structure Entered (entries : Entries F) (key : List Char) (i : Nat) (e : List Char × Data F)
    (entered : Entries F) : Prop where
  entry : entered[i]? = some e
  get : dataKeyGet entered key = some i
  before : entries <+: entered
  fresh : entered = entries ∨ e.2 = .leaf .null

theorem dataKeyGet_lt (h : dataKeyGet entries key = some i) : i < entries.length := by
  rw [dataKeyGet, dataDictFindFirst, List.findIdx?_eq_some_iff_findIdx_eq] at h
  exact h.1

theorem dataKeyGet_append (more : Entries F) (h : dataKeyGet entries key = some i) :
    dataKeyGet (entries ++ more) key = some i := by
  rw [dataKeyGet, dataDictFindFirst] at h ⊢
  rw [List.findIdx?_append, h]
  rfl

theorem keys_set (he : entries[i]? = some e) (x : Data F) :
    keys (entries.set i (e.1, x)) = keys entries := by
  obtain ⟨hi, heq⟩ := List.getElem?_eq_some_iff.mp he
  have hself : (keys entries).set i e.1 = keys entries := by
    have hlt : i < (keys entries).length := by simpa [keys] using hi
    have hkey : e.1 = (keys entries)[i] := by simp [keys, heq]
    rw [hkey]
    exact List.set_getElem_self _
  rw [keys, List.map_set]
  exact hself

/-- An entry with a new value: the keys are found where they were. -/
theorem dataKeyGet_set (he : entries[i]? = some e) (x : Data F) (key : List Char) :
    dataKeyGet (entries.set i (e.1, x)) key = dataKeyGet entries key := by
  rw [dataKeyGet_eq, dataKeyGet_eq, keys_set he]

theorem dataKeySet_entered (entries : Entries F) (key : List Char) :
    ∃ e, Entered entries key (dataKeySet entries key).1 e (dataKeySet entries key).2 := by
  cases h : dataKeyGet entries key with
  | some i =>
    rw [dataKeySet, h]
    have hi := dataKeyGet_lt h
    exact ⟨entries[i], List.getElem?_eq_getElem hi, h, List.prefix_rfl, .inl rfl⟩
  | none =>
    rw [dataKeySet, h]
    refine ⟨(key, .leaf .null), by simp, ?_, List.prefix_append _ _, .inr rfl⟩
    rw [dataKeyGet, dataDictFindFirst] at h ⊢
    rw [List.findIdx?_append, h]
    simp [List.findIdx?_cons]

theorem defineLoop_cons {d : Data F} {entries : Entries F} (hd : asDict d = some entries)
    (token : List Char) (tokens : List (List Char)) :
    ∃ i e entered, Entered entries (xstrtrim token) i e entered ∧
      defineLoop (token :: tokens) d = ((defineLoop tokens e.2).1.map (i :: ·),
        .dict (entered.set i (e.1, (defineLoop tokens e.2).2))) := by
  obtain ⟨e, he⟩ := dataKeySet_entered entries (xstrtrim token)
  refine ⟨_, e, _, he, ?_⟩
  rw [defineLoop, hd]
  simp only [he.entry]

theorem defineLoop_stuck (hd : asDict d = none) (token : List Char) (tokens : List (List Char)) :
    defineLoop (token :: tokens) d = (none, d) := by
  rw [defineLoop, hd]

theorem asDict_dict (h : asDict d = some entries) :
    d = .dict entries ∨ (d = .leaf .null ∧ entries = []) := by
  unfold asDict at h
  split at h
  · exact .inr ⟨rfl, (Option.some.inj h).symm⟩
  · exact .inl (congrArg Doc.dict (Option.some.inj h))
  · cases h

/-! ## The tree afterwards -/

/-- Below a null node everything is made anew. -/
theorem define_null (tokens : List (List Char)) :
    (defineLoop tokens (.leaf .null : Data F)).1.isSome = true := by
  induction tokens with
  | nil => rfl
  | cons token tokens ih =>
    obtain ⟨i, e, entered, he, heq⟩ := defineLoop_cons (F := F) (d := .leaf .null) rfl token tokens
    have hfresh : e.2 = .leaf .null := he.fresh.resolve_left fun h => by
      have hentry := he.entry
      rw [h] at hentry
      simp at hentry
    rw [heq, hfresh, isSome_map]
    exact ih

/-- An error leaves the tree as it was: whatever is made lies below a node that is found. -/
theorem define_failed (h : (defineLoop tokens d).1 = none) : (defineLoop tokens d).2 = d := by
  induction tokens generalizing d with
  | nil => rfl
  | cons token tokens ih =>
    cases hd : asDict d with
    | none => rw [defineLoop_stuck hd]
    | some entries =>
      obtain ⟨i, e, entered, he, heq⟩ := defineLoop_cons hd token tokens
      rw [heq] at h ⊢
      have hbelow : (defineLoop tokens e.2).1 = none := Option.map_eq_none_iff.mp h
      have hsame : entered = entries := he.fresh.resolve_right fun hnull => by
        have hsome := define_null (F := F) tokens
        rw [← hnull, hbelow] at hsome
        cases hsome
      have hentry := he.entry
      rw [hsame] at hentry
      obtain ⟨hi, hget⟩ := List.getElem?_eq_some_iff.mp hentry
      rw [ih hbelow, hsame, ← hget]
      rcases asDict_dict hd with hdict | ⟨-, hempty⟩
      · rw [hdict]
        simp
      · rw [hempty] at hi
        cases hi

/-- The node that is defined is found. -/
theorem define_found {tokens : List (List Char)} {d : Data F} {n : List Nat}
    (h : (defineLoop tokens d).1 = some n) :
    follow (tokens.map xstrtrim) (defineLoop tokens d).2 = some n := by
  induction tokens generalizing d n with
  | nil =>
    rw [← h]
    exact follow_nil _
  | cons token tokens ih =>
    cases hd : asDict d with
    | none =>
      rw [defineLoop_stuck hd] at h
      cases h
    | some entries =>
      obtain ⟨i, e, entered, he, heq⟩ := defineLoop_cons hd token tokens
      rw [heq] at h ⊢
      obtain ⟨m, hm, rfl⟩ := Option.map_eq_some_iff.mp h
      have hi := (List.getElem?_eq_some_iff.mp he.entry).1
      rw [List.map_cons, follow_cons, dataKeyGet_set he.entry, he.get, bind_some,
        List.getElem?_set_self hi, bind_some, ih hm]
      rfl

/-- What is at a number of the dictionary that was there is there afterwards. -/
theorem entered_get {entered : Entries F} {j : Nat} {e' : List Char × Data F}
    (he : Entered entries key i e entered) (hj : entries[j]? = some e') (x : Data F) :
    (j = i ∧ e' = e ∧ (entered.set i (e.1, x))[j]? = some (e.1, x)) ∨
      (j ≠ i ∧ (entered.set i (e.1, x))[j]? = some e') := by
  obtain ⟨more, rfl⟩ := he.before
  have hlt := (List.getElem?_eq_some_iff.mp hj).1
  have hold : (entries ++ more)[j]? = some e' := by rw [List.getElem?_append_left hlt, hj]
  by_cases heq : j = i
  · refine .inl ⟨heq, ?_, ?_⟩
    · have hentry := he.entry
      rw [← heq, hold] at hentry
      exact Option.some.inj hentry
    · rw [heq, List.getElem?_set_self (List.getElem?_eq_some_iff.mp he.entry).1]
  · refine .inr ⟨heq, ?_⟩
    rw [List.getElem?_set_ne (Ne.symm heq), hold]

/-- Every path leads where it led. -/
theorem define_resolved {n : List Nat} (h : (defineLoop tokens d).1 = some n)
    {ks : List (List Char)} (hm : follow ks d = some m) :
    follow ks (defineLoop tokens d).2 = some m := by
  induction tokens generalizing d n ks m with
  | nil => exact hm
  | cons token tokens ih =>
    cases ks with
    | nil =>
      rw [follow_nil] at hm ⊢
      exact hm
    | cons key ks =>
      obtain ⟨entries, rfl⟩ := follow_dict hm
      obtain ⟨i, e, entered, he, heq⟩ :=
        @defineLoop_cons _ (.dict entries) entries rfl token tokens
      rw [heq] at h ⊢
      obtain ⟨n', hn', -⟩ := Option.map_eq_some_iff.mp h
      simp only [follow_cons, bind_eq_some_iff, map_eq_some_iff] at hm ⊢
      obtain ⟨j, hget, e', hj, m', hm', heq'⟩ := hm
      obtain ⟨more, hmore⟩ := he.before
      refine ⟨j, ?_, ?_⟩
      · rw [dataKeyGet_set he.entry, ← hmore]
        exact dataKeyGet_append more hget
      · rcases entered_get he hj (defineLoop tokens e.2).2 with ⟨-, hsame, hset⟩ | ⟨-, hset⟩
        · rw [hsame] at hm'
          exact ⟨_, hset, m', ih hn' hm', heq'⟩
        · exact ⟨_, hset, m', hm', heq'⟩

/-- Every node is where it was, and keeps what it had. -/
theorem define_kept {n : List Nat} (h : (defineLoop tokens d).1 = some n) {x : Data F}
    (hm : d.node m = some x) :
    ∃ x', (defineLoop tokens d).2.node m = some x' ∧ NodeKept (m <+: n ∧ m ≠ n) x x' := by
  induction tokens generalizing d n m with
  | nil => exact ⟨x, hm, .same x⟩
  | cons token tokens ih =>
    cases hd : asDict d with
    | none =>
      rw [defineLoop_stuck hd] at h
      cases h
    | some entries =>
      obtain ⟨i, e, entered, he, heq⟩ := defineLoop_cons hd token tokens
      rw [heq] at h ⊢
      obtain ⟨n', hn', rfl⟩ := Option.map_eq_some_iff.mp h
      cases m with
      | nil =>
        have hpassed : [] <+: i :: n' ∧ [] ≠ i :: n' := ⟨List.nil_prefix, by simp⟩
        rw [node, Option.some.injEq] at hm
        rw [node, ← hm]
        refine ⟨_, rfl, ?_⟩
        rcases asDict_dict hd with hdict | ⟨hnull, -⟩
        · rw [hdict]
          refine .grown hpassed ?_
          rw [keys_set he.entry]
          exact he.before.map _
        · rw [hnull]
          exact .filled hpassed _
      | cons j m =>
        rcases asDict_dict hd with hdict | ⟨hnull, -⟩
        · rw [hdict, node, bind_eq_some_iff] at hm
          obtain ⟨e', hj, hm⟩ := hm
          rw [node]
          rcases entered_get he hj (defineLoop tokens e.2).2 with ⟨hij, hsame, hset⟩ | ⟨hij, hset⟩
          · rw [hsame] at hm
            obtain ⟨x', hx', hkept⟩ := ih hn' hm
            refine ⟨x', by rw [hset]; exact hx', ?_⟩
            simpa [hij] using hkept
          · exact ⟨x, by rw [hset]; exact hm, .same x⟩
        · rw [hnull] at hm
          cases hm

/-! ## The contract -/

/-- What is promised, for paths with the same components: one of blanks only is a component. -/
theorem pathContract (data : Data F) (path : Path) : PathContract Path.components data path where
  agree := by rw [resolve_follow, resolveConst_follow]
  found n data' h path' hsame := by
    have hfound := @define_found _ (strtok path.chars) data n (congrArg Prod.fst h)
    rw [show (defineLoop (strtok path.chars) data).2 = data' from congrArg Prod.snd h] at hfound
    rw [resolve_follow, resolveConst_follow, hsame]
    exact ⟨hfound, hfound⟩
  resolved n data' h old m hm := by
    rw [resolve_follow] at hm ⊢
    rw [← show (defineLoop (strtok path.chars) data).2 = data' from congrArg Prod.snd h]
    exact define_resolved (congrArg Prod.fst h) hm
  kept n data' h m x hm := by
    rw [← show (defineLoop (strtok path.chars) data).2 = data' from congrArg Prod.snd h]
    exact define_kept (congrArg Prod.fst h) hm
  failed data' h := by
    rw [← show (defineLoop (strtok path.chars) data).2 = data' from congrArg Prod.snd h]
    exact define_failed (congrArg Prod.fst h)

/-! ## A component of blanks -/

theorem blank_short : ∀ token ∈ strtok ['a', '/', ' ', '/', 'b'], token.length < 2 ^ 31 := by
  decide

theorem plain_short : ∀ token ∈ strtok ['a', '/', 'b'], token.length < 2 ^ 31 := by
  decide

/-- A path with a component of blanks between two others. -/
def blankPath : Path :=
  { chars := ['a', '/', ' ', '/', 'b'], short := blank_short }

/-- The path without it. -/
def plainPath : Path :=
  { chars := ['a', '/', 'b'], short := plain_short }

/-- The blanks are the empty key: what is defined with them is not found without them. -/
theorem pathContract_blanks : ¬ PathContract Path.nonEmptyComponents (.dict [] : Data Unit) blankPath := by
  intro h
  have hfound := (h.found [0, 0, 0] (dataDefineDictPath (.dict []) blankPath.chars).2 rfl plainPath
    (by decide)).1
  have hnone : (dataResolveDictPath (dataDefineDictPath (.dict [] : Data Unit) blankPath.chars).2
      plainPath.chars).isSome = false := rfl
  rw [hfound] at hnone
  cases hnone

end Slurm.DataTree
