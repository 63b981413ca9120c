import Slurm.DataTree.Model

/-!
# Comparing and copying trees

* `dataCheckMatch_iff`: trees match when they have the same nodes, and leaves that match.
* `lift_dataCopy`: a copy has the same nodes, and copies of the leaves.
* `matchContract_iff`: the comparison is exact where floats that differ do not stand alone.
-/

namespace Slurm.DataTree

open Lib.Document Lib.Document.Doc

variable {F : Type}
variable {env : Env F} {a b : Data F} {as bs entries : Entries F} {x y : Leaf F}

/-! ## What is promised -/

/-- A tree as the setters make it: no dictionary has a key twice. -/
structure Tree (F : Type) where
  data : Data F
  distinct : data.Distinct

/-- Two leaves are the same, with floats compared by `same`. -/
inductive SameLeaf (same : F → F → Prop) : Leaf F → Leaf F → Prop
  | null : SameLeaf same .null .null
  | int (i : Int) : SameLeaf same (.int i) (.int i)
  | bool (b : Bool) : SameLeaf same (.bool b) (.bool b)
  | string {x y : Leaf F} (s : List Char) (hx : x.getString = some s) (hy : y.getString = some s) :
      SameLeaf same x y
  | float {p q : F} (h : same p q) : SameLeaf same (.float p) (.float q)

/-- Two floats are the same: they are fuzzily equal, or both are no numbers. -/
def SameFloat (env : Env F) (p q : F) : Prop :=
  env.fuzzyEqual p q = true ∨ (env.isnan p = true ∧ env.isnan q = true)

/-- Two trees are the same value. -/
def SameValue (env : Env F) : Data F → Data F → Prop := Lift (SameLeaf (SameFloat env))

/-- Two trees are the same but for their floats. -/
def SameButFloats : Data F → Data F → Prop := Lift (SameLeaf fun _ _ => True)

/-- Floats at the same place are the same. -/
def FloatsAgree (env : Env F) (a b : Data F) : Prop :=
  ∀ p x y, a.place p = some (.leaf (.float x)) → b.place p = some (.leaf (.float y)) →
    SameFloat env x y

/-- Leaves at the same place have the same external type. -/
def SameTyped (a b : Data F) : Prop := Leaves (fun x y => x.type = y.type) a b

/-- What is promised of `data_check_match` and `data_copy`. -/
structure MatchContract (env : Env F) (a b : Tree F) : Prop where
  exact : SameTyped a.data b.data → (dataCheckMatch env a.data b.data = true ↔ SameValue env a.data b.data)
  copied : ∀ dest, dataCheckMatch env (dataCopy dest a.data) a.data = true ∧
    dataCheckMatch env a.data (dataCopy dest a.data) = true

/-- The walks over the dictionaries of a tree can count their entries. -/
def Counted : Data F → Prop := All fun entries => entries.length < 2 ^ 31

/-! ## The comparison -/

theorem dataKeyGetConst_find (entries : Entries F) (key : List Char) :
    ((dataKeyGetConst entries key).bind fun i => entries[i]?).map Prod.snd = find entries key := by
  rw [find, List.find?_eq_bind_findIdx?_getElem?, dataKeyGetConst]
  simp only [eq_comm (a := key)]

theorem toInt_of_lt {x : BitVec 32} (h : x.toNat < 2 ^ 31) : x.toInt = x.toNat := by
  rw [BitVec.toInt_eq_toNat_cond, if_pos (by omega)]

/-- A walk that can count ends below zero only at a failure. -/
theorem dataDictForEachConst_nonneg {cmds : List ForEachCmd} {count : BitVec 32}
    (hlen : count.toNat + cmds.length < 2 ^ 31) (hstop : ∀ cmd ∈ cmds, cmd ≠ .stop) :
    0 ≤ dataDictForEachConst cmds count ↔ ∀ cmd ∈ cmds, cmd = .cont := by
  induction cmds generalizing count with
  | nil => simp [dataDictForEachConst, toInt_of_lt (x := count) (by simpa using hlen)]
  | cons cmd cmds ih =>
    rw [List.length_cons] at hlen
    have hnext : (count + 1).toNat = count.toNat + 1 := by
      rw [BitVec.toNat_add]
      exact Nat.mod_eq_of_lt (by simp; omega)
    cases cmd with
    | cont =>
      rw [dataDictForEachConst, ih (by omega) fun c hc => hstop c (List.mem_cons_of_mem _ hc)]
      simp
    | fail =>
      have hneg : (-(count + 1)).toInt < 0 := by
        rw [BitVec.toInt_neg_of_ne_intMin, toInt_of_lt (by omega), hnext]
        · omega
        · intro h
          have := congrArg BitVec.toNat h
          rw [hnext] at this
          simp [BitVec.intMin] at this
          omega
      rw [dataDictForEachConst]
      exact ⟨fun h => absurd h (not_le.mpr hneg), fun h => absurd (h .fail List.mem_cons_self) (by simp)⟩
    | stop => exact absurd rfl (hstop _ List.mem_cons_self)

theorem findDictMatch_length (env : Env F) (as bs : Entries F) :
    (findDictMatch env as bs).length = as.length := by
  induction as with
  | nil => simp [findDictMatch]
  | cons e as ih => simp [findDictMatch, ih]

/-- What `_find_dict_match` answers to one entry, from what the other dictionary has. -/
def answerTo (env : Env F) (a : Data F) : Option (Data F) → ForEachCmd
  | none => .fail
  | some y => if dataCheckMatch env a y = true then .cont else .fail

theorem answerTo_ne_stop (env : Env F) (a : Data F) (y : Option (Data F)) : answerTo env a y ≠ .stop := by
  cases y with
  | none => simp [answerTo]
  | some y =>
    rw [answerTo]
    split <;> simp

theorem answerTo_cont {y : Option (Data F)} :
    answerTo env a y = .cont ↔ ∃ x, y = some x ∧ dataCheckMatch env a x = true := by
  cases y with
  | none => simp [answerTo]
  | some y => simp [answerTo]

theorem mem_findDictMatch {cmd : ForEachCmd} :
    cmd ∈ findDictMatch env as bs ↔ ∃ e ∈ as, cmd = answerTo env e.2 (find bs e.1) := by
  induction as with
  | nil => simp [findDictMatch]
  | cons e as ih =>
    rw [findDictMatch, List.mem_cons, ih, List.exists_mem_cons_iff, ← dataKeyGetConst_find]
    cases (dataKeyGetConst bs e.1).bind fun i => bs[i]? <;> rfl

theorem findDictMatch_ne_stop : ∀ cmd ∈ findDictMatch env as bs, cmd ≠ .stop := by
  intro cmd hcmd
  obtain ⟨e, -, rfl⟩ := mem_findDictMatch.mp hcmd
  exact answerTo_ne_stop env e.2 _

/-- The walk goes on past the entries that have their counterpart. -/
theorem findDictMatch_cont :
    (∀ cmd ∈ findDictMatch env as bs, cmd = .cont) ↔
      ∀ e ∈ as, ∃ y, find bs e.1 = some y ∧ dataCheckMatch env e.2 y = true := by
  constructor
  · intro h e he
    exact answerTo_cont.mp (h _ (mem_findDictMatch.mpr ⟨e, he, rfl⟩))
  · intro h cmd hcmd
    obtain ⟨e, he, rfl⟩ := mem_findDictMatch.mp hcmd
    exact answerTo_cont.mpr (h e he)

/-- Two lists match item by item. -/
theorem matchItems_iff {xs ys : List (Data F)} {R : Leaf F → Leaf F → Prop}
    (h : ∀ x ∈ xs, ∀ y ∈ ys, dataCheckMatch env x y = true ↔ Lift R x y) :
    xs.length = ys.length ∧ matchItems env xs ys = true ↔ Lift R (.list xs) (.list ys) := by
  induction xs generalizing ys with
  | nil =>
    cases ys with
    | nil => simp [matchItems, lift_list_nil]
    | cons y ys => simp [not_lift_list_nil_cons]
  | cons x xs ih =>
    cases ys with
    | nil => simp [not_lift_list_cons_nil]
    | cons y ys =>
      have htail := @ih ys fun x hx y hy =>
        h x (List.mem_cons_of_mem _ hx) y (List.mem_cons_of_mem _ hy)
      rw [lift_list_cons, ← htail, ← h x List.mem_cons_self y List.mem_cons_self, matchItems]
      simp
      tauto

/-- Trees match when they have the same nodes, and leaves that match. -/
theorem dataCheckMatch_iff (env : Env F) (ha : a.Distinct) (hb : b.Distinct)
    (hcounted : Counted a) :
    dataCheckMatch env a b = true ↔ Lift (fun x y => leafCheck env x y = true) a b := by
  induction a using Doc.induction generalizing b with
  | leaf x =>
    cases b with
    | leaf y => rw [dataCheckMatch, lift_leaf_iff]
    | list ys => exact ⟨fun h => by simp [dataCheckMatch] at h, fun h => by cases h⟩
    | dict bs => exact ⟨fun h => by simp [dataCheckMatch] at h, fun h => by cases h⟩
  | list xs ih =>
    cases b with
    | leaf y => exact ⟨fun h => by simp [dataCheckMatch] at h, fun h => by cases h⟩
    | list ys =>
      rw [dataCheckMatch, Bool.and_eq_true, decide_eq_true_eq]
      exact matchItems_iff fun x hx y hy =>
        ih x hx (ha.of_list x hx) (hb.of_list y hy) (hcounted.of_list x hx)
    | dict bs => exact ⟨fun h => by simp [dataCheckMatch] at h, fun h => by cases h⟩
  | dict as ih =>
    cases b with
    | leaf y => exact ⟨fun h => by simp [dataCheckMatch] at h, fun h => by cases h⟩
    | list ys => exact ⟨fun h => by simp [dataCheckMatch] at h, fun h => by cases h⟩
    | dict bs =>
      have hlen : (0 : BitVec 32).toNat + (findDictMatch env as bs).length < 2 ^ 31 := by
        simpa [findDictMatch_length] using hcounted.of_dict.1
      rw [dataCheckMatch, Bool.and_eq_true, decide_eq_true_eq, decide_eq_true_eq,
        dataDictForEachConst_nonneg hlen findDictMatch_ne_stop, findDictMatch_cont,
        lift_dict_iff ha.of_dict.1 hb.of_dict.1]
      refine and_congr_right fun _ => forall₂_congr fun e he => exists_congr fun y =>
        and_congr_right fun hfind => ?_
      exact ih e he (ha.of_dict.2 e he) (hb.of_dict.2 _ (find_mem hfind)) (hcounted.of_dict.2 e he)

/-! ## Leaves -/

/-- The branch for floats takes all floats to be the same. -/
theorem floatMatch_eq (env : Env F) (p q : F) : floatMatch env p q = true := by
  rw [floatMatch]
  split
  · rfl
  · rw [if_pos rfl]

theorem leafMatch_of_same (h : SameLeaf (fun _ _ => True) x y) : leafMatch env x y = true := by
  cases h with
  | null => rfl
  | int i => simp [leafMatch]
  | bool b => simp [leafMatch]
  | string s hx hy => cases x <;> simp_all [leafMatch, Leaf.getString]
  | float h => exact floatMatch_eq env _ _

theorem type_of_same {same : F → F → Prop} (h : SameLeaf same x y) : x.type = y.type := by
  cases h with
  | string s hx hy => cases x <;> cases y <;> simp_all [Leaf.type, Leaf.getString]
  | null => rfl
  | int i => rfl
  | bool b => rfl
  | float h => rfl

theorem same_of_leafMatch (h : leafMatch env x y = true) : SameLeaf (fun _ _ => True) x y := by
  cases x with
  | stringPtr s => exact .string s.chars rfl (by simpa [leafMatch, eq_comm] using h)
  | stringInline s => exact .string s.chars rfl (by simpa [leafMatch, eq_comm] using h)
  | null =>
    cases y with
    | null => exact .null
    | _ => simp [leafMatch] at h
  | int i =>
    cases y with
    | int j =>
      simp only [leafMatch, decide_eq_true_eq] at h
      rw [h]
      exact .int j
    | _ => simp [leafMatch] at h
  | bool b =>
    cases y with
    | bool c =>
      simp only [leafMatch, decide_eq_true_eq] at h
      rw [h]
      exact .bool c
    | _ => simp [leafMatch] at h
  | float p =>
    cases y with
    | float q => exact .float trivial
    | _ => simp [leafMatch] at h

theorem leafCheck_of_same (h : SameLeaf (fun _ _ => True) x y) : leafCheck env x y = true := by
  rw [leafCheck, if_neg (not_not.mpr (type_of_same h))]
  exact leafMatch_of_same h

theorem same_of_leafCheck (htype : x.type = y.type) (h : leafCheck env x y = true) :
    SameLeaf (fun _ _ => True) x y := by
  rw [leafCheck, if_neg (not_not.mpr htype)] at h
  exact same_of_leafMatch h

/-- Trees with leaves of the same types match when they are the same but for their floats. -/
theorem dataCheckMatch_sameButFloats (env : Env F) (ha : a.Distinct) (hb : b.Distinct)
    (hcounted : Counted a) (htyped : SameTyped a b) :
    dataCheckMatch env a b = true ↔ SameButFloats a b := by
  rw [dataCheckMatch_iff env ha hb hcounted]
  constructor
  · intro h
    exact h.of_leaves fun p x y hx hy => same_of_leafCheck (htyped p x y hx hy) (h.leaves p x y hx hy)
  · exact Lift.mono fun _ _ => leafCheck_of_same

/-- The same value: the same but for the floats, and floats that agree. -/
theorem sameValue_iff (env : Env F) (a b : Data F) :
    SameValue env a b ↔ SameButFloats a b ∧ FloatsAgree env a b := by
  have hweaker : ∀ x y : Leaf F, SameLeaf (SameFloat env) x y → SameLeaf (fun _ _ => True) x y := by
    intro x y h
    cases h with
    | null => exact .null
    | int i => exact .int i
    | bool b => exact .bool b
    | string s hx hy => exact .string s hx hy
    | float h => exact .float trivial
  rw [SameValue, lift_iff_leaves hweaker]
  refine and_congr_right fun hsame => ?_
  constructor
  · intro h p x y hx hy
    cases h p _ _ hx hy with
    | string s hx hy => cases hx
    | float h => exact h
  · intro h p x y hx hy
    cases hsame.leaves p x y hx hy with
    | null => exact .null
    | int i => exact .int i
    | bool b => exact .bool b
    | string s hx hy => exact .string s hx hy
    | float _ => exact .float (h p _ _ hx hy)

/-! ## The copy -/

/-- A copied string is the same string, however it is stored. -/
theorem same_copyLeaf (x : Leaf F) : SameLeaf (fun _ _ => True) x (copyLeaf x) := by
  have hstring : ∀ s : Text, (dataSetString s : Leaf F).getString = some s.chars := by
    intro s
    rw [dataSetString]
    split <;> rfl
  cases x with
  | null => exact .null
  | int i => exact .int i
  | bool b => exact .bool b
  | float p => exact .float trivial
  | stringPtr s => exact .string s.chars rfl (hstring s)
  | stringInline s => exact .string s.chars rfl (hstring s)

theorem SameLeaf.symm (h : SameLeaf (fun _ _ => True) x y) : SameLeaf (fun _ _ => True) y x := by
  cases h with
  | null => exact .null
  | int i => exact .int i
  | bool b => exact .bool b
  | string s hx hy => exact .string s hy hx
  | float h => exact .float h

theorem copyItems_eq (dest items : List (Data F)) :
    copyItems dest items = dest ++ items.map (dataCopy (.leaf .null)) := by
  induction items generalizing dest with
  | nil => simp [copyItems]
  | cons x items ih => simp [copyItems, ih]

theorem dataKeySet_new {key : List Char} (h : key ∉ keys entries) :
    dataKeySet entries key = (entries.length, entries ++ [(key, .leaf .null)]) := by
  have hnone : dataKeyGet entries key = none := by
    rw [dataKeyGet, dataDictFindFirst, List.findIdx?_eq_none_iff]
    intro e he
    rw [decide_eq_false_iff_not]
    exact fun heq => h (heq ▸ List.mem_map_of_mem he)
  rw [dataKeySet, hnone]

theorem modify_last {α : Type} (l : List α) (x : α) (f : α → α) :
    (l ++ [x]).modify l.length f = l ++ [f x] := by
  induction l with
  | nil => rfl
  | cons y l ih => simp [ih]

/-- Entries with keys of their own are copied one by one. -/
theorem copyEntries_eq {dest : Entries F} (hnodup : (keys (dest ++ entries)).Nodup) :
    copyEntries dest entries = dest ++ entries.map fun e => (e.1, dataCopy (.leaf .null) e.2) := by
  induction entries generalizing dest with
  | nil => simp [copyEntries]
  | cons e entries ih =>
    have hkeys : keys (dest ++ e :: entries) = keys dest ++ e.1 :: keys entries := by simp [keys]
    have hnew : e.1 ∉ keys dest := by
      rw [hkeys] at hnodup
      intro hmem
      exact (List.nodup_append.mp hnodup).2.2 _ hmem _ List.mem_cons_self rfl
    rw [copyEntries, dataKeySet_new hnew, modify_last, ih (by simpa [keys] using hnodup),
      List.append_assoc]
    rfl

theorem dataCopy_dict (dest : Data F) (hnodup : (keys entries).Nodup) :
    dataCopy dest (.dict entries) =
      .dict (entries.map fun e => (e.1, dataCopy (.leaf .null) e.2)) := by
  rw [dataCopy, copyEntries_eq (by simpa using hnodup)]
  rfl

theorem keys_copy (f : Data F → Data F) (entries : Entries F) :
    keys (entries.map fun e => (e.1, f e.2)) = keys entries := by
  simp [keys]

/-- What holds of the dictionaries by their keys holds of those of a copy. -/
theorem all_dataCopy {P : List (List Char) → Prop} (ha : a.Distinct)
    (h : All (fun entries => P (keys entries)) a) (dest : Data F) :
    All (fun entries => P (keys entries)) (dataCopy dest a) := by
  induction a using Doc.induction generalizing dest with
  | leaf x =>
    rw [dataCopy]
    exact .leaf _
  | list items ih =>
    rw [dataCopy, copyItems_eq]
    refine .list _ fun x hx => ?_
    rw [List.nil_append, List.mem_map] at hx
    obtain ⟨y, hy, rfl⟩ := hx
    exact ih y hy (ha.of_list y hy) (h.of_list y hy) _
  | dict entries ih =>
    rw [dataCopy_dict dest ha.of_dict.1]
    refine .dict _ ?_ fun e he => ?_
    · rw [keys_copy]
      exact h.of_dict.1
    · rw [List.mem_map] at he
      obtain ⟨e', he', rfl⟩ := he
      exact ih e' he' (ha.of_dict.2 e' he') (h.of_dict.2 e' he') _

/-- A copy has the same nodes, and copies of the leaves. -/
theorem lift_dataCopy (ha : a.Distinct) (dest : Data F) : SameButFloats a (dataCopy dest a) := by
  induction a using Doc.induction generalizing dest with
  | leaf x =>
    rw [dataCopy]
    exact .leaf (same_copyLeaf x)
  | list items ih =>
    rw [dataCopy, copyItems_eq, List.nil_append]
    refine .list (by simp) fun i x y hx hy => ?_
    rw [List.getElem?_map, hx, Option.map_some, Option.some.injEq] at hy
    rw [← hy]
    exact ih x (List.mem_of_getElem? hx) (ha.of_list x (List.mem_of_getElem? hx)) _
  | dict entries ih =>
    have hnodup := ha.of_dict.1
    rw [dataCopy_dict dest hnodup]
    have hcopied : (keys (entries.map fun e => (e.1, dataCopy (.leaf .null) e.2))).Nodup := by
      rw [keys_copy]
      exact hnodup
    refine (lift_dict_iff hnodup hcopied).mpr ⟨by simp, fun e he => ?_⟩
    have hfind := mem_find hcopied (List.mem_map.mpr ⟨e, he, rfl⟩)
    exact ⟨_, hfind, ih e he (ha.of_dict.2 e he) _⟩

theorem SameButFloats.symm (h : SameButFloats a b) : SameButFloats b a := by
  induction h with
  | leaf h => exact .leaf h.symm
  | list hlen _ ih => exact .list hlen.symm fun i x y hx hy => ih i y x hy hx
  | dict hsame _ ih => exact .dict (fun key => (hsame key).symm) fun key x y hx hy => ih key y x hy hx

theorem SameButFloats.sameTyped (h : SameButFloats a b) : SameTyped a b :=
  fun p x y hx hy => type_of_same (h.leaves p x y hx hy)

/-- A copy matches what it was made from, in both orders. -/
theorem dataCopy_matches (env : Env F) (ha : a.Distinct) (hcounted : Counted a) (dest : Data F) :
    dataCheckMatch env (dataCopy dest a) a = true ∧ dataCheckMatch env a (dataCopy dest a) = true := by
  have hsame := lift_dataCopy ha dest
  have hdistinct : (dataCopy dest a).Distinct := all_dataCopy (P := List.Nodup) ha ha dest
  have hcounted' : Counted (dataCopy dest a) := by
    have hkeys : All (fun entries => (keys entries).length < 2 ^ 31) (dataCopy dest a) :=
      all_dataCopy (P := fun ks => ks.length < 2 ^ 31) ha (by simpa [Counted, keys] using hcounted) dest
    simpa [Counted, keys] using hkeys
  constructor
  · exact (dataCheckMatch_sameButFloats env hdistinct ha hcounted' hsame.symm.sameTyped).mpr hsame.symm
  · exact (dataCheckMatch_sameButFloats env ha hdistinct hcounted hsame.sameTyped).mpr hsame

/-! ## The contract -/

/-- The comparison is exact when trees of the same types that are the same but for their floats
have floats that agree, and copies always match. -/
theorem matchContract_iff (env : Env F) (a b : Tree F) (hcounted : Counted a.data) :
    MatchContract env a b ↔
      (SameTyped a.data b.data → SameButFloats a.data b.data → FloatsAgree env a.data b.data) := by
  constructor
  · intro h htyped hsame
    have hmatch := (dataCheckMatch_sameButFloats env a.distinct b.distinct hcounted htyped).mpr hsame
    exact ((sameValue_iff env _ _).mp ((h.exact htyped).mp hmatch)).2
  · intro h
    refine ⟨fun htyped => ?_, fun dest => dataCopy_matches env a.distinct hcounted dest⟩
    rw [dataCheckMatch_sameButFloats env a.distinct b.distinct hcounted htyped, sameValue_iff]
    exact ⟨fun hsame => ⟨hsame, h htyped hsame⟩, fun hvalue => hvalue.1⟩

/-! ## Floats that differ -/

/-- Whole numbers as floats. -/
def wholeFloats : Env Int :=
  { eq := fun p q => decide (p = q), fuzzyEqual := fun p q => decide (p = q), isnan := fun _ => false,
    signbit := fun p => decide (p < 0), isinf := fun _ => 0, convert := fun _ _ => none }

theorem distinct_leaf (x : Leaf F) : (.leaf x : Data F).Distinct := .leaf x

/-- A tree that is one float. -/
def floatTree (p : Int) : Tree Int :=
  { data := .leaf (.float p), distinct := distinct_leaf _ }

theorem floatTree_place {p : Int} {q : List (Step (List Char))} {x : Leaf Int}
    (h : (floatTree p).data.place q = some (.leaf x)) : x = .float p := by
  cases q with
  | nil =>
    simp only [floatTree, place, Option.some.injEq, Doc.leaf.injEq] at h
    exact h.symm
  | cons s q => simp [floatTree, place] at h

theorem matchContract_equal : MatchContract wholeFloats (floatTree 1) (floatTree 1) := by
  refine (matchContract_iff wholeFloats (floatTree 1) (floatTree 1) (.leaf _)).mpr
    fun _ _ p x y hx hy => ?_
  have hx' := Leaf.float.inj (floatTree_place hx)
  have hy' := Leaf.float.inj (floatTree_place hy)
  simp [SameFloat, wholeFloats, hx', hy']

/-- The floats 1 and 2 match. -/
theorem matchContract_fails : ¬ MatchContract wholeFloats (floatTree 1) (floatTree 2) := by
  intro h
  have htyped : SameTyped (floatTree 1).data (floatTree 2).data := by
    intro p x y hx hy
    rw [floatTree_place hx, floatTree_place hy]
    rfl
  have hvalue := (h.exact htyped).mp rfl
  have hagree := ((sameValue_iff _ _ _).mp hvalue).2 [] 1 2 rfl rfl
  exact absurd hagree (by simp [SameFloat, wholeFloats])

end Slurm.DataTree
