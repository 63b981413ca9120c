import Slurm.ExtraConstraints.Model

/-!
# The language of extra constraints

An expression is `expr ::= item (op item)*`, and an item is `'(' expr ')'` or
`key leafop value`.  `Expr` has the derivations: the text that is derived is `Expr.text`,
and the Boolean value that it denotes, given the truth of the leaves, is `Expr.value`.

* `Derives`: a derivation of a string.
* `Expr.toElem`: the tree of elements that stands for an expression.
* `test_toElem`: testing that tree gives the value of the expression.
-/

namespace Slurm.ExtraConstraints

mutual

/-- An item of an expression. -/
inductive Item where
  | leaf (key : List Char) (op : Op) (value : List Char)
  | paren (e : Expr)

/-- An expression, with the operator characters between its items. -/
inductive Expr where
  | one (i : Item)
  | more (i : Item) (sep : Char) (e : Expr)

end

/-- The operator that a character stands for between items, where `','` is `'&'`. -/
def sepOp (c : Char) : Op :=
  if c = '&' ∨ c = ',' then .childAnd else if c = '|' then .childOr else .none

/-- The text of a leaf operator. -/
def leafOpText : Op → Option (List Char)
  | .leafEq => some ['=']
  | .leafNe => some ['!', '=']
  | .leafGt => some ['>']
  | .leafGte => some ['>', '=']
  | .leafLt => some ['<']
  | .leafLte => some ['<', '=']
  | _ => none

/-- A key or a value: not empty, and free of operator characters and parentheses. -/
def Word (w : List Char) : Prop := w ≠ [] ∧ ∀ c ∈ w, c ∉ opChars ∧ c ≠ '(' ∧ c ≠ ')'

/-- The operator characters of the outer level. -/
def Expr.seps : Expr → List Char
  | .one _ => []
  | .more _ sep e => sep :: e.seps

/-- All operators of one level are the same one. -/
def SameOp (seps : List Char) : Prop :=
  ∃ op, op ≠ .none ∧ ∀ c ∈ seps, sepOp c = op

mutual

/-- The string that is derived. -/
def Item.text : Item → List Char
  | .leaf key op value => key ++ (leafOpText op).getD [] ++ value
  | .paren e => '(' :: e.text ++ [')']

def Expr.text : Expr → List Char
  | .one i => i.text
  | .more i sep e => i.text ++ sep :: e.text

end

mutual

/-- The rules of the grammar are kept. -/
def Item.Legal : Item → Prop
  | .leaf key op value => Word key ∧ (leafOpText op).isSome ∧ Word value
  | .paren e => e.Legal ∧ SameOp e.seps

/-- They are kept in all items, and the levels below. -/
def Expr.Legal : Expr → Prop
  | .one i => i.Legal
  | .more i _ e => i.Legal ∧ e.Legal

end

/-- `e` is a derivation of the string `s`. -/
def Derives (e : Expr) (s : List Char) : Prop := e.Legal ∧ SameOp e.seps ∧ e.text = s

mutual

/-- The value that an item denotes. -/
def Item.value (leaf : List Char → Op → List Char → Bool) : Item → Bool
  | .leaf key op value => leaf key op value
  | .paren e => e.value leaf

/-- The value that an expression denotes. -/
def Expr.value (leaf : List Char → Op → List Char → Bool) : Expr → Bool
  | .one i => i.value leaf
  | .more i sep e =>
    if sepOp sep = .childOr then i.value leaf || e.value leaf else i.value leaf && e.value leaf

end

/-! ## Trees -/

/-- The operator of a level, where `op` is the one before. -/
def Expr.opOr (op : Op) : Expr → Op
  | .one _ => op
  | .more _ sep e => e.opOr (sepOp sep)

mutual

/-- The element of an item. -/
def Item.toElem : Item → Elem
  | .leaf key op value => .mk op [] (some key) (some value)
  | .paren e => .mk (e.opOr .none) e.children none none

/-- The elements of the items of an expression. -/
def Expr.children : Expr → List Elem
  | .one i => [i.toElem]
  | .more i _ e => i.toElem :: e.children

end

/-- The element of an expression. -/
def Expr.toElem (e : Expr) : Elem := .mk (e.opOr .none) e.children none none

/-- The operator `op` before an expression and its operators are the same one, if there is
one. -/
def Expr.Uniform : Op → Expr → Prop
  | _, .one _ => True
  | op, .more _ sep e => sepOp sep ≠ .none ∧ (op = .none ∨ op = sepOp sep) ∧ e.Uniform (sepOp sep)

theorem uniform_iff (op : Op) (hop : op ≠ .none) (e : Expr) :
    e.Uniform op ↔ ∀ c ∈ e.seps, sepOp c = op := by
  match e with
  | .one i => exact iff_of_true trivial fun c hc => absurd hc List.not_mem_nil
  | .more i sep e =>
    rw [Expr.Uniform, Expr.seps, List.forall_mem_cons]
    constructor
    · rintro ⟨-, hsep, h⟩
      have heq : op = sepOp sep := hsep.resolve_left hop
      subst heq
      exact ⟨rfl, (uniform_iff _ hop e).mp h⟩
    · rintro ⟨rfl, h⟩
      exact ⟨hop, Or.inr rfl, (uniform_iff _ hop e).mpr h⟩

/-- At the start of a level there is no operator before. -/
theorem uniform_none_iff (e : Expr) : e.Uniform .none ↔ SameOp e.seps := by
  match e with
  | .one i => exact iff_of_true trivial ⟨.childAnd, by decide, fun c hc => absurd hc List.not_mem_nil⟩
  | .more i sep e =>
    constructor
    · rintro ⟨hsep, -, h⟩
      refine ⟨sepOp sep, hsep, ?_⟩
      rw [Expr.seps, List.forall_mem_cons]
      exact ⟨rfl, (uniform_iff _ hsep e).mp h⟩
    · rintro ⟨op, hop, h⟩
      rw [Expr.seps, List.forall_mem_cons] at h
      obtain ⟨rfl, h⟩ := h
      exact ⟨hop, Or.inl rfl, (uniform_iff _ hop e).mpr h⟩

/-! ## Tests -/

variable {D : Type} {nums : Numbers D} {data : List (List Char × Data D)}

/-- The loop over the children: any of them, or all of them. -/
theorem testChildren_cons (op : Op) (r : Bool) (child : Elem) (children : List Elem)
    (h : children ≠ []) :
    testChildren nums data op r (child :: children) =
      if op = .childOr then
        testExtraConstraints nums data child || testChildren nums data op r children
      else testExtraConstraints nums data child && testChildren nums data op r children := by
  obtain ⟨child', children', rfl⟩ := List.exists_cons_of_ne_nil h
  rw [testChildren, testChildren, testChildren]
  cases testExtraConstraints nums data child <;> simp

theorem testChildren_singleton (op : Op) (r : Bool) (child : Elem) :
    testChildren nums data op r [child] = testExtraConstraints nums data child := by
  rw [testChildren, testChildren]
  cases testExtraConstraints nums data child <;> simp

theorem children_ne_nil (e : Expr) : e.children ≠ [] := by
  cases e with
  | one i => exact List.cons_ne_nil _ _
  | more i sep e => exact List.cons_ne_nil _ _

/-- The truth of a leaf in the tree. -/
def leafTest (nums : Numbers D) (data : List (List Char × Data D)) (key : List Char) (op : Op)
    (value : List Char) : Bool :=
  testLeaf nums data op (some key) (some value)

theorem opOr_uniform {op : Op} (hop : op ≠ .none) {e : Expr} (h : e.Uniform op) :
    e.opOr op = op := by
  match e with
  | .one i => rfl
  | .more i sep e =>
    obtain ⟨hsep, heq, h⟩ := h
    have heq : op = sepOp sep := heq.resolve_left hop
    subst heq
    show e.opOr (sepOp sep) = _
    exact opOr_uniform hop h

theorem test_mk (op : Op) (e : Expr) :
    testExtraConstraints nums data (.mk op e.children none none) =
      testChildren nums data op false e.children := by
  cases e <;> rfl

mutual

theorem test_item (i : Item) (h : i.Legal) :
    testExtraConstraints nums data i.toElem = i.value (leafTest nums data) := by
  match i with
  | .leaf key op value => rfl
  | .paren e =>
    rw [Item.toElem, test_mk, Item.value]
    exact test_children e h.1 .none ((uniform_none_iff e).mpr h.2)

theorem test_children (e : Expr) (h : e.Legal) (op : Op) (huniform : e.Uniform op) :
    testChildren nums data (e.opOr op) false e.children = e.value (leafTest nums data) := by
  match e with
  | .one i => rw [Expr.children, testChildren_singleton, test_item i h, Expr.value]
  | .more i sep e =>
    obtain ⟨hsep, -, hrest⟩ := huniform
    have ih := test_children e h.2 (sepOp sep) hrest
    rw [opOr_uniform hsep hrest] at ih
    rw [Expr.children, testChildren_cons _ _ _ _ (children_ne_nil e), Expr.opOr,
      opOr_uniform hsep hrest, ih, test_item i h.1, Expr.value]

end

end Slurm.ExtraConstraints

/-!
## Operators and leaves

* `str2op_sep`: an operator between items is one character.
* `str2op_leaf`: the operator of a leaf is the whole run of operator characters.
* `parseLeaf_iff`: `_parse_leaf` accepts a key, a leaf operator and a value, and nothing else.
* `testLeaf_eq`: what the test of a leaf says.
-/

namespace Slurm.ExtraConstraints

open Option Bool

variable {run : List Char} {c : Char}

/-- The run at the start of a string ends where it has to. -/
theorem span_append {p : Char → Bool} {a b : List Char} (ha : ∀ c ∈ a, p c = true)
    (hb : ∀ c ∈ b.head?, p c = false) :
    (a ++ b).takeWhile p = a ∧ (a ++ b).dropWhile p = b := by
  rw [List.takeWhile_append_of_pos ha, List.dropWhile_append_of_pos ha]
  cases b with
  | nil => exact ⟨List.append_nil a, rfl⟩
  | cons c b =>
    have hc : ¬ p c = true := by
      rw [hb c rfl]
      exact Bool.false_ne_true
    rw [List.takeWhile_cons_of_neg hc, List.dropWhile_cons_of_neg hc, List.append_nil]
    exact ⟨rfl, rfl⟩

/-! ## The table of operators -/

/-- The operator with the text `run`. -/
def tableOp (run : List Char) : Op := ((opTable.find? fun e => e.2 == run).map Prod.fst).getD .none

theorem str2op_eq (str validChars : List Char) :
    str2op str validChars =
      (if tableOp (str.takeWhile (validChars.contains ·)) = .childAndComma then .childAnd
        else tableOp (str.takeWhile (validChars.contains ·)),
        str.dropWhile (validChars.contains ·)) := rfl

theorem mem_of_tableOp (h : tableOp run ≠ .none) : (tableOp run, run) ∈ opTable := by
  rw [tableOp] at h ⊢
  cases hfind : opTable.find? fun e => e.2 == run with
  | none =>
    rw [hfind] at h
    exact absurd rfl h
  | some e =>
    have hrun : e.2 = run := by
      have hbeq := List.find?_some hfind
      exact beq_iff_eq.mp hbeq
    have hmem := List.mem_of_find?_eq_some hfind
    rw [map_some, getD_some, ← hrun]
    exact hmem

/-- Two operator characters between items are no operator. -/
theorem tableOp_of_sep {d : Char} (hc : c ∈ childOpChars) : tableOp (c :: d :: run) = .none := by
  by_contra h
  have hall : ∀ e ∈ opTable, 2 ≤ e.2.length → ∀ c ∈ childOpChars, e.2.head? ≠ some c := by
    simp [opTable, childOpChars]
  refine hall _ (mem_of_tableOp h) ?_ c hc rfl
  rw [List.length_cons, List.length_cons]
  omega

theorem sepOp_of_mem (hc : c ∈ childOpChars) :
    sepOp c ≠ .none ∧
      (if tableOp [c] = .childAndComma then .childAnd else tableOp [c]) = sepOp c := by
  have hall : ∀ c ∈ childOpChars, sepOp c ≠ .none ∧
      (if tableOp [c] = .childAndComma then .childAnd else tableOp [c]) = sepOp c := by
    simp [opTable, childOpChars, sepOp, tableOp]
  exact hall c hc

theorem mem_of_sepOp (hc : sepOp c ≠ .none) : c ∈ childOpChars := by
  rw [sepOp] at hc
  split at hc
  · rename_i h
    rcases h with rfl | rfl <;> simp [childOpChars]
  · split at hc
    · rename_i h
      simp [h, childOpChars]
    · exact absurd rfl hc

/-- An operator between items, which is one character. -/
theorem str2op_sep {rest : List Char} (hc : c ∈ childOpChars) :
    str2op (c :: rest) childOpChars =
      if rest.head?.any (childOpChars.contains ·) then
        (.none, rest.dropWhile (childOpChars.contains ·))
      else (sepOp c, rest) := by
  have hpos : childOpChars.contains c = true := List.contains_iff_mem.mpr hc
  rw [str2op_eq, List.takeWhile_cons_of_pos hpos, List.dropWhile_cons_of_pos hpos]
  cases rest with
  | nil => rw [List.takeWhile_nil, (sepOp_of_mem hc).2]; rfl
  | cons d rest =>
    rw [List.head?_cons, any_some]
    by_cases hd : childOpChars.contains d = true
    · rw [if_pos hd, List.takeWhile_cons_of_pos hd, tableOp_of_sep hc]
      rfl
    · rw [if_neg hd, List.takeWhile_cons_of_neg hd, List.dropWhile_cons_of_neg hd,
        (sepOp_of_mem hc).2]

/-! ## Leaves -/

theorem leafOpText_of_tableOp (h : tableOp run ≠ .none) (hrun : ∀ c ∈ run, c ∈ leafOpChars) :
    leafOpText (tableOp run) = some run ∧ tableOp run ≠ .childAndComma := by
  have hall : ∀ e ∈ opTable, (∀ c ∈ e.2, c ∈ leafOpChars) →
      leafOpText e.1 = some e.2 ∧ e.1 ≠ .childAndComma := by
    simp [opTable, leafOpChars, leafOpText]
  exact hall _ (mem_of_tableOp h) hrun

theorem tableOp_of_leafOpText {op : Op} {t : List Char} (h : leafOpText op = some t) :
    tableOp t = op ∧ op ≠ .none ∧ op ≠ .childAndComma ∧ t ≠ [] ∧ ∀ c ∈ t, c ∈ leafOpChars := by
  cases op <;> cases h <;> simp [tableOp, opTable, leafOpChars]

theorem validKeyValue_iff {w : List Char} :
    validKeyValue w = true ↔ w ≠ [] ∧ ∀ c ∈ w, c ∉ opChars := by
  rw [validKeyValue, and_eq_true, List.all_eq_true]
  simp only [not_eq_true', List.isEmpty_eq_false_iff, List.contains_eq_mem,
    decide_eq_false_iff_not]

theorem leaf_sub (h : c ∈ leafOpChars) : c ∈ opChars := by
  have hall : ∀ c ∈ leafOpChars, c ∈ opChars := by simp [leafOpChars, opChars]
  exact hall c h

theorem child_sub (h : c ∈ childOpChars) : c ∈ opChars := by
  have hall : ∀ c ∈ childOpChars, c ∈ opChars := by simp [childOpChars, opChars]
  exact hall c h

/-- No character of a word, or of a leaf operator, ends a leaf. -/
theorem endsLeaf_eq_false (h : c ∉ opChars ∧ c ≠ '(' ∧ c ≠ ')') : endsLeaf c = false := by
  have hchild : childOpChars.contains c = false := by
    rw [← not_eq_true, List.contains_iff_mem]
    exact fun hc => h.1 (child_sub hc)
  rw [endsLeaf, hchild, beq_eq_false_iff_ne.mpr h.2.1, beq_eq_false_iff_ne.mpr h.2.2]
  rfl

theorem endsLeaf_leafOp (h : c ∈ leafOpChars) : endsLeaf c = false := by
  have hall : ∀ c ∈ leafOpChars, endsLeaf c = false := by
    simp [leafOpChars, endsLeaf, childOpChars]
  exact hall c h

/-- A leaf is a key, a leaf operator and a value. -/
theorem parseLeaf_iff {str : List Char} (hstr : ∀ c ∈ str, endsLeaf c = false) (el : Elem) :
    parseLeaf str = some el ↔
      ∃ key op value, (Item.leaf key op value).Legal ∧ str = (Item.leaf key op value).text ∧
        el = (Item.leaf key op value).toElem := by
  have hnotLeaf : ∀ c, (!leafOpChars.contains c) = false ↔ c ∈ leafOpChars := by
    intro c
    rw [not_eq_false', List.contains_iff_mem]
  have hparens : ∀ c ∈ str, c ≠ '(' ∧ c ≠ ')' := by
    intro c hc
    have h := hstr c hc
    rw [endsLeaf, or_eq_false_iff, or_eq_false_iff, beq_eq_false_iff_ne,
      beq_eq_false_iff_ne] at h
    exact ⟨h.1.2, h.2⟩
  constructor
  · intro h
    rw [parseLeaf] at h
    split at h
    · cases h
    rename_i hptr
    rw [str2op_eq] at h
    generalize hkey : str.takeWhile (fun c => !leafOpChars.contains c) = key at h
    generalize hrest : str.dropWhile (fun c => !leafOpChars.contains c) = rest at h hptr
    generalize hrun : rest.takeWhile (leafOpChars.contains ·) = run at h
    generalize hval : rest.dropWhile (leafOpChars.contains ·) = value at h
    have hsplit : str = key ++ (run ++ value) := by
      rw [← hrun, ← hval, List.takeWhile_append_dropWhile, ← hkey, ← hrest,
        List.takeWhile_append_dropWhile]
    have hrunmem : ∀ c ∈ run, c ∈ leafOpChars := by
      intro c hc
      rw [← hrun] at hc
      exact List.contains_iff_mem.mp (List.mem_takeWhile_imp hc)
    by_cases hop : tableOp run = .none
    · rw [hop] at h
      cases h
    obtain ⟨htext, hcomma⟩ := leafOpText_of_tableOp hop hrunmem
    simp only [if_neg hcomma, if_neg hop] at h
    split at h
    · rename_i hvalid
      rw [and_eq_true, validKeyValue_iff, validKeyValue_iff] at hvalid
      obtain ⟨⟨hkeyne, hkeyops⟩, hvalne, hvalops⟩ := hvalid
      refine ⟨key, tableOp run, value, ⟨⟨hkeyne, fun c hc => ⟨hkeyops c hc, hparens c ?_⟩⟩, ?_,
        hvalne, fun c hc => ⟨hvalops c hc, hparens c ?_⟩⟩, ?_, (Option.some.inj h).symm⟩
      · rw [hsplit]
        exact List.mem_append_left _ hc
      · rw [htext]
        rfl
      · rw [hsplit]
        exact List.mem_append_right _ (List.mem_append_right _ hc)
      · rw [Item.text, htext, getD_some, List.append_assoc]
        exact hsplit
    · cases h
  · rintro ⟨key, op, value, ⟨⟨hkeyne, hkey⟩, hop, hvalne, hval⟩, rfl, rfl⟩
    obtain ⟨t, ht⟩ := Option.isSome_iff_exists.mp hop
    obtain ⟨htable, hne, hcomma, htne, htmem⟩ := tableOp_of_leafOpText ht
    obtain ⟨c, t', rfl⟩ := List.exists_cons_of_ne_nil htne
    have hword : ∀ {w : List Char}, (∀ c ∈ w, c ∉ opChars ∧ c ≠ '(' ∧ c ≠ ')') →
        ∀ c ∈ w, c ∉ leafOpChars := fun hw c hc hmem => (hw c hc).1 (leaf_sub hmem)
    obtain ⟨htake, hdrop⟩ := @span_append (fun c => !leafOpChars.contains c) key
      (c :: t' ++ value)
      (fun d hd => by
        rw [not_eq_true', ← not_eq_true, List.contains_iff_mem]
        exact hword hkey d hd)
      (fun d hd => by
        obtain rfl : c = d := Option.some.inj hd
        exact (hnotLeaf c).mpr (htmem c List.mem_cons_self))
    obtain ⟨htakeOp, hdropOp⟩ := @span_append (leafOpChars.contains ·) (c :: t') value
      (fun d hd => List.contains_iff_mem.mpr (htmem d hd))
      (fun d hd => by
        rw [← not_eq_true, List.contains_iff_mem]
        exact hword hval d (List.mem_of_mem_head? hd))
    have htext : (Item.leaf key op value).text = key ++ (c :: t' ++ value) := by
      rw [Item.text, ht, getD_some, List.append_assoc]
    have hcons : ¬ c :: t' ++ value = [] := List.cons_ne_nil c _
    rw [parseLeaf, htext, htake, hdrop, if_neg hcons, str2op_eq, htakeOp, hdropOp, htable,
      if_neg hcomma]
    simp only [if_neg hne]
    rw [if_pos]
    · rfl
    · rw [and_eq_true, validKeyValue_iff, validKeyValue_iff]
      exact ⟨⟨hkeyne, fun c hc => (hkey c hc).1⟩, hvalne, fun c hc => (hval c hc).1⟩

/-- No character of a leaf ends it. -/
theorem endsLeaf_text {key value : List Char} {op : Op} (h : (Item.leaf key op value).Legal) :
    ∀ c ∈ (Item.leaf key op value).text, endsLeaf c = false := by
  obtain ⟨⟨-, hkey⟩, hop, -, hval⟩ := h
  obtain ⟨t, ht⟩ := Option.isSome_iff_exists.mp hop
  obtain ⟨-, -, -, -, htmem⟩ := tableOp_of_leafOpText ht
  intro c hc
  rw [Item.text, ht, getD_some, List.mem_append, List.mem_append] at hc
  rcases hc with (hc | hc) | hc
  · exact endsLeaf_eq_false (hkey c hc)
  · exact endsLeaf_leafOp (htmem c hc)
  · exact endsLeaf_eq_false (hval c hc)

/-- An item starts with a parenthesis, or with a character of a key. -/
theorem text_cons (i : Item) (h : i.Legal) :
    ∃ c t, i.text = c :: t ∧ c ≠ ')' ∧ c ∉ childOpChars ∧
      (c = '(' ↔ ∃ e, i = .paren e) := by
  cases i with
  | leaf key op value =>
    obtain ⟨⟨hne, hkey⟩, -⟩ := h
    obtain ⟨c, key', rfl⟩ := List.exists_cons_of_ne_nil hne
    obtain ⟨hops, hopen, hclose⟩ := hkey c List.mem_cons_self
    refine ⟨c, _, rfl, hclose, fun hc => hops (child_sub hc), ?_⟩
    exact iff_of_false hopen fun ⟨e, he⟩ => nomatch he
  | paren e =>
    refine ⟨'(', _, rfl, by decide, by simp [childOpChars], ?_⟩
    exact iff_of_true rfl ⟨e, rfl⟩

/-! ## The truth of a leaf -/

def Cmp.ordering : Cmp → Option Ordering
  | .invalid => none
  | .lt => some .lt
  | .eq => some .eq
  | .gt => some .gt

/-- The comparison satisfies the operator. -/
def satisfies (ord : Ordering) : Op → Bool
  | .leafEq => ord == .eq
  | .leafNe => ord != .eq
  | .leafGt => ord == .gt
  | .leafGte => ord != .lt
  | .leafLt => ord == .lt
  | .leafLte => ord != .gt
  | _ => false

/-- The key is present, the values are comparable and the comparison satisfies the
operator. -/
def leafHolds {D : Type} (nums : Numbers D) (data : List (List Char × Data D)) (key : List Char)
    (op : Op) (value : List Char) : Bool :=
  ((data.find? fun e => e.1 == key).bind fun e => (compare nums e.2 value).ordering).any
    (satisfies · op)

theorem testOp_eq {comparison : Cmp} {ord : Ordering} (h : comparison.ordering = some ord) (op : Op) :
    testOp comparison op = satisfies ord op := by
  cases comparison <;> cases h <;> cases op <;> rfl

theorem leafTest_eq {D : Type} (nums : Numbers D) (data : List (List Char × Data D)) :
    leafTest nums data = leafHolds nums data := by
  funext key op value
  rw [leafTest, testLeaf, leafHolds, dataKeyGet, bind_some]
  cases data.find? fun e => e.1 == key with
  | none => rfl
  | some e =>
    rw [map_some, bind_some, getD_some]
    cases hord : (compare nums e.2 value).ordering with
    | none =>
      have hinvalid : compare nums e.2 value = .invalid := by
        cases hcmp : compare nums e.2 value <;> rw [hcmp] at hord <;> cases hord
      simp only [if_pos hinvalid]
      rfl
    | some ord =>
      have hvalid : compare nums e.2 value ≠ .invalid := by
        intro hinvalid
        rw [hinvalid] at hord
        cases hord
      simp only [if_neg hvalid]
      exact testOp_eq hord op

end Slurm.ExtraConstraints
