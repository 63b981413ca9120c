import Slurm.ExtraConstraints.Grammar

/-!
# Extra constraints are parsed exactly and tested as written

`parseContract`: every string is accepted when there is a derivation of it, and only
then, and the test of the tree gives the value that the derivation denotes.

`recurse` is called at two places of a level: where an item is to come, and after an
item.  `ItemsTo` and `RestTo` say what a call at each of them comes to when it succeeds,
and `recurse_iff` that it succeeds exactly then.

* `recurse_total`: there is fuel enough.
* `recurse_item`: an item is read.
* `recurse_rest`: the loop after an item.
-/

namespace Slurm.ExtraConstraints

open List

/-! ## What a call comes to -/

/-- The end of a level: of the string, or a parenthesis, which is passed over. -/
inductive Ends : Nat → List Char → Nat → List Char → Prop where
  | top : Ends 0 [] 0 []
  | paren (level : Nat) (s : List Char) : Ends (level + 1) (')' :: s) level s

/-- The items of an expression are added. -/
def Elem.extend : Elem → Expr → Elem
  | .mk op cs k v, e => .mk (e.opOr op) (cs ++ e.children) k v

/-- Where an item is to come: there is an expression up to the end of the level. -/
def ItemsTo (level : Nat) (s : List Char) (parent : Elem) (level' : Nat) (s' : List Char)
    (parent' : Elem) : Prop :=
  ∃ (e : Expr) (t : List Char), e.Legal ∧ e.Uniform parent.operator ∧ s = e.text ++ t ∧ Ends level t level' s' ∧
    parent' = parent.extend e

/-- After an item: it is the end of the level, or there is an operator and an expression
up to it. -/
def RestTo (level : Nat) (s : List Char) (parent : Elem) (level' : Nat) (s' : List Char)
    (parent' : Elem) : Prop :=
  (Ends level s level' s' ∧ parent' = parent) ∨
    ∃ sep s₁, s = sep :: s₁ ∧ sepOp sep ≠ .none ∧
      (parent.operator = .none ∨ parent.operator = sepOp sep) ∧
      ItemsTo level s₁ (parent.setOperator (sepOp sep)) level' s' parent'

/-- The string is at its end, or at a character that is in no leaf. -/
def Stops (s : List Char) : Prop := ∀ c ∈ s.head?, endsLeaf c = true

theorem Ends.stops {level level' : Nat} {s s' : List Char} (h : Ends level s level' s') : Stops s := by
  cases h with
  | top => exact fun c hc => nomatch hc
  | paren level s =>
    intro c hc
    obtain rfl : ')' = c := Option.some.inj hc
    simp [endsLeaf]

theorem endsLeaf_of_sep {c : Char} (h : c ∈ childOpChars) : endsLeaf c = true := by
  rw [endsLeaf, List.contains_iff_mem.mpr h]
  rfl

theorem RestTo.stops {level level' : Nat} {s s' : List Char} {parent parent' : Elem}
    (h : RestTo level s parent level' s' parent') : Stops s := by
  rcases h with ⟨hends, -⟩ | ⟨sep, s₁, rfl, hsep, -⟩
  · exact hends.stops
  · intro c hc
    obtain rfl : sep = c := Option.some.inj hc
    exact endsLeaf_of_sep (mem_of_sepOp hsep)

@[simp] theorem operator_addChild (parent child : Elem) :
    (parent.addChild child).operator = parent.operator := by
  cases parent
  rfl

@[simp] theorem operator_setOperator (op : Op) (parent : Elem) :
    (parent.setOperator op).operator = op := by
  cases parent
  rfl

theorem extend_one (parent : Elem) (i : Item) : parent.extend (.one i) = parent.addChild i.toElem := by
  cases parent
  rfl

theorem extend_more (parent : Elem) (i : Item) (sep : Char) (e : Expr) :
    parent.extend (.more i sep e) =
      ((parent.addChild i.toElem).setOperator (sepOp sep)).extend e := by
  cases parent with
  | mk op cs k v =>
    show Elem.mk _ (cs ++ i.toElem :: e.children) k v = .mk _ (cs ++ [i.toElem] ++ e.children) k v
    rw [append_assoc, singleton_append]
    rfl

/-- An expression is an item, and what comes after it. -/
theorem itemsTo_iff {level level' : Nat} {s s' : List Char} {parent parent' : Elem} :
    ItemsTo level s parent level' s' parent' ↔
      ∃ (i : Item) (u : List Char), i.Legal ∧ s = i.text ++ u ∧
        RestTo level u (parent.addChild i.toElem) level' s' parent' := by
  constructor
  · rintro ⟨e, t, hlegal, huniform, rfl, hends, rfl⟩
    cases e with
    | one i => exact ⟨i, t, hlegal, rfl, Or.inl ⟨hends, extend_one parent i⟩⟩
    | more i sep e =>
      obtain ⟨hsep, hop, hrest⟩ := huniform
      refine ⟨i, sep :: e.text ++ t, hlegal.1, ?_, Or.inr ⟨sep, e.text ++ t, rfl, hsep, ?_, ?_⟩⟩
      · rw [Expr.text, append_assoc]
      · rw [operator_addChild]
        exact hop
      · refine ⟨e, t, hlegal.2, ?_, rfl, hends, extend_more parent i sep e⟩
        rw [operator_setOperator]
        exact hrest
  · rintro ⟨i, u, hlegal, rfl, ⟨hends, rfl⟩ | ⟨sep, s₁, rfl, hsep, hop, e, t, helegal, huniform, rfl,
      hends, rfl⟩⟩
    · exact ⟨.one i, u, hlegal, trivial, rfl, hends, (extend_one parent i).symm⟩
    · rw [operator_addChild] at hop
      rw [operator_setOperator] at huniform
      refine ⟨.more i sep e, t, ⟨hlegal, helegal⟩, ⟨hsep, hop, huniform⟩, ?_, hends,
        (extend_more parent i sep e).symm⟩
      rw [Expr.text, append_assoc, cons_append]

/-! ## The calls -/

/-- A call that fails. -/
theorem finish_fail {s : Cursor} {level' : Nat} {s' : List Char} {parent parent' : Elem} :
    ¬ some (s.fail.finish, parent) = some (⟨s', level', false⟩, parent') := by
  intro h
  have hfailed := congrArg (fun r => r.map fun r => r.1.failed) h
  cases hfailed

theorem recurse_failed {fuel level level' : Nat} {s s' : List Char} {g l : Bool}
    {parent parent' : Elem} :
    ¬ recurse fuel ⟨s, level, true⟩ g l parent = some (⟨s', level', false⟩, parent') := by
  intro h
  cases fuel with
  | zero => cases h
  | succ fuel =>
    rw [recurse, if_pos rfl] at h
    exact @finish_fail ⟨s, level, true⟩ _ _ _ _ h

theorem length_dropWhile_cons {p : Char → Bool} {c : Char} (hc : p c = true) (rest : List Char) :
    ((c :: rest).dropWhile p).length ≤ rest.length := by
  rw [dropWhile_cons_of_pos hc]
  exact length_dropWhile_le p rest

/-- There is fuel enough, and what is left of the string is no longer. -/
theorem recurse_total (fuel : Nat) (str : List Char) (level : Nat) (failed gotOp gotLeaf : Bool)
    (parent : Elem) (hfuel : str.length < fuel) :
    ∃ s' parent', recurse fuel ⟨str, level, failed⟩ gotOp gotLeaf parent = some (s', parent') ∧
      s'.str.length ≤ str.length := by
  induction fuel generalizing str level failed gotOp gotLeaf parent with
  | zero => exact absurd hfuel (Nat.not_lt_zero _)
  | succ fuel ih =>
    cases str with
    | nil =>
      rw [recurse]
      split <;> exact ⟨_, _, rfl, le_rfl⟩
    | cons c rest =>
      have hrest : rest.length < fuel := Nat.lt_of_succ_lt_succ hfuel
      have hle : rest.length ≤ (c :: rest).length := Nat.le_succ _
      rw [recurse]
      split
      · exact ⟨_, _, rfl, le_rfl⟩
      simp only
      split
      · split
        · exact ⟨_, _, rfl, le_rfl⟩
        · obtain ⟨⟨str₁, level₁, failed₁⟩, child, hinner, hlen⟩ :=
            ih rest (level + 1) failed true false .alloc hrest
          rw [hinner]
          obtain ⟨s₂, parent₂, houter, hlen₂⟩ := ih str₁ level₁ failed₁ false true
            (parent.addChild child) (hlen.trans_lt hrest)
          exact ⟨s₂, parent₂, houter, hlen₂.trans (hlen.trans hle)⟩
      split
      · split <;> exact ⟨_, _, rfl, hle⟩
      split
      · rename_i hsep
        split
        · exact ⟨_, _, rfl, le_rfl⟩
        · rw [str2op_sep (List.contains_iff_mem.mp hsep)]
          split
          · exact ⟨_, _, rfl, le_rfl⟩
          · split
            · exact ⟨_, _, rfl, le_rfl⟩
            split
            · exact ⟨_, _, rfl, le_rfl⟩
            · obtain ⟨s₁, parent₁, h, hlen⟩ := ih rest level failed true false _ hrest
              exact ⟨s₁, parent₁, h, hlen.trans hle⟩
      · rename_i hopen hclose hsep
        have hc : (!endsLeaf c) = true := by
          rw [endsLeaf, Bool.not_eq_true', Bool.or_eq_false_iff, Bool.or_eq_false_iff,
            beq_eq_false_iff_ne, beq_eq_false_iff_ne]
          exact ⟨⟨Bool.eq_false_iff.mpr hsep, hopen⟩, hclose⟩
        have hend := @length_dropWhile_cons (fun c => !endsLeaf c) c hc rest
        split
        · exact ⟨_, _, rfl, le_rfl⟩
        split
        · exact ⟨_, _, rfl, le_rfl⟩
        · obtain ⟨s₁, parent₁, h, hlen⟩ := ih _ level failed false true _ (hend.trans_lt hrest)
          exact ⟨s₁, parent₁, h, hlen.trans (hend.trans hle)⟩

/-- What `recurse` comes to where an item is to come. -/
def ItemsOk (fuel : Nat) : Prop :=
  ∀ str level parent level' s' parent', str.length < fuel →
    (recurse fuel ⟨str, level, false⟩ true false parent = some (⟨s', level', false⟩, parent') ↔
      ItemsTo level str parent level' s' parent')

/-- What it comes to after an item. -/
def RestOk (fuel : Nat) : Prop :=
  ∀ str level parent level' s' parent', str.length < fuel →
    (recurse fuel ⟨str, level, false⟩ false true parent = some (⟨s', level', false⟩, parent') ↔
      RestTo level str parent level' s' parent')

variable {fuel level level' : Nat} {rest s' : List Char} {c : Char} {parent parent' : Elem}

theorem paren_text (e : Expr) (u : List Char) :
    (Item.paren e).text ++ u = '(' :: (e.text ++ ')' :: u) := by
  rw [Item.text, cons_append, cons_append, append_assoc, singleton_append]

/-- A parenthesis, its expression, and what comes after it. -/
theorem recurse_open (hitems : ItemsOk fuel) (hrest : RestOk fuel) (hfuel : rest.length < fuel) :
    recurse (fuel + 1) ⟨'(' :: rest, level, false⟩ true false parent =
        some (⟨s', level', false⟩, parent') ↔
      ItemsTo level ('(' :: rest) parent level' s' parent' := by
  rw [recurse, if_neg Bool.false_ne_true, itemsTo_iff]
  simp only [if_pos, Bool.not_true, Bool.false_eq_true, if_false]
  constructor
  · intro h
    cases hinner : recurse fuel ⟨rest, level + 1, false⟩ true false .alloc with
    | none =>
      rw [hinner] at h
      cases h
    | some r =>
      obtain ⟨⟨s₁, level₁, failed₁⟩, child⟩ := r
      rw [hinner] at h
      cases failed₁ with
      | true => exact absurd h recurse_failed
      | false =>
        obtain ⟨e, t, hlegal, huniform, rfl, hends, rfl⟩ := (hitems _ _ _ _ _ _ hfuel).mp hinner
        cases hends
        have hlen : s₁.length < fuel := by
          rw [length_append, length_cons] at hfuel
          omega
        exact ⟨.paren e, s₁, ⟨hlegal, (uniform_none_iff e).mp huniform⟩, (paren_text e s₁).symm,
          (hrest _ _ _ _ _ _ hlen).mp h⟩
  · rintro ⟨i, u, hlegal, hsplit, hto⟩
    obtain ⟨c, t, htext, -, -, hopen⟩ := text_cons i hlegal
    rw [htext] at hsplit
    obtain ⟨e, rfl⟩ := hopen.mp (List.cons.inj hsplit).1.symm
    rw [← htext, paren_text] at hsplit
    obtain rfl := (List.cons.inj hsplit).2
    have hinner := (hitems (e.text ++ ')' :: u) (level + 1) .alloc level u _ hfuel).mpr
      ⟨e, ')' :: u, hlegal.1, (uniform_none_iff e).mpr hlegal.2, rfl, .paren level u, rfl⟩
    have hlen : u.length < fuel := by
      rw [length_append, length_cons] at hfuel
      omega
    rw [hinner]
    exact (hrest _ _ _ _ _ _ hlen).mpr hto

/-- A leaf, and what comes after it. -/
theorem recurse_leaf (hrest : RestOk fuel) (hfuel : rest.length < fuel) (hopen : c ≠ '(')
    (hclose : c ≠ ')') (hsep : ¬ childOpChars.contains c = true) :
    recurse (fuel + 1) ⟨c :: rest, level, false⟩ true false parent =
        some (⟨s', level', false⟩, parent') ↔
      ItemsTo level (c :: rest) parent level' s' parent' := by
  have hc : (!endsLeaf c) = true := by
    rw [endsLeaf, Bool.not_eq_true', Bool.or_eq_false_iff, Bool.or_eq_false_iff,
      beq_eq_false_iff_ne, beq_eq_false_iff_ne]
    exact ⟨⟨Bool.eq_false_iff.mpr hsep, hopen⟩, hclose⟩
  have hall : ∀ d ∈ (c :: rest).takeWhile fun c => !endsLeaf c, endsLeaf d = false := by
    intro d hd
    have hpos := mem_takeWhile_imp hd
    exact (Bool.not_eq_true' _).mp hpos
  have hlen := (@length_dropWhile_cons (fun c => !endsLeaf c) c hc rest).trans_lt hfuel
  rw [recurse, if_neg Bool.false_ne_true, itemsTo_iff]
  simp only [if_neg hopen, if_neg hclose, if_neg hsep, Bool.not_true, Bool.false_eq_true, if_false]
  constructor
  · intro h
    cases hparse : parseLeaf ((c :: rest).takeWhile fun c => !endsLeaf c) with
    | none =>
      rw [hparse] at h
      exact absurd h finish_fail
    | some leaf =>
      rw [hparse] at h
      obtain ⟨key, op, value, hlegal, htext, rfl⟩ := (parseLeaf_iff hall leaf).mp hparse
      refine ⟨.leaf key op value, (c :: rest).dropWhile fun c => !endsLeaf c, hlegal, ?_,
        (hrest _ _ _ _ _ _ hlen).mp h⟩
      rw [← htext, takeWhile_append_dropWhile]
  · rintro ⟨i, u, hlegal, hsplit, hto⟩
    obtain ⟨d, t, htext, -, -, hparen⟩ := text_cons i hlegal
    cases i with
    | paren e =>
      rw [htext] at hsplit
      exact absurd ((List.cons.inj hsplit).1.trans (hparen.mpr ⟨e, rfl⟩)) hopen
    | leaf key op value =>
      have hstops := hto.stops
      obtain ⟨htake, hdrop⟩ := @span_append (fun c => !endsLeaf c) _ u
        (fun d hd => (Bool.not_eq_true' _).mpr (endsLeaf_text hlegal d hd))
        (fun d hd => (Bool.not_eq_false' _).mpr (hstops d hd))
      have hparse := (parseLeaf_iff (endsLeaf_text hlegal) _).mpr
        ⟨key, op, value, hlegal, rfl, rfl⟩
      rw [hsplit, hdrop] at hlen
      rw [hsplit, htake, hdrop, hparse]
      exact (hrest _ _ _ _ _ _ hlen).mpr hto

/-- Where an item is to come. -/
theorem recurse_items (hitems : ItemsOk fuel) (hrest : RestOk fuel) : ItemsOk (fuel + 1) := by
  intro str level parent level' s' parent' hfuel
  have hno : ∀ {c : Char} {rest : List Char}, c = ')' ∨ c ∈ childOpChars →
      ¬ ItemsTo level (c :: rest) parent level' s' parent' := by
    intro c rest hc hto
    obtain ⟨i, u, hlegal, hsplit, -⟩ := itemsTo_iff.mp hto
    obtain ⟨d, t, htext, hclose, hsep, -⟩ := text_cons i hlegal
    rw [htext] at hsplit
    obtain rfl := (List.cons.inj hsplit).1
    exact hc.elim hclose hsep
  cases str with
  | nil =>
    refine iff_of_false (fun h => ?_) fun hto => ?_
    · rw [recurse, if_neg Bool.false_ne_true] at h
      exact @finish_fail ⟨[], level, false⟩ _ _ _ _ h
    · obtain ⟨i, u, hlegal, hsplit, -⟩ := itemsTo_iff.mp hto
      obtain ⟨d, t, htext, -⟩ := text_cons i hlegal
      rw [htext] at hsplit
      cases hsplit
  | cons c rest =>
    have hlen : rest.length < fuel := Nat.lt_of_succ_lt_succ hfuel
    by_cases hopen : c = '('
    · subst hopen
      exact recurse_open hitems hrest hlen
    by_cases hclose : c = ')'
    · refine iff_of_false (fun h => ?_) (hno (Or.inl hclose))
      rw [recurse, if_neg Bool.false_ne_true] at h
      simp only [if_neg hopen, if_pos hclose] at h
      split at h
      · exact @finish_fail ⟨rest, level, false⟩ _ _ _ _ h
      · cases h
    by_cases hsep : childOpChars.contains c = true
    · refine iff_of_false (fun h => ?_) (hno (Or.inr (List.contains_iff_mem.mp hsep)))
      rw [recurse, if_neg Bool.false_ne_true] at h
      simp only [if_neg hopen, if_neg hclose, if_pos hsep, Bool.not_false, if_true] at h
      exact finish_fail h
    · exact recurse_leaf hrest hlen hopen hclose hsep

/-- An operator, and an expression after it. -/
theorem recurse_sep (hitems : ItemsOk fuel) (hfuel : rest.length < fuel) (hsep : c ∈ childOpChars) :
    recurse (fuel + 1) ⟨c :: rest, level, false⟩ false true parent =
        some (⟨s', level', false⟩, parent') ↔
      RestTo level (c :: rest) parent level' s' parent' := by
  have hopen : c ≠ '(' := by
    rintro rfl
    simp [childOpChars] at hsep
  have hclose : c ≠ ')' := by
    rintro rfl
    simp [childOpChars] at hsep
  have hnot : ¬ Ends level (c :: rest) level' s' := fun h => by
    cases h
    exact hclose rfl
  have hrest : RestTo level (c :: rest) parent level' s' parent' ↔
      (parent.operator = .none ∨ parent.operator = sepOp c) ∧
        ItemsTo level rest (parent.setOperator (sepOp c)) level' s' parent' := by
    constructor
    · rintro (⟨hends, -⟩ | ⟨sep, s₁, hcons, -, hop, hto⟩)
      · exact absurd hends hnot
      · obtain ⟨rfl, rfl⟩ := List.cons.inj hcons
        exact ⟨hop, hto⟩
    · rintro ⟨hop, hto⟩
      exact Or.inr ⟨c, rest, rfl, (sepOp_of_mem hsep).1, hop, hto⟩
  rw [hrest, recurse, if_neg Bool.false_ne_true]
  simp only [if_neg hopen, if_neg hclose, if_pos (List.contains_iff_mem.mpr hsep), Bool.not_true,
    Bool.false_eq_true, if_false]
  rw [str2op_sep hsep]
  split
  · -- Another operator character follows.
    rename_i hany
    refine iff_of_false (fun h => finish_fail h) fun h => ?_
    have hto := h.2
    obtain ⟨i, u, hlegal, rfl, -⟩ := itemsTo_iff.mp hto
    obtain ⟨d, t, htext, -, hd, -⟩ := text_cons i hlegal
    rw [htext] at hany
    exact hd (List.contains_iff_mem.mp hany)
  · simp only [if_neg (sepOp_of_mem hsep).1]
    split
    · rename_i hother
      exact iff_of_false (fun h => finish_fail h) fun h => h.1.elim hother.1 hother.2
    · rename_i hsame
      rw [hitems _ _ _ _ _ _ hfuel, and_iff_right]
      by_contra hop
      rw [not_or] at hop
      exact hsame hop

/-- After an item. -/
theorem recurse_rest (hitems : ItemsOk fuel) : RestOk (fuel + 1) := by
  intro str level parent level' s' parent' hfuel
  cases str with
  | nil =>
    rw [recurse, if_neg Bool.false_ne_true]
    cases level with
    | zero =>
      constructor
      · intro h
        cases h
        exact Or.inl ⟨.top, rfl⟩
      · rintro (⟨hends, rfl⟩ | ⟨sep, s₁, hcons, -⟩)
        · cases hends
          rfl
        · cases hcons
    | succ level =>
      refine iff_of_false (fun h => nomatch h) ?_
      rintro (⟨hends, -⟩ | ⟨sep, s₁, hcons, -⟩)
      · cases hends
      · cases hcons
  | cons c rest =>
    have hlen : rest.length < fuel := Nat.lt_of_succ_lt_succ hfuel
    by_cases hsep : c ∈ childOpChars
    · exact recurse_sep hitems hlen hsep
    have hrest : RestTo level (c :: rest) parent level' s' parent' ↔
        Ends level (c :: rest) level' s' ∧ parent' = parent := by
      refine ⟨?_, Or.inl⟩
      rintro (h | ⟨sep, s₁, hcons, hne, -⟩)
      · exact h
      · obtain ⟨rfl, -⟩ := List.cons.inj hcons
        exact absurd (mem_of_sepOp hne) hsep
    rw [hrest, recurse, if_neg Bool.false_ne_true]
    by_cases hclose : c = ')'
    · subst hclose
      simp only [if_neg (show ')' ≠ '(' by decide), if_pos]
      cases level with
      | zero =>
        refine iff_of_false (fun h => ?_) fun h => nomatch h.1
        exact @finish_fail ⟨rest, 0, false⟩ _ _ _ _ h
      | succ level =>
        constructor
        · intro h
          cases h
          exact ⟨.paren _ _, rfl⟩
        · rintro ⟨hends, rfl⟩
          cases hends
          rfl
    · have hends : ¬ (Ends level (c :: rest) level' s' ∧ parent' = parent) := by
        rintro ⟨h, -⟩
        cases h
        exact hclose rfl
      have hcontains : ¬ childOpChars.contains c = true := fun h => hsep (List.contains_iff_mem.mp h)
      refine iff_of_false (fun h => ?_) hends
      simp only [if_neg hclose, if_neg hcontains, Bool.not_false, if_true] at h
      split at h <;> exact finish_fail h

/-- `recurse` succeeds exactly on the expressions. -/
theorem recurse_iff (fuel : Nat) : ItemsOk fuel ∧ RestOk fuel := by
  induction fuel with
  | zero => exact ⟨fun _ _ _ _ _ _ h => absurd h (Nat.not_lt_zero _),
      fun _ _ _ _ _ _ h => absurd h (Nat.not_lt_zero _)⟩
  | succ fuel ih => exact ⟨recurse_items ih.1 ih.2, recurse_rest ih.1⟩

/-! ## The contract -/

/-- Every string is parsed, to success exactly when there is a derivation of it.  Then the
test gives the value that each derivation of it denotes. -/
def ParseContract (s : List Char) (head : Option Elem) : Prop :=
  ∃ rc tree, extraConstraintsParse true (some s) head = some (rc, tree) ∧
    (rc = .success ↔ ∃ e, Derives e s) ∧
    ∀ e, Derives e s → ∀ (D : Type) (nums : Numbers D) (data : List (List Char × Data D)),
      extraConstraintsTest nums true tree (some data) = e.value (leafHolds nums data)

/-- The tree of an accepted string, whose operator is `&` when there is none. -/
theorem test_head {D : Type} {nums : Numbers D} {data : List (List Char × Data D)} {e : Expr}
    {s : List Char} (h : Derives e s) :
    testExtraConstraints nums data
        (if e.toElem.operator = .none then e.toElem.setOperator .childAnd else e.toElem) =
      e.value (leafHolds nums data) := by
  obtain ⟨hlegal, hsame, -⟩ := h
  rw [← leafTest_eq]
  cases e with
  | one i =>
    show testExtraConstraints nums data (.mk .childAnd (Expr.one i).children none none) = _
    rw [test_mk, Expr.children, testChildren_singleton]
    exact test_item i hlegal
  | more i sep e =>
    have huniform := (uniform_none_iff (.more i sep e)).mpr hsame
    have hop : (Expr.more i sep e).toElem.operator ≠ .none := by
      show e.opOr (sepOp sep) ≠ .none
      rw [opOr_uniform huniform.1 huniform.2.2]
      exact huniform.1
    rw [if_neg hop, Expr.toElem, test_mk]
    exact test_children _ hlegal .none huniform

/-- The whole string is parsed by a call at the outer level. -/
theorem parse_iff (s : List Char) (s' : List Char) (level' : Nat) (tree : Elem) :
    recurse (s.length + 1) ⟨s, 0, false⟩ true false .alloc = some (⟨s', level', false⟩, tree) ↔
      ∃ e, Derives e s ∧ s' = [] ∧ level' = 0 ∧ tree = e.toElem := by
  rw [(recurse_iff (s.length + 1)).1 _ _ _ _ _ _ (Nat.lt_succ_self _)]
  constructor
  · rintro ⟨e, t, hlegal, huniform, rfl, hends, rfl⟩
    cases hends
    refine ⟨e, ⟨hlegal, (uniform_none_iff e).mp huniform, (append_nil _).symm⟩, rfl, rfl, rfl⟩
  · rintro ⟨e, ⟨hlegal, hsame, rfl⟩, rfl, rfl, rfl⟩
    exact ⟨e, [], hlegal, (uniform_none_iff e).mpr hsame, (append_nil _).symm, .top, rfl⟩

/-- The parser accepts the strings of the language and no others, and what it makes of them is
tested as it is written. -/
theorem parseContract (s : List Char) (head : Option Elem) : ParseContract s head := by
  obtain ⟨⟨s', level', failed⟩, tree, hcall, -⟩ :=
    recurse_total (s.length + 1) s 0 false true false .alloc (Nat.lt_succ_self _)
  have hparse : extraConstraintsParse true (some s) head =
      some (if failed then (.invalidExtra, none)
        else if tree.operator = .none then (.success, some (tree.setOperator .childAnd))
        else (.success, some tree)) := by
    rw [extraConstraintsParse, hcall]
    rfl
  cases failed with
  | true =>
    have hno : ∀ e, ¬ Derives e s := by
      intro e he
      have h := (parse_iff s [] 0 e.toElem).mpr ⟨e, he, rfl, rfl, rfl⟩
      rw [hcall] at h
      cases h
    refine ⟨.invalidExtra, none, hparse, ?_, fun e he => absurd he (hno e)⟩
    exact iff_of_false (fun h => nomatch h) fun ⟨e, he⟩ => hno e he
  | false =>
    obtain ⟨e₀, he₀, -, -, -⟩ := (parse_iff s s' level' tree).mp hcall
    have htree : ∀ e, Derives e s → tree = e.toElem := by
      intro e he
      have h := (parse_iff s [] 0 e.toElem).mpr ⟨e, he, rfl, rfl, rfl⟩
      rw [hcall] at h
      cases h
      rfl
    refine ⟨.success, some (if tree.operator = .none then tree.setOperator .childAnd else tree), ?_,
      iff_of_true rfl ⟨e₀, he₀⟩, fun e he D nums data => ?_⟩
    · rw [hparse]
      by_cases hop : tree.operator = .none
      · simp [hop]
      · simp [hop]
    · rw [htree e he]
      exact test_head he

end Slurm.ExtraConstraints
