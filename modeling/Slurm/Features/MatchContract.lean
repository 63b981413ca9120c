import Slurm.Features.Evaluate

/-!
# The two evaluators of feature expressions

`_match_feature` reads an expression strictly from left to right, as the manual of the `--constraint`
option says it; `job_features_list2feature_sets` lets `&` bind tighter.  `foo|bar&baz` asks for `baz` in
the one way and not in the other.

* `match_operand`, `match_row`: the bit of a node, after an operand and after an expression.
* `outside_iff_fromLeft`: a node is outside the inactive bitmap exactly if its features satisfy the
  expression read from left to right.
* `matchContract`: the two evaluators, and where they agree.
-/

namespace Slurm.Features

open Lib.Joined

variable {w : Nat}
variable {existing : BitVec w}

/-! ## Left to right -/

/-- The operand, with its group read from left to right. -/
def Operand.FromLeft (F : Set Name) : Operand → Prop
  | .one n => n.name ∈ F
  | .group g => Lib.Joined.FromLeft (fun n => n.name ∈ F) g

/-- The expression read from left to right, with each group an operand. -/
def Expr.FromLeft (F : Set Name) (e : Expr) : Prop := Lib.Joined.FromLeft (Operand.FromLeft F) e

/-- No `&` comes behind an `|` in a group. -/
def Operand.AndsFirst : Operand → Prop
  | .one _ => True
  | .group g => Lib.Joined.AndsFirst g

/-- No `&` comes behind an `|`, outside the groups and inside each of them. -/
def Expr.AndsFirst (e : Expr) : Prop :=
  Lib.Joined.AndsFirst e ∧ ∀ o ∈ e.operands, Operand.AndsFirst o

theorem sat_iff_fromLeft {e : Expr} (h : e.AndsFirst) (F : Set Name) : e.Sat F ↔ e.FromLeft F := by
  refine (tight_iff_fromLeft h.1).trans (fromLeft_congr fun o ho => ?_)
  have hfirst := h.2 o ho
  cases o with
  | one n => exact Iff.rfl
  | group g => exact tight_iff_fromLeft hfirst

/-! ## Bits -/

/-- The features that are active on a node. -/
def NodeTable.activeOn (table : NodeTable w) (i : Nat) : Set Name :=
  {name | ((table.activeFeatureList name).getD 0).getLsbD i = true}

/-- A node is not in the inactive bitmap. -/
def Outside (result : Int × Option (BitVec w)) (i : Nat) : Prop :=
  ∀ b, result.2 = some b → b.getLsbD i = false

theorem outside_matchFeature {count : Nat} (hcount : count ≠ 0) (existing : BitVec w)
    (list : List (FoundFeature w)) {i : Nat} (hi : i < w) :
    Outside (matchFeature count existing (some list)) i ↔
      (list.foldl (matchOne existing) (.init existing)).featureBitmap.getLsbD i = true := by
  unfold matchFeature Outside
  dsimp only
  rw [if_neg hcount]
  split
  · rename_i hall
    simp [hall, hi]
  · simp [hi]

variable {table : NodeTable w} {canReboot : Bool} {args : MatchArg w} {f : JobFeature} {i : Nat}
  {P : Prop}

/-- The operator that a code stands for, where there is no matching or. -/
def Codes (code : FeatureOp) (op : Op) : Prop := code = .or ↔ op = .or

theorem getLsbD_applyOp {code : FeatureOp} {op : Op} (h : Codes code op) {a b : BitVec w} {Q : Prop}
    (ha : a.getLsbD i = true ↔ P) (hb : b.getLsbD i = true ↔ Q) :
    (applyOp code a b).getLsbD i = true ↔ op.apply P Q := by
  unfold applyOp
  cases op with
  | and =>
    rw [if_neg (fun hor => nomatch h.mp hor), BitVec.getLsbD_and, Bool.and_eq_true, ha, hb]
    rfl
  | or =>
    rw [if_pos (h.mpr rfl), BitVec.getLsbD_or, Bool.or_eq_true, ha, hb]
    rfl

/-- No group is open, `op` is the last operator, and the bit of the node says `P`. -/
structure MatchBetween (i : Nat) (P : Prop) (op : Op) (args : MatchArg w) : Prop where
  paren : args.lastParenCnt = 0
  work : args.workBitmap = .feature
  code : Codes args.lastOp op
  bit : args.featureBitmap.getLsbD i = true ↔ P

/-- A group is open: its own bit says `Q`, and `op₀` is the operator before it. -/
structure MatchInside (i : Nat) (P : Prop) (op₀ : Op) (Q : Prop) (op : Op) (args : MatchArg w) :
    Prop where
  paren : args.lastParenCnt = 1
  work : args.workBitmap = .paren
  code : Codes args.lastOp op
  code₀ : Codes args.lastParenOp op₀
  bit : args.featureBitmap.getLsbD i = true ↔ P
  parenBit : args.parenBitmap.getLsbD i = true ↔ Q

/-- The plain case: no feature is changeable, and nothing is converted. -/
abbrev plainOp (p : Nat) (n : Name) (op : Op) : JobFeature := withOp (fun _ => false) false p n op

theorem codes_opCode (p : Nat) (n : Name) (op : Op) :
    Codes (opCode (fun _ => false) false p n op) op := by
  cases op with
  | and => simp [Codes, opCode]
  | or => simp [Codes, opCode]

theorem codes_closing (close : Option Op) (n : Name) :
    Codes (closing (fun _ => false) false close n).opCode (close.getD .and) := by
  cases close with
  | none => simp [Codes, closing]
  | some op => exact codes_opCode 0 n op

variable {op op' op₀ : Op} {Q : Prop}

theorem findFeature_bit (table : NodeTable w) (canReboot : Bool) (f : JobFeature) :
    (findFeature table canReboot f).nodeBitmapActive.getLsbD i = true ↔ f.name ∈ table.activeOn i :=
  Iff.rfl

section

variable (table canReboot)

/-- A feature that was looked up always has its bitmaps. -/
theorem matchAdd_eq (f : JobFeature) (args : MatchArg w) :
    matchAdd (findFeature table canReboot f) args =
      args.modifyWork fun b => applyOp args.lastOp b (findFeature table canReboot f).nodeBitmapActive :=
  rfl

/-- A feature inside a group. -/
theorem match_inside (h : MatchInside i P op₀ Q op args) (existing : BitVec w) (hf : f.paren = 1)
    (hcode : Codes f.opCode op') :
    MatchInside i P op₀ (op.apply Q (f.name ∈ table.activeOn i)) op'
      (matchOne existing args (findFeature table canReboot f)) := by
  have hbit := getLsbD_applyOp h.code h.parenBit (findFeature_bit table canReboot f)
  have hstart : matchStart existing (findFeature table canReboot f) args = args := by
    refine if_neg ?_
    rw [h.paren]
    show ¬ 1 < f.paren
    omega
  unfold matchOne
  rw [hstart, matchAdd_eq]
  unfold matchEnd MatchArg.modifyWork findFeature
  rw [h.work]
  dsimp only
  rw [h.paren, hf, if_neg (Nat.lt_irrefl 1)]
  exact ⟨rfl, rfl, hcode, h.code₀, h.bit, hbit⟩

/-- The first feature of a group. -/
theorem match_start (h : MatchBetween i P op args) (hi : existing.getLsbD i = true)
    (hf : f.paren = 1) (hcode : Codes f.opCode op') :
    MatchInside i P op (f.name ∈ table.activeOn i) op'
      (matchOne existing args (findFeature table canReboot f)) := by
  have hstart : matchStart existing (findFeature table canReboot f) args =
      { args with
        lastParenOp := args.lastOp
        lastOp := .and
        parenBitmap := existing
        workBitmap := .paren } := by
    refine if_pos ?_
    rw [h.paren]
    show 0 < f.paren
    omega
  have hand : Codes .and .and := by simp [Codes]
  have hbit := getLsbD_applyOp hand (iff_of_true hi trivial) (findFeature_bit table canReboot f)
  unfold matchOne
  rw [hstart, matchAdd_eq]
  unfold matchEnd MatchArg.modifyWork findFeature
  dsimp only
  rw [h.paren, hf, if_neg (Nat.not_lt_zero 1)]
  exact ⟨rfl, rfl, hcode, h.code, h.bit, hbit.trans (iff_of_eq (true_and _))⟩

/-- The last feature of a group. -/
theorem match_end (h : MatchInside i P op₀ Q op args) (existing : BitVec w) (hf : f.paren = 0)
    (hcode : Codes f.opCode op') :
    MatchBetween i (op₀.apply P (op.apply Q (f.name ∈ table.activeOn i))) op'
      (matchOne existing args (findFeature table canReboot f)) := by
  have hbit := getLsbD_applyOp h.code h.parenBit (findFeature_bit table canReboot f)
  have hstart : matchStart existing (findFeature table canReboot f) args = args := by
    refine if_neg ?_
    rw [h.paren]
    show ¬ 1 < f.paren
    omega
  unfold matchOne
  rw [hstart, matchAdd_eq]
  unfold matchEnd MatchArg.modifyWork MatchArg.work
  rw [h.work]
  dsimp only
  rw [h.paren]
  show MatchBetween _ _ _ { (if 1 > f.paren then _ else _ : MatchArg w) with
    lastOp := f.opCode, lastParenCnt := f.paren }
  rw [hf, if_pos Nat.one_pos]
  exact ⟨rfl, rfl, hcode, getLsbD_applyOp h.code₀ h.bit hbit⟩

/-- A name outside parentheses. -/
theorem match_one (h : MatchBetween i P op args) (existing : BitVec w) (hf : f.paren = 0)
    (hcode : Codes f.opCode op') :
    MatchBetween i (op.apply P (f.name ∈ table.activeOn i)) op'
      (matchOne existing args (findFeature table canReboot f)) := by
  have hbit := getLsbD_applyOp h.code h.bit (findFeature_bit table canReboot f)
  have hstart : matchStart existing (findFeature table canReboot f) args = args := by
    refine if_neg ?_
    rw [h.paren]
    show ¬ 0 < f.paren
    omega
  unfold matchOne
  rw [hstart, matchAdd_eq]
  unfold matchEnd MatchArg.modifyWork
  rw [h.work]
  dsimp only
  rw [h.paren, if_neg (Nat.not_lt_zero _)]
  exact ⟨hf, rfl, hcode, hbit⟩

/-! ## Operands and expressions -/

/-- The list that the evaluator goes over. -/
abbrev runMatch (existing : BitVec w) (args : MatchArg w) (list : List JobFeature) : MatchArg w :=
  (findFeatureNodes table canReboot list).foldl (matchOne existing) args

/-- The rest of a group. -/
theorem match_names (existing : BitVec w) (close : Option Op) (r : List (Label × Op)) (y : Label)
    (h : MatchInside i P op₀ Q op args) :
    MatchBetween i (op₀.apply P (fold (fun n : Label => n.name ∈ table.activeOn i) Q op r y))
      (close.getD .and)
      (runMatch table canReboot existing args
        ((r.map fun x => plainOp 1 x.1.name x.2) ++ [closing (fun _ => false) false close y.name])) := by
  induction r generalizing args Q op with
  | nil =>
    obtain ⟨hname, hparen⟩ := closing_spec (fun _ => false) false close y.name
    have hend := match_end table canReboot h existing hparen
      (codes_closing close y.name)
    rw [hname] at hend
    exact hend
  | cons x r ih =>
    exact ih (match_inside table canReboot h existing (f := plainOp 1 x.1.name x.2) rfl
      (codes_opCode 1 x.1.name x.2))

/-- An operand applies its operator. -/
theorem match_operand (hi : existing.getLsbD i = true) (close : Option Op) (o : Operand)
    (h : MatchBetween i P op args) :
    MatchBetween i (op.apply P (o.FromLeft (table.activeOn i))) (close.getD .and)
      (runMatch table canReboot existing args (o.features (fun _ => false) false close)) := by
  have hsingle : ∀ n : Label, MatchBetween i (op.apply P (n.name ∈ table.activeOn i)) (close.getD .and)
      (runMatch table canReboot existing args [closing (fun _ => false) false close n.name]) := by
    intro n
    obtain ⟨hname, hparen⟩ := closing_spec (fun _ => false) false close n.name
    have hone := match_one table canReboot h existing hparen
      (codes_closing close n.name)
    rw [hname] at hone
    exact hone
  match o with
  | .one n => exact hsingle n
  | .group ⟨[], y⟩ => exact hsingle y
  | .group ⟨(x, op') :: r, y⟩ =>
    exact match_names table canReboot existing close r y
      (match_start table canReboot h hi (f := plainOp 1 x.name op') rfl (codes_opCode 1 x.name op'))

/-- An expression applies its operators one after the other. -/
theorem match_row (hi : existing.getLsbD i = true) (close : Option Op) (r : List (Operand × Op))
    (y : Operand) (h : MatchBetween i P op args) :
    MatchBetween i (fold (Operand.FromLeft (table.activeOn i)) P op r y) (close.getD .and)
      (runMatch table canReboot existing args
        (Expr.features (fun _ => false) false ⟨r, y⟩ close)) := by
  induction r generalizing args P op with
  | nil => exact match_operand table canReboot hi close y h
  | cons x r ih =>
    have hx := match_operand table canReboot hi (some x.2) x.1 h
    rw [features_cons]
    unfold runMatch findFeatureNodes
    rw [List.map_append, List.foldl_append]
    exact ih hx

/-- A node is outside the inactive bitmap exactly if its features satisfy the expression from left to
right. -/
theorem outside_iff_fromLeft {count : Nat} (hcount : count ≠ 0) (hi : table.existing.getLsbD i = true)
    (e : Expr) (close : Option Op) :
    Outside (matchFeature count table.existing
        (some (findFeatureNodes table canReboot (e.features (fun _ => false) false close)))) i ↔
      e.FromLeft (table.activeOn i) := by
  have hand : Codes .and .and := by simp [Codes]
  have hinit : MatchBetween i True .and (MatchArg.init table.existing) :=
    ⟨rfl, rfl, hand, iff_of_true hi trivial⟩
  rw [outside_matchFeature hcount _ _ (BitVec.lt_of_getLsbD hi)]
  exact (match_row table canReboot hi close e.init e.last hinit).bit.trans (fold_true e.init e.last)

end

/-! ## The contract -/

/-- The two evaluators agree on every node, for a string that is accepted. -/
def EvaluatorsAgree (table : NodeTable w) (canReboot : Bool) (count : Nat) (s : List Char) : Prop :=
  (∀ c ∈ s, c ∉ "[]*".toList) →
    ∀ list b, featureString2list (fun _ => false) s false = .ok (list, b) →
      ∀ i, table.existing.getLsbD i = true →
        (Outside (matchFeature count table.existing
            (some (findFeatureNodes table canReboot list))) i ↔
          Enough (list2featureSets list) (table.activeOn i))

/-- One node, which has only the feature `foo`. -/
def fooNode : NodeTable 1 := ⟨1, fun name => if name = "foo".toList then some 1 else none, fun _ => none⟩

/-- The evaluators do not agree on `foo|bar&baz`. -/
theorem evaluators_disagree : ¬ EvaluatorsAgree fooNode false 1 "foo|bar&baz".toList := by
  intro h
  have hlist : featureString2list (fun _ => false) "foo|bar&baz".toList false =
      .ok ([plainOp 0 "foo".toList .or, plainOp 0 "bar".toList .and,
        ⟨"baz".toList, 0, false, 0, .fin, 0⟩], false) := rfl
  have hsets : list2featureSets [plainOp 0 "foo".toList .or, plainOp 0 "bar".toList .and,
        ⟨"baz".toList, 0, false, 0, .fin, 0⟩] =
      [[plainOp 0 "foo".toList .or],
        [plainOp 0 "bar".toList .and, ⟨"baz".toList, 0, false, 0, .fin, 0⟩]] := rfl
  have hplain : ∀ c ∈ "foo|bar&baz".toList, c ∉ "[]*".toList := by simp
  have hagree := h hplain _ _ hlist 0 (by decide)
  have henough : Enough (list2featureSets [plainOp 0 "foo".toList .or, plainOp 0 "bar".toList .and,
      ⟨"baz".toList, 0, false, 0, .fin, 0⟩]) (fooNode.activeOn 0) := by
    rw [hsets]
    refine ⟨_, List.mem_cons_self, fun f hf => ?_⟩
    rw [List.mem_singleton.mp hf]
    show ((fooNode.activeFeatureList "foo".toList).getD 0).getLsbD 0 = true
    decide
  have hinactive : (1#1).getLsbD 0 = false := hagree.mpr henough 1 (by decide)
  exact absurd hinactive (by decide)

/-- What is promised of a constraint string that is accepted, where there is a plugin for node features
and none of the features can be changed.  A node is outside the inactive bitmap if its features satisfy
the expression from left to right; it has all features of some set if they satisfy it with `&` binding
tighter; and this is the same where no `&` comes behind an `|`. -/
def MatchContract (table : NodeTable w) (canReboot : Bool) (count : Nat) (s : List Char) : Prop :=
  (∀ c ∈ s, c ∉ "[]*".toList) → count ≠ 0 →
    ∀ list b, featureString2list (fun _ => false) s false = .ok (list, b) →
      (s = [] ∨ ∃ e close, Written e close s) ∧ ∀ e close, Written e close s →
        ∀ i, table.existing.getLsbD i = true →
          (Outside (matchFeature count table.existing
              (some (findFeatureNodes table canReboot list))) i ↔ e.FromLeft (table.activeOn i)) ∧
            (Enough (list2featureSets list) (table.activeOn i) ↔ e.Sat (table.activeOn i)) ∧
              (e.AndsFirst → (Outside (matchFeature count table.existing
                  (some (findFeatureNodes table canReboot list))) i ↔
                Enough (list2featureSets list) (table.activeOn i)))

theorem matchContract (table : NodeTable w) (canReboot : Bool) (count : Nat) (s : List Char) :
    MatchContract table canReboot count s := by
  intro hs hcount list b hok
  refine ⟨written_of_ok hs hok, fun e close h i hi => ?_⟩
  obtain ⟨b', hok'⟩ := @featureString2list_written (fun _ => false) false s e close hs h
  rw [hok] at hok'
  cases hok'
  have hleft := outside_iff_fromLeft table canReboot hcount hi e close
  have hsets := enough_list2featureSets (fun _ => false) false e close (table.activeOn i)
  refine ⟨hleft, hsets, fun hfirst => ?_⟩
  exact hleft.trans ((sat_iff_fromLeft hfirst _).symm.trans hsets.symm)

end Slurm.Features
