import Slurm.Features.Reading

/-!
# Feature sets of an expression

`Between` holds of the variables where no group is open.  There an operand comes to sets of its own
(`Operand.HasSets`), and these are distributed over the current ones.

* `evaluate_group`, `evaluate_operand`: one operand.
* `evaluate_row`: a whole expression.
* `enough_list2featureSets`: the sets of an expression are enough exactly when it is satisfied.
-/

namespace Slurm.Features

open Lib.Joined List

variable {code : FeatureOp} {op : Op}

/-- `F` has all features of one of the sets. -/
def Enough (sets : List FeatureSet) (F : Set Name) : Prop :=
  Covers sets (Set.preimage JobFeature.name F)

variable {changeable : Name → Bool} {convert : Bool} {F : Set Name} {sets more lists : List FeatureSet}
  {s t : FeatureSet} {f : JobFeature} {args args' : EvalArg}

/-! ## Sets -/

theorem copyUnique_subset (s : FeatureSet) (f : JobFeature) :
    (∀ g ∈ copyUnique s f, g.name ∈ F) ↔ (∀ g ∈ s, g.name ∈ F) ∧ f.name ∈ F := by
  unfold copyUnique
  split
  · rename_i hany
    rw [any_eq_true] at hany
    obtain ⟨g, hg, hname⟩ := hany
    have heq : g.name = f.name := eq_of_beq hname
    exact ⟨fun h => ⟨h, heq ▸ h g hg⟩, And.left⟩
  · simp [or_imp, forall_and]

theorem foldl_copyUnique_subset (s t : FeatureSet) :
    (∀ g ∈ t.foldl copyUnique s, g.name ∈ F) ↔
      (∀ g ∈ s, g.name ∈ F) ∧ ∀ g ∈ t, g.name ∈ F := by
  induction t generalizing s with
  | nil => simp
  | cons f t ih => rw [foldl_cons, ih, copyUnique_subset, forall_mem_cons, and_assoc]

theorem enough_append (sets more : List FeatureSet) (F : Set Name) :
    Enough (sets ++ more) F ↔ Enough sets F ∨ Enough more F := covers_append sets more _

theorem enough_single (s : FeatureSet) (F : Set Name) : Enough [s] F ↔ ∀ g ∈ s, g.name ∈ F := by
  simp [Enough, Covers]

/-- Sets that are distributed: an empty list of sets asks for nothing. -/
theorem enough_distributeLists (sets more : List FeatureSet) (F : Set Name) :
    Enough (distributeLists sets more) F ↔ (sets = [] ∨ Enough sets F) ∧ Enough more F := by
  unfold distributeLists
  split
  · rename_i hempty
    have hnil : sets = [] := List.isEmpty_iff.mp hempty
    simp [hnil]
  · rename_i hempty
    have hne : sets ≠ [] := fun hnil => hempty (List.isEmpty_iff.mpr hnil)
    simp only [hne, false_or]
    exact covers_flatMap_map (fun s t => foldl_copyUnique_subset s t) sets more

theorem distributeLists_ne_nil (sets : List FeatureSet) (h : more ≠ []) : distributeLists sets more ≠ [] := by
  unfold distributeLists
  split
  · exact h
  · rename_i hempty
    have hne : sets ≠ [] := fun hnil => hempty (List.isEmpty_iff.mpr hnil)
    obtain ⟨s, hs⟩ := List.exists_mem_of_ne_nil sets hne
    obtain ⟨t, ht⟩ := List.exists_mem_of_ne_nil more h
    exact ne_nil_of_mem
      (List.mem_flatMap.mpr ⟨s, hs, mem_map_of_mem (f := fun t => t.foldl copyUnique s) ht⟩)

/-! ## Groups -/

/-- The variables inside a group that was opened at `args`: its sets are `done` and the one that still
grows. -/
def inside (args : EvalArg) (done : List FeatureSet) (s : FeatureSet) (op : FeatureOp) : EvalArg :=
  ⟨1, op, args.lastOp, some (done ++ [s]), args.currFeatureSets, args.finalFeatureSets, true, .paren⟩

/-- No group is open, and behind an or there are no current sets. -/
structure Between (args : EvalArg) : Prop where
  paren : args.lastParenCnt = 0
  lists : args.parenLists = none
  working : args.workingList = .curr
  fresh : args.lastOp.isOr = true → args.currFeatureSets = []

theorem addToLast_append (done : List FeatureSet) (s : FeatureSet) (f : JobFeature) :
    addToLast (done ++ [s]) f = done ++ [copyUnique s f] := by
  simp [addToLast]

/-- The sets of a group after a feature of it. -/
def grow (op : FeatureOp) (done : List FeatureSet) (s : FeatureSet) (f : JobFeature) :
    List FeatureSet × FeatureSet :=
  if op.isOr then (done ++ [s], [f]) else (done, copyUnique s f)

/-- A feature inside a group. -/
theorem addFeature_inside (args : EvalArg) (done : List FeatureSet) (s : FeatureSet) (op : FeatureOp)
    (f : JobFeature) :
    addFeature f (inside args done s op) =
      inside args (grow op done s f).1 (grow op done s f).2 op := by
  unfold addFeature grow
  cases hor : op.isOr with
  | true => simp [inside, EvalArg.appendWorking, hor]
  | false => simp [inside, hor, addToLast_append]

theorem evaluate_inside (args : EvalArg) (done : List FeatureSet) (s : FeatureSet) (op : FeatureOp)
    (hf : f.paren = 1) :
    evaluateJobFeature (inside args done s op) f =
      inside args (grow op done s f).1 (grow op done s f).2 f.opCode := by
  have hstart : startParen f (inside args done s op) = inside args done s op :=
    if_neg (by rw [hf]; exact Nat.lt_irrefl 1)
  unfold evaluateJobFeature endParen closeSets
  rw [hstart, addFeature_inside, hf]
  simp [inside]

/-- The first feature of a group. -/
theorem evaluate_start (h : Between args) (hf : f.paren = 1) :
    evaluateJobFeature args f = inside args [] [f] f.opCode := by
  unfold evaluateJobFeature startParen endParen closeSets addFeature
  simp [h.paren, hf, inside, FeatureOp.isOr]

/-- The variables after an operand with the sets `lists` and the operator `op` behind it. -/
structure After (args : EvalArg) (lists : List FeatureSet) (op : FeatureOp) (args' : EvalArg) : Prop where
  between : Between args'
  lastOp : args'.lastOp = op
  final : args'.finalFeatureSets =
    if op.isOr then args.finalFeatureSets ++ distributeLists args.currFeatureSets lists
    else args.finalFeatureSets
  curr : args'.currFeatureSets =
    if op.isOr then [] else distributeLists args.currFeatureSets lists

/-- What an operand comes to, once its sets are distributed. -/
theorem after_close {args₁ : EvalArg} (hcurr : args₁.currFeatureSets =
      distributeLists args.currFeatureSets lists)
    (hfinal : args₁.finalFeatureSets = args.finalFeatureSets) (hlists : args₁.parenLists = none)
    (hworking : args₁.workingList = .curr) (hf : f.paren = 0) :
    After args lists f.opCode
      { closeSets f args₁ with lastOp := f.opCode, lastParenCnt := f.paren } := by
  unfold closeSets
  cases hor : f.opCode.isOr with
  | true =>
    rw [if_pos ⟨hlists, rfl⟩]
    exact ⟨⟨hf, hlists, hworking, fun _ => rfl⟩, rfl, by simp [hor, hcurr, hfinal], by simp [hor]⟩
  | false =>
    rw [if_neg (by simp)]
    refine ⟨⟨hf, hlists, hworking, fun h => ?_⟩, rfl, by simp [hor, hfinal], by simp [hor, hcurr]⟩
    rw [hor] at h
    cases h

/-- The last feature of a group. -/
theorem evaluate_end (h : Between args) (done : List FeatureSet) (s : FeatureSet) (op : FeatureOp)
    (hf : f.paren = 0) :
    After args ((grow op done s f).1 ++ [(grow op done s f).2]) f.opCode
      (evaluateJobFeature (inside args done s op) f) := by
  have hstart : startParen f (inside args done s op) = inside args done s op :=
    if_neg (by rw [hf]; exact Nat.not_lt_zero _)
  have hcurr : (if args.lastOp.isOr then
        args.currFeatureSets ++ ((grow op done s f).1 ++ [(grow op done s f).2])
      else distributeLists args.currFeatureSets ((grow op done s f).1 ++ [(grow op done s f).2])) =
      distributeLists args.currFeatureSets ((grow op done s f).1 ++ [(grow op done s f).2]) := by
    split
    · rename_i hor
      rw [h.fresh hor]
      rfl
    · rfl
  have hend : endParen f (inside args (grow op done s f).1 (grow op done s f).2 op) =
      { inside args (grow op done s f).1 (grow op done s f).2 op with
        currFeatureSets :=
          distributeLists args.currFeatureSets ((grow op done s f).1 ++ [(grow op done s f).2])
        parenLists := none
        tmpFeatureList := false
        workingList := .curr } := by
    rw [← hcurr]
    exact if_pos (by rw [hf]; exact Nat.one_pos)
  unfold evaluateJobFeature
  rw [hstart, addFeature_inside, hend]
  exact after_close rfl rfl rfl rfl hf

/-- A name outside parentheses. -/
theorem evaluate_one (h : Between args) (hf : f.paren = 0) :
    After args [[f]] f.opCode (evaluateJobFeature args f) := by
  have hstart : startParen f args = args := if_neg (by rw [hf]; exact Nat.not_lt_zero _)
  have hadd : (addFeature f args).currFeatureSets = distributeLists args.currFeatureSets [[f]] ∧
      (addFeature f args).finalFeatureSets = args.finalFeatureSets ∧
      (addFeature f args).parenLists = none ∧ (addFeature f args).workingList = .curr ∧
      (addFeature f args).lastParenCnt = 0 := by
    unfold addFeature EvalArg.appendWorking
    cases hor : args.lastOp.isOr with
    | true => simp [h.working, h.lists, h.paren, h.fresh hor, distributeLists]
    | false => simp [h.lists, h.paren]
  obtain ⟨hcurr, hfinal, hlists, hworking, hparen⟩ := hadd
  have hend : endParen f (addFeature f args) = addFeature f args :=
    if_neg (by rw [hparen, hf]; exact Nat.lt_irrefl 0)
  unfold evaluateJobFeature
  rw [hstart, hend]
  exact after_close hcurr hfinal hlists hworking hf

/-! ## What the sets of a group say -/

theorem isOr_opCode (p : Nat) (n : Name) (op : Op) :
    (opCode changeable convert p n op).isOr = decide (op = .or) := by
  cases op with
  | and => rfl
  | or =>
    unfold opCode
    dsimp only
    split
    · rfl
    · split <;> rfl

/-- What the sets of a group say, with the operator behind them and the rest of the group. -/
def Says (F : Set Name) (done : List FeatureSet) (s : FeatureSet) (e : Row Label) : Op → Prop
  | .and => Enough done F ∨ TightWith (fun n : Label => n.name ∈ F) (∀ g ∈ s, g.name ∈ F) e
  | .or => Enough done F ∨ (∀ g ∈ s, g.name ∈ F) ∨ Tight (fun n : Label => n.name ∈ F) e

theorem says_grow (hcode : code.isOr = decide (op = .or)) (op' : Op) (done : List FeatureSet)
    (s : FeatureSet) {x : Label} (hf : f.name = x.name) (r : List (Label × Op)) (y : Label) :
    Says F (grow code done s f).1 (grow code done s f).2 ⟨r, y⟩ op' ↔
      Says F done s ⟨(x, op') :: r, y⟩ op := by
  unfold grow
  rw [hcode]
  cases op with
  | and =>
    cases op' with
    | and => simp [Says, copyUnique_subset, tightWith_and, hf]
    | or => simp [Says, copyUnique_subset, tightWith_or, hf]
  | or =>
    cases op' with
    | and => simp [Says, enough_append, enough_single, tight_cons_and, hf, or_assoc]
    | or => simp [Says, enough_append, enough_single, tight_cons_or, hf, or_assoc]

theorem enough_grow (hcode : code.isOr = decide (op = .or)) (done : List FeatureSet)
    (s : FeatureSet) {y : Label} (hf : f.name = y.name) :
    Enough ((grow code done s f).1 ++ [(grow code done s f).2]) F ↔ Says F done s ⟨[], y⟩ op := by
  unfold grow
  rw [hcode, enough_append, enough_single]
  cases op with
  | and => simp [Says, copyUnique_subset, tightWith_single, hf]
  | or => simp [Says, enough_append, enough_single, tight_single, hf, or_assoc]

/-! ## Operands -/

/-- Sets that say the same as an operand. -/
structure SetsOf (o : Operand) (lists : List FeatureSet) : Prop where
  ne : lists ≠ []
  enough : ∀ F, Enough lists F ↔ o.Sat F

section

variable (changeable : Name → Bool) (convert : Bool)

theorem closing_spec (close : Option Op) (n : Name) :
    (closing changeable convert close n).name = n ∧
      (closing changeable convert close n).paren = 0 := by
  cases close <;> exact ⟨rfl, rfl⟩

/-- The rest of a group. -/
theorem evaluate_names (h : Between args) (close : Option Op) (r : List (Label × Op)) (y : Label)
    (done : List FeatureSet) (s : FeatureSet) (hcode : code.isOr = decide (op = .or)) :
    ∃ lists, lists ≠ [] ∧ (∀ F, Enough lists F ↔ Says F done s ⟨r, y⟩ op) ∧
      After args lists (closing changeable convert close y.name).opCode
        (((r.map fun x => withOp changeable convert 1 x.1.name x.2) ++
          [closing changeable convert close y.name]).foldl evaluateJobFeature
            (inside args done s code)) := by
  induction r generalizing done s op code with
  | nil =>
    obtain ⟨hname, hparen⟩ := closing_spec changeable convert close y.name
    exact ⟨_, append_ne_nil_of_right_ne_nil _ (cons_ne_nil _ _),
      fun F => enough_grow hcode done s hname, evaluate_end h done s code hparen⟩
  | cons x r ih =>
    rcases x with ⟨x, op'⟩
    have hname : (withOp changeable convert 1 x.name op').name = x.name := rfl
    obtain ⟨lists, hne, hlists, hafter⟩ := ih _ _ (isOr_opCode 1 x.name op')
    refine ⟨lists, hne, fun F => (hlists F).trans (says_grow hcode op' done s hname r y), ?_⟩
    rw [map_cons, cons_append, foldl_cons, evaluate_inside args done s code rfl]
    exact hafter

/-- An operand comes to sets that say the same. -/
theorem evaluate_operand (h : Between args) (close : Option Op) (o : Operand) :
    ∃ lists, SetsOf o lists ∧ After args lists (closing changeable convert close o.lastName).opCode
      ((o.features changeable convert close).foldl evaluateJobFeature args) := by
  have hsingle : ∀ n : Label, ∃ lists, SetsOf (.one n) lists ∧
      After args lists (closing changeable convert close n.name).opCode
        (evaluateJobFeature args (closing changeable convert close n.name)) := by
    intro n
    obtain ⟨hname, hparen⟩ := closing_spec changeable convert close n.name
    refine ⟨[[closing changeable convert close n.name]], ⟨cons_ne_nil _ _, fun F => ?_⟩,
      evaluate_one h hparen⟩
    rw [enough_single]
    simp [hname, Operand.Sat]
  match o with
  | .one n => exact hsingle n
  | .group ⟨[], y⟩ =>
    obtain ⟨lists, hsets, hafter⟩ := hsingle y
    refine ⟨lists, ⟨hsets.ne, fun F => (hsets.enough F).trans ?_⟩, hafter⟩
    exact (tight_single (fun n : Label => n.name ∈ F) y).symm
  | .group ⟨(x, op) :: r, y⟩ =>
    obtain ⟨lists, hne, hlists, hafter⟩ := evaluate_names changeable convert h close r y []
      [withOp changeable convert 1 x.name op] (isOr_opCode 1 x.name op)
    refine ⟨lists, ⟨hne, fun F => (hlists F).trans ?_⟩, ?_⟩
    · cases op with
      | and => simp [Says, Enough, covers_nil, Operand.Sat, tight_cons_and, withOp]
      | or => simp [Says, Enough, covers_nil, Operand.Sat, tight_cons_or, withOp]
    · have hstart := evaluate_start h (f := withOp changeable convert 1 x.name op) rfl
      show After args lists _ (List.foldl evaluateJobFeature
        (evaluateJobFeature args (withOp changeable convert 1 x.name op)) _)
      rw [hstart]
      exact hafter

/-! ## Expressions -/

theorem features_cons (x : Operand) (op : Op) (r : List (Operand × Op)) (y : Operand)
    (close : Option Op) :
    Expr.features changeable convert ⟨(x, op) :: r, y⟩ close =
      x.features changeable convert (some op) ++ Expr.features changeable convert ⟨r, y⟩ close := by
  simp [Expr.features]

/-- An expression, from any variables where no group is open. -/
theorem evaluate_row (h : Between args) (close : Option Op) (e : Expr) (F : Set Name) :
    Enough (((e.features changeable convert close).foldl evaluateJobFeature args).finalFeatureSets ++
        ((e.features changeable convert close).foldl evaluateJobFeature args).currFeatureSets) F ↔
      Enough args.finalFeatureSets F ∨
        TightWith (Operand.Sat F) (args.currFeatureSets = [] ∨ Enough args.currFeatureSets F) e := by
  rcases e with ⟨r, y⟩
  induction r generalizing args with
  | nil =>
    obtain ⟨lists, hsets, hafter⟩ := evaluate_operand changeable convert h close y
    show Enough (((y.features changeable convert close).foldl evaluateJobFeature args).finalFeatureSets ++
        ((y.features changeable convert close).foldl evaluateJobFeature args).currFeatureSets) F ↔ _
    rw [hafter.final, hafter.curr, tightWith_single, ← hsets.enough, ← enough_distributeLists,
      ← enough_append]
    split
    · rw [append_nil]
    · rfl
  | cons x r ih =>
    rcases x with ⟨x, op⟩
    obtain ⟨lists, hsets, hafter⟩ := evaluate_operand changeable convert h (some op) x
    have hcode : (closing changeable convert (some op) x.lastName).opCode.isOr = decide (op = .or) :=
      isOr_opCode 0 x.lastName op
    rw [features_cons, foldl_append, ih hafter.between, hafter.final, hafter.curr, hcode]
    cases op with
    | and =>
      have hne := distributeLists_ne_nil args.currFeatureSets hsets.ne
      have hdist := enough_distributeLists args.currFeatureSets lists F
      simp [tightWith_and, hne, hdist, hsets.enough]
    | or => simp [tightWith_or, tightWith_true, enough_append, enough_distributeLists, hsets.enough, or_assoc]

/-- The sets of an expression are enough exactly when it is satisfied. -/
theorem enough_list2featureSets (e : Expr) (close : Option Op) (F : Set Name) :
    Enough (list2featureSets (e.features changeable convert close)) F ↔ e.Sat F := by
  have h : Between .init := ⟨rfl, rfl, rfl, fun hor => nomatch hor⟩
  unfold list2featureSets
  rw [evaluate_row changeable convert h]
  simp [EvalArg.init, Enough, covers_nil, tightWith_true, Expr.Sat]

end

/-! ## What is in the sets -/

/-- Each set has a feature, and `P` holds of all its features. -/
def AllOf (P : JobFeature → Prop) (sets : List FeatureSet) : Prop :=
  ∀ s ∈ sets, s ≠ [] ∧ ∀ f ∈ s, P f

variable {P : JobFeature → Prop}

theorem copyUnique_all (hs : s ≠ [] ∧ ∀ g ∈ s, P g) (hf : P f) :
    copyUnique s f ≠ [] ∧ ∀ g ∈ copyUnique s f, P g := by
  unfold copyUnique
  split
  · exact hs
  · refine ⟨append_ne_nil_of_left_ne_nil hs.1 _, fun g hg => ?_⟩
    rcases List.mem_append.mp hg with hg | hg
    · exact hs.2 g hg
    · rw [List.mem_singleton.mp hg]
      exact hf

theorem foldl_copyUnique_all (hs : s ≠ [] ∧ ∀ g ∈ s, P g) (ht : ∀ g ∈ t, P g) :
    t.foldl copyUnique s ≠ [] ∧ ∀ g ∈ t.foldl copyUnique s, P g := by
  induction t generalizing s with
  | nil => exact hs
  | cons f t ih =>
    exact ih (copyUnique_all hs (ht f mem_cons_self)) fun g hg => ht g (mem_cons_of_mem _ hg)

theorem allOf_append (hsets : AllOf P sets) (hmore : AllOf P more) : AllOf P (sets ++ more) := by
  intro s hs
  rcases List.mem_append.mp hs with hs | hs
  · exact hsets s hs
  · exact hmore s hs

theorem allOf_single (hf : P f) : AllOf P [[f]] := by
  simp [AllOf, hf]

theorem allOf_distributeLists (hsets : AllOf P sets) (hmore : AllOf P more) :
    AllOf P (distributeLists sets more) := by
  unfold distributeLists
  split
  · exact hmore
  · intro u hu
    obtain ⟨s, hs, hu⟩ := List.mem_flatMap.mp hu
    obtain ⟨t, ht, rfl⟩ := List.mem_map.mp hu
    exact foldl_copyUnique_all (hsets s hs) (hmore t ht).2

theorem allOf_addToLast (hlists : AllOf P lists) (hf : P f) : AllOf P (addToLast lists f) := by
  unfold addToLast
  cases hlast : lists.getLast? with
  | none => exact hlists
  | some s =>
    have hmem := mem_of_getLast? hlast
    refine allOf_append (fun t ht => hlists t (mem_of_mem_dropLast ht)) ?_
    intro t ht
    rw [List.mem_singleton.mp ht]
    exact copyUnique_all (hlists s hmem) hf

/-- All sets of the variables. -/
structure AllSets (P : JobFeature → Prop) (args : EvalArg) : Prop where
  curr : AllOf P args.currFeatureSets
  final : AllOf P args.finalFeatureSets
  paren : AllOf P (args.parenLists.getD [])

theorem allOf_nil : AllOf P [] := fun _ hs => absurd hs not_mem_nil

theorem allSets_addFeature (h : AllSets P args) (hf : P f) : AllSets P (addFeature f args) := by
  unfold addFeature EvalArg.appendWorking
  split
  · split
    · exact ⟨allOf_append h.curr (allOf_single hf), h.final, h.paren⟩
    · refine ⟨h.curr, h.final, ?_⟩
      cases hlists : args.parenLists with
      | none => exact allOf_nil
      | some lists =>
        have hparen := h.paren
        rw [hlists] at hparen
        exact allOf_append hparen (allOf_single hf)
  · split
    · rename_i lists hlists
      have hparen := h.paren
      rw [hlists] at hparen
      split
      · exact ⟨h.curr, h.final, allOf_addToLast hparen hf⟩
      · exact ⟨h.curr, h.final, allOf_append hparen (allOf_single hf)⟩
    · exact ⟨allOf_distributeLists h.curr (allOf_single hf), h.final, h.paren⟩

theorem allSets_evaluate (h : AllSets P args) (hf : P f) : AllSets P (evaluateJobFeature args f) := by
  have hstart : AllSets P (startParen f args) := by
    unfold startParen
    split
    · exact ⟨h.curr, h.final, allOf_nil⟩
    · exact h
  have hadd := allSets_addFeature hstart hf
  have hend : AllSets P (endParen f (addFeature f (startParen f args))) := by
    unfold endParen
    split
    · refine ⟨?_, hadd.final, allOf_nil⟩
      dsimp only
      split
      · exact allOf_append hadd.curr hadd.paren
      · exact allOf_distributeLists hadd.curr hadd.paren
    · exact hadd
  unfold evaluateJobFeature closeSets
  split
  · exact ⟨allOf_nil, allOf_append hend.final hend.curr, hend.paren⟩
  · exact ⟨hend.curr, hend.final, hend.paren⟩

/-- The sets have features of the list, and each of them has one. -/
theorem allOf_list2featureSets (list : List JobFeature) (hP : ∀ f ∈ list, P f) :
    AllOf P (list2featureSets list) := by
  have hfold : ∀ args, AllSets P args → AllSets P (list.foldl evaluateJobFeature args) := by
    induction list with
    | nil => exact fun args h => h
    | cons f list ih =>
      exact fun args h => ih (fun g hg => hP g (mem_cons_of_mem _ hg)) _
        (allSets_evaluate h (hP f mem_cons_self))
  have hall := hfold .init ⟨allOf_nil, allOf_nil, allOf_nil⟩
  exact allOf_append hall.final hall.curr

end Slurm.Features
