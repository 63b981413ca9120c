import Slurm.Features.Evaluate

/-!
# From feature expressions to sets, and back to a string

`SetsContract` is about every constraint string without brackets and counts that is accepted: its sets
say what the expression says, and so does the string that is built of them, which is accepted again.

* `exists_group`, `exists_expr`: the string of a list of sets is written as an expression.
* `not_mem_text`: no such string has brackets or counts.
* `setsContract`: the contract.
-/

namespace Slurm.Features

open Lib.Joined List

variable {changeable : Name → Bool} {convert : Bool} {sets : List FeatureSet} {s : FeatureSet}

/-! ## Names -/

/-- A name of an expression. -/
def IsLabel (f : JobFeature) : Prop := ∃ n : Label, n.name = f.name

theorem isLabel_operand (o : Operand) (close : Option Op) :
    ∀ f ∈ o.features changeable convert close, IsLabel f := by
  intro f hf
  unfold Operand.features at hf
  rcases List.mem_append.mp hf with hf | hf
  · cases o with
    | one n => exact absurd hf not_mem_nil
    | group g =>
      obtain ⟨x, -, rfl⟩ := List.mem_map.mp hf
      exact ⟨x.1, rfl⟩
  · rw [List.mem_singleton.mp hf]
    unfold IsLabel
    rw [(closing_spec changeable convert close o.lastName).1]
    cases o with
    | one n => exact ⟨n, rfl⟩
    | group g => exact ⟨g.last, rfl⟩

theorem isLabel_features (e : Expr) (close : Option Op) :
    ∀ f ∈ e.features changeable convert close, IsLabel f := by
  intro f hf
  unfold Expr.features at hf
  rcases List.mem_append.mp hf with hf | hf
  · obtain ⟨x, -, hf⟩ := List.mem_flatMap.mp hf
    exact isLabel_operand x.1 (some x.2) f hf
  · exact isLabel_operand e.last close f hf

theorem commasToAnds_append (s t : List Char) :
    commasToAnds (s ++ t) = commasToAnds s ++ commasToAnds t := map_append

theorem commasToAnds_name (n : Label) : commasToAnds n.name = n.name := by
  have hid : ∀ c ∈ n.name, (if c = ',' then '&' else c) = id c := by
    intro c hc
    have hcomma : c ≠ ',' := by
      intro heq
      exact absurd (n.ordinary c hc) (by rw [heq]; decide)
    exact if_neg hcomma
  unfold commasToAnds
  rw [map_congr_left hid, map_id]

/-! ## The string of the sets -/

theorem rowText_ofList {α : Type} (text : α → List Char) (op : Op) (x : α) (l : List α) :
    rowText text (ofList op x l) = text x ++ l.flatMap fun y => opChar op :: text y := by
  induction l generalizing x with
  | nil => simp [ofList, rowText]
  | cons y l ih =>
    have hcons : rowText text ((ofList op y l).cons x op) =
        text x ++ opChar op :: rowText text (ofList op y l) := by
      simp [rowText, Row.cons]
    show rowText text ((ofList op y l).cons x op) = _
    rw [hcons, ih, flatMap_cons]
    simp

/-- The names of a set as the names of a group. -/
theorem exists_group (hne : s ≠ []) (hs : ∀ f ∈ s, IsLabel f) :
    ∃ g : Row Label, commasToAnds (setNames s) = rowText Label.name g ∧
      ∀ F : Set Name, Tight (fun n => n.name ∈ F) g ↔ ∀ f ∈ s, f.name ∈ F := by
  have hlabels : ∃ l : List Label, l.map Label.name = s.map JobFeature.name := by
    clear hne
    induction s with
    | nil => exact ⟨[], rfl⟩
    | cons f s ih =>
      obtain ⟨n, hn⟩ := hs f mem_cons_self
      obtain ⟨l, hl⟩ := ih fun g hg => hs g (mem_cons_of_mem _ hg)
      exact ⟨n :: l, by rw [map_cons, map_cons, hn, hl]⟩
  obtain ⟨l, hl⟩ := hlabels
  rcases s with _ | ⟨f, s⟩
  · exact absurd rfl hne
  rcases l with _ | ⟨n, l⟩
  · cases hl
  rw [map_cons, map_cons, List.cons.injEq] at hl
  have hnames : setNames (f :: s) = n.name ++ l.flatMap fun m => ',' :: m.name := by
    have hmap : (l.map Label.name).flatMap (fun m => ',' :: m) =
        (s.map JobFeature.name).flatMap fun m => ',' :: m := by rw [hl.2]
    rw [flatMap_map, flatMap_map] at hmap
    rw [setNames, hl.1, hmap]
  refine ⟨ofList .and n l, ?_, fun F => ?_⟩
  · have hrest : commasToAnds (l.flatMap fun m => ',' :: m.name) =
        l.flatMap fun m => opChar .and :: m.name := by
      clear hnames hl
      induction l with
      | nil => rfl
      | cons m l ih =>
        rw [flatMap_cons, commasToAnds_append, ih, flatMap_cons]
        show '&' :: commasToAnds m.name ++ _ = _
        rw [commasToAnds_name]
        rfl
    rw [hnames, commasToAnds_append, commasToAnds_name, hrest, rowText_ofList]
  · have hforall : (∀ m ∈ n :: l, m.name ∈ F) ↔ ∀ m ∈ (n :: l).map Label.name, m ∈ F := by simp
    have hmap : (n :: l).map Label.name = (f :: s).map JobFeature.name := by
      rw [map_cons, map_cons, hl.1, hl.2]
    rw [tight_ofList_and, hforall, hmap]
    simp

/-- What `job_features_set2str` appends to the string of the sets before. -/
theorem featuresSet2str_some {str : List Char} (h : ')' ∈ str) (s : FeatureSet) :
    featuresSet2str (some str) s = some (str ++ "|(".toList ++ setNames s ++ ")".toList) :=
  if_pos h

/-- The sets behind the first one. -/
theorem exists_groups (hs : ∀ s ∈ sets, s ≠ [] ∧ ∀ f ∈ s, IsLabel f) {str : List Char}
    (hstr : ')' ∈ str) :
    ∃ (l : List Operand) (t : List Char), sets.foldl featuresSet2str (some str) = some (str ++ t) ∧
      commasToAnds t = (l.flatMap fun o => '|' :: o.text) ∧
      ∀ F, (∃ o ∈ l, o.Sat F) ↔ Enough sets F := by
  induction sets generalizing str with
  | nil => exact ⟨[], [], by simp, rfl, fun F => by simp [Enough, covers_nil]⟩
  | cons s sets ih =>
    obtain ⟨hne, hall⟩ := hs s mem_cons_self
    obtain ⟨g, htext, hsat⟩ := exists_group hne hall
    have hnext : ')' ∈ str ++ "|(".toList ++ setNames s ++ ")".toList :=
      mem_append_right _ mem_cons_self
    obtain ⟨l, t, hfold, ht, hl⟩ := ih (fun s hs' => hs s (mem_cons_of_mem _ hs')) hnext
    refine ⟨.group g :: l, "|(".toList ++ setNames s ++ ")".toList ++ t, ?_, ?_, fun F => ?_⟩
    · rw [foldl_cons, featuresSet2str_some hstr, hfold]
      simp
    · rw [commasToAnds_append, ht, commasToAnds_append, commasToAnds_append, htext]
      simp [Operand.text, commasToAnds]
    · rw [exists_mem_cons_iff, hl]
      have hcons := covers_cons s sets (Set.preimage JobFeature.name F)
      exact (or_congr_left (hsat F)).trans hcons.symm

/-- The string of sets is written as an expression that says the same. -/
theorem exists_expr (hne : sets ≠ []) (hs : AllOf IsLabel sets) :
    ∃ (str : List Char) (e : Expr), featureSets2str sets = some str ∧ Written e none str ∧
      ∀ F, e.Sat F ↔ Enough sets F := by
  rcases sets with _ | ⟨s, sets⟩
  · exact absurd rfl hne
  obtain ⟨hnil, hall⟩ := hs s mem_cons_self
  obtain ⟨g, htext, hsat⟩ := exists_group hnil hall
  have hparen : ')' ∈ "(".toList ++ setNames s ++ ")".toList :=
    mem_append_right _ mem_cons_self
  obtain ⟨l, t, hfold, ht, hl⟩ := exists_groups (fun s hs' => hs s (mem_cons_of_mem _ hs')) hparen
  refine ⟨_, ofList .or (.group g) l, hfold, ?_, fun F => ?_⟩
  · unfold Written Expr.text
    rw [rowText_ofList, commasToAnds_append, ht, commasToAnds_append, commasToAnds_append, htext]
    simp [Operand.text, commasToAnds, opChar]
  · unfold Expr.Sat
    rw [tight_ofList_or, exists_mem_cons_iff, hl]
    exact (or_congr_left (hsat F)).trans (covers_cons s sets (Set.preimage JobFeature.name F)).symm

/-! ## Characters -/

theorem not_mem_rowText {α : Type} {text : α → List Char}
    (htext : ∀ x, ∀ c ∈ text x, c ∉ "[]*".toList) (e : Row α) :
    ∀ c ∈ rowText text e, c ∉ "[]*".toList := by
  intro c hc
  unfold rowText at hc
  rcases List.mem_append.mp hc with hc | hc
  · obtain ⟨x, -, hc⟩ := List.mem_flatMap.mp hc
    rcases List.mem_append.mp hc with hc | hc
    · exact htext _ c hc
    · rw [List.mem_singleton.mp hc]
      cases x.2 <;> decide
  · exact htext _ c hc

theorem not_mem_label (n : Label) : ∀ c ∈ n.name, c ∉ "[]*".toList := by
  intro c hc hmem
  have hord := n.ordinary c hc
  unfold Ordinary at hord
  simp at hmem hord
  tauto

/-- No expression has brackets or counts. -/
theorem not_mem_text (e : Expr) : ∀ c ∈ e.text, c ∉ "[]*".toList := by
  refine not_mem_rowText (fun o c hc => ?_) e
  cases o with
  | one n => exact not_mem_label n c hc
  | group g =>
    rcases List.mem_cons.mp hc with rfl | hc
    · decide
    rcases List.mem_append.mp hc with hc | hc
    · exact not_mem_rowText not_mem_label g c hc
    · rw [List.mem_singleton.mp hc]
      decide

theorem not_mem_written {e : Expr} {str : List Char} (h : Written e none str) :
    ∀ c ∈ str, c ∉ "[]*".toList := by
  intro c hc
  by_cases hcomma : c = ','
  · rw [hcomma]
    decide
  · have hmem : c ∈ commasToAnds str := List.mem_map.mpr ⟨c, hc, if_neg hcomma⟩
    rw [h] at hmem
    exact not_mem_text e c (by simpa using hmem)

/-! ## The contract -/

/-- All features are enough. -/
theorem sat_univ (e : Expr) : e.Sat Set.univ := by
  refine tight_of_forall (fun o => ?_) e
  cases o with
  | one n => exact Set.mem_univ _
  | group g => exact tight_of_forall (fun _ => Set.mem_univ _) g

/-- The string that is built of the sets is accepted, and says what `holds` says. -/
def StringSays (changeable : Name → Bool) (sets : List FeatureSet) (holds : Set Name → Prop) : Prop :=
  ∃ str e, featureSets2str sets = some str ∧ Written e none str ∧ (∀ F, e.Sat F ↔ holds F) ∧
    ∀ convert, ∃ list b, featureString2list changeable str convert = .ok (list, b) ∧
      ∀ F, Enough (list2featureSets list) F ↔ holds F

/-- What is promised of a constraint string that is accepted: it is written as an expression, or empty;
its sets are enough exactly when the expression is satisfied; and their string says the same. -/
def SetsContract (changeable : Name → Bool) (convert : Bool) (s : List Char) : Prop :=
  (∀ c ∈ s, c ∉ "[]*".toList) → ∀ list b, featureString2list changeable s convert = .ok (list, b) →
    s = [] ∧ list2featureSets list = [] ∨
      (∃ e close, Written e close s) ∧ ∀ e close, Written e close s →
        (∀ F, Enough (list2featureSets list) F ↔ e.Sat F) ∧
          StringSays changeable (list2featureSets list) fun F => e.Sat F

theorem setsContract (changeable : Name → Bool) (convert : Bool) (s : List Char) :
    SetsContract changeable convert s := by
  intro hs list b hok
  rcases written_of_ok hs hok with rfl | hwritten
  · refine Or.inl ⟨rfl, ?_⟩
    cases hok
    rfl
  refine Or.inr ⟨hwritten, fun e close h => ?_⟩
  obtain ⟨b', hok'⟩ := @featureString2list_written changeable convert s e close hs h
  rw [hok] at hok'
  cases hok'
  have henough := enough_list2featureSets changeable convert e close
  have hall : AllOf IsLabel (list2featureSets (e.features changeable convert close)) :=
    allOf_list2featureSets _ (isLabel_features e close)
  have hne : list2featureSets (e.features changeable convert close) ≠ [] := by
    intro hnil
    have huniv : Enough (list2featureSets (e.features changeable convert close)) Set.univ := by
      rw [henough]
      exact sat_univ e
    rw [hnil] at huniv
    exact covers_nil _ huniv
  obtain ⟨str, e', hstr, hwritten', hsat⟩ := exists_expr hne hall
  have hsame : ∀ F, e'.Sat F ↔ e.Sat F := fun F => (hsat F).trans (henough F)
  refine ⟨henough, str, e', hstr, hwritten', hsame, fun convert' => ?_⟩
  obtain ⟨b'', hok''⟩ := featureString2list_written (not_mem_written hwritten') hwritten'
  exact ⟨_, b'', hok'', fun F => (enough_list2featureSets changeable convert' e' none F).trans (hsame F)⟩

end Slurm.Features
