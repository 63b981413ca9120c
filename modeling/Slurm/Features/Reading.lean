import Slurm.Lib.Joined
import Slurm.Features.Model

/-!
# Constraint strings without brackets and counts

What the parser keeps of such a string is a `View`: the open parentheses, the name that is being read,
whether the character before was overwritten, and the list.  `Next` has a constructor for each way in
which a character is read, and `Runs` is a string of them.

* `turn_cases`: a character is read in one of these ways, or the string is refused.
* `runs_of_scan`, `scan_of_runs`: the loop is a run.
* `featureString2list_eq_ok`: what is accepted, and the list.
-/

namespace Slurm.Features

open List

open Lib.Joined (Op)

/-- A character of a name. -/
def Ordinary (c : Char) : Prop := c ∉ "&|()[]*,".toList

instance (c : Char) : Decidable (Ordinary c) := inferInstanceAs (Decidable (c ∉ _))

/-- The characters of brackets and counts, and the comma, which is replaced. -/
def Unused (c : Char) : Prop := c ∈ "[]*,".toList

instance (c : Char) : Decidable (Unused c) := inferInstanceAs (Decidable (c ∈ _))

/-- The character of an operator. -/
def opChar : Op → Char
  | .and => '&'
  | .or => '|'

/-- What is kept of the variables. -/
structure View where
  paren : Nat
  feature : Option Name
  cut : Bool
  list : List JobFeature

/-- What is kept of the variables. -/
def Scan.view (st : Scan) : View := ⟨st.paren, st.feature, st.cut, st.featureList⟩

/-- Without brackets and counts. -/
structure Plain (st : Scan) : Prop where
  bracket : st.bracket = 0
  count : st.count = 0
  hasAsterisk : st.hasAsterisk = false
  ended : st.ended = true → st.cut = true

section

variable (changeable : Name → Bool) (convert : Bool)

/-- The code of an operator behind the name `n`, inside `paren` parentheses. -/
def opCode (paren : Nat) (n : Name) : Op → FeatureOp
  | .and => .and
  | .or => if paren ≠ 0 ∧ ¬ convert then .or else if changeable n ∨ convert then .mor else .or

/-- The feature with an operator behind it. -/
def withOp (paren : Nat) (n : Name) (op : Op) : JobFeature :=
  ⟨n, if convert then 1 else 0, changeable n, 0, opCode changeable convert paren n op, paren⟩

/-- How a character is read. -/
inductive Next (c : Char) (v : View) : View → Prop
  | first (hc : Ordinary c) (hf : v.feature = none) : Next c v ⟨v.paren, some [c], false, v.list⟩
  | more {n : Name} (hc : Ordinary c) (hf : v.feature = some n) (hcut : v.cut = false) :
      Next c v ⟨v.paren, some (n ++ [c]), false, v.list⟩
  | op {n : Name} (o : Op) (hc : c = opChar o) (hf : v.feature = some n) :
      Next c v ⟨v.paren, none, true, v.list ++ [withOp changeable convert v.paren n o]⟩
  | opened (hc : c = '(') (hf : v.feature = none) (hp : v.paren = 0) :
      Next c v ⟨1, none, true, v.list⟩
  | closed {n : Name} (hc : c = ')') (hf : v.feature = some n) (hp : v.paren ≠ 0) :
      Next c v ⟨v.paren - 1, some n, true, v.list⟩

/-- The characters of a string, one after the other. -/
inductive Runs : View → List Char → View → Prop
  | nil {v : View} : Runs v [] v
  | cons {v v' v'' : View} {c : Char} {s : List Char} (h : Next changeable convert c v v')
      (hs : Runs v' s v'') : Runs v (c :: s) v''

end

variable {changeable : Name → Bool} {convert : Bool} {c : Char} {s t rest : List Char}
  {st st' : Scan} {v v' v'' : View}

/-! ## One character -/

theorem unused_or_ordinary (h : ¬ Unused c) :
    c ≠ '*' ∧ c ≠ '[' ∧ c ≠ ']' ∧
      (Ordinary c ↔ c ≠ '&' ∧ c ≠ '|' ∧ c ≠ '(' ∧ c ≠ ')') := by
  have hne : c ≠ '[' ∧ c ≠ ']' ∧ c ≠ '*' ∧ c ≠ ',' := by simpa [Unused] using h
  obtain ⟨hopen, hclose, hstar, hcomma⟩ := hne
  refine ⟨hstar, hopen, hclose, ?_⟩
  simp [Ordinary, hopen, hclose, hstar, hcomma]

theorem Plain.append (h : Plain st) (n : Name) (b : Nat) (op : FeatureOp) :
    Plain (st.append changeable n b op) :=
  ⟨h.bracket, rfl, h.hasAsterisk, fun _ => rfl⟩

theorem view_append (changeable : Name → Bool) (h : Plain st) (n : Name) (b : Nat) (op : FeatureOp) :
    (st.append changeable n b op).view =
      ⟨st.paren, none, true, st.featureList ++ [⟨n, b, changeable n, 0, op, st.paren⟩]⟩ := by
  unfold Scan.append Scan.view
  rw [h.count]
  rfl

theorem andOp_eq (changeable : Name → Bool) (convert : Bool) (h : Plain st) (n : Name) :
    andOp st convert = opCode changeable convert st.paren n .and := by
  unfold andOp opCode
  rw [h.bracket]
  simp

theorem orOp_eq (h : Plain st) (n : Name) :
    orOp st convert (changeable n) = opCode changeable convert st.paren n .or := by
  unfold orOp opCode
  rw [h.bracket]
  simp

/-- A character is read in one of the five ways, or the string is refused. -/
theorem turn_cases (changeable : Name → Bool) (convert : Bool) (h : Plain st) (hc : ¬ Unused c)
    (rest : List Char) :
    (∃ st', turn changeable convert c rest st = .ok (st', 0) ∧ Plain st' ∧
        Next changeable convert c st.view st'.view) ∨
      ∃ e, turn changeable convert c rest st = .error e := by
  obtain ⟨hstar, hopen, hclose, hord⟩ := unused_or_ordinary hc
  unfold turn
  rw [if_neg hstar]
  split
  · rename_i hand
    cases hf : st.feature with
    | none => exact Or.inr ⟨_, rfl⟩
    | some n =>
      refine Or.inl ⟨_, rfl, h.append _ _ _, ?_⟩
      rw [view_append changeable h, h.bracket, andOp_eq changeable convert h n]
      exact .op .and hand hf
  split
  · rename_i hor
    cases hf : st.feature with
    | none => exact Or.inr ⟨_, rfl⟩
    | some n =>
      refine Or.inl ⟨_, rfl, ⟨h.bracket, rfl, h.hasAsterisk, fun _ => rfl⟩, ?_⟩
      show Next changeable convert c st.view (st.append changeable n _ _).view
      rw [view_append changeable h, h.bracket, orOp_eq h n]
      exact .op .or hor hf
  split
  · rename_i hparen
    split
    · exact Or.inr ⟨_, rfl⟩
    · rename_i hno
      rw [not_or, not_not, not_not] at hno
      refine Or.inl ⟨_, rfl, ⟨h.bracket, h.count, h.hasAsterisk, fun _ => rfl⟩, ?_⟩
      unfold Scan.view
      dsimp only
      rw [hno.2, hno.1]
      exact .opened hparen rfl rfl
  split
  · rename_i hparen
    split
    · exact Or.inr ⟨_, rfl⟩
    · rename_i hno
      rw [not_or] at hno
      obtain ⟨n, hn⟩ := Option.ne_none_iff_exists'.mp hno.1
      refine Or.inl ⟨_, rfl, ⟨h.bracket, h.count, h.hasAsterisk, fun _ => rfl⟩, ?_⟩
      unfold Scan.view
      dsimp only
      rw [hn]
      exact .closed hparen rfl hno.2
  · rename_i hand hor hleft hright
    have hordinary : Ordinary c := hord.mpr ⟨hand, hor, hleft, hright⟩
    cases hf : st.feature with
    | none =>
      exact Or.inl ⟨_, rfl, ⟨h.bracket, h.count, h.hasAsterisk, fun he => nomatch he⟩,
        .first hordinary hf⟩
    | some n =>
      dsimp only
      split
      · exact Or.inr ⟨_, rfl⟩
      · rename_i hcut
        have hcut' : st.cut = false := Bool.eq_false_of_not_eq_true hcut
        have hended : st.ended = false :=
          Bool.eq_false_of_not_eq_true fun he => hcut (h.ended he)
        refine Or.inl ⟨_, rfl, ⟨h.bracket, h.count, h.hasAsterisk, fun he => ?_⟩, ?_⟩
        · exact absurd (h.ended he) hcut
        · unfold Scan.view
          dsimp only
          rw [hended]
          exact .more hordinary hf hcut'

/-- Each of the five ways is taken. -/
theorem turn_of_next (h : Plain st) (hc : ¬ Unused c) (hnext : Next changeable convert c st.view v')
    (rest : List Char) :
    ∃ st', turn changeable convert c rest st = .ok (st', 0) ∧ Plain st' ∧ st'.view = v' := by
  obtain ⟨hstar, hopen, hclose, hord⟩ := unused_or_ordinary hc
  unfold turn
  rw [if_neg hstar]
  cases hnext with
  | first hc hf =>
    obtain ⟨hand, hor, hleft, hright⟩ := hord.mp hc
    rw [if_neg hand, if_neg hor, if_neg hopen, if_neg hclose, if_neg hleft, if_neg hright]
    have hf' : st.feature = none := hf
    rw [hf']
    exact ⟨_, rfl, ⟨h.bracket, h.count, h.hasAsterisk, fun he => nomatch he⟩, rfl⟩
  | @more n hc hf hcut =>
    obtain ⟨hand, hor, hleft, hright⟩ := hord.mp hc
    rw [if_neg hand, if_neg hor, if_neg hopen, if_neg hclose, if_neg hleft, if_neg hright]
    have hf' : st.feature = some n := hf
    have hcut' : st.cut = false := hcut
    have hended : st.ended = false := by
      apply Bool.eq_false_of_not_eq_true
      intro he
      rw [h.ended he] at hcut'
      cases hcut'
    rw [hf', hcut', hended]
    exact ⟨_, rfl, ⟨h.bracket, h.count, h.hasAsterisk, fun he => nomatch he⟩, rfl⟩
  | @op n o hc hf =>
    have hf' : st.feature = some n := hf
    cases o with
    | and =>
      have hc' : c = '&' := hc
      rw [if_pos hc', hf']
      refine ⟨_, rfl, h.append _ _ _, ?_⟩
      rw [view_append changeable h, h.bracket, andOp_eq changeable convert h n]
      rfl
    | or =>
      have hc' : c = '|' := hc
      have hand : c ≠ '&' := fun heq => absurd (hc.symm.trans heq) (by decide)
      rw [if_neg hand, if_pos hc', hf']
      refine ⟨_, rfl, ⟨h.bracket, rfl, h.hasAsterisk, fun _ => rfl⟩, ?_⟩
      show (st.append changeable n _ _).view = _
      rw [view_append changeable h, h.bracket, orOp_eq h n]
      rfl
  | opened hc hf hp =>
    have hand : c ≠ '&' := fun heq => absurd (hc.symm.trans heq) (by decide)
    have hor : c ≠ '|' := fun heq => absurd (hc.symm.trans heq) (by decide)
    have hf' : st.feature = none := hf
    have hp' : st.paren = 0 := hp
    rw [if_neg hand, if_neg hor, if_neg hopen, if_neg hclose, if_pos hc, hf', hp']
    exact ⟨_, rfl, ⟨h.bracket, h.count, h.hasAsterisk, fun _ => rfl⟩, rfl⟩
  | @closed n hc hf hp =>
    have hand : c ≠ '&' := fun heq => absurd (hc.symm.trans heq) (by decide)
    have hor : c ≠ '|' := fun heq => absurd (hc.symm.trans heq) (by decide)
    have hleft : c ≠ '(' := fun heq => absurd (hc.symm.trans heq) (by decide)
    have hf' : st.feature = some n := hf
    have hp' : st.paren ≠ 0 := hp
    rw [if_neg hand, if_neg hor, if_neg hopen, if_neg hclose, if_neg hleft, if_pos hc, hf',
      if_neg (by simp [hp'])]
    exact ⟨_, rfl, ⟨h.bracket, h.count, h.hasAsterisk, fun _ => rfl⟩, rfl⟩

/-! ## Strings -/

theorem runs_append (h : Runs changeable convert v s v') (h' : Runs changeable convert v' t v'') :
    Runs changeable convert v (s ++ t) v'' := by
  induction h with
  | nil => exact h'
  | cons hnext _ ih => exact .cons hnext (ih h')

theorem runs_single (h : Next changeable convert c v v') : Runs changeable convert v [c] v' :=
  .cons h .nil

/-- A loop that has a result is a run. -/
theorem runs_of_scan (h : Plain st) (hs : ∀ c ∈ s, ¬ Unused c)
    (hscan : scan changeable convert s 0 st = .ok st') :
    Runs changeable convert st.view s st'.view ∧ Plain st' := by
  induction s generalizing st with
  | nil =>
    cases hscan
    exact ⟨.nil, h⟩
  | cons c s ih =>
    unfold scan at hscan
    rcases turn_cases changeable convert h (hs c mem_cons_self) s with
      ⟨st₁, hturn, hplain, hnext⟩ | ⟨e, hturn⟩
    · rw [hturn] at hscan
      obtain ⟨hruns, hplain'⟩ := ih hplain (fun c hc => hs c (mem_cons_of_mem _ hc)) hscan
      exact ⟨.cons hnext hruns, hplain'⟩
    · rw [hturn] at hscan
      cases hscan

/-- A run is made by the loop. -/
theorem scan_of_runs (h : Plain st) (hs : ∀ c ∈ s, ¬ Unused c)
    (hruns : Runs changeable convert st.view s v') :
    ∃ st', scan changeable convert s 0 st = .ok st' ∧ Plain st' ∧ st'.view = v' := by
  generalize hv : st.view = v at hruns
  induction hruns generalizing st with
  | nil => exact ⟨st, rfl, h, hv⟩
  | @cons v v₁ v₂ c s hnext _ ih =>
    obtain ⟨st₁, hturn, hplain, hview⟩ :=
      turn_of_next h (hs c mem_cons_self) (hv ▸ hnext) s
    obtain ⟨st', hscan, hplain', hview'⟩ :=
      ih hplain (fun c hc => hs c (mem_cons_of_mem _ hc)) hview
    refine ⟨st', ?_, hplain', hview'⟩
    rw [scan, hturn]
    exact hscan

/-- The list at the end of the string: the last name is the last feature. -/
def View.finish (changeable : Name → Bool) (v : View) : List JobFeature :=
  match v.feature with
  | none => v.list
  | some n => v.list ++ [⟨n, 0, changeable n, 0, .fin, v.paren⟩]

theorem finish_view (changeable : Name → Bool) (h : Plain st) :
    (finish changeable st).featureList = st.view.finish changeable ∧
      (finish changeable st).bracket = 0 ∧ (finish changeable st).paren = st.view.paren ∧
      (finish changeable st).hasAsterisk = false := by
  unfold finish View.finish
  cases hf : st.feature with
  | none =>
    have hview : st.view.feature = none := hf
    rw [hview]
    exact ⟨rfl, h.bracket, rfl, h.hasAsterisk⟩
  | some n =>
    have hview : st.view.feature = some n := hf
    have hlist := congrArg View.list (view_append changeable h n st.bracket .fin)
    rw [hview]
    refine ⟨hlist.trans ?_, h.bracket, rfl, h.hasAsterisk⟩
    rw [h.bracket]
    rfl

/-- The commas are replaced. -/
def commasToAnds (s : List Char) : List Char := s.map fun c => if c = ',' then '&' else c

theorem not_unused_commas (hs : ∀ c ∈ s, c ∉ "[]*".toList) : ∀ c ∈ commasToAnds s, ¬ Unused c := by
  intro c hc
  obtain ⟨d, hd, rfl⟩ := List.mem_map.mp hc
  have hd' := hs d hd
  split
  · decide
  · rename_i hcomma
    simp only [Unused]
    simp at hd' ⊢
    exact ⟨hd'.1, hd'.2.1, hd'.2.2, hcomma⟩

theorem plain_init : Plain .init := ⟨rfl, rfl, rfl, fun he => nomatch he⟩

/-- What is accepted, and the list of its features. -/
theorem featureString2list_eq_ok (hs : ∀ c ∈ s, c ∉ "[]*".toList) (list : List JobFeature) :
    (∃ b, featureString2list changeable s convert = .ok (list, b)) ↔
      ∃ v, Runs changeable convert Scan.init.view (commasToAnds s) v ∧ v.paren = 0 ∧
        v.finish changeable = list := by
  have hused := not_unused_commas hs
  unfold featureString2list
  constructor
  · intro h
    obtain ⟨b, h⟩ := h
    rcases hscan : scan changeable convert (commasToAnds s) 0 .init with e | st
    · unfold commasToAnds at hscan
      rw [hscan] at h
      cases h
    · obtain ⟨hruns, hplain⟩ := runs_of_scan plain_init hused hscan
      obtain ⟨hlist, -, hparen, -⟩ := finish_view changeable hplain
      unfold commasToAnds at hscan
      rw [hscan] at h
      dsimp only at h
      split at h
      · cases h
      split at h
      · cases h
      split at h
      · cases h
      · rename_i hp _
        cases h
        exact ⟨st.view, hruns, hparen ▸ not_not.mp hp, hlist.symm⟩
  · intro h
    obtain ⟨v, hruns, hzero, hlist⟩ := h
    obtain ⟨st, hscan, hplain, rfl⟩ := scan_of_runs plain_init hused hruns
    obtain ⟨hfin, hbracket, hparen, hast⟩ := finish_view changeable hplain
    unfold commasToAnds at hscan
    rw [hscan]
    dsimp only
    rw [hbracket, hparen, hzero, hast, hfin, hlist]
    exact ⟨_, rfl⟩

end Slurm.Features

/-!
## Feature expressions

An `Expr` is a row of operands, each a name or a group in parentheses, and a group is a row of names.
`Expr.Sat F` reads it with `&` binding tighter than `|`.  A string is `Written` as an expression if it
is its text, with commas for some of the `&` and perhaps one operator more at its end.

* `written_of_ok`: a string that is accepted is written so, or is empty.
* `featureString2list_written`: a string that is written so is accepted; the list is `features`.
-/

namespace Slurm.Features

open Lib.Joined List

variable {P : List Char → Prop} {c : Char}

/-- A name that is not empty, of ordinary characters. -/
structure Label where
  name : Name
  ne : name ≠ []
  ordinary : ∀ c ∈ name, Ordinary c

/-- A name, or names in parentheses. -/
inductive Operand where
  | one (n : Label)
  | group (g : Row Label)

/-- An expression. -/
abbrev Expr := Row Operand

/-! ## Meaning -/

/-- The features of `F` are enough for the operand. -/
def Operand.Sat (F : Set Name) : Operand → Prop
  | .one n => n.name ∈ F
  | .group g => Tight (fun n => n.name ∈ F) g

/-- The features of `F` are enough for the expression. -/
def Expr.Sat (F : Set Name) (e : Expr) : Prop := Tight (Operand.Sat F) e

/-! ## Text -/

/-- The text of a row. -/
def rowText {α : Type} (text : α → List Char) (e : Row α) : List Char :=
  (e.init.flatMap fun x => text x.1 ++ [opChar x.2]) ++ text e.last

/-- The text of an operand. -/
def Operand.text : Operand → List Char
  | .one n => n.name
  | .group g => '(' :: (rowText Label.name g ++ [')'])

/-- The text of an expression. -/
def Expr.text (e : Expr) : List Char := rowText Operand.text e

/-- The ways to write an expression: `close` is the operator that may stand at the end. -/
def Written (e : Expr) (close : Option Op) (s : List Char) : Prop :=
  commasToAnds s = e.text ++ close.toList.map opChar

/-! ## Lists of features -/

/-- The last name of an operand. -/
def Operand.lastName : Operand → Name
  | .one n => n.name
  | .group g => g.last.name

section

variable (changeable : Name → Bool) (convert : Bool)

/-- The features of an operand before its last one. -/
def Operand.before : Operand → List JobFeature
  | .one _ => []
  | .group g => g.init.map fun x => withOp changeable convert 1 x.1.name x.2

/-- The feature of a name outside parentheses with the operator behind it, if there is one. -/
def closing (close : Option Op) (n : Name) : JobFeature :=
  match close with
  | none => ⟨n, 0, changeable n, 0, .fin, 0⟩
  | some op => withOp changeable convert 0 n op

/-- The features of an operand. -/
def Operand.features (o : Operand) (close : Option Op) : List JobFeature :=
  o.before changeable convert ++ [closing changeable convert close o.lastName]

/-- The features of an expression. -/
def Expr.features (e : Expr) (close : Option Op) : List JobFeature :=
  (e.init.flatMap fun x => x.1.features changeable convert (some x.2)) ++
    e.last.features changeable convert close

end

variable {changeable : Name → Bool} {convert : Bool} {s t : List Char} {v v' : View}

/-! ## From expressions to strings -/

theorem runs_more {p : Nat} {m : Name} {L : List JobFeature} (ht : ∀ c ∈ t, Ordinary c) :
    Runs changeable convert ⟨p, some m, false, L⟩ t ⟨p, some (m ++ t), false, L⟩ := by
  induction t generalizing m with
  | nil =>
    rw [append_nil]
    exact .nil
  | cons c t ih =>
    have hrest := ih (m := m ++ [c]) fun d hd => ht d (mem_cons_of_mem _ hd)
    rw [append_assoc, singleton_append] at hrest
    exact .cons (.more (ht c mem_cons_self) rfl rfl) hrest

/-- A name is read. -/
theorem runs_name (n : Label) {p : Nat} {cut : Bool} {L : List JobFeature} :
    Runs changeable convert ⟨p, none, cut, L⟩ n.name ⟨p, some n.name, false, L⟩ := by
  rcases n with ⟨_ | ⟨c, t⟩, hne, hord⟩
  · exact absurd rfl hne
  · exact .cons (.first (hord c mem_cons_self) rfl)
      (runs_more fun d hd => hord d (mem_cons_of_mem _ hd))

/-- The names in a group are read. -/
theorem runs_names (g : Row Label) {cut : Bool} {L : List JobFeature} :
    Runs changeable convert ⟨1, none, cut, L⟩ (rowText Label.name g)
      ⟨1, some g.last.name, false, L ++ Operand.before changeable convert (.group g)⟩ := by
  rcases g with ⟨r, y⟩
  induction r generalizing cut L with
  | nil =>
    show Runs _ _ _ y.name ⟨1, some y.name, false, L ++ []⟩
    rw [append_nil]
    exact runs_name y
  | cons x r ih =>
    have hrest := @ih true (L ++ [withOp changeable convert 1 x.1.name x.2])
    rw [append_assoc] at hrest
    have hop : Runs changeable convert ⟨1, none, cut, L⟩ (x.1.name ++ [opChar x.2])
        ⟨1, none, true, L ++ [withOp changeable convert 1 x.1.name x.2]⟩ :=
      runs_append (runs_name x.1) (runs_single (.op x.2 rfl rfl))
    have hall := runs_append hop hrest
    simpa [rowText, Operand.before] using hall

/-- An operand is read. -/
theorem runs_operand (o : Operand) {cut : Bool} {L : List JobFeature} :
    ∃ cut', Runs changeable convert ⟨0, none, cut, L⟩ o.text
      ⟨0, some o.lastName, cut', L ++ o.before changeable convert⟩ := by
  cases o with
  | one n =>
    refine ⟨false, ?_⟩
    show Runs _ _ _ n.name ⟨0, some n.name, false, L ++ []⟩
    rw [append_nil]
    exact runs_name n
  | group g =>
    refine ⟨true, .cons (.opened rfl rfl rfl) (runs_append (runs_names g) (runs_single ?_))⟩
    exact .closed rfl rfl Nat.one_ne_zero

/-- An expression is read. -/
theorem runs_expr (e : Expr) {cut : Bool} {L : List JobFeature} :
    ∃ cut', Runs changeable convert ⟨0, none, cut, L⟩ e.text
      ⟨0, some e.last.lastName, cut', L ++
        (e.init.flatMap fun x => x.1.features changeable convert (some x.2)) ++
          e.last.before changeable convert⟩ := by
  rcases e with ⟨r, y⟩
  induction r generalizing cut L with
  | nil =>
    obtain ⟨cut', h⟩ := @runs_operand changeable convert y cut L
    refine ⟨cut', ?_⟩
    simpa [Expr.text, rowText] using h
  | cons x r ih =>
    obtain ⟨cut₁, h₁⟩ := @runs_operand changeable convert x.1 cut L
    have hop : Runs changeable convert ⟨0, none, cut, L⟩ (x.1.text ++ [opChar x.2])
        ⟨0, none, true, L ++ x.1.features changeable convert (some x.2)⟩ := by
      have hlast := runs_append h₁ (runs_single (.op x.2 rfl rfl))
      rwa [append_assoc] at hlast
    obtain ⟨cut', h⟩ := @ih true (L ++ x.1.features changeable convert (some x.2))
    refine ⟨cut', ?_⟩
    have hall := runs_append hop h
    simpa [Expr.text, rowText] using hall

/-- An expression and the operator at its end are read. -/
theorem runs_close (e : Expr) (close : Option Op) :
    ∃ v, Runs changeable convert Scan.init.view (e.text ++ close.toList.map opChar) v ∧
      v.paren = 0 ∧ v.finish changeable = e.features changeable convert close := by
  obtain ⟨cut, h⟩ := @runs_expr changeable convert e false []
  rw [nil_append] at h
  cases close with
  | none =>
    refine ⟨_, runs_append h .nil, rfl, ?_⟩
    simp [View.finish, Expr.features, Operand.features, closing]
  | some op =>
    refine ⟨_, runs_append h (runs_single (.op op rfl rfl)), rfl, ?_⟩
    simp [View.finish, Expr.features, Operand.features, closing]

/-- A string that is written as an expression is accepted. -/
theorem featureString2list_written {e : Expr} {close : Option Op}
    (hs : ∀ c ∈ s, c ∉ "[]*".toList) (h : Written e close s) :
    ∃ b, featureString2list changeable s convert = .ok (e.features changeable convert close, b) := by
  rw [featureString2list_eq_ok hs, h]
  exact runs_close e close

/-! ## From strings to expressions -/

/-- What may come where an operand begins. -/
def FromOperand (s : List Char) : Prop :=
  s = [] ∨ ∃ (e : Expr) (close : Option Op), s = e.text ++ close.toList.map opChar

/-- What may come behind an operand. -/
def AfterOperand (s : List Char) : Prop := s = [] ∨ ∃ op t, s = opChar op :: t ∧ FromOperand t

/-- What may come where a name in a group begins. -/
def FromName (s : List Char) : Prop :=
  ∃ (g : Row Label) (t : List Char), s = rowText Label.name g ++ ')' :: t ∧ AfterOperand t

/-- What may come behind a name in a group. -/
def AfterName (s : List Char) : Prop :=
  (∃ t, s = ')' :: t ∧ AfterOperand t) ∨ ∃ op t, s = opChar op :: t ∧ FromName t

/-- The rest of a name, which has none where the character before was overwritten, and then `P`. -/
def RestOfName (cut : Bool) (P : List Char → Prop) (s : List Char) : Prop :=
  ∃ m t, s = m ++ t ∧ (∀ c ∈ m, Ordinary c) ∧ (cut = true → m = []) ∧ P t

theorem fromOperand_append (o : Operand) (ht : AfterOperand t) : FromOperand (o.text ++ t) := by
  refine Or.inr ?_
  rcases ht with rfl | ⟨op, t, rfl, rfl | ⟨e, close, rfl⟩⟩
  · exact ⟨⟨[], o⟩, none, by simp [Expr.text, rowText]⟩
  · exact ⟨⟨[], o⟩, some op, by simp [Expr.text, rowText]⟩
  · exact ⟨e.cons o op, close, by simp [Expr.text, rowText, Row.cons]⟩

theorem fromName_append (n : Label) (ht : AfterName t) : FromName (n.name ++ t) := by
  rcases ht with ⟨t, rfl, ht⟩ | ⟨op, t, rfl, g, t', rfl, ht⟩
  · exact ⟨⟨[], n⟩, t, by simp [rowText], ht⟩
  · exact ⟨g.cons n op, t', by simp [rowText, Row.cons], ht⟩

/-- What may come at each point of a string that is accepted. -/
structure Rest (v : View) (s : List Char) : Prop where
  operand : v.paren = 0 → v.feature = none → FromOperand s
  behind : ∀ n, v.paren = 0 → v.feature = some n → RestOfName v.cut AfterOperand s
  name : v.paren = 1 → v.feature = none → FromName s
  inside : ∀ n, v.paren = 1 → v.feature = some n → RestOfName v.cut AfterName s

theorem restOfName_nil (cut : Bool) (h : P s) : RestOfName cut P s :=
  ⟨[], s, rfl, fun _ hc => absurd hc not_mem_nil, fun _ => rfl, h⟩

theorem restOfName_cons (hc : Ordinary c) (h : RestOfName false P s) :
    RestOfName false P (c :: s) := by
  obtain ⟨m, t, rfl, hm, -, hP⟩ := h
  refine ⟨c :: m, t, rfl, fun d hd => ?_,
    fun hcut => absurd hcut Bool.false_ne_true, hP⟩
  rcases List.mem_cons.mp hd with rfl | hd
  · exact hc
  · exact hm d hd

/-- A name begins with an ordinary character. -/
theorem exists_label (hc : Ordinary c) (h : RestOfName false P s) :
    ∃ (n : Label) (t : List Char), c :: s = n.name ++ t ∧ P t := by
  obtain ⟨m, t, rfl, hm, -, hP⟩ := h
  refine ⟨⟨c :: m, cons_ne_nil c m, fun d hd => ?_⟩, t, rfl, hP⟩
  rcases List.mem_cons.mp hd with rfl | hd
  · exact hc
  · exact hm d hd

/-- One character more. -/
theorem rest_cons (hnext : Next changeable convert c v v') (ih : Rest v' s) : Rest v (c :: s) := by
  cases hnext with
  | first hc hf =>
    refine ⟨fun hp _ => ?_, fun n _ hn => ?_, fun hp _ => ?_, fun n _ hn => ?_⟩
    · obtain ⟨n, t, heq, ht⟩ := exists_label hc (ih.behind _ hp rfl)
      rw [heq]
      exact fromOperand_append (.one n) ht
    · simp [hf] at hn
    · obtain ⟨n, t, heq, ht⟩ := exists_label hc (ih.inside _ hp rfl)
      rw [heq]
      exact fromName_append n ht
    · simp [hf] at hn
  | more hc hf hcut =>
    refine ⟨fun _ hn => ?_, fun n hp _ => ?_, fun _ hn => ?_, fun n hp _ => ?_⟩
    · simp [hf] at hn
    · rw [hcut]
      exact restOfName_cons hc (ih.behind _ hp rfl)
    · simp [hf] at hn
    · rw [hcut]
      exact restOfName_cons hc (ih.inside _ hp rfl)
  | op o hc hf =>
    refine ⟨fun _ hn => ?_, fun n hp _ => ?_, fun _ hn => ?_, fun n hp _ => ?_⟩
    · simp [hf] at hn
    · exact restOfName_nil _ (Or.inr ⟨o, s, by rw [hc], ih.operand hp rfl⟩)
    · simp [hf] at hn
    · exact restOfName_nil _ (Or.inr ⟨o, s, by rw [hc], ih.name hp rfl⟩)
  | opened hc hf hp =>
    refine ⟨fun _ _ => ?_, fun n _ hn => ?_, fun hp' _ => ?_, fun n _ hn => ?_⟩
    · obtain ⟨g, t, rfl, ht⟩ := ih.name rfl rfl
      have heq : c :: (rowText Label.name g ++ ')' :: t) = (Operand.group g).text ++ t := by
        simp [Operand.text, hc]
      rw [heq]
      exact fromOperand_append (.group g) ht
    · simp [hf] at hn
    · omega
    · simp [hf] at hn
  | closed hc hf hp =>
    refine ⟨fun hp' _ => absurd hp' hp, fun n hp' _ => absurd hp' hp, fun _ hn => ?_,
      fun n hp' _ => ?_⟩
    · simp [hf] at hn
    · obtain ⟨m, t, rfl, -, hcut, ht⟩ := ih.behind _ (by show v.paren - 1 = 0; omega) rfl
      rw [hcut rfl, nil_append, hc]
      exact restOfName_nil _ (Or.inl ⟨t, rfl, ht⟩)

theorem rest_of_runs (h : Runs changeable convert v s v') (hzero : v'.paren = 0) : Rest v s := by
  induction h with
  | nil =>
    exact ⟨fun _ _ => Or.inl rfl, fun n _ _ => restOfName_nil _ (Or.inl rfl),
      fun hp _ => by omega, fun n hp _ => by omega⟩
  | cons hnext _ ih => exact rest_cons hnext (ih hzero)

/-- A string that is accepted is written as an expression, or is empty. -/
theorem written_of_ok {list : List JobFeature} {b : Bool} (hs : ∀ c ∈ s, c ∉ "[]*".toList)
    (h : featureString2list changeable s convert = .ok (list, b)) :
    s = [] ∨ ∃ e close, Written e close s := by
  obtain ⟨v, hruns, hzero, -⟩ := (featureString2list_eq_ok hs list).mp ⟨b, h⟩
  rcases (rest_of_runs hruns hzero).operand rfl rfl with hnil | ⟨e, close, heq⟩
  · exact Or.inl (List.map_eq_nil_iff.mp hnil)
  · exact Or.inr ⟨e, close, heq⟩

end Slurm.Features
