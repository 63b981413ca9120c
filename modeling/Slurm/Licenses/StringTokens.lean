import Slurm.Licenses.Strings

/-!
# The tokens of license strings

What `scanItem` reads of a token, and when it leaves the string: `CutOff` are the tokens that end
with the `')'` of their nodes, where the source takes the `'\0'` for a delimiter and goes on behind it.

* `scanItem_eq_outside`: just these tokens leave the string.
* `readItem_written`: the name and the nodes that are read, which are characters of the string.
* `readItem_entryText`: an entry that was printed is read again, if its count fits into an `int32_t`.
* `lists_joinText`: so is a whole list.
-/

namespace Slurm.Licenses

open List Bool

open Lib.Decimal (IsNumber value)
open Lib.Scanf (isSpace)
open Slurm.ParseTime (strtol)
open Slurm.Tres (strchr strchr_append)

variable {hres : Bool} {delim name : List Char} {nodes nodes' : Option (List Char)} {c d : Char}
  {s t rest : List Char} {item : Item}

variable {e : ConfEntry}

/-! ## Characters -/

/-- The token goes on with this character. -/
def Inner (delim : List Char) (c : Char) : Prop := c ≠ ':' ∧ c ≠ '=' ∧ delim.contains c = false

/-- A character of a name. -/
def Plain (hres : Bool) (delim : List Char) (c : Char) : Prop :=
  isSpace c = false ∧ ¬ (c = '(' ∧ hres = true) ∧ Inner delim c

/-- A token that ends with the `')'` of its nodes. -/
inductive CutOff (delim : List Char) : List Char → Prop
  | here {n : List Char} (hn : ')' ∉ n) : CutOff delim ('(' :: (n ++ [')']))
  | char {c : Char} {s : List Char} (hc : Plain true delim c) (h : CutOff delim s) :
      CutOff delim (c :: s)
  | nodes {n : List Char} {d : Char} {s : List Char} (hn : ')' ∉ n) (hd : Inner delim d)
      (h : CutOff delim s) : CutOff delim ('(' :: (n ++ ')' :: d :: s))

/-! ## Nodes -/

/-- The nodes end at the first `')'`. -/
theorem strchr_eq_some {u : List Char} (h : strchr c s = some u) :
    ∃ t, u = c :: t ∧ c ∉ s.takeWhile (· ≠ c) ∧ s = s.takeWhile (· ≠ c) ++ c :: t := by
  have hnot : c ∉ s.takeWhile (· ≠ c) := by
    intro hmem
    have hne := mem_takeWhile_imp hmem
    simp at hne
  have hsplit := takeWhile_append_dropWhile (p := fun x => decide (x ≠ c)) (l := s)
  unfold strchr at h
  split at h
  · cases h
  · rename_i b v hdrop
    have hb := head?_dropWhile_not (fun x => decide (x ≠ c)) s
    rw [hdrop] at hb hsplit
    have hbc : b = c := by simpa using hb
    rw [hbc] at hsplit
    exact ⟨v, by rw [← Option.some.inj h, hbc], hnot, hsplit.symm⟩

/-- Either the character is not a `'('` that counts, or it starts nodes. -/
theorem enterNodes_cases (h : enterNodes hres nodes c rest = some (nodes', t)) :
    ¬ (c = '(' ∧ hres = true) ∧ nodes' = nodes ∧ t = c :: rest ∨
      (c = '(' ∧ hres = true) ∧ ∃ n, ')' ∉ n ∧ rest = n ++ ')' :: t ∧ nodes' = some n := by
  unfold enterNodes at h
  split at h
  · rename_i hopen
    rcases hclose : strchr ')' rest with _ | close
    · rw [hclose] at h
      cases h
    · obtain ⟨u, rfl, hnot, hsplit⟩ := strchr_eq_some hclose
      rw [hclose] at h
      cases h
      exact Or.inr ⟨hopen, _, hnot, hsplit, rfl⟩
  · rename_i hopen
    cases h
    exact Or.inl ⟨hopen, rfl, rfl⟩

theorem enterNodes_none (h : enterNodes hres nodes c rest = none) :
    (c = '(' ∧ hres = true) ∧ ')' ∉ rest := by
  unfold enterNodes at h
  split at h
  · rename_i hopen
    refine ⟨hopen, fun hmem => ?_⟩
    rw [Option.map_eq_none_iff] at h
    unfold strchr at h
    split at h
    · rename_i hdrop
      have hall := List.dropWhile_eq_nil_iff.mp hdrop ')' hmem
      simp at hall
    · cases h
  · cases h

theorem enterNodes_other (h : ¬ (c = '(' ∧ hres = true)) :
    enterNodes hres nodes c rest = some (nodes, c :: rest) := if_neg h

theorem enterNodes_nodes {n : List Char} (hn : ')' ∉ n) (t : List Char) :
    enterNodes true nodes '(' (n ++ ')' :: t) = some (some n, t) := by
  have hall : ∀ c ∈ n, decide (c ≠ ')') = true := fun c hc =>
    decide_eq_true fun heq => hn (heq ▸ hc)
  unfold enterNodes
  rw [if_pos ⟨rfl, rfl⟩, strchr_append hn, takeWhile_append_of_pos hall]
  simp

/-! ## One token -/

/-- What comes after a character that is no blank, and perhaps after nodes. -/
theorem scanItem_of_enter (hspace : isSpace c = false)
    (henter : enterNodes hres nodes c rest = some (nodes', d :: t)) :
    scanItem hres delim name nodes (c :: rest) =
      if d = ':' ∨ d = '=' then readCount delim name nodes' t
      else if delim.contains d then .ok (token name nodes' 1, t)
      else scanItem hres delim (if nodes'.isSome then name else name ++ [d]) nodes' t := by
  rw [scanItem, hspace, if_neg Bool.noConfusion]
  split
  · rename_i h
    rw [henter] at h
    cases h
  · rename_i n h
    rw [henter] at h
    cases h
  · rename_i n d' t' h
    rw [henter] at h
    cases h
    rfl

/-- A character of a name. -/
theorem scanItem_plain (hc : Plain hres delim c) (t : List Char) :
    scanItem hres delim name none (c :: t) = scanItem hres delim (name ++ [c]) none t := by
  obtain ⟨hspace, hopen, hcolon, hequals, hdelim⟩ := hc
  rw [scanItem_of_enter hspace (enterNodes_other hopen), if_neg (not_or.mpr ⟨hcolon, hequals⟩), hdelim]
  rfl

/-- All of a name. -/
theorem scanItem_name {x : List Char} (hx : ∀ c ∈ x, Plain hres delim c) (t : List Char) :
    scanItem hres delim name none (x ++ t) = scanItem hres delim (name ++ x) none t := by
  induction x generalizing name with
  | nil => rw [append_nil, nil_append]
  | cons c x ih =>
    rw [cons_append, scanItem_plain (hx c mem_cons_self),
      ih fun c hc => hx c (mem_cons_of_mem _ hc), append_assoc, singleton_append]

/-- The count after a name. -/
theorem scanItem_count (t : List Char) :
    scanItem hres delim name none (':' :: t) = readCount delim name none t := by
  rw [scanItem_of_enter (by decide) (enterNodes_other (by simp)), if_pos (Or.inl rfl)]

/-- The count after nodes. -/
theorem scanItem_nodes_count {n : List Char} (hn : ')' ∉ n) (t : List Char) :
    scanItem true delim name nodes ('(' :: (n ++ ')' :: ':' :: t)) =
      readCount delim name (some n) t := by
  rw [scanItem_of_enter (by decide) (enterNodes_nodes hn _), if_pos (Or.inl rfl)]

theorem readCount_ne_outside : readCount delim name nodes t ≠ .error .outside := by
  unfold readCount
  dsimp only
  split
  · exact fun h => by cases h
  · exact fun h => by cases h

/-! ## Tokens that leave the string -/

/-- A token that ends with the `')'` of its nodes goes on as any other. -/
theorem cutOff_cons :
    CutOff delim (c :: rest) ↔
      Plain true delim c ∧ CutOff delim rest ∨
        c = '(' ∧ ∃ n, ')' ∉ n ∧ (rest = n ++ [')'] ∨
          ∃ d t, rest = n ++ ')' :: d :: t ∧ Inner delim d ∧ CutOff delim t) := by
  constructor
  · intro h
    cases h with
    | here hn => exact Or.inr ⟨rfl, _, hn, Or.inl rfl⟩
    | char hc h => exact Or.inl ⟨hc, h⟩
    | nodes hn hd h => exact Or.inr ⟨rfl, _, hn, Or.inr ⟨_, _, rfl, hd, h⟩⟩
  · intro h
    rcases h with ⟨hc, h⟩ | ⟨rfl, n, hn, rfl | ⟨d, t, rfl, hd, h⟩⟩
    · exact .char hc h
    · exact .here hn
    · exact .nodes hn hd h

/-- It goes on behind its nodes. -/
theorem cutOff_nodes {n : List Char} (hn : ')' ∉ n) :
    CutOff delim ('(' :: (n ++ ')' :: t)) ↔
      t = [] ∨ ∃ d u, t = d :: u ∧ Inner delim d ∧ CutOff delim u := by
  have hsame : ∀ {m u : List Char}, ')' ∉ m → n ++ ')' :: t = m ++ ')' :: u → t = u := by
    intro m u hm heq
    have hfirst := congrArg (strchr ')') heq
    rw [strchr_append hn, strchr_append hm] at hfirst
    exact (List.cons.inj (Option.some.inj hfirst)).2
  rw [cutOff_cons]
  constructor
  · intro h
    rcases h with ⟨hplain, -⟩ | ⟨-, m, hm, heq | ⟨d, u, heq, hd, hu⟩⟩
    · exact absurd ⟨rfl, rfl⟩ hplain.2.1
    · exact Or.inl (hsame hm heq)
    · exact Or.inr ⟨d, u, hsame hm heq, hd, hu⟩
  · intro h
    refine Or.inr ⟨rfl, n, hn, ?_⟩
    rcases h with rfl | ⟨d, u, rfl, hd, hu⟩
    · exact Or.inl rfl
    · exact Or.inr ⟨d, u, rfl, hd, hu⟩

/-- After a character of the name or the nodes it is the rest that counts. -/
theorem cutOff_enter (hspace : isSpace c = false)
    (henter : enterNodes true nodes c rest = some (nodes', d :: t)) :
    CutOff delim (c :: rest) ↔ Inner delim d ∧ CutOff delim t := by
  rcases enterNodes_cases henter with ⟨hopen, -, heq⟩ | ⟨hopen, n, hn, rfl, -⟩
  · cases heq
    rw [cutOff_cons]
    constructor
    · intro h
      rcases h with ⟨hplain, h⟩ | ⟨heq, -⟩
      · exact ⟨hplain.2.2, h⟩
      · exact absurd ⟨heq, rfl⟩ hopen
    · intro ⟨hinner, h⟩
      exact Or.inl ⟨⟨hspace, hopen, hinner⟩, h⟩
  · rw [hopen.1, cutOff_nodes hn]
    constructor
    · intro h
      rcases h with h | ⟨d', u, heq, hinner, h⟩
      · cases h
      · cases heq
        exact ⟨hinner, h⟩
    · intro ⟨hinner, h⟩
      exact Or.inr ⟨d, t, rfl, hinner, h⟩

/-- Just the tokens that end with the `')'` of their nodes leave the string. -/
theorem scanItem_eq_outside :
    scanItem hres delim name nodes s = .error .outside ↔ hres = true ∧ CutOff delim s := by
  fun_induction scanItem hres delim name nodes s with
  | case1 => exact iff_of_false (fun h => by cases h) (fun h => by cases h.2)
  | case2 name nodes c rest hspace =>
    refine iff_of_false (fun h => by cases h) fun h => ?_
    rcases cutOff_cons.mp h.2 with ⟨hplain, -⟩ | ⟨rfl, -⟩
    · rw [hplain.1] at hspace
      exact Bool.noConfusion hspace
    · exact absurd hspace (by decide)
  | case3 name nodes c rest hspace henter =>
    obtain ⟨hopen, hnot⟩ := enterNodes_none henter
    refine iff_of_false (fun h => by cases h) fun h => ?_
    rcases cutOff_cons.mp h.2 with ⟨hplain, -⟩ | ⟨-, n, hn, rfl | ⟨d, t, rfl, -, -⟩⟩
    · exact hplain.2.1 ⟨hopen.1, rfl⟩
    · exact hnot (by simp)
    · exact hnot (by simp)
  | case4 name nodes c rest hspace nodes' henter =>
    rcases enterNodes_cases henter with ⟨-, -, heq⟩ | ⟨hopen, n, hn, rfl, -⟩
    · cases heq
    · rw [hopen.1]
      exact iff_of_true rfl ⟨hopen.2, .here hn⟩
  | case5 name nodes c rest hspace nodes' d t henter hcount =>
    refine iff_of_false readCount_ne_outside fun h => ?_
    rw [h.1] at henter
    have hinner := ((cutOff_enter (eq_false_of_not_eq_true hspace) henter).mp h.2).1
    rcases hcount with hd | hd
    · exact hinner.1 hd
    · exact hinner.2.1 hd
  | case6 name nodes c rest hspace nodes' d t henter hcount hdelim =>
    refine iff_of_false (fun h => by cases h) fun h => ?_
    rw [h.1] at henter
    have hinner := ((cutOff_enter (eq_false_of_not_eq_true hspace) henter).mp h.2).1
    rw [hinner.2.2] at hdelim
    exact Bool.noConfusion hdelim
  | case7 name nodes c rest hspace nodes' d t henter hcount hdelim ih =>
    refine ih.trans (and_congr_right fun h => ?_)
    rw [h] at henter
    rw [cutOff_enter (eq_false_of_not_eq_true hspace) henter]
    have hinner : Inner delim d :=
      ⟨(not_or.mp hcount).1, (not_or.mp hcount).2, eq_false_of_not_eq_true hdelim⟩
    rw [and_iff_right hinner]

/-! ## What is read -/

/-- The name and the nodes that are read are characters of the string, apart from those that were
read before. -/
structure Scanned (hres : Bool) (delim name : List Char) (nodes : Option (List Char))
    (s : List Char) (item : Item) : Prop where
  name : ∃ x, item.name = String.ofList (name ++ x) ∧ ∀ c ∈ x, Plain hres delim c ∧ c ∈ s
  nodes : item.nodes = nodes.map String.ofList ∨
    hres = true ∧ '(' ∈ s ∧ ∃ n, item.nodes = some (String.ofList n) ∧ ')' ∉ n ∧ ∀ c ∈ n, c ∈ s

theorem scanned_token (hres : Bool) (delim name : List Char) (nodes : Option (List Char))
    (s : List Char) (num : Int) : Scanned hres delim name nodes s (token name nodes num) := by
  refine ⟨⟨[], ?_, fun c hc => absurd hc not_mem_nil⟩, Or.inl rfl⟩
  rw [append_nil]
  rfl

/-- One character, and perhaps nodes, before what is read. -/
theorem Scanned.enter (hspace : isSpace c = false)
    (henter : enterNodes hres nodes c rest = some (nodes', d :: t)) {name' : List Char}
    (hname : name' = name ∨ name' = name ++ [d] ∧ nodes' = none ∧ Inner delim d)
    (h : Scanned hres delim name' nodes' t item) : Scanned hres delim name nodes (c :: rest) item := by
  have hsub : ∀ b ∈ t, b ∈ c :: rest := fun b hb =>
    mem_cons_of_mem _ ((enterNodes_suffix henter).subset hb)
  obtain ⟨⟨x, hx, hplain⟩, hnodes⟩ := h
  constructor
  · rcases hname with rfl | ⟨rfl, rfl, hinner⟩
    · exact ⟨x, hx, fun b hb => ⟨(hplain b hb).1, hsub b (hplain b hb).2⟩⟩
    · rcases enterNodes_cases henter with ⟨hopen, -, heq⟩ | ⟨-, n, -, -, heq⟩
      · cases heq
        refine ⟨c :: x, ?_, List.forall_mem_cons.mpr ⟨⟨⟨hspace, hopen, hinner⟩,
          mem_cons_self⟩, fun b hb => ⟨(hplain b hb).1, hsub b (hplain b hb).2⟩⟩⟩
        rw [hx, append_assoc, singleton_append]
      · cases heq
  · rcases hnodes with hnodes | ⟨htrue, hparen, n, hn, hclose, hmem⟩
    · rcases enterNodes_cases henter with ⟨-, heq, -⟩ | ⟨hopen, n, hclose, rfl, rfl⟩
      · exact Or.inl (heq ▸ hnodes)
      · exact Or.inr ⟨hopen.2, hopen.1 ▸ mem_cons_self, n, hnodes, hclose, fun b hb =>
          mem_cons_of_mem _ (mem_append_left _ hb)⟩
    · exact Or.inr ⟨htrue, hsub _ hparen, n, hn, hclose, fun b hb => hsub b (hmem b hb)⟩

theorem scanned (h : scanItem hres delim name nodes s = .ok (item, rest)) :
    Scanned hres delim name nodes s item := by
  fun_induction scanItem hres delim name nodes s with
  | case1 =>
    cases h
    exact scanned_token hres delim _ _ _ 1
  | case2 => cases h
  | case3 => cases h
  | case4 => cases h
  | case5 name nodes c _ hspace nodes' d t henter _ =>
    unfold readCount at h
    dsimp only at h
    split at h
    · cases h
      exact (scanned_token hres delim name nodes' t _).enter (eq_false_of_not_eq_true hspace)
        henter (Or.inl rfl)
    · cases h
  | case6 name nodes c _ hspace nodes' d t henter _ _ =>
    cases h
    exact (scanned_token hres delim name nodes' rest 1).enter (eq_false_of_not_eq_true hspace)
      henter (Or.inl rfl)
  | case7 name nodes c _ hspace nodes' d t henter hcount hdelim ih =>
    refine (ih h).enter (eq_false_of_not_eq_true hspace) henter ?_
    cases nodes' with
    | none => exact Or.inr ⟨rfl, rfl, (not_or.mp hcount).1, (not_or.mp hcount).2,
        eq_false_of_not_eq_true hdelim⟩
    | some n => exact Or.inl rfl

/-- An item of a string: a name and nodes of its characters, and a count. -/
structure Written (hres : Bool) (delim s : List Char) (item : Item) : Prop where
  name : ∀ c ∈ item.name.toList, Plain hres delim c ∧ c ∈ s
  nodes : ∀ n, item.nodes = some n →
    hres = true ∧ '(' ∈ s ∧ ')' ∉ n.toList ∧ ∀ c ∈ n.toList, c ∈ s
  num : 0 ≤ item.num

theorem readItem_eq_ok :
    readItem hres delim s = .ok (item, rest) ↔
      scanItem hres delim [] none s = .ok (item, rest) ∧ 0 ≤ item.num := by
  unfold readItem
  rcases scanItem hres delim [] none s with e | r
  · exact iff_of_false (fun h => by cases h) (fun h => by cases h.1)
  · show (if r.1.num < 0 then _ else _) = _ ↔ _
    split
    · rename_i hneg
      refine iff_of_false (fun h => by cases h) fun h => ?_
      cases h.1
      exact not_le.mpr hneg h.2
    · rename_i hnonneg
      constructor
      · intro h
        cases h
        exact ⟨rfl, not_lt.mp hnonneg⟩
      · intro h
        exact h.1

theorem readItem_eq_outside :
    readItem hres delim s = .error .outside ↔ hres = true ∧ CutOff delim s := by
  rw [← @scanItem_eq_outside hres delim [] none s]
  unfold readItem
  rcases scanItem hres delim [] none s with e | r
  · exact Iff.rfl
  · show (if r.1.num < 0 then _ else _) = _ ↔ _
    split <;> exact iff_of_false (fun h => by cases h) (fun h => by cases h)

theorem readItem_written (h : readItem hres delim s = .ok (item, rest)) :
    Written hres delim s item := by
  obtain ⟨hscan, hnum⟩ := readItem_eq_ok.mp h
  obtain ⟨⟨x, hx, hplain⟩, hnodes⟩ := scanned hscan
  refine ⟨fun c hc => ?_, fun n hn => ?_, hnum⟩
  · rw [hx, nil_append, String.toList_ofList] at hc
    exact hplain c hc
  · rcases hnodes with hnone | ⟨htrue, hparen, m, hm, hclose, hmem⟩
    · rw [hnone] at hn
      cases hn
    · rw [hm] at hn
      cases hn
      rw [String.toList_ofList]
      exact ⟨htrue, hparen, hclose, hmem⟩

theorem Written.mono {u : List Char} (h : Written hres delim s item) (hsub : ∀ c ∈ s, c ∈ u) :
    Written hres delim u item :=
  ⟨fun c hc => ⟨(h.name c hc).1, hsub c (h.name c hc).2⟩,
    fun n hn => ⟨(h.nodes n hn).1, hsub _ (h.nodes n hn).2.1, (h.nodes n hn).2.2.1,
      fun c hc => hsub c ((h.nodes n hn).2.2.2 c hc)⟩,
    h.num⟩

/-- All items of a string are written in it. -/
theorem lists_written {items : List Item} (h : (tokens hres delim).Lists s items) :
    ∀ item ∈ items, Written hres delim s item := by
  refine h.forall (P := fun u => u <:+ s) (fun c t hu => (suffix_cons c t).trans hu) ?_
    (suffix_refl s)
  intro c t item rest hu hread
  have hscan := (readItem_eq_ok.mp hread).1
  exact ⟨(readItem_written hread).mono fun c hc => hu.subset hc,
    (scanItem_suffix hscan).trans ((suffix_cons c t).trans hu)⟩

/-! ## Printed entries -/

/-- The item that an entry is printed as. -/
def itemOf (e : ConfEntry) : Item := ⟨e.name, e.nodes, e.total.toNat⟩

/-- An entry whose text can be read again. -/
structure Printable (delim : List Char) (e : ConfEntry) : Prop where
  name : ∀ c ∈ e.name.toList, Plain true delim c
  nodes : ∀ n, e.nodes = some n → ')' ∉ n.toList

/-- The delimiters of a string. -/
def Delimiters (delim : List Char) : Prop := delim = ['|'] ∨ delim = [',', ';']

theorem delimiters_delimOf (s : List Char) : Delimiters (delimOf s) := by
  unfold delimOf
  split
  · exact Or.inl rfl
  · exact Or.inr rfl

theorem Delimiters.not_digit (h : Delimiters delim) (hc : delim.contains c = true) :
    c.isDigit = false := by
  rcases h with rfl | rfl
  · simp only [contains_cons, contains_nil, Bool.or_false, beq_iff_eq] at hc
    rw [hc]
    decide
  · simp only [contains_cons, contains_nil, Bool.or_false, or_eq_true,
      beq_iff_eq] at hc
    rcases hc with rfl | rfl <;> decide

/-- What ends a token does not go on with a digit. -/
theorem noDigitHead_of_endsToken (hdelim : Delimiters delim) (h : endsToken delim rest = true) :
    Lib.Scanf.NoDigitHead rest := by
  cases rest with
  | nil => exact Lib.Scanf.noDigitHead_nil
  | cons c rest => exact Lib.Scanf.noDigitHead_cons rest (hdelim.not_digit h)

/-- A count of 32 bits is read as a signed one. -/
theorem readCount_digits (hdelim : Delimiters delim) (total : UInt32)
    (h : endsToken delim rest = true) :
    readCount delim name nodes (Nat.toDigits 10 total.toNat ++ rest) =
      .ok (token name nodes (Lib.Int32.wrap total.toNat), rest) := by
  have hlt := total.toNat_lt
  have hnumber : IsNumber (Nat.toDigits 10 total.toNat) := by
    have hpadded := Lib.Decimal.isNumber_padded 0 total.toNat
    unfold Lib.Decimal.padded at hpadded
    rwa [Nat.zero_sub, replicate_zero, nil_append] at hpadded
  have hvalue : value (Nat.toDigits 10 total.toNat) = total.toNat := by
    have hpadded := Lib.Decimal.value_padded 0 total.toNat
    unfold Lib.Decimal.padded at hpadded
    rwa [Nat.zero_sub, replicate_zero, nil_append] at hpadded
  have hread := Lib.Scanf.decimal_number hnumber (noDigitHead_of_endsToken hdelim h)
  have hlong : max (-2 ^ 63) (min Slurm.ParseTime.longMax (total.toNat : Int)) = total.toNat := by
    unfold Slurm.ParseTime.longMax
    omega
  have hstrtol : strtol (Nat.toDigits 10 total.toNat ++ rest) = ((total.toNat : Int), rest) := by
    unfold strtol
    rw [hread, hvalue]
    exact congrArg (fun n => (n, rest)) hlong
  unfold readCount
  rw [hstrtol]
  exact if_pos h

/-- What is scanned of an entry that was printed. -/
theorem scanItem_entryText (hdelim : Delimiters delim) (he : Printable delim e)
    (h : endsToken delim rest = true) :
    scanItem true delim [] none (entryText e ++ rest) =
      .ok (⟨e.name, e.nodes, Lib.Int32.wrap e.total.toNat⟩, rest) := by
  unfold entryText
  rcases hnodes : e.nodes with _ | n
  · show scanItem true delim [] none (e.name.toList ++ ':' :: Nat.toDigits 10 e.total.toNat ++ rest) = _
    rw [append_assoc, cons_append, scanItem_name he.name, scanItem_count,
      readCount_digits hdelim e.total h, nil_append]
    unfold token
    rw [String.ofList_toList]
    rfl
  · show scanItem true delim [] none (e.name.toList ++
      '(' :: (n.toList ++ ')' :: ':' :: Nat.toDigits 10 e.total.toNat) ++ rest) = _
    rw [append_assoc, cons_append, append_assoc, cons_append, cons_append,
      scanItem_name he.name, scanItem_nodes_count (he.nodes n hnodes),
      readCount_digits hdelim e.total h, nil_append]
    unfold token
    rw [String.ofList_toList, Option.map_some, String.ofList_toList]

/-- An entry that was printed is read again. -/
theorem readItem_entryText (hdelim : Delimiters delim) (he : Printable delim e)
    (h : endsToken delim rest = true) (htotal : e.total.toNat < 2 ^ 31) :
    readItem true delim (entryText e ++ rest) = .ok (itemOf e, rest) := by
  have hwrap : Lib.Int32.wrap e.total.toNat = e.total.toNat :=
    Lib.Int32.wrap_eq (by omega) (by omega)
  rw [readItem_eq_ok, scanItem_entryText hdelim he h, hwrap]
  exact ⟨rfl, Int.natCast_nonneg _⟩

/-- A count of `2 ^ 31` or more is negative. -/
theorem readItem_large (hdelim : Delimiters delim) (he : Printable delim e)
    (h : endsToken delim rest = true) (htotal : 2 ^ 31 ≤ e.total.toNat) :
    readItem true delim (entryText e ++ rest) = .error .invalid := by
  have hlt := e.total.toNat_lt
  have hwrap : Lib.Int32.wrap e.total.toNat = e.total.toNat - 4294967296 :=
    Lib.Int32.wrap_eq_sub (by omega) (by omega)
  unfold readItem
  rw [scanItem_entryText hdelim he h, hwrap]
  exact if_pos (by dsimp only; omega)

/-! ## Printed lists -/

/-- The separator that is printed after an entry. -/
def separator (opOr : Bool) : Char := if opOr then '|' else ';'

theorem joinText_cons {opOr : Bool} (he : e.opOr = opOr) (sep : List Char) (l : List ConfEntry) :
    joinText sep (e :: l) = sep ++ (entryText e ++ joinText [separator opOr] l) := by
  rw [joinText, he, append_assoc]
  cases opOr <;> rfl

/-- A text starts with a character that is no delimiter. -/
theorem entryText_head (hdelim : Delimiters delim) (he : Printable delim e) :
    ∃ c t, entryText e = c :: t ∧ delim.contains c = false := by
  have hname : ∀ t, (∃ c u, t = c :: u ∧ delim.contains c = false) →
      ∃ c u, e.name.toList ++ t = c :: u ∧ delim.contains c = false := by
    intro t ht
    rcases hlist : e.name.toList with _ | ⟨c, x⟩
    · exact ht
    · have hc := he.name c (hlist ▸ mem_cons_self)
      exact ⟨c, x ++ t, rfl, hc.2.2.2.2⟩
  unfold entryText
  split
  · exact hname _ ⟨_, _, rfl, by rcases hdelim with rfl | rfl <;> decide⟩
  · exact hname _ ⟨_, _, rfl, by rcases hdelim with rfl | rfl <;> decide⟩

/-- After an entry there is a separator, or the string ends. -/
theorem endsToken_joinText {b : Char} (hb : delim.contains b = true) (l : List ConfEntry) :
    endsToken delim (joinText [b] l) = true := by
  cases l with
  | nil => rfl
  | cons e l => exact hb

variable {opOr : Bool} {l : List ConfEntry}

/-- The entries behind a separator are read again. -/
theorem lists_separated (hdelim : Delimiters delim) (hsep : delim.contains (separator opOr) = true)
    (hl : ∀ e ∈ l, Printable delim e ∧ e.opOr = opOr ∧ e.total.toNat < 2 ^ 31) :
    (tokens true delim).Lists (joinText [separator opOr] l) (l.map itemOf) := by
  induction l with
  | nil => exact .nil
  | cons e l ih =>
    obtain ⟨⟨hprint, hor, htotal⟩, hrest⟩ := List.forall_mem_cons.mp hl
    obtain ⟨c, t, htext, hc⟩ := entryText_head hdelim hprint
    have hread := readItem_entryText hdelim hprint (endsToken_joinText hsep l) htotal
    rw [joinText_cons hor, htext]
    rw [htext] at hread
    exact .skip hsep (.item hc hread (ih hrest))

/-- A list that was printed is read again. -/
theorem lists_joinText (hdelim : Delimiters delim) (hsep : delim.contains (separator opOr) = true)
    (hl : ∀ e ∈ l, Printable delim e ∧ e.opOr = opOr ∧ e.total.toNat < 2 ^ 31) :
    (tokens true delim).Lists (joinText [] l) (l.map itemOf) := by
  have hlists := lists_separated hdelim hsep hl
  cases l with
  | nil => exact .nil
  | cons e l =>
    obtain ⟨⟨-, hor, -⟩, -⟩ := List.forall_mem_cons.mp hl
    rw [joinText_cons hor] at hlists ⊢
    exact (Lib.Items.lists_skip_iff hsep).mp hlists

/-- A large count behind a separator cannot be read. -/
theorem comes_separated (hdelim : Delimiters delim) (hsep : delim.contains (separator opOr) = true)
    (hl : ∀ e ∈ l, Printable delim e ∧ e.opOr = opOr) (hlarge : ∃ e ∈ l, 2 ^ 31 ≤ e.total.toNat) :
    ∃ t, (tokens true delim).Comes (joinText [separator opOr] l) t ∧
      readItem true delim t = .error .invalid := by
  induction l with
  | nil =>
    obtain ⟨e, he, -⟩ := hlarge
    cases he
  | cons e l ih =>
    obtain ⟨⟨hprint, hor⟩, hrest⟩ := List.forall_mem_cons.mp hl
    obtain ⟨c, t, htext, hc⟩ := entryText_head hdelim hprint
    rw [joinText_cons hor, htext]
    by_cases htotal : 2 ^ 31 ≤ e.total.toNat
    · have hread := readItem_large hdelim hprint (endsToken_joinText hsep l) htotal
      rw [htext] at hread
      exact ⟨_, .skip hsep (.here hc), hread⟩
    · have hread := readItem_entryText hdelim hprint (endsToken_joinText hsep l) (not_le.mp htotal)
      rw [htext] at hread
      obtain ⟨e', he', hlarge'⟩ := hlarge
      rcases List.mem_cons.mp he' with rfl | hmem
      · exact absurd hlarge' htotal
      · obtain ⟨u, hu, hinvalid⟩ := ih hrest ⟨e', hmem, hlarge'⟩
        exact ⟨u, .skip hsep (.item hc hread hu), hinvalid⟩

/-- A list with a large count cannot be read again. -/
theorem comes_joinText (hdelim : Delimiters delim) (hsep : delim.contains (separator opOr) = true)
    (hl : ∀ e ∈ l, Printable delim e ∧ e.opOr = opOr) (hlarge : ∃ e ∈ l, 2 ^ 31 ≤ e.total.toNat) :
    ∃ t, (tokens true delim).Comes (joinText [] l) t ∧ readItem true delim t = .error .invalid := by
  obtain ⟨t, ht, hread⟩ := comes_separated hdelim hsep hl hlarge
  refine ⟨t, ?_, hread⟩
  cases l with
  | nil =>
    obtain ⟨e, he, -⟩ := hlarge
    cases he
  | cons e l =>
    obtain ⟨⟨-, hor⟩, -⟩ := List.forall_mem_cons.mp hl
    rw [joinText_cons hor] at ht ⊢
    exact (Lib.Items.comes_skip_iff hsep).mp ht

end Slurm.Licenses
