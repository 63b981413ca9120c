import Mathlib

/-!
# A scan that starts again

`scan` goes through the neighbours of a list from its end.  `meet a b` says whether they
stay as they are, cannot be handled, or are replaced by several elements; after a
replacement the scan starts again at the end.

* `insert`, `settle`: the same by recursion on the list.  An element is inserted before a
  part that is settled, and only the last piece of each replacement is inserted further.
* `scan_settle`: the scan ends with what `settle` gives, and never ends where it gives
  nothing.
-/

namespace Lib.Restart

open List Option

variable {α : Type} (meet : α → α → Option (Option (List α × α)))

/-- The scan from the neighbours at `i - 1` and `i`. -/
def scan : Nat → Nat → List α → Option (List α)
  | 0, _, _ => none
  | fuel + 1, i, l =>
    if i = 0 then some l
    else
      l[i - 1]?.bind fun a => l[i]?.bind fun b =>
        match meet a b with
        | none => scan fuel (i - 1) l
        | some none => none
        | some (some (before, next)) =>
          let l' := l.take (i - 1) ++ (before ++ next :: l.drop (i + 1))
          scan fuel (l'.length - 1) l'

/-- An element before a part that is settled. -/
def insert : α → List α → Option (List α)
  | a, [] => some [a]
  | a, b :: l =>
    match meet a b with
    | none => some (a :: b :: l)
    | some none => none
    | some (some (before, next)) => (insert next l).map (before ++ ·)

/-- The list after the scan. -/
def settle : List α → Option (List α)
  | [] => some []
  | a :: l => (settle l).bind (insert meet a)

/-- Neighbours that stay as they are. -/
def Apart (a b : α) : Prop := meet a b = none

/-- What is asked of replacements, for elements that are `good`: the pieces are good, they stay
as they are next to each other, also before any start of what the last becomes. -/
structure Laws (good : α → Prop) (starts : α → α → Prop) : Prop where
  refl : ∀ a, starts a a
  good_next : ∀ {a b before next}, good a → good b → meet a b = some (some (before, next)) →
    (∀ x ∈ before, good x) ∧ good next
  pieces : ∀ {a b before next}, good a → good b → meet a b = some (some (before, next)) →
    ∃ p rest, before = p :: rest ∧ starts a p ∧
      ∀ f, starts next f → List.IsChain (Apart meet) (before ++ [f])

/-- The scan comes to another place, or gives nothing. -/
def Ends (i : Nat) (l : List α) (r : Option (Nat × List α)) : Prop :=
  ∃ n, ∀ fuel, scan meet (n + fuel) i l = r.elim none fun p => scan meet fuel p.1 p.2

variable {meet} {good : α → Prop} {starts : α → α → Prop}

/-! ## Steps of the scan -/

theorem Ends.refl (i : Nat) (l : List α) : Ends meet i l (some (i, l)) :=
  ⟨0, fun fuel => by rw [Nat.zero_add]; rfl⟩

theorem Ends.trans {i j : Nat} {l m : List α} {r : Option (Nat × List α)}
    (h : Ends meet i l (some (j, m))) (h' : Ends meet j m r) : Ends meet i l r := by
  obtain ⟨n, hn⟩ := h
  obtain ⟨n', hn'⟩ := h'
  refine ⟨n + n', fun fuel => ?_⟩
  rw [Nat.add_assoc, hn]
  exact hn' fuel

theorem getElem?_pair (before after : List α) (a b : α) :
    (before ++ a :: b :: after)[before.length]? = some a ∧
      (before ++ a :: b :: after)[before.length + 1]? = some b := by
  constructor
  · rw [getElem?_append_right (Nat.le_refl _), Nat.sub_self, getElem?_cons_zero]
  · rw [getElem?_append_right (by omega), Nat.add_sub_cancel_left, getElem?_cons_succ,
      getElem?_cons_zero]

variable (meet) in
/-- One step at neighbours. -/
theorem scan_pair (before after : List α) (a b : α) (fuel : Nat) :
    scan meet (fuel + 1) (before.length + 1) (before ++ a :: b :: after) =
      match meet a b with
      | none => scan meet fuel before.length (before ++ a :: b :: after)
      | some none => none
      | some (some (pieces, next)) =>
        scan meet fuel ((before ++ pieces).length + after.length)
          ((before ++ pieces) ++ next :: after) := by
  obtain ⟨ha, hb⟩ := getElem?_pair before after a b
  rw [scan, if_neg (Nat.succ_ne_zero _), Nat.add_sub_cancel, ha, hb, bind_some,
    bind_some]
  cases meet a b with
  | none => rfl
  | some result =>
    cases result with
    | none => rfl
    | some pieces =>
      obtain ⟨pieces, next⟩ := pieces
      have htake : (before ++ a :: b :: after).take before.length = before := by
        rw [take_append_of_le_length (Nat.le_refl _), take_length]
      have hdrop : (before ++ a :: b :: after).drop (before.length + 1 + 1) = after := by
        have hskip : before.length + 1 + 1 - before.length = 2 := by omega
        rw [drop_append, drop_eq_nil_of_le (by omega), hskip]
        rfl
      have hlen : (before ++ (pieces ++ next :: after)).length - 1
          = (before ++ pieces).length + after.length := by
        simp only [length_append, length_cons]
        omega
      dsimp only
      rw [htake, hdrop, hlen, append_assoc]

/-- The scan goes over neighbours that stay as they are. -/
theorem ends_over (before middle after : List α) (f : α)
    (h : List.IsChain (Apart meet) (middle ++ [f])) :
    Ends meet (before.length + middle.length) (before ++ (middle ++ f :: after))
      (some (before.length, before ++ (middle ++ f :: after))) := by
  induction middle using List.reverseRecOn generalizing f after with
  | nil => exact Ends.refl _ _
  | append_singleton middle a ih =>
    have hchain : List.IsChain (Apart meet) (middle ++ [a]) := by
      have hsplit := List.isChain_append.mp h
      exact hsplit.1
    have hlast : meet a f = none := by
      rw [append_assoc] at h
      exact (List.isChain_append.mp h).2.1.rel
    have hstep : Ends meet (before.length + (middle ++ [a]).length)
        (before ++ (middle ++ [a] ++ f :: after))
        (some (before.length + middle.length, before ++ (middle ++ [a] ++ f :: after))) := by
      refine ⟨1, fun fuel => ?_⟩
      have hpair := scan_pair meet (before ++ middle) after a f fuel
      rw [hlast] at hpair
      simp only [append_assoc, length_append, length_cons, length_nil,
        cons_append, nil_append] at hpair ⊢
      rw [Nat.add_comm 1 fuel]
      exact hpair
    refine hstep.trans ?_
    have hrest := ih (f :: after) a hchain
    simp only [append_assoc, cons_append, nil_append] at hrest ⊢
    exact hrest

/-! ## Inserting -/

theorem chain_append {before rest : List α} {f : α}
    (h : List.IsChain (Apart meet) (before ++ [f])) (h' : List.IsChain (Apart meet) (f :: rest)) :
    List.IsChain (Apart meet) (before ++ f :: rest) := by
  rw [isChain_append] at h ⊢
  exact ⟨h.1, h', h.2.2⟩

/-- What an element becomes before a part that is settled. -/
structure Inserted (meet : α → α → Option (Option (List α × α))) (good : α → Prop)
    (starts : α → α → Prop) (a : α) (l : List α) : Prop where
  chain : List.IsChain (Apart meet) l
  good : ∀ x ∈ l, good x
  head : ∃ f rest, l = f :: rest ∧ starts a f

theorem inserted (laws : Laws meet good starts) {a : α} {l l' : List α} (ha : good a)
    (hl : ∀ x ∈ l, good x) (hchain : List.IsChain (Apart meet) l) (h : insert meet a l = some l') :
    Inserted meet good starts a l' := by
  induction l generalizing a l' with
  | nil =>
    obtain rfl := Option.some.inj h
    refine ⟨isChain_singleton a, fun x hx => ?_, a, [], rfl, laws.refl a⟩
    rwa [List.mem_singleton.mp hx]
  | cons b l ih =>
    have hb := hl b mem_cons_self
    have hrest : ∀ x ∈ l, good x := fun x hx => hl x (mem_cons_of_mem b hx)
    rw [insert] at h
    cases hmeet : meet a b with
    | none =>
      rw [hmeet] at h
      obtain rfl := Option.some.inj h
      refine ⟨List.isChain_cons_cons.mpr ⟨hmeet, hchain⟩, fun x hx => ?_, a, b :: l, rfl,
        laws.refl a⟩
      rcases List.mem_cons.mp hx with rfl | hx
      · exact ha
      · exact hl x hx
    | some result =>
      rw [hmeet] at h
      cases result with
      | none => cases h
      | some pieces =>
        obtain ⟨before, next⟩ := pieces
        obtain ⟨l'', hl'', rfl⟩ := Option.map_eq_some_iff.mp h
        obtain ⟨hbefore, hnext⟩ := laws.good_next ha hb hmeet
        obtain ⟨p, rest, rfl, hstart, hall⟩ := laws.pieces ha hb hmeet
        obtain ⟨hchain', hgood', f, rest', rfl, hf⟩ := ih hnext hrest hchain.tail hl''
        refine ⟨chain_append (hall f hf) hchain', fun x hx => ?_, p, rest ++ f :: rest', rfl, hstart⟩
        rcases List.mem_append.mp hx with hx | hx
        · exact hbefore x hx
        · exact hgood' x hx

/-- The scan handles neighbours of which the second begins a part that is settled, where it handles
every element before the rest of this part. -/
theorem ends_pair (laws : Laws meet good starts) (before : List α) {a b : α} {l : List α}
    (ha : good a) (hb : good b) (hl : ∀ x ∈ l, good x) (hchain : List.IsChain (Apart meet) (b :: l))
    (hrest : ∀ (before : List α) {next : α}, good next →
      Ends meet (before.length + l.length) (before ++ next :: l)
        ((insert meet next l).map fun l' => (before.length, before ++ l'))) :
    Ends meet (before.length + 1) (before ++ a :: b :: l)
      ((insert meet a (b :: l)).map fun l' => (before.length, before ++ l')) := by
  rw [insert]
  cases hmeet : meet a b with
  | none =>
    refine ⟨1, fun fuel => ?_⟩
    rw [Nat.add_comm 1 fuel, scan_pair, hmeet]
    rfl
  | some result =>
    cases result with
    | none =>
      refine ⟨1, fun fuel => ?_⟩
      rw [Nat.add_comm 1 fuel, scan_pair, hmeet]
      rfl
    | some pieces =>
      obtain ⟨mid, next⟩ := pieces
      obtain ⟨-, hnext⟩ := laws.good_next ha hb hmeet
      have hagain : Ends meet (before.length + 1) (before ++ a :: b :: l)
          (some ((before ++ mid).length + l.length, (before ++ mid) ++ next :: l)) := by
        refine ⟨1, fun fuel => ?_⟩
        rw [Nat.add_comm 1 fuel, scan_pair, hmeet]
        rfl
      refine hagain.trans ?_
      have hinsert := hrest (before ++ mid) hnext
      dsimp only
      cases hl' : insert meet next l with
      | none =>
        rw [hl'] at hinsert
        exact hinsert
      | some l' =>
        rw [hl'] at hinsert
        refine hinsert.trans ?_
        obtain ⟨p, rest, rfl, -, hall⟩ := laws.pieces ha hb hmeet
        obtain ⟨-, -, f, rest', rfl, hf⟩ := inserted laws hnext hl hchain.tail hl'
        have hover := ends_over before (p :: rest) rest' f (hall f hf)
        simp only [append_assoc, length_append] at hover ⊢
        exact hover

/-- The scan handles an element before a part that is settled, from the end of this part. -/
theorem ends_insert (laws : Laws meet good starts) (before : List α) {a : α} {l : List α}
    (ha : good a) (hl : ∀ x ∈ l, good x) (hchain : List.IsChain (Apart meet) l) :
    Ends meet (before.length + l.length) (before ++ a :: l)
      ((insert meet a l).map fun l' => (before.length, before ++ l')) := by
  induction l generalizing before a with
  | nil => exact Ends.refl _ _
  | cons b l ih =>
    have hrest : ∀ x ∈ l, good x := fun x hx => hl x (mem_cons_of_mem b hx)
    -- Down to the neighbours `a` and `b`.
    have hdown : Ends meet (before.length + (b :: l).length) (before ++ a :: b :: l)
        (some (before.length + 1, before ++ a :: b :: l)) := by
      obtain ⟨middle, f, hsplit⟩ : ∃ middle f, b :: l = middle ++ [f] :=
        ⟨_, _, (dropLast_append_getLast (cons_ne_nil b l)).symm⟩
      have hover := ends_over (before ++ [a]) middle [] f (hsplit ▸ hchain)
      rw [hsplit]
      simp only [append_assoc, length_append, length_singleton, cons_append,
        nil_append] at hover ⊢
      rwa [Nat.add_comm middle.length 1, ← Nat.add_assoc]
    exact hdown.trans (ends_pair laws before ha (hl b mem_cons_self) hrest hchain
      fun before' _ hnext => ih before' hnext hrest hchain.tail)

/-! ## The whole scan -/

theorem scan_mono {fuel i : Nat} {l m : List α} (h : scan meet fuel i l = some m) (more : Nat) :
    scan meet (fuel + more) i l = some m := by
  induction fuel generalizing i l with
  | zero => cases h
  | succ fuel ih =>
    rw [Nat.add_right_comm]
    rw [scan] at h ⊢
    split
    · rwa [if_pos (by assumption)] at h
    · rw [if_neg (by assumption)] at h
      cases ha : l[i - 1]? with
      | none =>
        rw [ha] at h
        cases h
      | some a =>
        cases hb : l[i]? with
        | none =>
          rw [ha, hb] at h
          cases h
        | some b =>
          rw [ha, hb, bind_some, bind_some] at h
          rw [bind_some, bind_some]
          cases hmeet : meet a b with
          | none =>
            rw [hmeet] at h
            exact ih h
          | some result =>
            rw [hmeet] at h
            cases result with
            | none => cases h
            | some pieces => exact ih h

/-- A settled part is what the scan leaves of the end of a list. -/
theorem ends_settle (laws : Laws meet good starts) (before : List α) {a : α} {l : List α}
    (hl : ∀ x ∈ a :: l, good x) :
    Ends meet (before.length + l.length) (before ++ a :: l)
        ((settle meet (a :: l)).map fun l' => (before.length, before ++ l')) ∧
      ∀ l', settle meet (a :: l) = some l' → Inserted meet good starts a l' := by
  induction l generalizing before a with
  | nil => exact ⟨Ends.refl _ _, fun l' hl' =>
      inserted laws (hl a mem_cons_self) (fun x hx => absurd hx not_mem_nil)
        isChain_nil hl'⟩
  | cons b l ih =>
    have ha := hl a mem_cons_self
    obtain ⟨hends, hinserted⟩ := ih (before ++ [a]) fun x hx => hl x (mem_cons_of_mem a hx)
    rw [settle]
    cases hsettle : settle meet (b :: l) with
    | none =>
      rw [hsettle] at hends
      refine ⟨?_, fun l' hl' => nomatch hl'⟩
      simp only [append_assoc, length_append, cons_append, nil_append,
        length_cons] at hends ⊢
      rwa [Nat.add_comm l.length 1, ← Nat.add_assoc]
    | some l₁ =>
      obtain ⟨hchain, hgood, f, rest, hl₁, -⟩ := hinserted l₁ hsettle
      rw [hsettle] at hends
      rw [bind_some]
      refine ⟨?_, fun l' hl' => inserted laws ha hgood hchain hl'⟩
      have hthere : Ends meet (before.length + (b :: l).length) (before ++ a :: b :: l)
          (some (before.length + 1, before ++ a :: l₁)) := by
        simp only [map_some, append_assoc, length_append, cons_append,
          nil_append, length_cons] at hends ⊢
        rwa [Nat.add_comm l.length 1, ← Nat.add_assoc]
      subst hl₁
      have hrest : ∀ x ∈ rest, good x := fun x hx => hgood x (mem_cons_of_mem f hx)
      exact hthere.trans (ends_pair laws before ha (hgood f mem_cons_self) hrest hchain
        fun before' _ hnext => ends_insert laws before' hnext hrest hchain.tail)

/-- The scan of a list ends with what `settle` gives. -/
theorem scan_settle (laws : Laws meet good starts) {l m : List α} (hl : ∀ x ∈ l, good x)
    (h : settle meet l = some m) : ∃ fuel, scan meet fuel (l.length - 1) l = some m := by
  cases l with
  | nil =>
    obtain rfl := Option.some.inj h
    exact ⟨1, rfl⟩
  | cons a l =>
    obtain ⟨⟨n, hn⟩, -⟩ := ends_settle laws [] hl
    rw [h] at hn
    refine ⟨n + 1, ?_⟩
    have hscan := hn 1
    rwa [length_nil, Nat.zero_add] at hscan

/-- Every scan that ends gives the same. -/
theorem scan_unique {fuel fuel' i : Nat} {l m m' : List α} (h : scan meet fuel i l = some m)
    (h' : scan meet fuel' i l = some m') : m = m' := by
  have hmore := scan_mono h fuel'
  have hmore' := scan_mono h' fuel
  rw [Nat.add_comm fuel' fuel] at hmore'
  exact Option.some.inj (hmore.symm.trans hmore')

/-- Where `settle` gives nothing, no scan ends. -/
theorem scan_eq_none (laws : Laws meet good starts) {l : List α} (hl : ∀ x ∈ l, good x)
    (h : settle meet l = none) (fuel : Nat) : scan meet fuel (l.length - 1) l = none := by
  cases l with
  | nil => cases h
  | cons a l =>
    obtain ⟨⟨n, hn⟩, -⟩ := ends_settle laws [] hl
    rw [h] at hn
    have hscan := hn fuel
    rw [length_nil, Nat.zero_add] at hscan
    by_contra hsome
    obtain ⟨m, hm⟩ := Option.ne_none_iff_exists'.mp hsome
    have hmore := scan_mono hm n
    rw [Nat.add_comm fuel n] at hmore
    exact some_ne_none m (hmore.symm.trans hscan)

end Lib.Restart
