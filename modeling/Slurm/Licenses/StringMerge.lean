import Slurm.Licenses.StringTokens

/-!
# Merging the items of license strings

A label is a name and perhaps nodes.  An item without nodes is added to the first entry of its name,
whether that has nodes or not, so its label is `Hides`-den by any entry of its name.

* `all_labels_iff`: each label of the items has its entry exactly when no item without nodes comes
  after one with nodes of the same name.
* `total_foldl`: then the entries have the sums of the counts.
* `foldl_itemOf`: the items of a merged list make the list again.
-/

namespace Slurm.Licenses

open Lib.FirstMatch List
open Lib.Upsert

/-- A name and nodes. -/
abbrev Label := String × Option String

def label (e : ConfEntry) : Label := (e.name, e.nodes)

def labelOf (item : Item) : Label := (item.name, item.nodes)

/-- An entry with the label `a` is found for an item with the label `b`. -/
def Hides (a b : Label) : Prop := a.1 = b.1 ∧ (b.2 = none ∨ a.2 = b.2)

instance : DecidableRel Hides := fun _ _ => inferInstanceAs (Decidable (_ ∧ _))

/-- The labels after an item. -/
def addLabel (labels : List Label) (b : Label) : List Label :=
  if ∃ a ∈ labels, Hides a b then labels else labels ++ [b]

/-- No label hides a later one. -/
def Unlike (labels : List Label) : Prop := labels.Pairwise fun a b => ¬ Hides a b

/-! ## Labels -/

section Labels

variable {labels bs : List Label} {a b : Label}

theorem hides_refl (a : Label) : Hides a a := ⟨rfl, Or.inr rfl⟩

theorem Unlike.nodup (h : Unlike labels) : labels.Nodup := by
  refine List.Pairwise.imp ?_ h
  intro a b hnot heq
  exact hnot (heq ▸ hides_refl a)

theorem unlike_addLabel (h : Unlike labels) (b : Label) : Unlike (addLabel labels b) := by
  unfold addLabel
  split
  · exact h
  · rename_i hnew
    refine List.pairwise_append.mpr ⟨h, pairwise_singleton _ _, fun a ha c hc hhides => ?_⟩
    rw [List.mem_singleton.mp hc] at hhides
    exact hnew ⟨a, ha, hhides⟩

theorem unlike_foldl (h : Unlike labels) (bs : List Label) : Unlike (bs.foldl addLabel labels) := by
  induction bs generalizing labels with
  | nil => exact h
  | cons b bs ih => exact ih (unlike_addLabel h b)

theorem mem_addLabel (h : a ∈ addLabel labels b) : a ∈ labels ∨ a = b := by
  unfold addLabel at h
  split at h
  · exact Or.inl h
  · rcases List.mem_append.mp h with h | h
    · exact Or.inl h
    · exact Or.inr (List.mem_singleton.mp h)

theorem mem_foldl_addLabel (h : a ∈ bs.foldl addLabel labels) : a ∈ labels ∨ a ∈ bs := by
  induction bs generalizing labels with
  | nil => exact Or.inl h
  | cons b bs ih =>
    rcases ih h with h | h
    · rcases mem_addLabel h with h | rfl
      · exact Or.inl h
      · exact Or.inr mem_cons_self
    · exact Or.inr (mem_cons_of_mem _ h)

theorem subset_addLabel (labels : List Label) (b : Label) : labels ⊆ addLabel labels b := by
  unfold addLabel
  split
  · exact fun a ha => ha
  · exact fun a ha => mem_append_left _ ha

theorem subset_foldl (labels bs : List Label) : labels ⊆ bs.foldl addLabel labels := by
  induction bs generalizing labels with
  | nil => exact fun a ha => ha
  | cons b bs ih => exact fun a ha => ih _ (subset_addLabel labels b ha)

/-- Each label is hidden by one of the result. -/
theorem exists_hides (hb : b ∈ bs) (labels : List Label) :
    ∃ a ∈ bs.foldl addLabel labels, Hides a b := by
  induction bs generalizing labels with
  | nil => cases hb
  | cons c bs ih =>
    rcases List.mem_cons.mp hb with rfl | hb
    · have hnow : ∃ a ∈ addLabel labels b, Hides a b := by
        unfold addLabel
        split
        · rename_i hfound
          exact hfound
        · exact ⟨b, mem_append_right _ mem_cons_self, hides_refl b⟩
      obtain ⟨a, ha, hhides⟩ := hnow
      exact ⟨a, subset_foldl _ bs ha, hhides⟩
    · exact ih hb (addLabel labels c)

/-- The first label of a name is the first one of all. -/
theorem find_foldl (bs labels : List Label) (n : String) :
    (bs.foldl addLabel labels).find? (·.1 == n) =
      (labels.find? (·.1 == n)).or (bs.find? (·.1 == n)) := by
  induction bs generalizing labels with
  | nil => simp
  | cons b bs ih =>
    rw [foldl_cons, ih]
    unfold addLabel
    split
    · rename_i hfound
      obtain ⟨a, ha, hname, -⟩ := hfound
      by_cases hb : b.1 = n
      · have hsome : (labels.find? (·.1 == n)).isSome = true := by
          rw [find?_isSome]
          exact ⟨a, ha, beq_iff_eq.mpr (hname.trans hb)⟩
        obtain ⟨first, hfirst⟩ := Option.isSome_iff_exists.mp hsome
        rw [hfirst]
        rfl
      · rw [find?_cons_of_neg (by simpa using hb)]
    · rw [find?_append, Option.or_assoc]
      congr 1
      by_cases hb : b.1 = n
      · simp [hb]
      · simp [hb]

/-- A name without nodes is not hidden by an earlier label, so it is the first of its name. -/
theorem find_of_unlike {n : String} (h : Unlike labels) (hmem : (n, none) ∈ labels) :
    labels.find? (·.1 == n) = some (n, none) := by
  induction labels with
  | nil => cases hmem
  | cons a labels ih =>
    have hpair := List.pairwise_cons.mp h
    by_cases hname : a.1 = n
    · rw [find?_cons_of_pos (by simpa using hname)]
      rcases List.mem_cons.mp hmem with heq | hmem
      · rw [heq]
      · exact absurd ⟨hname, Or.inl rfl⟩ (hpair.1 _ hmem)
    · have hne : (n, none) ≠ a := fun heq => hname (heq ▸ rfl)
      rw [find?_cons_of_neg (by simpa using hname)]
      exact ih hpair.2 ((List.mem_cons.mp hmem).resolve_left hne)

/-- Where there is an item without nodes, the first one of its name has no nodes either. -/
def PlainFirst (bs : List Label) : Prop :=
  ∀ n, (n, none) ∈ bs → bs.find? (·.1 == n) = some (n, none)

theorem all_labels_iff : (∀ b ∈ bs, b ∈ bs.foldl addLabel []) ↔ PlainFirst bs := by
  constructor
  · intro h n hn
    have hfirst := find_of_unlike (unlike_foldl List.Pairwise.nil bs) (h _ hn)
    rw [find_foldl] at hfirst
    exact hfirst
  · intro h b hb
    obtain ⟨n, nodes⟩ := b
    cases nodes with
    | none =>
      have hfirst := find_foldl bs [] n
      rw [h n hb] at hfirst
      exact mem_of_find?_eq_some hfirst
    | some m =>
      obtain ⟨a, ha, hname, hnodes⟩ := exists_hides hb []
      have heq : a = (n, some m) := Prod.ext hname (hnodes.resolve_left (by simp))
      exact heq ▸ ha

theorem PlainFirst.of_append {cs : List Label} (h : PlainFirst (bs ++ cs)) : PlainFirst bs := by
  intro n hn
  have hfirst := h n (mem_append_left _ hn)
  have hsome : (bs.find? (·.1 == n)).isSome = true := by
    rw [find?_isSome]
    exact ⟨_, hn, beq_self_eq_true n⟩
  obtain ⟨first, hfound⟩ := Option.isSome_iff_exists.mp hsome
  rw [find?_append, hfound] at hfirst
  exact hfound.trans hfirst

end Labels

/-! ## Entries -/

variable {l : List ConfEntry} {item : Item} {items : List Item} {opOr : Bool}

theorem findItem_iff (item : Item) (e : ConfEntry) :
    findItem item e = true ↔ Hides (label e) (labelOf item) := by
  unfold findItem Hides label labelOf
  cases item.nodes with
  | none => simp [findRec]
  | some nodes => simp [findRecByNodes]

theorem any_findItem (l : List ConfEntry) (item : Item) :
    l.any (findItem item) = true ↔ ∃ a ∈ l.map label, Hides a (labelOf item) := by
  simp [any_eq_true, findItem_iff]

theorem map_label_addLicense (opOr : Bool) (l : List ConfEntry) (item : Item) :
    (addLicense opOr l item).map label = addLabel (l.map label) (labelOf item) := by
  have hany := any_findItem l item
  unfold addLicense addLabel
  by_cases hfound : ∃ a ∈ l.map label, Hides a (labelOf item)
  · rw [if_pos hfound, if_pos (hany.mpr hfound)]
    refine map_modifyFirst ?_ l
    intro e _
    rfl
  · rw [if_neg hfound, if_neg (fun h => hfound (hany.mp h)), map_append]
    rfl

/-- The labels of a merged list are those of the items. -/
theorem map_label_foldl (opOr : Bool) (l : List ConfEntry) (items : List Item) :
    (items.foldl (addLicense opOr) l).map label =
      (items.map labelOf).foldl addLabel (l.map label) := by
  induction items generalizing l with
  | nil => rfl
  | cons item items ih => rw [foldl_cons, ih, map_label_addLicense, map_cons, foldl_cons]

/-- What is the same in all entries of a list. -/
theorem forall_addLicense {P : ConfEntry → Prop}
    (htotal : ∀ (e : ConfEntry) (total : UInt32), P e → P { e with total := total })
    (hnew : ∀ (item : Item) (num : UInt32), P ⟨item.name, item.nodes, opOr, num, 0⟩)
    (h : ∀ e ∈ l, P e) (item : Item) : ∀ e ∈ addLicense opOr l item, P e := by
  intro e he
  unfold addLicense at he
  dsimp only at he
  split at he
  · rcases mem_modifyFirst he with he | ⟨a, ha, -, rfl⟩
    · exact h e he
    · exact htotal a _ (h a ha)
  · rcases List.mem_append.mp he with he | he
    · exact h e he
    · rw [List.mem_singleton.mp he]
      exact hnew item _

/-- Each entry has the operator of the string. -/
theorem opOr_foldl (opOr : Bool) (items : List Item) :
    ∀ e ∈ items.foldl (addLicense opOr) [], e.opOr = opOr ∧ e.mode = 0 := by
  have hmore : ∀ l : List ConfEntry, (∀ e ∈ l, e.opOr = opOr ∧ e.mode = 0) →
      ∀ e ∈ items.foldl (addLicense opOr) l, e.opOr = opOr ∧ e.mode = 0 := by
    induction items with
    | nil => exact fun l h => h
    | cons item items ih =>
      exact fun l h => ih _ (forall_addLicense (fun _ _ h => h) (fun _ _ => ⟨rfl, rfl⟩) h item)
  exact hmore [] fun e he => absurd he not_mem_nil

/-- The items of a merged list make the list again. -/
theorem foldl_itemOf (hlabels : Unlike (l.map label)) (hop : ∀ e ∈ l, e.opOr = opOr ∧ e.mode = 0) :
    (l.map itemOf).foldl (addLicense opOr) [] = l := by
  have hmore : ∀ l' : List ConfEntry, Unlike ((l' ++ l).map label) →
      (l.map itemOf).foldl (addLicense opOr) l' = l' ++ l := by
    induction l with
    | nil => simp
    | cons e l ih =>
      intro l' h
      obtain ⟨⟨hor, hmode⟩, hrest⟩ := List.forall_mem_cons.mp hop
      rw [map_append, map_cons] at h
      have hpair := List.pairwise_append.mp h
      have hnew : ¬ l'.any (findItem (itemOf e)) = true := by
        rw [any_findItem]
        intro ⟨a, ha, hhides⟩
        exact hpair.2.2 a ha (label e) mem_cons_self hhides
      have hentry : (⟨e.name, e.nodes, opOr, UInt32.ofNat e.total.toNat, 0⟩ : ConfEntry) = e := by
        rw [UInt32.ofNat_toNat, ← hor, ← hmode]
      have hadd : addLicense opOr l' (itemOf e) = l' ++ [e] := by
        unfold addLicense
        rw [if_neg hnew]
        exact congrArg (fun x => l' ++ [x]) hentry
      have hcons := ih (List.pairwise_cons.mp hpair.2.1).2 hrest (l' ++ [e]) (by simpa using h)
      rw [map_cons, foldl_cons, hadd, hcons]
      simp
  exact hmore [] hlabels

/-! ## Counts -/

/-- The sum of the counts that items say for a label. -/
def countOf (items : List Item) (k : Label) : Nat :=
  ((items.filter fun item => labelOf item = k).map fun item => item.num.toNat).sum

/-- An entry as a label and its count. -/
def counted (e : ConfEntry) : Label × UInt32 := (label e, e.total)

/-- An item as a label and its count. -/
def countedItem (item : Item) : Label × UInt32 := (labelOf item, UInt32.ofNat item.num.toNat)

/-- Where the first entry of the name has no nodes, a count is added to its own label. -/
theorem counted_addLicense (opOr : Bool) (hfirst : item.nodes = none →
    ∀ a, (l.map label).find? (·.1 == item.name) = some a → a.2 = none) :
    (addLicense opOr l item).map counted =
      upsert (· + ·) (l.map counted) (countedItem item) := by
  have hkeys : (l.map counted).map Prod.fst = l.map label := by
    rw [map_map]
    rfl
  -- among the entries that are found, the first one has the label of the item
  have hlabel : ∀ e ∈ l, decide (label e = labelOf item) = true → findItem item e = true := by
    intro e _ heq
    rw [findItem_iff, of_decide_eq_true heq]
    exact hides_refl _
  have hfound : ∀ e, l.find? (findItem item) = some e → decide (label e = labelOf item) = true := by
    intro e he
    have hhides := (findItem_iff item e).mp (find?_some he)
    cases hnodes : item.nodes with
    | some n =>
      have hsame := hhides.2.resolve_left (by simp [labelOf, hnodes])
      exact decide_eq_true (Prod.ext hhides.1 hsame)
    | none =>
      have hname : ∀ e, findItem item e = ((label e).1 == item.name) := by
        intro e
        unfold findItem
        rw [hnodes]
        rfl
      have hfind : (l.map label).find? (·.1 == item.name) = some (label e) := by
        rw [find?_map]
        have hsame : findItem item = (fun a : Label => a.1 == item.name) ∘ label := funext hname
        rw [← hsame, he]
        rfl
      have hnone := hfirst hnodes _ hfind
      exact decide_eq_true (Prod.ext hhides.1 (hnone.trans hnodes.symm))
  have hmem : l.any (findItem item) = true ↔ (countedItem item).1 ∈ (l.map counted).map Prod.fst := by
    rw [hkeys, any_eq_true]
    constructor
    · intro ⟨e, he, hitem⟩
      have hsome : (l.find? (findItem item)).isSome = true := List.find?_isSome.mpr ⟨e, he, hitem⟩
      obtain ⟨first, hfirst'⟩ := Option.isSome_iff_exists.mp hsome
      rw [show (countedItem item).1 = label first from
        (of_decide_eq_true (hfound first hfirst')).symm]
      exact mem_map_of_mem (mem_of_find?_eq_some hfirst')
    · intro h
      obtain ⟨e, he, heq⟩ := List.mem_map.mp h
      exact ⟨e, he, hlabel e he (decide_eq_true heq)⟩
  unfold addLicense upsert
  by_cases hany : l.any (findItem item) = true
  · rw [if_pos (hmem.mp hany)]
    dsimp only
    rw [if_pos hany, modifyFirst_congr hlabel hfound]
    refine map_modifyFirst_image (g := counted) (q := fun a => decide (a.1 = labelOf item))
      (k := fun a => (a.1, a.2 + UInt32.ofNat item.num.toNat)) ?_ ?_ l
    · intro e
      rfl
    · intro e
      rfl
  · rw [if_neg fun h => hany (hmem.mpr h)]
    dsimp only
    rw [if_neg hany, map_append]
    rfl

/-- All counts are added to their own labels. -/
theorem counted_foldl (opOr : Bool) (h : PlainFirst (items.map labelOf)) :
    (items.foldl (addLicense opOr) []).map counted =
      (items.map countedItem).foldl (upsert (· + ·)) [] := by
  induction items using List.reverseRecOn with
  | nil => rfl
  | append_singleton items item ih =>
    rw [map_append] at h
    rw [foldl_append, map_append, foldl_append, ← ih h.of_append]
    refine counted_addLicense opOr fun hnodes a ha => ?_
    rw [map_label_foldl, map_nil, find_foldl] at ha
    have hplain := h item.name (mem_append_right _ (by simp [labelOf, hnodes]))
    rw [find?_append, show (items.map labelOf).find? (·.1 == item.name) = some a from ha] at hplain
    exact congrArg Prod.snd (Option.some.inj hplain)

/-- An entry has the sum of the counts of its label. -/
theorem total_foldl (opOr : Bool) (h : PlainFirst (items.map labelOf)) {e : ConfEntry}
    (he : e ∈ items.foldl (addLicense opOr) []) :
    e.total = UInt32.ofNat (countOf items (label e)) := by
  have hlabels := map_label_foldl opOr [] items
  have hkeys : ((items.foldl (addLicense opOr) []).map counted).map Prod.fst =
      (items.foldl (addLicense opOr) []).map label := by
    rw [map_map]
    rfl
  have hnodup : (((items.foldl (addLicense opOr) []).map counted).map Prod.fst).Nodup := by
    rw [hkeys, hlabels]
    exact (unlike_foldl List.Pairwise.nil _).nodup
  have hlookup := lookup_of_mem hnodup (mem_map_of_mem he)
  have hitems : items.map countedItem =
      (items.map fun item => (labelOf item, item.num.toNat)).map
        fun a => (a.1, UInt32.ofNat a.2) := by
    rw [map_map]
    rfl
  have hadd : ∀ a b : Nat, UInt32.ofNat a + UInt32.ofNat b = UInt32.ofNat (a + b) := fun a b =>
    (UInt32.ofNat_add a b).symm
  rw [counted_foldl opOr h, hitems, lookup_foldl_upsert_sum hadd] at hlookup
  split at hlookup
  · have htotal := (Option.some.inj hlookup).symm
    rw [filter_map, map_map] at htotal
    exact htotal
  · cases hlookup

end Slurm.Licenses
