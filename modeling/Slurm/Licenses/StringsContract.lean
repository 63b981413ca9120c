import Slurm.Licenses.StringMerge

/-!
# The contract of license strings

`licenseContract_iff` says exactly for which strings `_build_license_list` stays inside the string,
adds up the counts of each name and nodes, and gets the same list back from what
`license_list_to_string` prints.

A token that ends the string with the `')'` of its nodes leaves it.  An item without nodes is added to
an entry with nodes where that comes first.  A sum of `2 ^ 31` or more is printed, but is negative when
it is read.  A list with one entry is printed without a separator, so `'|'` is lost; and a `'('` in a
name, which is no nodes without `hres`, becomes nodes.

* `buildLicenseList_ok`, `buildLicenseList_error`: the outcome by the tokens of the string.
* `back_of_regular`: what is printed of a list is read again.
-/

namespace Slurm.Licenses

open Lib.Items List Nat

variable {c : Char} {e : ConfEntry} {l : List ConfEntry}

/-- The entries of a list, which may be `NULL`. -/
def entries (list : Option (List ConfEntry)) : List ConfEntry := list.getD []

/-- Each name and nodes of the items has one entry, with the sum of their counts. -/
structure Summed (items : List Item) (l : List ConfEntry) : Prop where
  once : (l.map label).Nodup
  keys : ∀ k, k ∈ l.map label ↔ k ∈ items.map labelOf
  sums : ∀ e ∈ l, e.total.toNat = countOf items (label e)

/-- The contract: the parser stays inside the string; the list that it returns has the sums of the
items; and what is printed of it is read as the same list. -/
structure LicenseContract (s : List Char) (hres : Bool) : Prop where
  inside : buildLicenseList (some s) hres ≠ .error .outside
  sums : ∀ list, buildLicenseList (some s) hres = .ok list →
    ∃ items, (tokens hres (delimOf s)).Lists s items ∧ Summed items (entries list)
  back : ∀ list, buildLicenseList (some s) hres = .ok list →
    ∃ list', buildLicenseList (licenseListToString list) true = .ok list' ∧
      entries list' = entries list

/-- The items that are added up and come back: the first item of a name has no nodes if any has none,
all sums are below `2 ^ 31`, with `'|'` they are not all of one label, and no name has a `'('`. -/
structure Regular (s : List Char) (items : List Item) : Prop where
  plain_first : PlainFirst (items.map labelOf)
  small : ∀ item ∈ items, countOf items (labelOf item) < 2 ^ 31
  several : s.contains '|' = true → ¬ ∃ k, items ≠ [] ∧ ∀ item ∈ items, labelOf item = k
  no_paren : ∀ item ∈ items, '(' ∉ item.name.toList

variable {s : List Char} {hres : Bool} {items : List Item} {list : Option (List ConfEntry)}

/-! ## The outcome -/

/-- The list that the items make. -/
def merged (s : List Char) (items : List Item) : List ConfEntry :=
  items.foldl (addLicense (s.contains '|')) []

theorem head_delimOf (s : List Char) : decide ((delimOf s).head? = some '|') = s.contains '|' := by
  unfold delimOf
  cases s.contains '|' <;> rfl

theorem buildLicenseList_cons {t : List Char} (hmixed : mixed (c :: t) = false) :
    buildLicenseList (some (c :: t)) hres =
      (tokens hres (delimOf (c :: t))).fold (addLicense ((c :: t).contains '|')) (c :: t) [] >>=
        fun l => pure (some l) := by
  show (if mixed (c :: t) = true then _ else _) = _
  rw [hmixed, if_neg Bool.noConfusion, head_delimOf]

theorem buildLicenseList_mixed (hmixed : mixed s = true) :
    buildLicenseList (some s) hres = .error .invalid := by
  cases s with
  | nil => exact Bool.noConfusion hmixed
  | cons c t => exact if_pos hmixed

/-- The items of a string make its list. -/
theorem buildLicenseList_lists (hmixed : mixed s = false)
    (h : (tokens hres (delimOf s)).Lists s items) :
    ∃ list, buildLicenseList (some s) hres = .ok list ∧ entries list = merged s items := by
  cases s with
  | nil =>
    cases h
    exact ⟨none, rfl, rfl⟩
  | cons c t =>
    rw [buildLicenseList_cons hmixed, fold_of_lists h]
    exact ⟨some _, rfl, rfl⟩

theorem buildLicenseList_ok (h : buildLicenseList (some s) hres = .ok list) :
    mixed s = false ∧ ∃ items, (tokens hres (delimOf s)).Lists s items ∧
      entries list = merged s items := by
  have hmixed : mixed s = false := by
    apply Bool.eq_false_of_not_eq_true
    intro hmixed
    rw [buildLicenseList_mixed hmixed] at h
    cases h
  refine ⟨hmixed, ?_⟩
  cases s with
  | nil =>
    cases h
    exact ⟨[], .nil, rfl⟩
  | cons c t =>
    rw [buildLicenseList_cons hmixed] at h
    rcases hfold : (tokens hres (delimOf (c :: t))).fold (addLicense ((c :: t).contains '|'))
        (c :: t) [] with e | l
    · rw [hfold] at h
      cases h
    · rw [hfold] at h
      cases h
      obtain ⟨items, hitems, heq⟩ := fold_eq_ok.mp hfold
      exact ⟨items, hitems, heq.symm⟩

theorem buildLicenseList_error (hmixed : mixed s = false) (e : Fault) :
    buildLicenseList (some s) hres = .error e ↔
      ∃ t, (tokens hres (delimOf s)).Comes s t ∧ readItem hres (delimOf s) t = .error e := by
  cases s with
  | nil =>
    refine iff_of_false (fun h => by cases h) fun h => ?_
    obtain ⟨t, ht, -⟩ := h
    cases ht
  | cons c t =>
    have hfold := @fold_eq_error _ _ _ _ (tokens hres (delimOf (c :: t)))
      (addLicense ((c :: t).contains '|')) (c :: t) e []
    rw [buildLicenseList_cons hmixed]
    refine Iff.trans ?_ hfold
    rcases (tokens hres (delimOf (c :: t))).fold (addLicense ((c :: t).contains '|')) (c :: t) []
      with e' | l
    · constructor
      · intro h
        cases h
        rfl
      · intro h
        cases h
        rfl
    · exact iff_of_false (fun h => by cases h) (fun h => by cases h)

/-- The string is left where the loop comes to a token that ends it with its nodes. -/
theorem outside_iff (hmixed : mixed s = false) :
    buildLicenseList (some s) hres = .error .outside ↔
      ∃ t, (tokens hres (delimOf s)).Comes s t ∧ hres = true ∧ CutOff (delimOf s) t := by
  simp only [buildLicenseList_error hmixed, readItem_eq_outside]

/-! ## The entries of a string -/

theorem labels_merged (s : List Char) (items : List Item) :
    (merged s items).map label = (items.map labelOf).foldl addLabel [] := map_label_foldl _ [] items

theorem unlike_merged (s : List Char) (items : List Item) : Unlike ((merged s items).map label) := by
  rw [labels_merged]
  exact unlike_foldl List.Pairwise.nil _

/-- Without `hres` the string is never left, so the list of a job is always made again, each label
once. -/
theorem licenseJobMerge_ok (licenses : Option (List Char)) :
    ∃ list text, licenseJobMerge licenses = .ok (list, text) ∧
      ((entries list).map label).Nodup := by
  have hinside : buildLicenseList licenses false ≠ .error .outside := by
    rcases licenses with _ | s
    · exact fun h => by cases h
    · cases hmixed : mixed s with
      | true =>
        rw [buildLicenseList_mixed hmixed]
        exact fun h => by cases h
      | false =>
        rw [ne_eq, outside_iff hmixed]
        intro ⟨_, _, hres, _⟩
        exact Bool.noConfusion hres
  unfold licenseJobMerge
  rcases hbuild : buildLicenseList licenses false with (_ | _) | list
  · exact ⟨_, _, rfl, .nil⟩
  · exact absurd hbuild hinside
  · refine ⟨_, _, rfl, ?_⟩
    rcases licenses with _ | s
    · cases hbuild
      exact .nil
    · obtain ⟨-, items, -, hmerged⟩ := buildLicenseList_ok hbuild
      rw [hmerged]
      exact (unlike_merged s items).nodup

/-- An entry has the label of an item. -/
theorem exists_item (he : e ∈ merged s items) : ∃ item ∈ items, labelOf item = label e := by
  have hmem := mem_map_of_mem (f := label) he
  rw [labels_merged] at hmem
  rcases mem_foldl_addLabel hmem with hmem | hmem
  · cases hmem
  · exact List.mem_map.mp hmem

/-- The name and the nodes of an entry are written in the string. -/
theorem merged_written (h : (tokens hres (delimOf s)).Lists s items) (he : e ∈ merged s items) :
    (∀ c ∈ e.name.toList, Plain hres (delimOf s) c ∧ c ∈ s) ∧
      ∀ n, e.nodes = some n → '(' ∈ s ∧ ')' ∉ n.toList ∧ ∀ c ∈ n.toList, c ∈ s := by
  obtain ⟨item, hitem, hlabel⟩ := exists_item he
  have hname : item.name = e.name := congrArg Prod.fst hlabel
  have hnodes : item.nodes = e.nodes := congrArg Prod.snd hlabel
  have hwritten := lists_written h item hitem
  exact ⟨hname ▸ hwritten.name, fun n hn => (hwritten.nodes n (hnodes.trans hn)).2⟩

theorem merged_printable (h : (tokens hres (delimOf s)).Lists s items)
    (hparen : ∀ item ∈ items, '(' ∉ item.name.toList) {e : ConfEntry} (he : e ∈ merged s items) :
    Printable (delimOf s) e := by
  obtain ⟨hname, hnodes⟩ := merged_written h he
  obtain ⟨item, hitem, hlabel⟩ := exists_item he
  have heq : item.name = e.name := congrArg Prod.fst hlabel
  refine ⟨fun c hc => ?_, fun n hn => (hnodes n hn).2.1⟩
  obtain ⟨hspace, -, hinner⟩ := (hname c hc).1
  refine ⟨hspace, fun hopen => ?_, hinner⟩
  exact hparen item hitem (heq ▸ hopen.1 ▸ hc)

/-! ## The text of a list -/

theorem mem_entryText (hc : c ∈ entryText e) :
    c ∈ e.name.toList ∨ (∃ n, e.nodes = some n ∧ (c ∈ n.toList ∨ c = '(' ∨ c = ')')) ∨ c = ':' ∨
      c.isDigit = true := by
  have hdigits : ∀ c ∈ Nat.toDigits 10 e.total.toNat, c.isDigit = true := fun c hc =>
    isDigit_of_mem_toDigits (by decide) (by decide) hc
  unfold entryText at hc
  rcases hnodes : e.nodes with _ | n
  · rw [hnodes] at hc
    rcases List.mem_append.mp hc with hc | hc
    · exact Or.inl hc
    · rcases List.mem_cons.mp hc with rfl | hc
      · exact Or.inr (Or.inr (Or.inl rfl))
      · exact Or.inr (Or.inr (Or.inr (hdigits c hc)))
  · rw [hnodes] at hc
    simp only [mem_append, mem_cons] at hc
    rcases hc with hc | hc | hc | hc | hc | hc
    · exact Or.inl hc
    · exact Or.inr (Or.inl ⟨n, rfl, Or.inr (Or.inl hc)⟩)
    · exact Or.inr (Or.inl ⟨n, rfl, Or.inl hc⟩)
    · exact Or.inr (Or.inl ⟨n, rfl, Or.inr (Or.inr hc)⟩)
    · exact Or.inr (Or.inr (Or.inl hc))
    · exact Or.inr (Or.inr (Or.inr (hdigits c hc)))

theorem mem_joinText {opOr : Bool} (hop : ∀ e ∈ l, e.opOr = opOr) {sep : List Char}
    (hc : c ∈ joinText sep l) :
    c ∈ sep ∨ (∃ e ∈ l, c ∈ entryText e) ∨ c = separator opOr ∧ 2 ≤ l.length := by
  induction l generalizing sep with
  | nil => cases hc
  | cons e l ih =>
    obtain ⟨hor, hrest⟩ := List.forall_mem_cons.mp hop
    rw [joinText_cons hor, mem_append, mem_append] at hc
    rcases hc with hc | hc | hc
    · exact Or.inl hc
    · exact Or.inr (Or.inl ⟨e, mem_cons_self, hc⟩)
    · have hpos : 0 < l.length := length_pos_of_ne_nil fun hnil => by
        rw [hnil] at hc
        cases hc
      rcases ih hrest hc with hc | ⟨e', he', hc⟩ | ⟨hc, -⟩
      · exact Or.inr (Or.inr ⟨List.mem_singleton.mp hc, succ_le_succ hpos⟩)
      · exact Or.inr (Or.inl ⟨e', mem_cons_of_mem _ he', hc⟩)
      · exact Or.inr (Or.inr ⟨hc, succ_le_succ hpos⟩)

/-- Two entries are separated. -/
theorem separator_mem {opOr : Bool} (hop : ∀ e ∈ l, e.opOr = opOr) (hlen : 2 ≤ l.length) :
    separator opOr ∈ joinText [] l := by
  rcases l with _ | ⟨e, _ | ⟨e', l⟩⟩
  · exact absurd hlen (not_succ_le_zero 1)
  · exact absurd hlen (not_succ_le_self 1)
  · obtain ⟨hor, hrest⟩ := List.forall_mem_cons.mp hop
    rw [joinText_cons hor, joinText_cons (List.forall_mem_cons.mp hrest).1]
    simp

/-- A character of the text is one of the string, or one that is printed. -/
theorem mem_text (h : (tokens hres (delimOf s)).Lists s items)
    (hc : c ∈ joinText [] (merged s items)) :
    c ∈ s ∨ (c = '(' ∨ c = ')') ∧ '(' ∈ s ∨ c = ':' ∨ c.isDigit = true ∨
      c = separator (s.contains '|') ∧ 2 ≤ (merged s items).length := by
  have hop : ∀ e ∈ merged s items, e.opOr = s.contains '|' := fun e he => (opOr_foldl _ _ e he).1
  rcases mem_joinText hop hc with hc | ⟨e, he, hc⟩ | hc
  · cases hc
  · obtain ⟨hname, hnodes⟩ := merged_written h he
    rcases mem_entryText hc with hc | ⟨n, hn, hc⟩ | hc | hc
    · exact Or.inl (hname c hc).2
    · rcases hc with hc | hc
      · exact Or.inl ((hnodes n hn).2.2 c hc)
      · exact Or.inr (Or.inl ⟨hc, (hnodes n hn).1⟩)
    · exact Or.inr (Or.inr (Or.inl hc))
    · exact Or.inr (Or.inr (Or.inr (Or.inl hc)))
  · exact Or.inr (Or.inr (Or.inr (Or.inr hc)))

theorem mixed_eq_false : mixed s = false ↔ ('|' ∈ s → ',' ∉ s ∧ ';' ∉ s ∧ '(' ∉ s) := by
  unfold mixed
  simp [and_assoc]

/-- No entry has a `'|'`. -/
theorem bar_entryText (h : (tokens hres (delimOf s)).Lists s items) (hmixed : mixed s = false)
    (he : e ∈ merged s items) : '|' ∉ entryText e := by
  intro hc
  obtain ⟨hname, hnodes⟩ := merged_written h he
  have hbar : '|' ∈ s := by
    rcases mem_entryText hc with hc | ⟨n, hn, hc | hc | hc⟩ | hc | hc
    · exact (hname _ hc).2
    · exact (hnodes n hn).2.2 _ hc
    · exact absurd hc (by decide)
    · exact absurd hc (by decide)
    · exact absurd hc (by decide)
    · exact absurd hc (by decide)
  have hparen := (mixed_eq_false.mp hmixed hbar).2.2
  have hdelim : delimOf s = ['|'] := if_pos (List.contains_iff_mem.mpr hbar)
  rcases mem_entryText hc with hc | ⟨n, hn, -⟩ | hc | hc
  · have hinner := (hname _ hc).1.2.2.2.2
    rw [hdelim] at hinner
    exact absurd hinner (by decide)
  · exact hparen (hnodes n hn).1
  · exact absurd hc (by decide)
  · exact absurd hc (by decide)

/-- The text has a `'|'` just when the string has one and there are two entries. -/
theorem bar_text (h : (tokens hres (delimOf s)).Lists s items) (hmixed : mixed s = false) :
    '|' ∈ joinText [] (merged s items) ↔ '|' ∈ s ∧ 2 ≤ (merged s items).length := by
  have hop : ∀ e ∈ merged s items, e.opOr = s.contains '|' := fun e he => (opOr_foldl _ _ e he).1
  constructor
  · intro hbar
    rcases mem_joinText hop hbar with hbar | ⟨e, he, hbar⟩ | ⟨hbar, hlen⟩
    · cases hbar
    · exact absurd hbar (bar_entryText h hmixed he)
    · refine ⟨?_, hlen⟩
      by_contra hnot
      rw [show s.contains '|' = false by simpa using hnot] at hbar
      exact absurd hbar (by decide)
  · intro ⟨hbar, hlen⟩
    have hsep := separator_mem hop hlen
    rw [show s.contains '|' = true by simpa using hbar] at hsep
    exact hsep

/-- With two entries, if there is a `'|'`, the text has the delimiters of the string. -/
theorem contains_text (h : (tokens hres (delimOf s)).Lists s items) (hmixed : mixed s = false)
    (hlen : s.contains '|' = true → 2 ≤ (merged s items).length) :
    (joinText [] (merged s items)).contains '|' = s.contains '|' := by
  rw [Bool.eq_iff_iff, contains_iff_mem, bar_text h hmixed, contains_iff_mem]
  exact and_iff_left_of_imp fun hbar => hlen (List.contains_iff_mem.mpr hbar)

theorem mixed_text (h : (tokens hres (delimOf s)).Lists s items) (hmixed : mixed s = false) :
    mixed (joinText [] (merged s items)) = false := by
  rw [mixed_eq_false]
  intro hbar
  obtain ⟨hbar, -⟩ := (bar_text h hmixed).mp hbar
  obtain ⟨hcomma, hsemicolon, hparen⟩ := mixed_eq_false.mp hmixed hbar
  have hsep : separator (s.contains '|') = '|' := by
    rw [List.contains_iff_mem.mpr hbar]
    rfl
  have hnot : ∀ c, c ∉ s → c ≠ ':' → c ≠ '|' → c.isDigit = false →
      c ∉ joinText [] (merged s items) := by
    intro c hc hcolon hne hdigit hmem
    rcases mem_text h hmem with hmem | ⟨-, hopen⟩ | hmem | hmem | ⟨hmem, -⟩
    · exact hc hmem
    · exact hparen hopen
    · exact hcolon hmem
    · rw [hdigit] at hmem
      exact Bool.noConfusion hmem
    · exact hne (hmem.trans hsep)
  exact ⟨hnot _ hcomma (by decide) (by decide) (by decide),
    hnot _ hsemicolon (by decide) (by decide) (by decide),
    hnot _ hparen (by decide) (by decide) (by decide)⟩

theorem separator_delimOf (s : List Char) :
    (delimOf s).contains (separator (s.contains '|')) = true := by
  unfold delimOf
  cases s.contains '|' <;> rfl

theorem delimOf_text (h : (tokens hres (delimOf s)).Lists s items) (hmixed : mixed s = false)
    (hlen : s.contains '|' = true → 2 ≤ (merged s items).length) :
    delimOf (joinText [] (merged s items)) = delimOf s := by
  unfold delimOf
  rw [contains_text h hmixed hlen]

/-! ## Reading the text -/

theorem licenseListToString_eq (list : Option (List ConfEntry)) :
    licenseListToString list =
      if entries list = [] then none else some (joinText [] (entries list)) := by
  rcases list with _ | _ | ⟨e, l⟩ <;> rfl

/-- What is printed of a list is read again. -/
theorem back_of_regular (h : (tokens hres (delimOf s)).Lists s items) (hmixed : mixed s = false)
    (hparen : ∀ item ∈ items, '(' ∉ item.name.toList)
    (hlen : s.contains '|' = true → 2 ≤ (merged s items).length)
    (hsmall : ∀ e ∈ merged s items, e.total.toNat < 2 ^ 31) :
    ∃ list', buildLicenseList (some (joinText [] (merged s items))) true = .ok list' ∧
      entries list' = merged s items := by
  have hall := opOr_foldl (s.contains '|') items
  have hlists := lists_joinText (delimiters_delimOf s) (separator_delimOf s) fun e he =>
    ⟨merged_printable h hparen he, (hall e he).1, hsmall e he⟩
  rw [← delimOf_text h hmixed hlen] at hlists
  obtain ⟨list', hbuild, hentries⟩ := buildLicenseList_lists (mixed_text h hmixed) hlists
  refine ⟨list', hbuild, hentries.trans ?_⟩
  show ((merged s items).map itemOf).foldl
    (addLicense ((joinText [] (merged s items)).contains '|')) [] = merged s items
  rw [contains_text h hmixed hlen]
  exact foldl_itemOf (unlike_merged s items) hall

/-- A list with a large count is not. -/
theorem back_of_large (h : (tokens hres (delimOf s)).Lists s items) (hmixed : mixed s = false)
    (hparen : ∀ item ∈ items, '(' ∉ item.name.toList)
    (hlen : s.contains '|' = true → 2 ≤ (merged s items).length)
    (hlarge : ∃ e ∈ merged s items, 2 ^ 31 ≤ e.total.toNat) :
    buildLicenseList (some (joinText [] (merged s items))) true = .error .invalid := by
  have hall := opOr_foldl (s.contains '|') items
  have hcomes := comes_joinText (delimiters_delimOf s) (separator_delimOf s) (fun e he =>
    ⟨merged_printable h hparen he, (hall e he).1⟩) hlarge
  rw [← delimOf_text h hmixed hlen] at hcomes
  exact (buildLicenseList_error (mixed_text h hmixed) .invalid).mpr hcomes

/-! ## Sums -/

/-- The labels of the items and of the entries are the same just when nothing is added to an entry of
another label. -/
theorem keys_iff : (∀ k, k ∈ (merged s items).map label ↔ k ∈ items.map labelOf) ↔
    PlainFirst (items.map labelOf) := by
  rw [labels_merged, ← all_labels_iff]
  constructor
  · intro hkeys b hb
    exact (hkeys b).mpr hb
  · intro hall k
    exact ⟨fun hk => (mem_foldl_addLabel hk).resolve_left not_mem_nil, hall k⟩

theorem summed_of_regular (hregular : Regular s items) : Summed items (merged s items) := by
  refine ⟨(unlike_merged s items).nodup, keys_iff.mpr hregular.plain_first, fun e he => ?_⟩
  obtain ⟨item, hitem, hlabel⟩ := exists_item he
  have hsmall := hregular.small item hitem
  rw [hlabel] at hsmall
  rw [total_foldl _ hregular.plain_first he, UInt32.toNat_ofNat']
  exact mod_eq_of_lt (by omega)

/-- There are two entries, or none, where the items are not all of one label. -/
theorem several_entries (hkeys : ∀ k, k ∈ (merged s items).map label ↔ k ∈ items.map labelOf)
    (hseveral : ¬ ∃ k, items ≠ [] ∧ ∀ item ∈ items, labelOf item = k) (hne : merged s items ≠ []) :
    2 ≤ (merged s items).length := by
  rcases hlist : merged s items with _ | ⟨e, _ | ⟨e', l⟩⟩
  · exact absurd hlist hne
  · refine absurd ⟨label e, fun hnil => ?_, fun item hitem => ?_⟩ hseveral
    · have hmem := (hkeys (label e)).mp (hlist ▸ mem_cons_self)
      rw [hnil] at hmem
      cases hmem
    · have hmem := (hkeys (labelOf item)).mpr (mem_map_of_mem hitem)
      rw [hlist] at hmem
      exact List.mem_singleton.mp hmem
  · exact Nat.le_add_left 2 l.length

/-- Items of one label make one entry. -/
theorem single_entry {k : Label} (hkeys : ∀ k, k ∈ (merged s items).map label ↔ k ∈ items.map labelOf)
    (hne : items ≠ []) (hall : ∀ item ∈ items, labelOf item = k) : ∃ e, merged s items = [e] := by
  have hlabels : ∀ b ∈ (merged s items).map label, b = k := by
    intro b hb
    obtain ⟨item, hitem, heq⟩ := List.mem_map.mp ((hkeys b).mp hb)
    rw [← heq, hall item hitem]
  rcases hlist : merged s items with _ | ⟨e, _ | ⟨e', l⟩⟩
  · obtain ⟨item, hitem⟩ := List.exists_mem_of_ne_nil items hne
    have hmem := (hkeys (labelOf item)).mpr (mem_map_of_mem hitem)
    rw [hlist] at hmem
    cases hmem
  · exact ⟨e, rfl⟩
  · have hnodup := (unlike_merged s items).nodup
    rw [hlist] at hnodup hlabels
    have hsame : label e = label e' :=
      (hlabels _ mem_cons_self).trans (hlabels _ (mem_cons_of_mem _ mem_cons_self)).symm
    exact absurd (hsame ▸ mem_cons_self) (List.nodup_cons.mp hnodup).1

/-! ## The contract -/

/-- What is left of the contract where the string has items. -/
def Holds (s : List Char) (items : List Item) : Prop :=
  Summed items (merged s items) ∧
    (merged s items ≠ [] → ∃ list',
      buildLicenseList (some (joinText [] (merged s items))) true = .ok list' ∧
        entries list' = merged s items)

/-- A list that comes back has no `'('` in a name. -/
theorem no_paren_of_back {t : List Char} {list' : Option (List ConfEntry)}
    (hbuild : buildLicenseList (some t) true = .ok list') (heq : entries list' = l) (he : e ∈ l) :
    '(' ∉ e.name.toList := by
  obtain ⟨-, items', hitems', hentries⟩ := buildLicenseList_ok hbuild
  rw [← heq, hentries] at he
  intro hparen
  exact ((merged_written hitems' he).1 _ hparen).1.2.1 ⟨rfl, rfl⟩

theorem regular_of_holds (h : (tokens hres (delimOf s)).Lists s items) (hmixed : mixed s = false)
    (hholds : Holds s items) : Regular s items := by
  obtain ⟨hsummed, hback⟩ := hholds
  have hentry : ∀ item ∈ items, ∃ e ∈ merged s items, label e = labelOf item := fun item hitem =>
    List.mem_map.mp ((hsummed.keys _).mpr (mem_map_of_mem hitem))
  have hparen : ∀ item ∈ items, '(' ∉ item.name.toList := by
    intro item hitem
    obtain ⟨e, he, hlabel⟩ := hentry item hitem
    obtain ⟨list', hbuild, heq⟩ := hback (ne_nil_of_mem he)
    have hname : e.name = item.name := congrArg Prod.fst hlabel
    exact hname ▸ no_paren_of_back hbuild heq he
  have hseveral : s.contains '|' = true → ¬ ∃ k, items ≠ [] ∧ ∀ item ∈ items, labelOf item = k := by
    intro hbar ⟨k, hne, hall⟩
    obtain ⟨e, hsingle⟩ := single_entry hsummed.keys hne hall
    have he : e ∈ merged s items := hsingle ▸ mem_cons_self
    obtain ⟨list', hbuild, heq⟩ := hback (ne_nil_of_mem he)
    obtain ⟨-, items', -, hentries⟩ := buildLicenseList_ok hbuild
    have hor : e.opOr = true := ((opOr_foldl _ items e he).1).trans hbar
    have hor' : e.opOr = (joinText [] (merged s items)).contains '|' := by
      rw [← heq, hentries] at he
      exact (opOr_foldl _ items' e he).1
    have hmem : '|' ∈ joinText [] (merged s items) :=
      List.contains_iff_mem.mp (hor'.symm.trans hor)
    have hlen := ((bar_text h hmixed).mp hmem).2
    rw [hsingle] at hlen
    exact absurd hlen (not_succ_le_self 1)
  refine ⟨keys_iff.mp hsummed.keys, fun item hitem => ?_, hseveral, hparen⟩
  obtain ⟨e, he, hlabel⟩ := hentry item hitem
  have hne := ne_nil_of_mem he
  rw [← hlabel, ← hsummed.sums e he]
  by_contra hlarge
  obtain ⟨list', hbuild, -⟩ := hback hne
  rw [back_of_large h hmixed hparen
    (fun hbar => several_entries hsummed.keys (hseveral hbar) hne) ⟨e, he, not_lt.mp hlarge⟩] at hbuild
  cases hbuild

theorem holds_of_regular (h : (tokens hres (delimOf s)).Lists s items) (hmixed : mixed s = false)
    (hregular : Regular s items) : Holds s items := by
  have hsummed := summed_of_regular hregular
  refine ⟨hsummed, fun hne => ?_⟩
  refine back_of_regular h hmixed hregular.no_paren
    (fun hbar => several_entries hsummed.keys (hregular.several hbar) hne) fun e he => ?_
  obtain ⟨item, hitem, hlabel⟩ := exists_item he
  rw [hsummed.sums e he, ← hlabel]
  exact hregular.small item hitem

/-- The contract holds exactly for the strings with both operators, which are rejected, and those
where no token ends the string with its nodes and the items, if all can be read, are regular. -/
theorem licenseContract_iff (s : List Char) (hres : Bool) :
    LicenseContract s hres ↔ mixed s = true ∨
      (∀ t, (tokens hres (delimOf s)).Comes s t → ¬ (hres = true ∧ CutOff (delimOf s) t)) ∧
        ∀ items, (tokens hres (delimOf s)).Lists s items → Regular s items := by
  cases hmixed : mixed s with
  | true =>
    have hbuild := @buildLicenseList_mixed s hres hmixed
    refine iff_of_true ⟨?_, fun list hok => ?_, fun list hok => ?_⟩ (Or.inl rfl)
    · rw [hbuild]
      exact fun h => by cases h
    · rw [hbuild] at hok
      cases hok
    · rw [hbuild] at hok
      cases hok
  | false =>
    rw [or_iff_right Bool.noConfusion]
    have hinside : buildLicenseList (some s) hres ≠ .error .outside ↔
        ∀ t, (tokens hres (delimOf s)).Comes s t → ¬ (hres = true ∧ CutOff (delimOf s) t) := by
      rw [ne_eq, outside_iff hmixed]
      simp only [not_exists, not_and]
    constructor
    · intro hcontract
      refine ⟨hinside.mp hcontract.inside, fun items h => regular_of_holds h hmixed ?_⟩
      obtain ⟨list, hbuild, hentries⟩ := buildLicenseList_lists hmixed h
      obtain ⟨items', h', hsummed⟩ := hcontract.sums list hbuild
      rw [h'.unique h, hentries] at hsummed
      refine ⟨hsummed, fun hne => ?_⟩
      obtain ⟨list', hback, heq⟩ := hcontract.back list hbuild
      rw [licenseListToString_eq, hentries, if_neg hne] at hback
      exact ⟨list', hback, heq.trans hentries⟩
    · intro ⟨hplaces, hregular⟩
      refine ⟨hinside.mpr hplaces, fun list hbuild => ?_, fun list hbuild => ?_⟩
      · obtain ⟨-, items, h, hentries⟩ := buildLicenseList_ok hbuild
        rw [hentries]
        exact ⟨items, h, (holds_of_regular h hmixed (hregular items h)).1⟩
      · obtain ⟨-, items, h, hentries⟩ := buildLicenseList_ok hbuild
        have hback := (holds_of_regular h hmixed (hregular items h)).2
        rw [licenseListToString_eq, hentries]
        split
        · rename_i hnil
          exact ⟨none, rfl, hnil.symm⟩
        · rename_i hne
          exact hback hne

/-- `a(n)` ends with the `')'` of its nodes. -/
theorem not_licenseContract_nodes : ¬ LicenseContract "a(n)".toList true := by
  intro h
  have hcut : CutOff [',', ';'] "a(n)".toList := by
    refine .char ⟨by decide, by decide, by decide, by decide, by decide⟩ ?_
    exact .here (n := ['n']) (by decide)
  exact h.inside ((outside_iff (by decide)).mpr ⟨_, .here (by decide), rfl, hcut⟩)

end Slurm.Licenses
