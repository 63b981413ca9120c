import Slurm.Hostlist.SplitNames

/-!
# The branches share the hosts of a list

* `Ready.splitLoop`: the branches are lists of the names that are taken, one chunk each.
* `flatMap_shown_iff`: the names that are taken are the hosts of the list, where none is cut or lost.
* `splitContract_iff`: the branches share the hosts of a list exactly when the products of
  `_set_span` fit in an `int`, no name is cut and no name ends in `ULONG_MAX` or more.
-/

namespace Slurm.Hostlist

open Lib.Decimal List Option
open Lib.FullTree (full)

variable {hl : HostList} {hr : HostRange} {m n : Nat} {name : List Char} {names : List (List Char)}
  {spans : List Nat} {l : List HostRange}

/-! ## The loop over the branches -/

/-- The names are taken in chunks, or there are not enough of them. -/
theorem Ready.splitLoop (h : Ready hl m names) (hplain : ∀ name ∈ names, Plain name)
    (hsum : spans.sum = m) (hpos : ∀ s ∈ spans, 0 < s) :
    (m ≤ names.length → ∃ hl', splitLoop spans hl =
        some ((spans.splitLengths names).map built, hl') ∧ Ready hl' 0 (names.drop m)) ∧
      (names.length < m → splitLoop spans hl = none) := by
  induction spans generalizing hl m names with
  | nil =>
    obtain rfl := hsum
    exact ⟨fun _ => ⟨hl, rfl, h⟩, fun hlt => absurd hlt (Nat.not_lt_zero _)⟩
  | cons s spans ih =>
    obtain ⟨s, rfl⟩ : ∃ s', s = s' + 1 := ⟨s - 1, by have := hpos s mem_cons_self; omega⟩
    rw [sum_cons] at hsum
    obtain ⟨m, rfl⟩ : ∃ m', m = m' + 1 := ⟨m - 1, by omega⟩
    rw [Hostlist.splitLoop]
    cases names with
    | nil =>
      refine ⟨fun hle => absurd hle (Nat.not_succ_le_zero m), fun _ => ?_⟩
      rw [h.shift_none, bind_none]
    | cons x names =>
      obtain ⟨hl', hshift, h'⟩ := h.shift
      have hx := hplain x mem_cons_self
      have hrest : ∀ name ∈ names.drop s, Plain name :=
        fun name hname => hplain name (mem_cons_of_mem x (mem_of_mem_drop hname))
      rw [hshift, bind_some]
      dsimp only
      rw [hostlistCreate_plain hx, bind_some, Nat.add_sub_cancel]
      obtain ⟨hsome, hnone⟩ := h'.pushRest (show s ≤ m by omega) (built [x])
      rw [length_cons]
      rcases Nat.lt_or_ge names.length s with hfew | henough
      · refine ⟨fun hle => absurd hle (by omega), fun _ => ?_⟩
        rw [hnone hfew, bind_none]
      · obtain ⟨hl'', hpush, h''⟩ := hsome henough
        have hbranch : (names.take s).foldl hostlistPushHost (built [x]) = built (x :: names.take s) := rfl
        obtain ⟨hsome', hnone'⟩ := ih h'' hrest (by omega) fun t ht => hpos t (mem_cons_of_mem _ ht)
        rw [length_drop] at hsome' hnone'
        rw [hpush, bind_some]
        dsimp only
        rw [hbranch]
        constructor
        · intro hle
          obtain ⟨last, hloop, hlast⟩ := hsome' (by omega)
          refine ⟨last, ?_, ?_⟩
          · rw [hloop, map_some, splitLengths_cons, take_succ_cons,
              drop_succ_cons, map_cons]
          · rw [drop_drop] at hlast
            rwa [drop_succ_cons, show m = s + (m - s) by omega]
        · intro hlt
          rw [hnone' (by omega), map_none]

/-! ## Names that are cut or lost -/

theorem shown_length_le (h : hr.Wf) (hsize : hr.size < 2 ^ 31) : hr.shown.length ≤ hr.hosts.length := by
  rw [HostRange.shown, length_map]
  split
  · rw [length_hosts h hsize]
    exact h.size_pos
  · exact le_refl _

theorem mem_hosts_cut {name : List Char} (h : hr.Wf) (hsize : hr.size < 2 ^ 31) (hname : name ∈ hr.shown) :
    ∃ host ∈ hr.hosts, name = hr.cut host := by
  rw [HostRange.shown] at hname
  obtain ⟨host, hhost, rfl⟩ := List.mem_map.mp hname
  refine ⟨host, ?_, rfl⟩
  split at hhost
  · rw [List.mem_singleton.mp hhost, HostRange.hosts]
    refine mem_map_of_mem (List.mem_range.mpr ?_)
    rw [count_toNat h hsize]
    exact h.size_pos
  · exact hhost

theorem Plain.cut (h : Plain name) (hr : HostRange) : Plain (hr.cut name) := by
  rw [HostRange.cut]
  split
  · exact h
  · refine ⟨fun c hc => h.noSpace c (mem_of_mem_take hc), fun hc => h.comma (mem_of_mem_take hc),
      fun hc => h.bracket (mem_of_mem_take hc), ?_⟩
    rw [Ne.eq_def, take_eq_nil_iff, not_or]
    exact ⟨by omega, h.ne_nil⟩

theorem value_le_append (s t : List Char) : value t ≤ value (s ++ t) := by
  rw [value_eq_number, value_eq_number]
  induction s with
  | nil => exact le_refl _
  | cons c s ih =>
    rw [cons_append, map_cons, Lib.Positional.number]
    omega

/-- A name ends in a number that is not less than one at its end. -/
theorem value_le_suffixNumber (p : List Char) {rest : List Char} (h : ∀ c ∈ rest, c.isDigit = true) :
    value rest ≤ suffixNumber (p ++ rest) := by
  have htake : (p ++ rest).reverse.takeWhile Char.isDigit
      = rest.reverse ++ p.reverse.takeWhile Char.isDigit := by
    rw [reverse_append, takeWhile_append_of_pos fun c hc => h c (List.mem_reverse.mp hc)]
  have hend : hostPrefixEnd (p ++ rest) = hostPrefixEnd p := by
    rw [hostPrefixEnd, htake, hostPrefixEnd, length_append, length_append, length_reverse]
    omega
  rw [suffixNumber, hend, drop_append_of_le_length (hostPrefixEnd_le p)]
  exact value_le_append _ _

/-- All the names of a range are returned whole, where the last one fits in the buffer. -/
theorem shown_eq_hosts (h : hr.Wf) (hsize : hr.size < 2 ^ 31)
    (hmax : hr.singlehost = false → hr.hi ≠ -1)
    (hfits : hr.singlehost = false → numDigits hr.hi.toNat ≤ hr.width + 15) : hr.shown = hr.hosts := by
  rw [HostRange.shown, if_neg fun hboth => hmax hboth.1 hboth.2]
  refine (map_congr_left fun name hname => ?_).trans (map_id _)
  rw [HostRange.cut]
  split
  · rfl
  · rename_i hs
    have hs := Bool.eq_false_iff.mpr hs
    obtain ⟨n, -, hn, rfl⟩ := (mem_hosts_iff h hsize hs).mp hname
    have hmono := numDigits_mono hn
    have hlast := hfits hs
    rw [take_of_length_le]
    · rfl
    · rw [HostRange.numbered, length_append, length_padded]
      omega

theorem digits_of_shown_eq (h : hr.Wf) (hsize : hr.size < 2 ^ 31) (hs : hr.singlehost = false)
    (hshown : hr.shown = hr.hosts) : numDigits hr.hi.toNat ≤ hr.width + 15 := by
  have hlast : hr.numbered hr.hi.toNat ∈ hr.shown := by
    rw [hshown]
    exact (mem_hosts_iff h hsize hs).mpr ⟨_, h.le, le_refl _, rfl⟩
  obtain ⟨host, -, hcut⟩ := mem_hosts_cut h hsize hlast
  have hlen := congrArg List.length hcut
  rw [HostRange.cut, if_neg (by rw [hs]; exact Bool.false_ne_true), HostRange.numbered,
    length_append, length_padded, length_take] at hlen
  omega

/-- Lists in place of elements that are not longer are the same lists where the whole is the same. -/
theorem flatMap_eq_of_length_le {α β : Type} {f g : α → List β} {l : List α}
    (hle : ∀ x ∈ l, (f x).length ≤ (g x).length) (heq : l.flatMap f = l.flatMap g) :
    ∀ x ∈ l, f x = g x := by
  induction l with
  | nil => exact fun x hx => absurd hx not_mem_nil
  | cons a l ih =>
    have hrest : ∀ x ∈ l, (f x).length ≤ (g x).length := fun x hx => hle x (mem_cons_of_mem a hx)
    have hrestle : (l.flatMap f).length ≤ (l.flatMap g).length := by
      rw [length_flatMap, length_flatMap]
      exact sum_le_sum hrest
    have hfirst := hle a mem_cons_self
    rw [flatMap_cons, flatMap_cons] at heq
    have hlen := congrArg List.length heq
    rw [length_append, length_append] at hlen
    obtain ⟨hhead, htail⟩ := append_inj heq (by omega)
    intro x hx
    rcases List.mem_cons.mp hx with rfl | hx
    · exact hhead
    · exact ih hrest htail x hx

/-! ## Every list -/

/-- The names of a range are host names, where its prefix has no separator and no bracket. -/
theorem plain_hosts (h : hr.Wf) (hsize : hr.size < 2 ^ 31) (hs : hr.singlehost = false)
    (hspace : NoSpace hr.hostPrefix) (hcomma : ',' ∉ hr.hostPrefix) (hbracket : '[' ∉ hr.hostPrefix) :
    ∀ name ∈ hr.hosts, Plain name := by
  intro name hname
  obtain ⟨n, -, -, rfl⟩ := (mem_hosts_iff h hsize hs).mp hname
  obtain ⟨hne, hdigits⟩ := isNumber_padded hr.width n
  refine ⟨fun c hc => ?_, fun hc => ?_, fun hc => ?_, fun hnil => ?_⟩
  · rcases List.mem_append.mp hc with hc | hc
    · exact hspace c hc
    · exact not_isSpace (hdigits c hc)
  · rcases List.mem_append.mp hc with hc | hc
    · exact hcomma hc
    · exact absurd (hdigits _ hc) (by decide)
  · rcases List.mem_append.mp hc with hc | hc
    · exact hbracket hc
    · exact absurd (hdigits _ hc) (by decide)
  · exact hne (List.append_eq_nil_iff.mp hnil).2

/-- A list of host names and a width for the tree. -/
structure SplitInput extends Listed where
  treeWidth : Nat
  ne_nil : hr ≠ []
  width_pos : 1 ≤ treeWidth
  width_le : treeWidth ≤ 65535
  plain : ∀ name ∈ toHostList.expansion, Plain name

/-- What is promised of the branches and of what is left. -/
structure SplitOf (conf : Nat) (i : SplitInput) (branches : List HostList) (rest : HostList) : Prop where
  emptied : rest = ⟨[], 0⟩
  length_eq : branches.length = min (sizes i.hr) i.treeWidth
  nonempty : ∀ b ∈ branches, b.expansion ≠ [] ∧ ∀ hr ∈ b.hr, hr.empty = false
  expansion : branches.flatMap HostList.expansion = i.expansion
  spans : i.treeWidth < sizes i.hr → ∃ depth span,
    setSpan conf (sizes i.hr) i.treeWidth = some (depth, some span) ∧
      branches.map (fun b => b.expansion.length) = span ∧ span.sum = sizes i.hr ∧
        ∃ d, (∀ n ∈ span, full i.treeWidth d ≤ n ∧ n ≤ full i.treeWidth (d + 1)) ∧
          ∀ m ∈ span, ∀ n ∈ span, m ≤ n + i.treeWidth ^ (d + 1)

/-- What is promised of `hostlist_split_treewidth`: no product overflows, and it splits the list. -/
def SplitContract (conf : Nat) (i : SplitInput) : Prop :=
  ∃ depth branches rest, hostlistSplitTreewidth conf i.toHostList i.treeWidth = some (depth, branches, rest) ∧
    SplitOf conf i branches rest

/-- What the code relies on: a buffer that has room for the names, names that end in numbers below
`ULONG_MAX`, and products that fit in an `int`. -/
structure SplitFits (i : SplitInput) : Prop where
  printed : ∀ hr ∈ i.hr, hr.singlehost = false → numDigits hr.hi.toNat ≤ hr.width + 15
  number : ∀ name ∈ i.expansion, suffixNumber name < 2 ^ 64 - 1
  span : SpanFits i.treeWidth (sizes i.hr)

namespace SplitInput

variable (i : SplitInput)

theorem good : ∀ hr ∈ i.hr, hr.Wf ∧ hr.size < 2 ^ 31 :=
  fun hr hmem => ⟨i.ranges.wf hr hmem, Nat.lt_of_le_of_lt (size_le_sizes hmem) i.ranges.sizes_lt⟩

theorem ready : Ready i.toHostList (sizes i.hr) (i.hr.flatMap HostRange.shown) :=
  ⟨i.good, i.nhosts_eq, i.ranges.sizes_lt, rfl⟩

theorem pos : 1 ≤ sizes i.hr := by
  obtain ⟨hr, rest, hranges⟩ := exists_cons_of_ne_nil i.ne_nil
  have hpos := (i.ranges.wf hr (by rw [hranges]; exact mem_cons_self)).size_pos
  rw [hranges, sizes_cons]
  omega

theorem toInt_nhosts : i.nhosts.toInt = sizes i.hr := by
  have hlt := i.ranges.sizes_lt
  rw [i.nhosts_eq, BitVec.toInt_eq_toNat_cond, BitVec.toNat_ofNat]
  split <;> omega

theorem plain_shown : ∀ name ∈ i.hr.flatMap HostRange.shown, Plain name := by
  intro name hname
  obtain ⟨hr, hmem, hname⟩ := List.mem_flatMap.mp hname
  obtain ⟨hwf, hsize⟩ := i.good hr hmem
  obtain ⟨host, hhost, rfl⟩ := mem_hosts_cut hwf hsize hname
  exact (i.plain host (List.mem_flatMap.mpr ⟨hr, hmem, hhost⟩)).cut hr

theorem length_shown_le : (i.hr.flatMap HostRange.shown).length ≤ sizes i.hr := by
  rw [← length_expansion i.ranges, length_flatMap, length_flatMap]
  exact sum_le_sum fun hr hmem => shown_length_le (i.good hr hmem).1 (i.good hr hmem).2

/-- All the names are in the chunks. -/
theorem flatten_chunks (hsum : spans.sum = sizes i.hr) :
    (spans.splitLengths (i.hr.flatMap HostRange.shown)).flatten = i.hr.flatMap HostRange.shown :=
  flatten_splitLengths _ _ (hsum ▸ i.length_shown_le)

theorem chunk (hsum : spans.sum = sizes i.hr) {c : List (List Char)}
    (hc : c ∈ spans.splitLengths (i.hr.flatMap HostRange.shown)) :
    (∀ name ∈ c, name ∈ i.hr.flatMap HostRange.shown) ∧ c.length < 2 ^ 31 := by
  have hsublist := sublist_flatten_of_mem hc
  rw [i.flatten_chunks hsum] at hsublist
  exact ⟨fun name hname => hsublist.mem hname,
    Nat.lt_of_le_of_lt (hsublist.length_le.trans i.length_shown_le) i.ranges.sizes_lt⟩

/-- The products fit where the hosts are reached directly. -/
theorem spanFits_direct {w N : Nat} (hw : 0 < w) (h : N ≤ w) : SpanFits w N := by
  intro k hk
  have hmono := Lib.FullTree.full_mono hw (Nat.le_add_left 1 k)
  have hone : full w 1 = 1 + w * 1 := rfl
  omega

/-- The hosts of the branches. -/
structure Spans (conf : Nat) (i : SplitInput) (depth : Int) (spans : List Nat) : Prop where
  split : hostlistSplitTreewidth conf i.toHostList i.treeWidth =
    (splitLoop spans i.toHostList).map fun p => (depth, p.1, p.2)
  length_eq : spans.length = min (sizes i.hr) i.treeWidth
  sum_eq : spans.sum = sizes i.hr
  pos : ∀ s ∈ spans, 0 < s
  filled : i.treeWidth < sizes i.hr →
    setSpan conf (sizes i.hr) i.treeWidth = some (depth, some spans) ∧ Filled i.treeWidth (sizes i.hr) spans

/-- Each branch has a host, where there are more hosts than branches. -/
theorem filled_levels {w N : Nat} (h : Filled w N spans) (hlt : w < N) :
    ∃ d, ∀ n ∈ spans, full w d ≤ n ∧ n ≤ full w (d + 1) := by
  obtain ⟨e, -, he', hall⟩ := h.levels
  cases e with
  | zero =>
    have hone : full w (0 + 1) = 1 + w * 1 := rfl
    omega
  | succ e => exact ⟨e, hall⟩

theorem split_spans (conf : Nat) (hfits : SpanFits i.treeWidth (sizes i.hr)) :
    ∃ depth spans, Spans conf i depth spans := by
  have hw := i.width_pos
  have hle := i.width_le
  have hpos := i.pos
  rcases Nat.lt_or_ge i.treeWidth (sizes i.hr) with hlt | hdirect
  · obtain ⟨depth, span, hspan, hdepth, hfilled⟩ := (setSpan_spec conf hw i.ranges.sizes_lt hlt).1 hfits
    refine ⟨depth, span, ?_, ?_, hfilled.sum_eq, fun s hs => ?_, fun _ => ⟨hspan, hfilled⟩⟩
    · rw [hostlistSplitTreewidth]
      dsimp only
      rw [if_neg (show ¬ i.treeWidth = 0 by omega), i.toInt_nhosts, hspan, bind_some]
      dsimp only
      rw [if_neg (show ¬ depth < 0 by omega), getD_some]
    · rw [hfilled.length_eq]
      omega
    · obtain ⟨d, hall⟩ := filled_levels hfilled hlt
      exact Nat.lt_of_lt_of_le (Lib.FullTree.full_pos _ d) (hall s hs).1
  · refine ⟨1, List.replicate (sizes i.hr) 1, ?_, ?_, ?_, fun s hs => ?_, fun hlt => ?_⟩
    · have hspan : setSpan conf (sizes i.hr) i.treeWidth = some (1, none) := by
        rw [setSpan, if_neg (by omega)]
        dsimp only
        rw [if_neg (show ¬ i.treeWidth = 0 by omega), if_pos (by omega)]
      have hmod : sizes i.hr % 2 ^ 16 = sizes i.hr := Nat.mod_eq_of_lt (by omega)
      rw [hostlistSplitTreewidth]
      dsimp only
      rw [if_neg (show ¬ i.treeWidth = 0 by omega), i.toInt_nhosts, hspan, bind_some]
      dsimp only
      rw [if_neg (by omega), if_pos rfl, Int.toNat_natCast, hmod, getD_none]
    · rw [length_replicate]
      omega
    · rw [sum_replicate, smul_eq_mul, Nat.mul_one]
    · rw [eq_of_mem_replicate hs]
      exact Nat.one_pos
    · omega

theorem split_overflow (conf : Nat) (hnot : ¬ SpanFits i.treeWidth (sizes i.hr)) :
    hostlistSplitTreewidth conf i.toHostList i.treeWidth = none := by
  have hw := i.width_pos
  have hlt : i.treeWidth < sizes i.hr := by
    by_contra hge
    exact hnot (spanFits_direct hw (Nat.le_of_not_lt hge))
  rw [hostlistSplitTreewidth]
  dsimp only
  rw [if_neg (show ¬ i.treeWidth = 0 by omega), i.toInt_nhosts,
    (setSpan_spec conf hw i.ranges.sizes_lt hlt).2 hnot, bind_none]

/-- Where the input fits, the names that are taken are the hosts of the list. -/
theorem shown_eq (h : SplitFits i) : i.hr.flatMap HostRange.shown = i.expansion := by
  rw [HostList.expansion]
  refine flatMap_congr fun hr hmem => ?_
  obtain ⟨hwf, hsize⟩ := i.good hr hmem
  refine shown_eq_hosts hwf hsize (fun hs hmax => ?_) (h.printed hr hmem)
  -- The name with the number `ULONG_MAX` is a host of the list.
  have hlast : hr.numbered hr.hi.toNat ∈ i.expansion :=
    List.mem_flatMap.mpr ⟨hr, hmem, (mem_hosts_iff hwf hsize hs).mpr ⟨_, hwf.le, le_refl _, rfl⟩⟩
  have hlt := h.number _ hlast
  have hle := value_le_suffixNumber hr.hostPrefix (isNumber_padded hr.width hr.hi.toNat).2
  rw [value_padded] at hle
  rw [HostRange.numbered] at hlt
  have hneg : hr.hi.toNat = 2 ^ 64 - 1 := by
    rw [hmax]
    rfl
  omega

end SplitInput

/-- The chunks of the names, as lists. -/
theorem flatMap_built {chunks : List (List (List Char))} (h : ∀ c ∈ chunks, BuiltOf (built c) c) :
    (chunks.map built).flatMap HostList.expansion = chunks.flatten := by
  rw [flatMap_map, flatten_eq_flatMap]
  exact flatMap_congr fun c hc => (h c hc).expansion

/-- The branches share the hosts of a list exactly when the buffer has room for its names, they end in
numbers below `ULONG_MAX`, and the products of `_set_span` fit in an `int`. -/
theorem splitContract_iff (conf : Nat) (i : SplitInput) : SplitContract conf i ↔ SplitFits i := by
  have hready := i.ready
  constructor
  · rintro ⟨depth, branches, rest, hsplit, hof⟩
    have hspan : SpanFits i.treeWidth (sizes i.hr) := by
      by_contra hnot
      rw [i.split_overflow conf hnot] at hsplit
      cases hsplit
    obtain ⟨depth', spans, hspans⟩ := i.split_spans conf hspan
    obtain ⟨hsome, hnone⟩ := hready.splitLoop i.plain_shown hspans.sum_eq hspans.pos
    have henough : sizes i.hr ≤ (i.hr.flatMap HostRange.shown).length := by
      by_contra hfew
      rw [hspans.split, hnone (by omega)] at hsplit
      cases hsplit
    obtain ⟨hl', hloop, -⟩ := hsome henough
    rw [hspans.split, hloop] at hsplit
    cases hsplit
    -- Each branch has the names of its chunk, or a range that is empty.
    have hchunks : ∀ c ∈ spans.splitLengths (i.hr.flatMap HostRange.shown),
        (∀ name ∈ c, suffixNumber name < 2 ^ 64 - 1) ∧ BuiltOf (built c) c := by
      intro c hc
      obtain ⟨hsub, hclen⟩ := i.chunk hspans.sum_eq hc
      rcases built_spec (fun name hname => i.plain_shown name (hsub name hname)) hclen with
        hgood | ⟨-, r, hr, hpast⟩
      · exact hgood
      · have hempty := (hof.nonempty (built c) (List.mem_map_of_mem hc)).2 r hr
        rw [hpast.empty_eq hclen] at hempty
        cases hempty
    have hexpansion := hof.expansion
    rw [flatMap_built fun c hc => (hchunks c hc).2, i.flatten_chunks hspans.sum_eq] at hexpansion
    refine ⟨fun hr hmem' hs => ?_, fun name hname => ?_, hspan⟩
    · obtain ⟨hwf, hsize⟩ := i.good hr hmem'
      apply digits_of_shown_eq hwf hsize hs
      exact flatMap_eq_of_length_le (fun hr hmem => shown_length_le (i.good hr hmem).1 (i.good hr hmem).2)
        hexpansion hr hmem'
    · rw [← hexpansion, ← i.flatten_chunks hspans.sum_eq] at hname
      obtain ⟨c, hc, hname⟩ := List.mem_flatten.mp hname
      exact (hchunks c hc).1 name hname
  · intro hfits
    obtain ⟨depth, spans, hspans⟩ := i.split_spans conf hfits.span
    have hshown := i.shown_eq hfits
    have hcount : (i.hr.flatMap HostRange.shown).length = sizes i.hr := by
      rw [hshown]
      exact length_expansion i.ranges
    obtain ⟨hsome, -⟩ := hready.splitLoop i.plain_shown hspans.sum_eq hspans.pos
    obtain ⟨hl', hloop, hdone⟩ := hsome (le_of_eq hcount.symm)
    have hlengths := List.map_splitLengths_length (i.hr.flatMap HostRange.shown) spans
      (le_of_eq (hspans.sum_eq.trans hcount.symm))
    have hchunks : ∀ c ∈ spans.splitLengths (i.hr.flatMap HostRange.shown), BuiltOf (built c) c := by
      intro c hc
      obtain ⟨hsub, hclen⟩ := i.chunk hspans.sum_eq hc
      rcases built_spec (fun name hname => i.plain_shown name (hsub name hname)) hclen with
        ⟨-, hbuilt⟩ | ⟨hnot, -⟩
      · exact hbuilt
      · exact absurd (fun name hname => hfits.number name (hshown ▸ hsub name hname)) hnot
    have hbranches : ((spans.splitLengths (i.hr.flatMap HostRange.shown)).map built).map
        (fun b => b.expansion.length) = spans := by
      conv_rhs => rw [← hlengths]
      rw [List.map_map]
      exact List.map_congr_left fun c hc => congrArg List.length (hchunks c hc).expansion
    refine ⟨depth, _, hl', by rw [hspans.split, hloop]; rfl, ?_, ?_, fun b hb => ?_, ?_, fun hwidth => ?_⟩
    · rw [List.drop_eq_nil_of_le (le_of_eq hcount)] at hdone
      obtain ⟨hr, nhosts⟩ := hl'
      rw [show hr = [] from hdone.hr_nil, show nhosts = 0 from hdone.nhosts]
    · rw [List.length_map, List.length_splitLengths, hspans.length_eq]
    · obtain ⟨c, hc, rfl⟩ := List.mem_map.mp hb
      have hbuilt := hchunks c hc
      refine ⟨fun hnil => ?_, fun r hr => (hbuilt.kept r hr).empty_eq⟩
      have hzero : c.length ∈ spans := by
        rw [← hlengths]
        exact List.mem_map_of_mem hc
      have hpos := hspans.pos _ hzero
      rw [hbuilt.expansion] at hnil
      rw [hnil] at hpos
      exact Nat.lt_irrefl 0 hpos
    · rw [flatMap_built hchunks, i.flatten_chunks hspans.sum_eq, hshown]
    · obtain ⟨hspan, hfilled⟩ := hspans.filled hwidth
      obtain ⟨d, hall⟩ := SplitInput.filled_levels hfilled hwidth
      refine ⟨depth, spans, hspan, hbranches, hspans.sum_eq, d, hall, fun m hm n hn => ?_⟩
      have hmore := Lib.FullTree.full_add_pow i.treeWidth d
      have hm' := (hall m hm).2
      have hn' := (hall n hn).1
      omega

/-- `a[0-65535]` in a tree of width 65535. -/
def wideTree : SplitInput where
  hr := [⟨"a".toList, 0, 65535, 1, false⟩]
  nhosts := 65536
  ranges := ⟨by simp only [List.forall_mem_cons]; exact ⟨⟨by decide, Bool.noConfusion⟩,
    fun x hx => absurd hx List.not_mem_nil⟩, by decide⟩
  nhosts_eq := by decide
  treeWidth := 65535
  ne_nil := by decide
  width_pos := by decide
  width_le := by decide
  plain name hname := by
    rw [HostList.expansion, List.flatMap_singleton] at hname
    exact plain_hosts ⟨by decide, Bool.noConfusion⟩ (by decide) rfl (by simp [NoSpace, isSpace])
      (by decide) (by decide) name hname

/-- The capacity of the second level is `65535 * 65535`. -/
theorem splitContract_fails : ¬ SplitContract 16 wideTree := by
  rintro ⟨depth, branches, rest, hsplit, -⟩
  have hnot : ¬ SpanFits wideTree.treeWidth (sizes wideTree.hr) := by
    intro hfits
    exact absurd (hfits 0 (by decide)) (by decide)
  rw [wideTree.split_overflow 16 hnot] at hsplit
  cases hsplit

end Slurm.Hostlist
