import Slurm.Hostlist.Split
import Slurm.Hostlist.Find
import Slurm.Hostlist.UniqContract

/-!
# Names that are taken from a list and pushed on another

* `Ready.shift`: the names that `hostlist_shift` returns one after another.  A name can be cut, and
  of a range up to `ULONG_MAX` only the first host is returned.
* `built_spec`: the list that names are pushed on has these names, where their numbers are below
  `ULONG_MAX`; else one of its ranges is empty for `hostrange_empty`.
-/

namespace Slurm.Hostlist

open Lib.Decimal List Option

/-! ## Taking names -/

section Shift

variable {hr : HostRange} {hl : HostList} {m n : Nat} {x : List Char} {names : List (List Char)}

/-- A name of a range as `hostrange_shift` returns it. -/
def HostRange.cut (hr : HostRange) (name : List Char) : List Char :=
  if hr.singlehost then name else name.take (hr.hostPrefix.length + hr.width + 15)

/-- The names of a range that are returned. -/
def HostRange.shown (hr : HostRange) : List (List Char) :=
  (if hr.singlehost = false ∧ hr.hi = -1 then [hr.hostAt 0] else hr.hosts).map hr.cut

theorem hostAt_zero (hs : hr.singlehost = false) : hr.hostAt 0 = hr.numbered hr.lo.toNat := by
  rw [HostRange.hostAt, if_neg (by rw [hs]; exact Bool.false_ne_true)]
  rw [BitVec.add_zero]
  rfl

/-- The range without its first host, where it is not up to `ULONG_MAX`. -/
theorem hosts_without_first (h : hr.Wf) (hsize : hr.size < 2 ^ 31) (hs : hr.singlehost = false)
    (hlt : hr.lo.toNat < hr.hi.toNat) :
    ({ hr with lo := hr.lo + 1 } : HostRange).Wf ∧
      ({ hr with lo := hr.lo + 1 } : HostRange).size < 2 ^ 31 ∧
        hr.hosts = hr.hostAt 0 :: ({ hr with lo := hr.lo + 1 } : HostRange).hosts := by
  have hlo : (hr.lo + 1).toNat = hr.lo.toNat + 1 := by
    have hone : BitVec.toNat (1 : BitVec 64) = 1 := rfl
    have hhi := hr.hi.isLt
    rw [BitVec.toNat_add, hone]
    omega
  have hwf : ({ hr with lo := hr.lo + 1 } : HostRange).Wf := by
    refine ⟨?_, fun h => absurd (hs.symm.trans h) Bool.false_ne_true⟩
    change (hr.lo + 1).toNat ≤ hr.hi.toNat
    omega
  have hrest : ({ hr with lo := hr.lo + 1 } : HostRange).size + 1 = hr.size := by
    rw [HostRange.size, HostRange.size, hlo]
    dsimp only
    omega
  refine ⟨hwf, by omega, ?_⟩
  rw [hosts_eq h hsize hs, hosts_eq hwf (by omega) hs, ← hrest, range'_succ, map_cons,
    hostAt_zero hs, hlo]
  rfl

theorem hosts_of_eq (h : hr.Wf) (hs : hr.singlehost = false) (heq : hr.lo.toNat = hr.hi.toNat) :
    hr.hosts = [hr.hostAt 0] := by
  have hsize : hr.size = 1 := by
    rw [HostRange.size]
    omega
  rw [hosts_eq h (by omega) hs, hsize, hostAt_zero hs]
  rfl

/-- `hostrange_shift` returns the first name, and leaves the range with the others or an empty one. -/
theorem hostrangeShift_spec (h : hr.Wf) (hsize : hr.size < 2 ^ 31) :
    ∃ x hr', hostrangeShift hr = (some x, hr') ∧
      ((hr'.empty = true ∧ hr.shown = [x]) ∨
        (hr'.empty = false ∧ hr'.Wf ∧ hr'.size < 2 ^ 31 ∧ hr.shown = x :: hr'.shown)) := by
  rw [hostrangeShift]
  by_cases hsingle : hr.singlehost = true
  · have hs := hsingle
    obtain ⟨hlo, hhi⟩ := h.single hs
    rw [if_pos hs]
    refine ⟨_, _, rfl, Or.inl ⟨?_, ?_⟩⟩
    · rw [HostRange.empty, decide_eq_true_iff]
      dsimp only
      rw [hlo, hhi]
      exact Or.inl (by decide)
    · rw [HostRange.shown, if_neg (by rw [hs]; simp), hosts_single hs, map_singleton,
        HostRange.cut, if_pos hs]
  · have hs := Bool.eq_false_iff.mpr hsingle
    have hcount : hr.count > 0 := by
      rw [gt_iff_lt, BitVec.lt_def, count_toNat h hsize]
      exact h.size_pos
    have hle := h.le
    have hcut : hr.cut (hr.hostAt 0) = (hr.hostPrefix ++ padded hr.width hr.lo.toNat).take
        (hr.hostPrefix.length + hr.width + 16 - 1) := by
      rw [HostRange.cut, if_neg (by rw [hs]; exact Bool.false_ne_true), hostAt_zero hs]
      rfl
    rw [if_neg hsingle, if_pos hcount]
    refine ⟨_, _, rfl, ?_⟩
    by_cases hmax : hr.hi = -1
    · left
      constructor
      · rw [HostRange.empty, decide_eq_true_iff]
        exact Or.inr hmax
      · rw [HostRange.shown, if_pos ⟨hs, hmax⟩, map_singleton, hcut]
    · have hshown : hr.shown = hr.hosts.map hr.cut := by
        rw [HostRange.shown, if_neg fun hboth => hmax hboth.2]
      have hmax' : hr.hi.toNat ≠ 2 ^ 64 - 1 := fun heq => hmax (BitVec.eq_of_toNat_eq heq)
      rcases Nat.eq_or_lt_of_le hle with heq | hlt
      · left
        constructor
        · have hlo : (hr.lo + 1).toNat = hr.lo.toNat + 1 := by
            have hone : BitVec.toNat (1 : BitVec 64) = 1 := rfl
            have hhi := hr.hi.isLt
            rw [BitVec.toNat_add, hone]
            omega
          rw [HostRange.empty, decide_eq_true_iff, BitVec.lt_def]
          dsimp only
          omega
        · rw [hshown, hosts_of_eq h hs heq, map_singleton, hcut]
      · right
        obtain ⟨hwf, hsize', hhosts⟩ := hosts_without_first h hsize hs hlt
        refine ⟨?_, hwf, hsize', ?_⟩
        · rw [HostRange.empty, decide_eq_false_iff_not, not_or, BitVec.lt_def, Nat.not_lt]
          exact ⟨hwf.le, hmax⟩
        · rw [hshown, hhosts, map_cons, hcut, HostRange.shown, if_neg fun hboth => hmax hboth.2]
          rfl

theorem shown_ne_nil (h : hr.Wf) (hsize : hr.size < 2 ^ 31) : hr.shown ≠ [] := by
  obtain ⟨x, hr', -, ⟨-, hshown⟩ | ⟨-, -, -, hshown⟩⟩ := hostrangeShift_spec h hsize
  · rw [hshown]
    exact cons_ne_nil _ _
  · rw [hshown]
    exact cons_ne_nil _ _

/-- A list with `m` hosts by its count, from which some names can be taken. -/
structure Ready (hl : HostList) (m : Nat) (names : List (List Char)) : Prop where
  wf : ∀ hr ∈ hl.hr, hr.Wf ∧ hr.size < 2 ^ 31
  nhosts : hl.nhosts = BitVec.ofNat 32 m
  lt : m < 2 ^ 31
  shown : hl.hr.flatMap HostRange.shown = names

theorem Ready.nhosts_pos (h : Ready hl (m + 1) names) : 0 < hl.nhosts.toInt := by
  have hlt := h.lt
  rw [h.nhosts, BitVec.toInt_eq_toNat_cond, BitVec.toNat_ofNat]
  split <;> omega

/-- A name is taken. -/
theorem Ready.shift (h : Ready hl (m + 1) (x :: names)) :
    ∃ hl', hostlistShift hl = some (some x, hl') ∧ Ready hl' m names := by
  have hlt := h.lt
  have hnhosts : hl.nhosts - 1 = BitVec.ofNat 32 m := by
    rw [h.nhosts, BitVec.ofNat_add]
    exact BitVec.add_sub_cancel _ _
  have hshown := h.shown
  rw [hostlistShift, if_pos h.nhosts_pos]
  cases hranges : hl.hr with
  | nil =>
    rw [hranges] at hshown
    cases hshown
  | cons hr rest =>
    obtain ⟨hwf, hsize⟩ := h.wf hr (by rw [hranges]; exact mem_cons_self)
    have hrest : ∀ hr' ∈ rest, hr'.Wf ∧ hr'.size < 2 ^ 31 := by
      intro hr' hr'mem
      exact h.wf hr' (by rw [hranges]; exact mem_cons_of_mem hr hr'mem)
    obtain ⟨y, hr', hshift, hcases⟩ := hostrangeShift_spec hwf hsize
    dsimp only
    rw [hshift]
    rw [hranges, flatMap_cons] at hshown
    rcases hcases with ⟨hempty, hfirst⟩ | ⟨hempty, hwf', hsize', hfirst⟩
    · rw [hfirst, cons_append, List.cons.injEq] at hshown
      refine ⟨_, by rw [hshown.1], ?_, hnhosts, by omega, ?_⟩
      · rw [if_pos hempty]
        exact hrest
      · rw [if_pos hempty]
        exact hshown.2
    · rw [hfirst, cons_append, List.cons.injEq] at hshown
      have hif : (if hr'.empty = true then rest else hr' :: rest) = hr' :: rest :=
        if_neg (by rw [hempty]; exact Bool.false_ne_true)
      refine ⟨_, by rw [hshown.1], ?_, hnhosts, by omega, ?_⟩
      · rw [hif]
        intro z hz
        rcases List.mem_cons.mp hz with rfl | hz
        · exact ⟨hwf', hsize'⟩
        · exact hrest z hz
      · rw [hif]
        exact hshown.2

theorem Ready.hr_nil (h : Ready hl m []) : hl.hr = [] := by
  cases hranges : hl.hr with
  | nil => rfl
  | cons hr rest =>
    obtain ⟨hwf, hsize⟩ := h.wf hr (by rw [hranges]; exact mem_cons_self)
    have hshown := h.shown
    rw [hranges, flatMap_cons, append_eq_nil_iff] at hshown
    exact absurd hshown.1 (shown_ne_nil hwf hsize)

/-- Where no range is left although hosts are counted, there is no way on. -/
theorem Ready.shift_none (h : Ready hl (m + 1) []) : hostlistShift hl = none := by
  rw [hostlistShift, if_pos h.nhosts_pos, h.hr_nil]

/-- The further hosts of a branch are taken, or there are not enough of them. -/
theorem Ready.pushRest (h : Ready hl m names) (hn : n ≤ m) (branch : HostList) :
    (n ≤ names.length → ∃ hl', pushRest n branch hl =
        some ((names.take n).foldl hostlistPushHost branch, hl') ∧ Ready hl' (m - n) (names.drop n)) ∧
      (names.length < n → pushRest n branch hl = none) := by
  induction n generalizing hl m names branch with
  | zero => exact ⟨fun _ => ⟨hl, rfl, h⟩, fun hlt => absurd hlt (Nat.not_lt_zero _)⟩
  | succ n ih =>
    obtain ⟨m, rfl⟩ : ∃ m', m = m' + 1 := ⟨m - 1, by omega⟩
    rw [Hostlist.pushRest]
    cases names with
    | nil =>
      refine ⟨fun hle => absurd hle (Nat.not_succ_le_zero n), fun _ => ?_⟩
      rw [h.shift_none, bind_none]
    | cons x names =>
      obtain ⟨hl', hshift, h'⟩ := h.shift
      obtain ⟨hsome, hnone⟩ := ih h' (by omega) (hostlistPushHost branch x)
      rw [hshift, bind_some]
      dsimp only [elim_some]
      constructor
      · intro hle
        obtain ⟨hl'', hrest, h''⟩ := hsome (Nat.le_of_succ_le_succ hle)
        refine ⟨hl'', hrest, ?_⟩
        rwa [Nat.add_sub_add_right, drop_succ_cons]
      · exact fun hlt => hnone (Nat.lt_of_succ_lt_succ hlt)

end Shift

/-! ## Pushing names -/

section Push

variable {r tail : HostRange} {hl : HostList} {name : List Char} {names : List (List Char)} {k : Nat}

/-- A host name: it has no white space, no comma and no bracket. -/
structure Plain (name : List Char) : Prop where
  noSpace : NoSpace name
  comma : ',' ∉ name
  bracket : '[' ∉ name
  ne_nil : name ≠ []

/-- The number that a name ends in. -/
def suffixNumber (name : List Char) : Nat := value (name.drop (hostPrefixEnd name))

/-- The list that names are pushed on, which is empty before. -/
def built (names : List (List Char)) : HostList := names.foldl hostlistPushHost ⟨[], 0⟩

theorem Plain.not_separator (h : Plain name) : ∀ c ∈ name, isSeparator c = false := by
  intro c hc
  have hspace := h.noSpace c hc
  have hcomma : c ≠ ',' := fun heq => h.comma (heq ▸ hc)
  rw [Bool.eq_false_iff]
  intro hsep
  simp only [isSeparator, Bool.or_eq_true, beq_iff_eq] at hsep
  rcases hsep with ((rfl | rfl) | rfl) | rfl
  · exact absurd hspace (by decide)
  · exact hcomma rfl
  · exact absurd hspace (by decide)
  · exact absurd hspace (by decide)

/-- `hostlist_create` makes a list of one host of a name. -/
theorem hostlistCreate_plain (h : Plain name) : hostlistCreate name = some (built [name]) := by
  have hsplit : name.splitOnP isSeparator = [name] :=
    splitOnP_eq_singleton h.not_separator
  rw [hostlistCreate, if_neg h.bracket, hsplit, filter_cons, if_pos (by simpa using h.ne_nil)]
  rfl

theorem nameRange_eq (name : List Char) : nameRange name =
    if EndsInDigit name then
      ⟨name.take (hostPrefixEnd name), (strtoul (name.drop (hostPrefixEnd name))).1,
        (strtoul (name.drop (hostPrefixEnd name))).1, name.length - hostPrefixEnd name, false⟩
    else HostRange.createSingle name := by
  rw [nameRange, hostnameCreateDims_eq]
  by_cases h : EndsInDigit name
  · rw [if_pos h, if_pos h]
    rfl
  · rw [if_neg h, if_neg h]

theorem isNumber_suffix (h : EndsInDigit name) : IsNumber (name.drop (hostPrefixEnd name)) := by
  refine ⟨?_, drop_hostPrefixEnd name⟩
  rw [Ne.eq_def, drop_eq_nil_iff]
  have hle := hostPrefixEnd_le name
  have hne : hostPrefixEnd name ≠ name.length := h
  omega

/-- A range of a list to which names were pushed. -/
structure Kept (r : HostRange) : Prop where
  wf : r.Wf
  size_lt : r.size < 2 ^ 31
  noSpace : NoSpace r.hostPrefix
  hi_ne : r.hi ≠ -1

theorem Kept.empty_eq (h : Kept r) : r.empty = false := by
  rw [HostRange.empty, decide_eq_false_iff_not, not_or, BitVec.lt_def, Nat.not_lt]
  exact ⟨h.wf.le, h.hi_ne⟩

/-- The range of a name whose number is below `ULONG_MAX` is that of this name. -/
theorem nameRange_kept (h : Plain name) (hnum : suffixNumber name < 2 ^ 64 - 1) :
    Kept (nameRange name) ∧ (nameRange name).lo = (nameRange name).hi ∧
      (nameRange name).hosts = [name] := by
  rw [nameRange_eq]
  by_cases hends : EndsInDigit name
  · rw [if_pos hends]
    have hnumber := isNumber_suffix hends
    have hto : (strtoul (name.drop (hostPrefixEnd name))).1 = BitVec.ofNat 64 (suffixNumber name) := by
      rw [strtoul_number hnumber]
      dsimp only
      rw [if_neg (by rw [suffixNumber] at hnum; omega)]
      rfl
    have hnat : (BitVec.ofNat 64 (suffixNumber name)).toNat = suffixNumber name := by
      rw [BitVec.toNat_ofNat]
      omega
    rw [hto]
    have hwf : (⟨name.take (hostPrefixEnd name), BitVec.ofNat 64 (suffixNumber name),
        BitVec.ofNat 64 (suffixNumber name), name.length - hostPrefixEnd name, false⟩ : HostRange).Wf :=
      ⟨le_refl _, fun hs => absurd hs Bool.false_ne_true⟩
    refine ⟨⟨hwf, ?_, fun c hc => h.noSpace c (mem_of_mem_take hc), ?_⟩, rfl, ?_⟩
    · rw [HostRange.size]
      dsimp only
      omega
    · intro hmax
      have htoNat := congrArg BitVec.toNat hmax
      dsimp only at htoNat
      rw [hnat] at htoNat
      have hneg : BitVec.toNat (-1 : BitVec 64) = 2 ^ 64 - 1 := rfl
      omega
    · have hpadded : padded (name.length - hostPrefixEnd name) (suffixNumber name)
          = name.drop (hostPrefixEnd name) := by
        symm
        rw [eq_padded_iff hnumber]
        refine ⟨rfl, ?_⟩
        have hdigits := numDigits_value_le hnumber
        rw [suffixNumber, length_drop] at *
        omega
      rw [hosts_of_eq hwf rfl rfl, hostAt_zero rfl, HostRange.numbered, hnat]
      dsimp only
      rw [hpadded, take_append_drop]
  · rw [if_neg hends]
    have hone : (HostRange.createSingle name).size = 1 := rfl
    have hhi : (0 : BitVec 64) ≠ -1 := by decide
    exact ⟨⟨⟨le_refl _, fun _ => ⟨rfl, rfl⟩⟩, by omega, h.noSpace, hhi⟩, rfl, hosts_single rfl⟩

/-- The range of a name with a greater number is at `ULONG_MAX`. -/
theorem nameRange_max (hnum : 2 ^ 64 - 1 ≤ suffixNumber name) :
    (nameRange name).singlehost = false ∧ (nameRange name).lo = -1 ∧ (nameRange name).hi = -1 := by
  have hends : EndsInDigit name := by
    intro heq
    rw [suffixNumber, drop_eq_nil_of_le (Nat.le_of_eq heq.symm)] at hnum
    exact absurd hnum (by decide)
  have hto : (strtoul (name.drop (hostPrefixEnd name))).1 = -1 := by
    rw [strtoul_number (isNumber_suffix hends)]
    dsimp only
    split
    · rfl
    · rename_i hlt
      rw [suffixNumber] at hnum
      have heq : value (name.drop (hostPrefixEnd name)) = 2 ^ 64 - 1 := by omega
      rw [heq]
      rfl
  rw [nameRange_eq, if_pos hends, hto]
  exact ⟨rfl, rfl, rfl⟩

/-- The ranges after a push: the last one is extended, or there is one more. -/
theorem hostlistPushRange_cases (hl : HostList) (r : HostRange) :
    (hostlistPushRange hl r).hr = hl.hr ++ [r] ∨
      ∃ before tail tail' r', hl.hr = before ++ [tail] ∧ tail.hi = r.lo - 1 ∧
        hostrangePrefixCmp tail r = 0 ∧ hostrangeWidthCombine tail r = some (tail', r') ∧
          (hostlistPushRange hl r).hr = before ++ [{ tail' with hi := r.hi }] := by
  rw [hostlistPushRange]
  dsimp only
  rcases eq_nil_or_concat hl.hr with hnil | ⟨before, tail, hranges⟩
  · rw [hnil]
    exact Or.inl rfl
  · rw [concat_eq_append] at hranges
    rw [hranges, getLast?_append, getLast?_singleton, some_or, dropLast_concat]
    dsimp only
    split
    · rename_i htouch
      cases hcombine : hostrangeWidthCombine tail r with
      | none => exact Or.inl rfl
      | some ranges => exact Or.inr ⟨before, tail, ranges.1, ranges.2, rfl, htouch.1, htouch.2, hcombine, rfl⟩
    · exact Or.inl rfl

/-- The list has the names that were pushed. -/
structure BuiltOf (hl : HostList) (names : List (List Char)) : Prop where
  kept : ∀ r ∈ hl.hr, Kept r
  expansion : hl.expansion = names

theorem BuiltOf.size_le (h : BuiltOf hl names) (hr : r ∈ hl.hr) : r.size ≤ names.length := by
  have hlen := length_hosts (h.kept r hr).wf (h.kept r hr).size_lt
  rw [← hlen, ← h.expansion, HostList.expansion, flatMap_def]
  exact (sublist_flatten_of_mem (mem_map_of_mem hr)).length_le

/-- A name whose number is below `ULONG_MAX` is pushed. -/
theorem BuiltOf.push (h : BuiltOf hl names) (hname : Plain name)
    (hnum : suffixNumber name < 2 ^ 64 - 1) (hlen : names.length + 1 < 2 ^ 31) :
    BuiltOf (hostlistPushHost hl name) (names ++ [name]) := by
  obtain ⟨hkept, hlohi, hhosts⟩ := nameRange_kept hname hnum
  have hexpansion := h.expansion
  rw [HostList.expansion] at hexpansion
  rw [hostlistPushHost]
  rcases hostlistPushRange_cases hl (nameRange name) with hpush |
    ⟨before, tail, tail', r', hranges, htouch, hzero, hcombine, hpush⟩
  · refine ⟨fun r hr => ?_, ?_⟩
    · rw [hpush, mem_append, mem_singleton] at hr
      rcases hr with hr | rfl
      · exact h.kept r hr
      · exact hkept
    · rw [HostList.expansion, hpush, flatMap_append, hexpansion, flatMap_singleton, hhosts]
  · have htailmem : tail ∈ hl.hr := by
      rw [hranges]
      exact mem_append_right _ (mem_singleton_self _)
    have htail := h.kept tail htailmem
    obtain ⟨hwa, hwb, hwidth⟩ := widthCombine_some hcombine
    obtain ⟨hnames, hsingle⟩ := (prefixCmp_zero_iff htail.noSpace hkept.noSpace).mp hzero
    have hmax : tail.hi.toNat ≠ 2 ^ 64 - 1 := fun heq => htail.hi_ne (BitVec.eq_of_toNat_eq heq)
    have hnext : tail.hi.toNat + 1 = (nameRange name).lo.toNat := by
      have hsub : ((nameRange name).lo - 1).toNat = (2 ^ 64 - 1 + (nameRange name).lo.toNat) % 2 ^ 64 :=
        BitVec.toNat_sub _ _
      rw [BitVec.toNat_eq, hsub] at htouch
      have hlt := (nameRange name).lo.isLt
      omega
    have hs : tail.singlehost = false := by
      rw [Bool.eq_false_iff]
      intro hs
      have hlo := (hkept.wf.single (hsingle ▸ hs)).1
      rw [hlo] at hnext
      cases hnext
    have hone : (nameRange name).size = 1 := by
      rw [HostRange.size, hlohi]
      omega
    have hsize := h.size_le htailmem
    obtain ⟨hwf, hsum, hjoined⟩ := join_hosts htail.wf hkept.wf hs hnames hsingle hwa hwb hwidth hnext
      (by omega)
    refine ⟨fun r hr => ?_, ?_⟩
    · rw [hpush, mem_append, mem_singleton] at hr
      rcases hr with hr | rfl
      · exact h.kept r (by rw [hranges]; exact mem_append_left _ hr)
      · refine ⟨hwf, by omega, ?_, hkept.hi_ne⟩
        dsimp only
        rw [hwa.hostPrefix]
        exact htail.noSpace
    · rw [HostList.expansion, hpush, flatMap_append, flatMap_singleton, hjoined, hhosts,
        ← append_assoc, ← hexpansion, hranges, flatMap_append, flatMap_singleton]

/-- A range that has come to `ULONG_MAX`, or beyond it, with some hosts. -/
structure Past (r : HostRange) (k : Nat) : Prop where
  numbered : r.singlehost = false
  past : ∃ d < k, r.hi = r.lo + BitVec.ofNat 64 d ∧ 2 ^ 64 - 1 ≤ r.lo.toNat + d

/-- Such a range is empty for `hostrange_empty`. -/
theorem Past.empty_eq (h : Past r k) (hk : k < 2 ^ 31) : r.empty = true := by
  obtain ⟨d, hd, hhi, hpast⟩ := h.past
  have hlo := r.lo.isLt
  have hnat : r.hi.toNat = (r.lo.toNat + d) % 2 ^ 64 := by
    rw [hhi, BitVec.toNat_add, BitVec.toNat_ofNat, Nat.add_mod_mod]
  have hneg : BitVec.toNat (-1 : BitVec 64) = 2 ^ 64 - 1 := rfl
  rw [HostRange.empty, decide_eq_true_iff, BitVec.lt_def, BitVec.toNat_eq, hneg]
  omega

/-- A range past `ULONG_MAX` stays one. -/
theorem Past.push (h : ∃ r ∈ hl.hr, Past r k) (name : List Char) :
    ∃ r ∈ (hostlistPushHost hl name).hr, Past r (k + 1) := by
  obtain ⟨r, hr, hs, d, hd, hhi, hpast⟩ := h
  have hlo : (nameRange name).lo = (nameRange name).hi := by
    rw [nameRange_eq]
    split <;> rfl
  rw [hostlistPushHost]
  rcases hostlistPushRange_cases hl (nameRange name) with hpush |
    ⟨before, tail, tail', r', hranges, htouch, -, hcombine, hpush⟩
  · refine ⟨r, ?_, hs, d, by omega, hhi, hpast⟩
    rw [hpush]
    exact mem_append_left _ hr
  · rw [hranges, mem_append, mem_singleton] at hr
    rw [hpush]
    rcases hr with hr | rfl
    · exact ⟨r, mem_append_left _ hr, hs, d, by omega, hhi, hpast⟩
    · obtain ⟨hwa, -, -⟩ := widthCombine_some hcombine
      refine ⟨_, mem_append_right _ (mem_singleton_self _), hwa.singlehost.trans hs, d + 1,
        by omega, ?_, ?_⟩
      · dsimp only
        rw [← hlo, hwa.lo, BitVec.ofNat_add, ← BitVec.add_assoc, ← hhi, htouch]
        exact (BitVec.sub_add_cancel _ _).symm
      · dsimp only
        rw [hwa.lo]
        omega

/-- A name with a greater number makes a range past `ULONG_MAX`. -/
theorem BuiltOf.push_past (h : BuiltOf hl names) (hnum : 2 ^ 64 - 1 ≤ suffixNumber name) :
    ∃ r ∈ (hostlistPushHost hl name).hr, Past r (names.length + 1) := by
  obtain ⟨hs, hlo, hhi⟩ := nameRange_max hnum
  have hneg : BitVec.toNat (-1 : BitVec 64) = 2 ^ 64 - 1 := rfl
  rw [hostlistPushHost]
  rcases hostlistPushRange_cases hl (nameRange name) with hpush |
    ⟨before, tail, tail', r', hranges, htouch, hzero, hcombine, hpush⟩
  · refine ⟨nameRange name, ?_, hs, 0, by omega, ?_, ?_⟩
    · rw [hpush]
      exact mem_append_right _ (mem_singleton_self _)
    · rw [hlo, hhi]
      rfl
    · rw [hlo, hneg]
      omega
  · have htailmem : tail ∈ hl.hr := by
      rw [hranges]
      exact mem_append_right _ (mem_singleton_self _)
    have htail := h.kept tail htailmem
    have hsize := h.size_le htailmem
    have hwa := (widthCombine_some hcombine).1
    have htailhi : tail.hi.toNat = 2 ^ 64 - 2 := by
      rw [htouch, hlo]
      rfl
    have hs' : tail.singlehost = false := by
      rw [Bool.eq_false_iff]
      intro hs'
      rw [(htail.wf.single hs').2] at htailhi
      cases htailhi
    have hle := htail.wf.le
    rw [HostRange.size] at hsize
    rw [hpush]
    refine ⟨_, mem_append_right _ (mem_singleton_self _), hwa.singlehost.trans hs',
      2 ^ 64 - 1 - tail.lo.toNat, by omega, ?_, ?_⟩
    · dsimp only
      rw [hhi, hwa.lo, BitVec.toNat_eq, BitVec.toNat_add, BitVec.toNat_ofNat, hneg]
      omega
    · dsimp only
      rw [hwa.lo]
      omega

/-- The list that names are pushed on has these names, and no range that is empty for
`hostrange_empty`, where the numbers of the names are below `ULONG_MAX`; else it has such a range. -/
theorem built_spec (hplain : ∀ name ∈ names, Plain name) (hlen : names.length < 2 ^ 31) :
    ((∀ name ∈ names, suffixNumber name < 2 ^ 64 - 1) ∧ BuiltOf (built names) names) ∨
      (¬ (∀ name ∈ names, suffixNumber name < 2 ^ 64 - 1) ∧
        ∃ r ∈ (built names).hr, Past r names.length) := by
  induction names using List.reverseRecOn with
  | nil => exact Or.inl ⟨fun _ h => absurd h not_mem_nil, fun _ h => absurd h not_mem_nil, rfl⟩
  | append_singleton names name ih =>
    have hname : Plain name := hplain name (mem_append_right _ (mem_singleton_self _))
    rw [length_append, length_singleton] at hlen ⊢
    have hstep : built (names ++ [name]) = hostlistPushHost (built names) name := by
      rw [built, foldl_append]
      rfl
    have hiff : (∀ x ∈ names ++ [name], suffixNumber x < 2 ^ 64 - 1) ↔
        (∀ x ∈ names, suffixNumber x < 2 ^ 64 - 1) ∧ suffixNumber name < 2 ^ 64 - 1 := by
      simp only [forall_mem_append, forall_mem_singleton]
    rw [hstep, hiff]
    rcases ih (fun x hx => hplain x (mem_append_left _ hx)) (by omega) with
      ⟨hall, hbuilt⟩ | ⟨hnot, hpast⟩
    · rcases Nat.lt_or_ge (suffixNumber name) (2 ^ 64 - 1) with hnum | hnum
      · exact Or.inl ⟨⟨hall, hnum⟩, hbuilt.push hname hnum hlen⟩
      · exact Or.inr ⟨fun h => absurd h.2 (Nat.not_lt_of_le hnum), hbuilt.push_past hnum⟩
    · exact Or.inr ⟨fun h => hnot h.1, Past.push hpast name⟩

end Push

end Slurm.Hostlist
