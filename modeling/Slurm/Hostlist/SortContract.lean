import Slurm.Hostlist.CoalesceOrder

/-!
# Sorting loses no hosts

* `CoalesceFits`: no two ranges that are split reach the digits of a later range with zeros.
* `settle_spec`: ranges in order are split to the end exactly when they fit.
* `collapse_spec`: ranges are joined with the hosts in their places.
* `sortContract_iff`: `hostlist_sort` ends, with the same hosts in order, exactly when the ranges
  fit.
-/

namespace Slurm.Hostlist

open Lib.Decimal List Option
open Lib.Restart (insert settle Apart Inserted)

variable {a b c t x y : HostRange} {l m : List HostRange}

/-! ## Ranges that fit -/

/-- The range is before the other one, which has zeros, and reaches the digits that it has with
them. -/
structure Reaches (t a : HostRange) : Prop where
  not_mates : ¬ Mates a t
  hostPrefix : a.hostPrefix = t.hostPrefix
  singlehost : a.singlehost = t.singlehost
  key_le : a.key ≤ t.key
  digits : t.width ≤ numDigits a.hi.toNat

/-- The second range is between the others in the order. -/
def InOrderBetween (a z b : HostRange) : Prop := a.key ≤ z.key ∧ z.key ≤ b.key ∨ b.key ≤ z.key ∧ z.key ≤ a.key

/-- Two ranges could be joined with all between them, and both reach the digits of a third one. -/
structure Clashing (l : List HostRange) (t a b : HostRange) : Prop where
  mates : Mates a b
  between : ∀ z ∈ l, InOrderBetween a z b → Mates a z ∧ Mates b z
  left : Reaches t a
  right : Reaches t b

/-- No two ranges clash. -/
def CoalesceFits (l : List HostRange) : Prop :=
  ∀ t ∈ l, l.Pairwise fun a b => ¬ Clashing l t a b

theorem Clashing.symm (h : Clashing l t a b) : Clashing l t b a :=
  ⟨mates_comm.mp h.mates, fun z hz hbetween => (h.between z hz (Or.symm hbetween)).symm, h.right, h.left⟩

theorem CoalesceFits.perm (h : l.Perm m) (hfits : CoalesceFits l) : CoalesceFits m := by
  intro t ht
  have hclashing : ∀ a b, Clashing m t a b → Clashing l t a b := fun a b hab =>
    ⟨hab.mates, fun z hz => hab.between z (h.mem_iff.mp hz), hab.left, hab.right⟩
  have hpairs := (hfits t (h.mem_iff.mpr ht)).imp fun {a b} hnot hab => hnot (hclashing a b hab)
  exact h.pairwise hpairs fun hnot hba => hnot hba.symm

theorem Rewidth.mates_congr {a' b' : HostRange} (ha : Rewidth a a') (hb : Rewidth b b') :
    Mates a' b' ↔ Mates a b := by
  rw [ha.mates_iff, mates_comm, hb.mates_iff, mates_comm]

theorem Reaches.rewidth {t' a' : HostRange} (ht : Rewidth t t') (ha : Rewidth a a')
    (h : Reaches t a) : Reaches t' a' := by
  obtain ⟨hzeros, -⟩ := zeros_of_not_mates h.hostPrefix h.singlehost h.not_mates h.key_le
  have hwidth : t'.width = t.width := by
    have hwidths := ht.width
    omega
  refine ⟨fun hmates => h.not_mates ((ha.mates_congr ht).mp hmates), ?_, ?_, ?_, ?_⟩
  · exact ha.hostPrefix.trans (h.hostPrefix.trans ht.hostPrefix.symm)
  · exact ha.singlehost.trans (h.singlehost.trans ht.singlehost.symm)
  · rw [ha.key_eq, ht.key_eq]
    exact h.key_le
  · rw [hwidth, ha.hi]
    exact h.digits

/-- Other widths that print alike make no difference. -/
theorem CoalesceFits.rewidth (h : List.Forall₂ Rewidth l m) (hfits : CoalesceFits l) :
    CoalesceFits m := by
  intro t' ht'
  obtain ⟨t, ht, hwt⟩ := forall₂_exists h ht'
  have hclashing : ∀ a a' b b', Rewidth a a' → Rewidth b b' → Clashing m t' a' b' →
      Clashing l t a b := by
    intro a a' b b' hwa hwb hab
    refine ⟨(hwa.mates_congr hwb).mp hab.mates, fun z hz hbetween => ?_,
      hab.left.rewidth hwt.symm hwa.symm, hab.right.rewidth hwt.symm hwb.symm⟩
    obtain ⟨z', hz', hwz⟩ := forall₂_exists h.flip hz
    rw [← hwa.mates_congr hwz, ← hwb.mates_congr hwz]
    apply hab.between z' hz'
    rw [InOrderBetween, hwa.key_eq, hwb.key_eq, hwz.key_eq]
    exact hbetween
  have hpairs := hfits t ht
  clear hfits ht ht'
  -- The pairs of both lists go along.
  have hall : ∀ l' m', List.Forall₂ Rewidth l' m' → l'.Pairwise (fun a b => ¬ Clashing l t a b) →
      m'.Pairwise fun a b => ¬ Clashing m t' a b := by
    intro l' m' h'
    induction h' with
    | nil => exact fun _ => List.Pairwise.nil
    | cons hwa hrest ih =>
      intro hpairs'
      rw [pairwise_cons] at hpairs' ⊢
      refine ⟨fun b' hb' hab => ?_, ih hpairs'.2⟩
      obtain ⟨b, hb, hwb⟩ := forall₂_exists hrest hb'
      exact hpairs'.1 b hb (hclashing _ _ _ _ hwa hwb hab)
  exact hall l m h hpairs

/-- Ranges in order fit when the first one does not clash with the others, and these fit. -/
theorem coalesceFits_cons (h : Ordered (a :: l)) :
    CoalesceFits (a :: l) ↔ ¬ Clash a l ∧ CoalesceFits l := by
  have hself := mates_self a
  constructor
  · intro hfits
    constructor
    · rintro ⟨k, ⟨t, ht, hnot, hname, hsingle, rfl⟩, hk, b, hb, hall, hkb⟩
      have hab := hall b hb (le_refl _)
      have hbt : b.key ≤ t.key := by
        rcases le_total b.key t.key with hle | hle
        · exact hle
        · exact absurd (hall t ht hle) hnot
      refine (List.pairwise_cons.mp (hfits t (mem_cons_of_mem a ht))).1 b hb
        ⟨hab, fun z hz hbetween => ?_, ⟨hnot, hname, hsingle, h.head_le ht, hk⟩, ?_⟩
      · rcases List.mem_cons.mp hz with rfl | hz
        · exact ⟨hself, mates_comm.mp hab⟩
        · have hzb : z.key ≤ b.key := by
            rcases hbetween with hbetween | hbetween
            · exact hbetween.2
            · exact hbetween.2.trans (h.head_le hb)
          have haz := hall z hz hzb
          exact ⟨haz, mates_comm.mp (mates_between haz hab (h.head_le hz) hzb)⟩
      · exact ⟨fun hbt' => hnot (mates_trans hab hbt' (h.head_le hb) hbt),
          hab.hostPrefix.symm.trans hname, hab.singlehost.symm.trans hsingle, hbt, hkb⟩
    · intro t ht
      have hpairs := (List.pairwise_cons.mp (hfits t (mem_cons_of_mem a ht))).2
      apply hpairs.imp_of_mem
      intro x y hx hy hnot hxy
      refine hnot ⟨hxy.mates, fun z hz hbetween => ?_, hxy.left, hxy.right⟩
      rcases List.mem_cons.mp hz with rfl | hz
      · -- The first range is between others only at the place of one of them.
        rcases hbetween with ⟨hxz, hzy⟩ | ⟨hyz, hzx⟩
        · have hkey := le_antisymm hxz (h.head_le hx)
          exact ⟨mates_of_key_eq hkey, mates_congr_key hkey (mates_comm.mp hxy.mates)⟩
        · have hkey := le_antisymm hyz (h.head_le hy)
          exact ⟨mates_congr_key hkey hxy.mates, mates_of_key_eq hkey⟩
      · exact hxy.between z hz hbetween
  · rintro ⟨hnot, hfits⟩ t ht
    rcases List.mem_cons.mp ht with rfl | ht'
    · apply List.Pairwise.imp_of_mem (R := fun _ _ => True)
      · intro x y hx _ _ hxy
        apply hxy.left.not_mates
        rcases List.mem_cons.mp hx with rfl | hx
        · exact mates_self _
        · exact mates_of_key_eq (le_antisymm hxy.left.key_le (h.head_le hx))
      · exact pairwise_of_forall fun _ _ => trivial
    · refine List.pairwise_cons.mpr ⟨fun b hb hab => ?_, ?_⟩
      · refine hnot ⟨t.width, ⟨t, ht', hab.left.not_mates, hab.left.hostPrefix, hab.left.singlehost,
          rfl⟩, hab.left.digits, b, hb, fun z hz hzb => ?_, hab.right.digits⟩
        exact (hab.between z (mem_cons_of_mem a hz) (Or.inl ⟨h.head_le hz, hzb⟩)).1
      · apply (hfits t ht').imp
        intro x y hnot' hxy
        exact hnot' ⟨hxy.mates, fun z hz => hxy.between z (mem_cons_of_mem a hz), hxy.left,
          hxy.right⟩

/-! ## The whole loop -/

/-- Ranges in order are split to the end exactly when they fit. -/
theorem settle_spec (hl : ∀ x ∈ l, Small x) (hordered : Ordered l) :
    (¬ CoalesceFits l ∧ settle coalescePair l = none) ∨
      (CoalesceFits l ∧ ∃ m, settle coalescePair l = some m ∧ Settled l m ∧ ∀ x ∈ m, Small x) := by
  induction l with
  | nil =>
    refine Or.inr ⟨fun t ht => absurd ht not_mem_nil, [], rfl, Settled.refl hordered, hl⟩
  | cons a l ih =>
    have ha := hl a mem_cons_self
    have hrest : ∀ x ∈ l, Small x := fun x hx => hl x (mem_cons_of_mem a hx)
    rw [coalesceFits_cons hordered, settle]
    rcases ih hrest hordered.tail with ⟨hnot, hnone⟩ | ⟨hfits, m, hm, hsettled, hsmall⟩
    · exact Or.inl ⟨fun h => hnot h.2, by rw [hnone, bind_none]⟩
    · have hbelow := hsettled.le_of_le fun z hz => hordered.head_le hz
      have ham : Ordered (a :: m) := List.pairwise_cons.mpr ⟨hbelow, hsettled.ordered⟩
      have hchain : List.IsChain (Apart coalescePair) m := by
        cases l with
        | nil =>
          obtain rfl := Option.some.inj hm
          exact isChain_nil
        | cons b l => exact ((Lib.Restart.ends_settle coalesce_laws [] hrest).2 m hm).chain
      rw [hm, bind_some, ← hsettled.clash_iff fun z hz => hordered.head_le hz]
      rcases insert_spec ha hsmall ham hchain with ⟨hclash, hnone⟩ | ⟨hno, m', hm', hsettled'⟩
      · exact Or.inl ⟨fun h => h.1 hclash, hnone⟩
      · exact Or.inr ⟨⟨hno, hfits⟩, m', hm', (Settled.cons hordered hsettled).trans hsettled',
          (Lib.Restart.inserted coalesce_laws ha hsmall hchain hm').good⟩

/-! ## Joining ranges that touch -/

/-- Two ranges that touch are one range with the hosts of both. -/
theorem touch_spec {a' b' : HostRange} (ha : Small a) (hb : Small b) (htouch : a.hi = b.lo - 1)
    (hzero : hostrangePrefixCmp a b = 0) (hcombine : hostrangeWidthCombine a b = some (a', b'))
    (hsize : a.size + b.size < 2 ^ 31) :
    ({ a' with hi := b.hi } : HostRange).key = a.key ∧ Small { a' with hi := b.hi } ∧
      ({ a' with hi := b.hi } : HostRange).size = a.size + b.size ∧
        ({ a' with hi := b.hi } : HostRange).hosts = a.hosts ++ b.hosts := by
  obtain ⟨hwa, hwb, hwidth⟩ := widthCombine_some hcombine
  obtain ⟨hname, hsingle⟩ := (prefixCmp_eq_zero_iff ha.sortable hb.sortable).mp hzero
  have hahi := ha.hi_lt
  have hbhi := hb.hi_lt
  have hale := ha.sortable.wf.le
  have hble := hb.sortable.wf.le
  have hnext : a.hi.toNat + 1 = b.lo.toNat := by
    have hsub : (b.lo - 1).toNat = (2 ^ 64 - 1 + b.lo.toNat) % 2 ^ 64 := BitVec.toNat_sub b.lo 1
    rw [BitVec.toNat_eq, hsub] at htouch
    omega
  have hs : a.singlehost = false := by
    rw [Bool.eq_false_iff]
    intro hs
    have hzero' := (hb.sortable.wf.single (hsingle ▸ hs)).1
    rw [hzero'] at hnext
    cases hnext
  have hs' : a'.singlehost = false := hwa.singlehost.trans hs
  obtain ⟨hwf, hsum, hhosts⟩ := join_hosts ha.sortable.wf hb.sortable.wf hs hname hsingle hwa hwb
    hwidth hnext hsize
  have hs' : ({ a' with hi := b.hi } : HostRange).singlehost = false := hwa.singlehost.trans hs
  have hspace : NoSpace a'.hostPrefix := by
    rw [hwa.hostPrefix]
    exact ha.sortable.noSpace
  exact ⟨hwa.key_eq, ⟨⟨hwf, hspace, fun h => absurd (hs'.symm.trans h) Bool.false_ne_true⟩, hbhi,
    hsum ▸ hsize⟩, hsum, hhosts⟩

/-- Ranges were joined: the hosts are in their places. -/
structure Collapsed (l m : List HostRange) : Prop where
  hosts : m.flatMap HostRange.hosts = l.flatMap HostRange.hosts
  sizes_eq : sizes m = sizes l
  small : ∀ x ∈ m, Small x
  ordered : Ordered m
  key_le : ∀ z' ∈ m, ∃ z ∈ l, z.key ≤ z'.key

theorem Collapsed.cons (h : Collapsed l m) (ha : Small a) (hl : Ordered (a :: l)) :
    Collapsed (a :: l) (a :: m) := by
  refine ⟨?_, ?_, fun x hx => ?_, List.pairwise_cons.mpr ⟨fun z hz => ?_, h.ordered⟩, fun z hz => ?_⟩
  · rw [flatMap_cons, flatMap_cons, h.hosts]
  · rw [sizes_cons, sizes_cons, h.sizes_eq]
  · rcases List.mem_cons.mp hx with rfl | hx
    · exact ha
    · exact h.small x hx
  · obtain ⟨z', hz', hle⟩ := h.key_le z hz
    exact (hl.head_le hz').trans hle
  · rcases List.mem_cons.mp hz with rfl | hz
    · exact ⟨z, mem_cons_self, le_refl _⟩
    · obtain ⟨z', hz', hle⟩ := h.key_le z hz
      exact ⟨z', mem_cons_of_mem a hz', hle⟩

/-- The hosts of ranges in order are in their places after `hostlist_collapse`. -/
theorem collapse_spec (hl : ∀ x ∈ l, Small x) (hordered : Ordered l) (hsizes : sizes l < 2 ^ 31) :
    Collapsed l (collapse l) := by
  induction l with
  | nil => exact ⟨rfl, rfl, hl, hordered, fun z hz => absurd hz not_mem_nil⟩
  | cons a l ih =>
    have ha := hl a mem_cons_self
    rw [sizes_cons] at hsizes
    have hrest := ih (fun x hx => hl x (mem_cons_of_mem a hx)) hordered.tail (by omega)
    have hkeep := hrest.cons ha hordered
    rw [collapse]
    cases hm : collapse l with
    | nil =>
      rw [hm] at hkeep
      exact hkeep
    | cons b m =>
      rw [hm] at hkeep hrest
      dsimp only
      split
      · rename_i htouch
        cases hcombine : hostrangeWidthCombine a b with
        | none => exact hkeep
        | some ranges =>
          obtain ⟨a', b'⟩ := ranges
          have hsum := hrest.sizes_eq
          rw [sizes_cons] at hsum
          obtain ⟨hkey, hsmall, hsize, hhosts⟩ := touch_spec ha (hrest.small b mem_cons_self)
            htouch.1 htouch.2 hcombine (by omega)
          have hsizes' := hkeep.sizes_eq
          have hhosts' := hkeep.hosts
          rw [sizes_cons, sizes_cons] at hsizes'
          rw [flatMap_cons, flatMap_cons] at hhosts'
          refine ⟨?_, ?_, fun x hx => ?_, List.pairwise_cons.mpr ⟨fun z hz => ?_, ?_⟩, fun z hz => ?_⟩
          · rw [flatMap_cons, hhosts, append_assoc, hhosts']
          · rw [sizes_cons, hsize]
            omega
          · rcases List.mem_cons.mp hx with rfl | hx
            · exact hsmall
            · exact hrest.small x (mem_cons_of_mem b hx)
          · rw [hkey]
            exact hkeep.ordered.head_le (mem_cons_of_mem b hz)
          · exact hrest.ordered.tail
          · rcases List.mem_cons.mp hz with rfl | hz
            · exact ⟨a, mem_cons_self, le_of_eq hkey.symm⟩
            · exact hkeep.key_le z (mem_cons_of_mem a (mem_cons_of_mem b hz))
      · exact hkeep

/-! ## Every list -/

/-- A list of host names whose numbers are below `2 ^ 31`. -/
structure SortList extends UniqList where
  hi_lt : ∀ a ∈ hr, a.hi.toNat < 2 ^ 31

/-- What is promised of `hostlist_sort`, for every way in which the ranges may be sorted. -/
structure SortContract (hl : SortList) : Prop where
  ends : 1 < hl.hr.length → ∀ sorted, Qsorted hl.hr sorted →
    ∃ fuel hl', hostlistCoalesce fuel { hl.toHostList with hr := sorted } = some hl'
  expansion : ∀ hl', HostlistSort hl.toHostList hl' → hl'.expansion.Perm hl.expansion
  nhosts : ∀ hl', HostlistSort hl.toHostList hl' →
    hl'.nhosts = BitVec.ofNat 32 hl'.expansion.length
  ordered : ∀ hl', HostlistSort hl.toHostList hl' →
    List.IsChain (fun a b => (hostrangeCmp a b).1 ≤ 0) hl'.hr

theorem SortList.small (hl : SortList) : ∀ x ∈ hl.hr, Small x :=
  fun x hx => ⟨(hl.good x hx).1, hl.hi_lt x hx, (hl.good x hx).2⟩

theorem SortList.near (hl : SortList) : NearList hl.hr := by
  apply nearList_of_lt
  intro a ha
  exact Nat.lt_of_le_of_lt (hl.ranges.wf a ha).le (hl.hi_lt a ha)

theorem Rewidth.small (h : Rewidth a b) (ha : Small a) : Small b :=
  ⟨h.sortable ha.sortable, by rw [h.hi]; exact ha.hi_lt, by rw [h.size_eq]; exact ha.size_lt⟩

/-- The ranges after the sort: in order, with the hosts of the list, and they fit as before. -/
structure InOrder (l sorted : List HostRange) : Prop where
  small : ∀ x ∈ sorted, Small x
  ordered : Ordered sorted
  hosts : (sorted.flatMap HostRange.hosts).Perm (l.flatMap HostRange.hosts)
  fits : CoalesceFits sorted ↔ CoalesceFits l

theorem hosts_rewidth (hl : ∀ x ∈ l, Small x) (h : List.Forall₂ Rewidth l m) :
    m.flatMap HostRange.hosts = l.flatMap HostRange.hosts := by
  induction h with
  | nil => rfl
  | cons hw _ ih =>
    have ha := hl _ mem_cons_self
    rw [flatMap_cons, flatMap_cons, hw.hosts_eq ha.sortable ha.size_lt,
      ih fun x hx => hl x (mem_cons_of_mem _ hx)]

theorem SortList.inOrder (hl : SortList) {sorted : List HostRange} (h : Qsorted hl.hr sorted) :
    InOrder hl.hr sorted := by
  have hspec := h.spec hl.sortable hl.near hl.ranges.sizes_lt
  obtain ⟨m, hcompared, hperm, -⟩ := h
  have hrewidth := hcompared.rewidth
  refine ⟨fun x' hx' => ?_, hspec.ranges.sorted, ?_, ?_, ?_⟩
  · obtain ⟨x, hx, hw⟩ := hspec.of_sorted x' hx'
    exact hw.small (hl.small x hx)
  · rw [← hosts_rewidth hl.small hrewidth]
    exact hperm.flatMap_right _
  · intro hfits
    apply (hfits.perm hperm).rewidth
    exact hrewidth.flip.imp fun a b hw => hw.symm
  · exact fun hfits => (hfits.rewidth hrewidth).perm hperm.symm

theorem length_hosts_of_small (hl : ∀ x ∈ l, Small x) :
    (l.flatMap HostRange.hosts).length = sizes l := by
  induction l with
  | nil => rfl
  | cons a l ih =>
    have ha := hl a mem_cons_self
    rw [flatMap_cons, length_append, length_hosts ha.sortable.wf ha.size_lt, sizes_cons,
      ih fun x hx => hl x (mem_cons_of_mem a hx)]

/-- The ranges are in the order of `hostrange_cmp`. -/
theorem Ordered.isChain_cmp (h : Ordered l) (hl : ∀ x ∈ l, Small x) :
    List.IsChain (fun a b => (hostrangeCmp a b).1 ≤ 0) l := by
  have hnear : NearList l := by
    apply nearList_of_lt
    intro a ha
    exact Nat.lt_of_le_of_lt (hl a ha).sortable.wf.le (hl a ha).hi_lt
  apply List.Pairwise.isChain
  apply h.imp_of_mem
  intro a b ha hb hle
  exact (hostrangeCmp_iff (hl a ha).sortable (hl b hb).sortable (hnear a ha b hb)
    (hnear b hb a ha)).1.mpr hle

/-- What `hostlist_sort` is to leave. -/
structure SortedHosts (hl : SortList) (hl' : HostList) : Prop where
  expansion : hl'.expansion.Perm hl.expansion
  nhosts : hl'.nhosts = BitVec.ofNat 32 hl'.expansion.length
  ordered : List.IsChain (fun a b => (hostrangeCmp a b).1 ≤ 0) hl'.hr

/-- Ranges in order are split and joined to the end exactly when they fit. -/
theorem coalesce_spec (hl : SortList) {sorted : List HostRange} (h : InOrder hl.hr sorted) :
    (∀ fuel hl', hostlistCoalesce fuel { hl.toHostList with hr := sorted } = some hl' →
      SortedHosts hl hl') ∧
    ((∃ fuel hl', hostlistCoalesce fuel { hl.toHostList with hr := sorted } = some hl') ↔
      CoalesceFits hl.hr) := by
  rw [← h.fits]
  rcases settle_spec h.small h.ordered with ⟨hnot, hnone⟩ | ⟨hfits, m, hm, hsettled, hsmall⟩
  · have hno : ∀ fuel hl', hostlistCoalesce fuel { hl.toHostList with hr := sorted } ≠ some hl' := by
      intro fuel hl'
      have hscan := Lib.Restart.scan_eq_none coalesce_laws h.small hnone fuel
      rw [hostlistCoalesce]
      dsimp only
      rw [hscan, map_none]
      exact (some_ne_none _).symm
    refine ⟨fun fuel hl' heq => absurd heq (hno fuel hl'), iff_of_false ?_ hnot⟩
    rintro ⟨fuel, hl', heq⟩
    exact hno fuel hl' heq
  · obtain ⟨enough, hscan⟩ := Lib.Restart.scan_settle coalesce_laws h.small hm
    constructor
    · intro fuel hl' heq
      obtain ⟨m', hscan', rfl⟩ := Option.map_eq_some_iff.mp heq
      obtain rfl := Lib.Restart.scan_unique hscan hscan'
      have hlength : sizes m = sizes hl.hr := by
        rw [← length_hosts_of_small hsmall, ← length_hosts_of_small hl.small]
        exact (hsettled.hosts.trans h.hosts).length_eq
      have hsizes : sizes m < 2 ^ 31 := hlength ▸ hl.ranges.sizes_lt
      have hcollapsed := collapse_spec hsmall hsettled.ordered hsizes
      refine ⟨?_, ?_, hcollapsed.ordered.isChain_cmp hcollapsed.small⟩
      · rw [HostList.expansion, hcollapsed.hosts]
        exact hsettled.hosts.trans h.hosts
      · rw [HostList.expansion, length_hosts_of_small hcollapsed.small, hcollapsed.sizes_eq, hlength]
        exact hl.nhosts_eq
    · refine iff_of_true ⟨enough, { hl.toHostList with hr := collapse m }, ?_⟩ hfits
      rw [hostlistCoalesce]
      dsimp only
      rw [hscan, map_some]

/-- Whatever `hostlist_sort` leaves has the hosts of the list in order. -/
theorem HostlistSort.sortedHosts {hl : SortList} {hl' : HostList} (h : HostlistSort hl.toHostList hl') :
    SortedHosts hl hl' := by
  rw [HostlistSort] at h
  split at h
  · rename_i hshort
    obtain rfl := h
    refine ⟨List.Perm.refl _, ?_, ?_⟩
    · rw [HostList.expansion, length_hosts_of_small hl.small]
      exact hl.nhosts_eq
    · have hordered : Ordered hl.hr := (joinSorted_short hshort hl.nhosts).2
      exact hordered.isChain_cmp hl.small
  · obtain ⟨sorted, fuel, hsorted, heq⟩ := h
    exact (coalesce_spec hl (hl.inOrder hsorted)).1 fuel hl' heq

/-- A list of one range fits. -/
theorem coalesceFits_short (h : l.length ≤ 1) : CoalesceFits l := by
  intro t _
  cases l with
  | nil => exact List.Pairwise.nil
  | cons a rest =>
    have hrest : rest = [] := List.length_eq_zero_iff.mp (Nat.le_zero.mp (Nat.le_of_succ_le_succ h))
    rw [hrest]
    exact pairwise_singleton _ _

/-- `hostlist_sort` ends with the same hosts in order, exactly when the ranges fit. -/
theorem sortContract_iff (hl : SortList) : SortContract hl ↔ CoalesceFits hl.hr := by
  constructor
  · intro hcontract
    by_cases hlen : hl.hr.length ≤ 1
    · exact coalesceFits_short hlen
    · have hsorted := qsorted_insertionSort hl.sortable hl.near
      exact (coalesce_spec hl (hl.inOrder hsorted)).2.mp
        (hcontract.ends (Nat.lt_of_not_le hlen) _ hsorted)
  · intro hfits
    refine ⟨fun _ sorted hsorted => ?_, fun hl' h => h.sortedHosts.expansion,
      fun hl' h => h.sortedHosts.nhosts, fun hl' h => h.sortedHosts.ordered⟩
    exact (coalesce_spec hl (hl.inOrder hsorted)).2.mpr hfits

/-- `a[5-20],a[7-12],a[03-05]`. -/
def threeWidths : SortList where
  hr := [⟨"a".toList, 5, 20, 1, false⟩, ⟨"a".toList, 7, 12, 1, false⟩, ⟨"a".toList, 3, 5, 2, false⟩]
  nhosts := 25
  ranges := ⟨by simp only [List.forall_mem_cons]; exact ⟨⟨by decide, Bool.noConfusion⟩,
    ⟨by decide, Bool.noConfusion⟩, ⟨by decide, Bool.noConfusion⟩,
    fun x hx => absurd hx List.not_mem_nil⟩, by decide⟩
  nhosts_eq := by decide
  noSpace := by simp [NoSpace, isSpace]
  single := by decide
  hi_lt := by decide

/-- The part `a[12-20]` comes to stand before `a[03-05]`. -/
theorem sortContract_fails : ¬ SortContract threeWidths := by
  intro h
  have hsorted : Qsorted threeWidths.hr threeWidths.hr :=
    ⟨threeWidths.hr, Compared.start, List.Perm.refl _, fun _ => by decide⟩
  obtain ⟨fuel, hl', hends⟩ := h.ends (by decide) _ hsorted
  have hnone : settle coalescePair threeWidths.hr = none := by decide
  have hscan := Lib.Restart.scan_eq_none coalesce_laws threeWidths.small hnone fuel
  rw [hostlistCoalesce] at hends
  dsimp only at hends
  rw [hscan, Option.map_none] at hends
  cases hends

end Slurm.Hostlist
