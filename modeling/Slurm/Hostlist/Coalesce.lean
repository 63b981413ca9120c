import Slurm.Hostlist.UniqContract
import Slurm.Lib.Restart
import Slurm.Lib.Blocks

/-!
# Splitting and joining ranges without losing hosts

`hostlist_sort` sorts the ranges; then `hostlist_coalesce` splits ranges that overlap and
`hostlist_collapse` joins ranges that touch.

* `hostrangeIntersect`, `coalescePair`, `collapse`: the code.
* `coalescePair_cases`: two neighbours stay, or are split into parts of one range (`SplitInto`), or
  are in the wrong order, which the code does not survive.
* `SplitInto.hosts_perm`: the parts have the hosts of the two ranges.
-/

namespace Slurm.Hostlist

open Lib.Decimal List Option
open Lib.Interval (numbers twice)
open Lib.Restart (scan)

/-! ## The code -/

/-- `hostrange_intersect`: the common hosts, and the ranges after it. -/
def hostrangeIntersect (h1 h2 : HostRange) : Option (HostRange × HostRange × HostRange) :=
  if h1.singlehost ∨ h2.singlehost then
    none
  else if h1.hi > h2.lo ∧ hostrangePrefixCmp h1 h2 = 0 then
    (hostrangeWidthCombine h1 h2).map fun (h1, h2) =>
      ({ h1 with lo := h2.lo, hi := if h2.hi < h1.hi then h2.hi else h1.hi }, h1, h2)
  else
    none

/-- The ranges of one host that `hostlist_coalesce` inserts before `hnext`. -/
def duplicates (new hprev hnext : HostRange) : List HostRange :=
  (List.range new.count.toNat).flatMap fun k =>
    let lo := new.lo + BitVec.ofNat 64 k
    let hr : HostRange := ⟨new.hostPrefix, lo, lo, new.width, false⟩
    (if lo > hprev.hi then [hr] else []) ++ (if lo < hnext.lo then [hr] else [])

/-- The body of the loop of `hostlist_coalesce`: what is put in the place of two neighbours, with the
last range apart.  An empty first range is an error: then the second one is deleted, and still
used. -/
def coalescePair (hprev hnext : HostRange) : Option (Option (List HostRange × HostRange)) :=
  (hostrangeIntersect hprev hnext).map fun (new, hprev, hnext) =>
    let hnext := { hnext with hi := if new.hi < hprev.hi then hprev.hi else hnext.hi, lo := new.hi }
    let hprev := { hprev with hi := new.lo }
    if hprev.empty then none else some (hprev :: duplicates new hprev hnext, hnext)

/-- `hostlist_collapse`, which goes from the end of the list. -/
def collapse : List HostRange → List HostRange
  | [] => []
  | hprev :: rest =>
    match collapse rest with
    | [] => [hprev]
    | hnext :: rest =>
      if hprev.hi = hnext.lo - 1 ∧ hostrangePrefixCmp hprev hnext = 0 then
        match hostrangeWidthCombine hprev hnext with
        | some (hprev, _) => { hprev with hi := hnext.hi } :: rest
        | none => hprev :: hnext :: rest
      else
        hprev :: hnext :: rest

/-- `hostlist_coalesce`. -/
def hostlistCoalesce (fuel : Nat) (hl : HostList) : Option HostList :=
  (scan coalescePair fuel (hl.hr.length - 1) hl.hr).map fun hr => { hl with hr := collapse hr }

/-- What `hostlist_sort` leaves. -/
def HostlistSort (hl hl' : HostList) : Prop :=
  if hl.hr.length ≤ 1 then hl' = hl
  else ∃ sorted fuel, Qsorted hl.hr sorted ∧
    hostlistCoalesce fuel { hl with hr := sorted } = some hl'

/-! ## Parts of a range -/

variable {a b c : HostRange} {lo hi n : Nat}

/-- The range with other numbers. -/
def HostRange.part (hr : HostRange) (lo hi : Nat) : HostRange :=
  { hr with lo := BitVec.ofNat 64 lo, hi := BitVec.ofNat 64 hi }

/-- A range that can be sorted, with small numbers. -/
structure Small (a : HostRange) : Prop where
  sortable : Sortable a
  hi_lt : a.hi.toNat < 2 ^ 31
  size_lt : a.size < 2 ^ 31

theorem toNat_ofNat_small (h : n < 2 ^ 31) : (BitVec.ofNat 64 n).toNat = n := by
  rw [BitVec.toNat_ofNat]
  omega

theorem part_lo (h : lo < 2 ^ 31) : (c.part lo hi).lo.toNat = lo := toNat_ofNat_small h

theorem part_hi (h : hi < 2 ^ 31) : (c.part lo hi).hi.toNat = hi := toNat_ofNat_small h

theorem part_size (hle : lo ≤ hi) (hlt : hi < 2 ^ 31) : (c.part lo hi).size = hi + 1 - lo := by
  rw [HostRange.size, part_lo (by omega), part_hi hlt]

theorem part_small (hc : NoSpace c.hostPrefix) (hs : c.singlehost = false) (hle : lo ≤ hi)
    (hlt : hi < 2 ^ 31) (hsize : hi + 1 - lo < 2 ^ 31) : Small (c.part lo hi) := by
  have hlo : (c.part lo hi).lo.toNat = lo := part_lo (by omega)
  have hhi : (c.part lo hi).hi.toNat = hi := part_hi hlt
  refine ⟨⟨⟨by omega, fun hsingle => ?_⟩, hc, fun hsingle => ?_⟩, by omega,
    by rwa [part_size hle hlt]⟩
  · exact absurd (hs.symm.trans hsingle) Bool.false_ne_true
  · exact absurd (hs.symm.trans hsingle) Bool.false_ne_true

theorem part_hosts (hc : NoSpace c.hostPrefix) (hs : c.singlehost = false) (hle : lo ≤ hi)
    (hlt : hi < 2 ^ 31) (hsize : hi + 1 - lo < 2 ^ 31) :
    (c.part lo hi).hosts = (numbers lo hi).map c.numbered := by
  have hsmall := part_small hc hs hle hlt hsize
  rw [hosts_eq hsmall.sortable.wf hsmall.size_lt hs, part_lo (by omega), part_size hle hlt]
  rfl

theorem Rewidth.part (h : Rewidth a c) : c = c.part a.lo.toNat a.hi.toNat := by
  rw [HostRange.part, BitVec.ofNat_toNat, BitVec.ofNat_toNat, BitVec.setWidth_eq,
    BitVec.setWidth_eq, ← h.lo, ← h.hi]

/-! ## Two neighbours -/

/-- Two ranges overlap in more than one number. -/
structure Overlaps (a b : HostRange) : Prop where
  numbered : a.singlehost = false
  mates : Mates a b
  lt : b.lo.toNat < a.hi.toNat

/-- The parts that two ranges are split into. -/
structure SplitInto (a b : HostRange) (before : List HostRange) (next c : HostRange) : Prop where
  left : Rewidth a c
  right : Rewidth b (c.part b.lo.toNat b.hi.toNat)
  before_eq : before = c.part a.lo.toNat b.lo.toNat ::
    (twice b.lo.toNat (min a.hi.toNat b.hi.toNat)).map fun n => c.part n n
  next_eq : next = c.part (min a.hi.toNat b.hi.toNat) (max a.hi.toNat b.hi.toNat)

theorem intersect_none (ha : Sortable a) (hb : Sortable b) (h : ¬ Overlaps a b) :
    hostrangeIntersect a b = none := by
  unfold hostrangeIntersect
  split
  · rfl
  · rename_i hs
    rw [not_or] at hs
    split
    · rename_i hover
      rw [map_eq_none_iff]
      by_contra hne
      obtain ⟨hname, hsingle⟩ := (prefixCmp_eq_zero_iff ha hb).mp hover.2
      refine h ⟨Bool.eq_false_iff.mpr hs.1, ⟨hname, hsingle, ?_⟩, BitVec.lt_def.mp hover.1⟩
      exact widthCombine_isSome_iff.mp (Option.isSome_iff_ne_none.mpr hne)
    · rfl

theorem intersect_some (ha : Sortable a) (hb : Sortable b) (h : Overlaps a b) :
    ∃ a' b', Rewidth a a' ∧ Rewidth b b' ∧ a'.width = b'.width ∧ hostrangeIntersect a b =
      some ({ a' with lo := b.lo, hi := if b.hi < a.hi then b.hi else a.hi }, a', b') := by
  have hs := Bool.eq_false_iff.mp h.numbered
  have hs' := Bool.eq_false_iff.mp (h.mates.singlehost ▸ h.numbered)
  have hzero := (prefixCmp_eq_zero_iff ha hb).mpr ⟨h.mates.hostPrefix, h.mates.singlehost⟩
  obtain ⟨⟨a', b'⟩, hcombine⟩ := Option.isSome_iff_exists.mp
    (widthCombine_isSome_iff.mpr h.mates.widths)
  obtain ⟨hwa, hwb, hwidth⟩ := widthCombine_some hcombine
  refine ⟨a', b', hwa, hwb, hwidth, ?_⟩
  unfold hostrangeIntersect
  rw [if_neg (by rw [not_or]; exact ⟨hs, hs'⟩), if_pos ⟨BitVec.lt_def.mpr h.lt, hzero⟩, hcombine,
    map_some]
  dsimp only
  rw [hwb.lo, hwb.hi, hwa.hi]

/-- The ranges that are inserted are those of the numbers in the middle. -/
theorem duplicates_eq {x y : BitVec 64} (hs : c.singlehost = false) (hle : x.toNat ≤ y.toNat)
    (hlt : y.toNat < 2 ^ 31) {hprev hnext : HostRange} (hprevhi : hprev.hi = x)
    (hnextlo : hnext.lo = y) :
    duplicates { c with lo := x, hi := y } hprev hnext =
      (twice x.toNat y.toNat).map fun n => c.part n n := by
  have hcount : ({ c with lo := x, hi := y } : HostRange).count.toNat = y.toNat + 1 - x.toNat := by
    rw [HostRange.count, if_neg (by rw [hs]; exact Bool.false_ne_true)]
    have hone : BitVec.toNat (1 : BitVec 64) = 1 := rfl
    rw [BitVec.toNat_add, BitVec.toNat_sub, hone]
    dsimp only
    omega
  unfold duplicates twice numbers
  rw [hcount, range'_eq_map_range, flatMap_map, map_flatMap]
  refine flatMap_congr fun k hk => ?_
  rw [mem_range] at hk
  have hn : (x + BitVec.ofNat 64 k).toNat = x.toNat + k := by
    rw [BitVec.toNat_add, BitVec.toNat_ofNat]
    omega
  have hpart : (⟨c.hostPrefix, x + BitVec.ofNat 64 k, x + BitVec.ofNat 64 k, c.width, false⟩ : HostRange)
      = c.part (x.toNat + k) (x.toNat + k) := by
    rw [HostRange.part, ← hn, BitVec.ofNat_toNat, BitVec.setWidth_eq, hs]
  dsimp only
  rw [hprevhi, hnextlo, hpart, map_append]
  congr 1
  · by_cases hlo : x.toNat < x.toNat + k
    · rw [if_pos hlo, if_pos (show x + BitVec.ofNat 64 k > x by rw [gt_iff_lt, BitVec.lt_def]; omega)]
      rfl
    · rw [if_neg hlo, if_neg (show ¬ x + BitVec.ofNat 64 k > x by rw [gt_iff_lt, BitVec.lt_def]; omega)]
      rfl
  · by_cases hhi : x.toNat + k < y.toNat
    · rw [if_pos hhi, if_pos (show x + BitVec.ofNat 64 k < y by rw [BitVec.lt_def]; omega)]
      rfl
    · rw [if_neg hhi, if_neg (show ¬ x + BitVec.ofNat 64 k < y by rw [BitVec.lt_def]; omega)]
      rfl

/-- Two neighbours stay as they are, or are split, or are in the wrong order. -/
theorem coalescePair_cases (ha : Small a) (hb : Small b) :
    (¬ Overlaps a b ∧ coalescePair a b = none) ∨
      (Overlaps a b ∧ b.lo.toNat < a.lo.toNat ∧ coalescePair a b = some none) ∨
        (Overlaps a b ∧ a.lo.toNat ≤ b.lo.toNat ∧ ∃ before next c, SplitInto a b before next c ∧
          coalescePair a b = some (some (before, next))) := by
  by_cases hover : Overlaps a b
  · right
    obtain ⟨a', b', hwa, hwb, hwidth, hintersect⟩ := intersect_some ha.sortable hb.sortable hover
    have hle := hb.sortable.wf.le
    have hlt := hover.lt
    have hahi := ha.hi_lt
    have hbhi := hb.hi_lt
    have hs : a'.singlehost = false := hwa.singlehost.trans hover.numbered
    -- The end of the common hosts.
    obtain ⟨y, hy, hynat⟩ : ∃ y, (if b.hi < a.hi then b.hi else a.hi) = y ∧
        y.toNat = min a.hi.toNat b.hi.toNat := by
      refine ⟨_, rfl, ?_⟩
      split
      · rename_i h
        rw [BitVec.lt_def] at h
        omega
      · rename_i h
        rw [BitVec.lt_def] at h
        omega
    have hmax : (if y < a.hi then a.hi else b.hi).toNat = max a.hi.toNat b.hi.toNat := by
      split
      · rename_i h
        rw [BitVec.lt_def] at h
        omega
      · rename_i h
        rw [BitVec.lt_def] at h
        omega
    have hempty : ({ a' with hi := b.lo } : HostRange).empty = true ↔ b.lo.toNat < a.lo.toNat := by
      rw [HostRange.empty, decide_eq_true_iff, BitVec.lt_def, BitVec.toNat_eq, hwa.lo]
      change b.lo.toNat < a.lo.toNat ∨ b.lo.toNat = 2 ^ 64 - 1 ↔ _
      omega
    unfold coalescePair
    rw [hintersect, map_some, hy]
    dsimp only
    by_cases horder : b.lo.toNat < a.lo.toNat
    · rw [if_pos (hempty.mpr horder)]
      exact Or.inl ⟨hover, horder, rfl⟩
    · rw [if_neg fun h => horder (hempty.mp h), duplicates_eq (x := b.lo) (y := y) hs (by omega) (by omega) rfl rfl]
      refine Or.inr ⟨hover, by omega, _, _, a', ⟨hwa, ?_, ?_, ?_⟩, rfl⟩
      · have hb' : a'.part b.lo.toNat b.hi.toNat = b' := by
          rw [HostRange.part, BitVec.ofNat_toNat, BitVec.ofNat_toNat, BitVec.setWidth_eq,
            BitVec.setWidth_eq]
          cases b'
          simp only [HostRange.mk.injEq]
          exact ⟨hwa.hostPrefix.trans (hover.mates.hostPrefix.trans hwb.hostPrefix.symm),
            hwb.lo.symm, hwb.hi.symm, hwidth,
            hwa.singlehost.trans (hover.mates.singlehost.trans hwb.singlehost.symm)⟩
        rw [hb']
        exact hwb
      · rw [hynat, HostRange.part, BitVec.ofNat_toNat, BitVec.ofNat_toNat, BitVec.setWidth_eq,
          BitVec.setWidth_eq, ← hwa.lo]
      · rw [HostRange.part, ← hynat, ← hmax, BitVec.ofNat_toNat, BitVec.ofNat_toNat,
          BitVec.setWidth_eq, BitVec.setWidth_eq]
        cases b'
        simp only [HostRange.mk.injEq, true_and]
        dsimp only at hwidth
        refine ⟨?_, ?_, hwidth.symm, ?_⟩
        · exact hwb.hostPrefix.trans (hover.mates.hostPrefix.symm.trans hwa.hostPrefix.symm)
        · have hhi := hwb.hi
          dsimp only at hhi
          rw [hwa.hi, hhi]
        · exact hwb.singlehost.trans (hover.mates.singlehost.symm.trans hwa.singlehost.symm)
  · left
    refine ⟨hover, ?_⟩
    unfold coalescePair
    rw [intersect_none ha.sortable hb.sortable hover, map_none]

/-! ## The parts -/

namespace SplitInto

variable {before : List HostRange} {next : HostRange}

/-- Bounds on the numbers of two ranges that are split. -/
theorem bounds (ha : Small a) (hb : Small b) (hover : Overlaps a b)
    (horder : a.lo.toNat ≤ b.lo.toNat) :
    b.lo.toNat ≤ min a.hi.toNat b.hi.toNat ∧ max a.hi.toNat b.hi.toNat < 2 ^ 31 ∧
      max a.hi.toNat b.hi.toNat + 1 - min a.hi.toNat b.hi.toNat < 2 ^ 31 ∧
      b.lo.toNat + 1 - a.lo.toNat < 2 ^ 31 := by
  have hle := hb.sortable.wf.le
  have hlt := hover.lt
  have hahi := ha.hi_lt
  have hbhi := hb.hi_lt
  have hasize := ha.size_lt
  have hbsize := hb.size_lt
  rw [HostRange.size] at hasize hbsize
  omega

theorem noSpace (h : SplitInto a b before next c) (ha : Small a) : NoSpace c.hostPrefix := by
  rw [h.left.hostPrefix]
  exact ha.sortable.noSpace

theorem singlehost (h : SplitInto a b before next c) (hover : Overlaps a b) :
    c.singlehost = false := h.left.singlehost.trans hover.numbered

theorem next_lo (h : SplitInto a b before next c) (ha : Small a) :
    next.lo.toNat = min a.hi.toNat b.hi.toNat := by
  have hahi := ha.hi_lt
  rw [h.next_eq, part_lo (by omega)]

theorem next_hi (h : SplitInto a b before next c) (ha : Small a) (hb : Small b) :
    next.hi.toNat = max a.hi.toNat b.hi.toNat := by
  have hahi := ha.hi_lt
  have hbhi := hb.hi_lt
  rw [h.next_eq, part_hi (by omega)]

/-- Each part is a part of the range. -/
theorem exists_part (h : SplitInto a b before next c) (ha : Small a) (hb : Small b)
    (hover : Overlaps a b) (horder : a.lo.toNat ≤ b.lo.toNat) {x : HostRange}
    (hx : x ∈ before ∨ x = next) :
    ∃ lo hi, x = c.part lo hi ∧ a.lo.toNat ≤ lo ∧ lo ≤ hi ∧ hi < 2 ^ 31 ∧ hi + 1 - lo < 2 ^ 31 := by
  obtain ⟨hmin, hmax, hsize, hsize'⟩ := bounds ha hb hover horder
  rcases hx with hx | rfl
  · rw [h.before_eq] at hx
    rcases List.mem_cons.mp hx with rfl | hx
    · exact ⟨_, _, rfl, by omega, by omega, by omega, by omega⟩
    · obtain ⟨n, hn, rfl⟩ := List.mem_map.mp hx
      have hmem := Lib.Interval.mem_twice hn
      exact ⟨n, n, rfl, by omega, by omega, by omega, by omega⟩
  · exact ⟨_, _, h.next_eq, by omega, by omega, by omega, by omega⟩

theorem small (h : SplitInto a b before next c) (ha : Small a) (hb : Small b)
    (hover : Overlaps a b) (horder : a.lo.toNat ≤ b.lo.toNat) {x : HostRange}
    (hx : x ∈ before ∨ x = next) : Small x := by
  obtain ⟨lo, hi, rfl, -, hle, hlt, hsize⟩ := h.exists_part ha hb hover horder hx
  exact part_small (h.noSpace ha) (h.singlehost hover) hle hlt hsize

/-- The parts follow each other. -/
theorem pairwise (h : SplitInto a b before next c) (ha : Small a) (hb : Small b)
    (hover : Overlaps a b) (horder : a.lo.toNat ≤ b.lo.toNat) {f : HostRange}
    (hf : f.lo.toNat = next.lo.toNat) :
    (before ++ [f]).Pairwise fun x y => x.hi.toNat ≤ y.lo.toNat := by
  obtain ⟨hmin, hmax, -, -⟩ := bounds ha hb hover horder
  rw [h.next_lo ha] at hf
  have hlast : ∀ x ∈ before, x.hi.toNat ≤ f.lo.toNat := by
    intro x hx
    rw [h.before_eq] at hx
    rcases List.mem_cons.mp hx with rfl | hx
    · rw [part_hi (by omega)]
      omega
    · obtain ⟨n, hn, rfl⟩ := List.mem_map.mp hx
      have hmem := Lib.Interval.mem_twice hn
      rw [part_hi (by omega)]
      omega
  refine List.pairwise_append.mpr ⟨?_, pairwise_singleton _ _, fun x hx y hy => ?_⟩
  · rw [h.before_eq, pairwise_cons, pairwise_map]
    refine ⟨fun x hx => ?_, ?_⟩
    · obtain ⟨n, hn, rfl⟩ := List.mem_map.mp hx
      have hmem := Lib.Interval.mem_twice hn
      rw [part_hi (by omega), part_lo (by omega)]
      exact hmem.1
    · refine (Lib.Interval.pairwise_twice _ _).imp_of_mem fun {m n} hm hn hle => ?_
      have hmem := Lib.Interval.mem_twice hm
      have hmem' := Lib.Interval.mem_twice hn
      rwa [part_hi (by omega), part_lo (by omega)]
  · rw [List.mem_singleton.mp hy]
    exact hlast x hx

/-- The parts have the hosts of the two ranges. -/
theorem hosts_perm (h : SplitInto a b before next c) (ha : Small a) (hb : Small b)
    (hover : Overlaps a b) (horder : a.lo.toNat ≤ b.lo.toNat) :
    (before.flatMap HostRange.hosts ++ next.hosts).Perm (a.hosts ++ b.hosts) := by
  obtain ⟨hmin, hmax, hsize, hsize'⟩ := bounds ha hb hover horder
  have hle := ha.sortable.wf.le
  have hle' := hb.sortable.wf.le
  have hasize := ha.size_lt
  have hbsize := hb.size_lt
  rw [HostRange.size] at hasize hbsize
  have hname := h.noSpace ha
  have hs := h.singlehost hover
  have hahosts : a.hosts = (numbers a.lo.toNat a.hi.toNat).map c.numbered := by
    rw [← h.left.hosts_eq ha.sortable ha.size_lt]
    conv_lhs => rw [h.left.part]
    exact part_hosts hname hs hle ha.hi_lt hasize
  have hbhosts : b.hosts = (numbers b.lo.toNat b.hi.toNat).map c.numbered := by
    rw [← h.right.hosts_eq hb.sortable hb.size_lt]
    exact part_hosts hname hs hle' hb.hi_lt hbsize
  have hmiddle : ((twice b.lo.toNat (min a.hi.toNat b.hi.toNat)).map fun n => c.part n n).flatMap
      HostRange.hosts = (twice b.lo.toNat (min a.hi.toNat b.hi.toNat)).map c.numbered := by
    rw [flatMap_map, ← flatMap_singleton' (List.map c.numbered _), flatMap_map]
    refine flatMap_congr fun n hn => ?_
    have hmem := Lib.Interval.mem_twice hn
    rw [part_hosts hname hs (Nat.le_refl n) (by omega) (by omega), numbers, Nat.add_sub_cancel_left]
    rfl
  rw [h.before_eq, h.next_eq, flatMap_cons, hmiddle,
    part_hosts hname hs horder (by omega) hsize', part_hosts hname hs (by omega) hmax hsize,
    hahosts, hbhosts, append_assoc, ← map_append, ← map_append, ← map_append]
  exact (Lib.Interval.split_perm horder (Nat.le_of_lt hover.lt) hle').map _

end SplitInto

/-- Ranges that do not reach the next one stay as they are. -/
theorem apart_of_le (h : a.hi.toNat ≤ b.lo.toNat) : coalescePair a b = none := by
  have hnot : ¬ a.hi > b.lo := by
    rw [gt_iff_lt, BitVec.lt_def]
    omega
  unfold coalescePair hostrangeIntersect
  split
  · rfl
  · rw [if_neg fun hboth => hnot hboth.1]
    rfl

/-- What the scan of the list relies on. -/
theorem coalesce_laws : Lib.Restart.Laws coalescePair Small fun a p => p.lo.toNat = a.lo.toNat where
  refl _ := rfl
  good_next {a b before next} ha hb h := by
    rcases coalescePair_cases ha hb with ⟨-, h'⟩ | ⟨-, -, h'⟩ | ⟨hover, horder, before', next', c, hsplit, h'⟩
    · rw [h'] at h
      cases h
    · rw [h'] at h
      cases h
    · rw [h'] at h
      cases h
      exact ⟨fun x hx => hsplit.small ha hb hover horder (Or.inl hx),
        hsplit.small ha hb hover horder (Or.inr rfl)⟩
  pieces {a b before next} ha hb h := by
    rcases coalescePair_cases ha hb with ⟨-, h'⟩ | ⟨-, -, h'⟩ | ⟨hover, horder, before', next', c, hsplit, h'⟩
    · rw [h'] at h
      cases h
    · rw [h'] at h
      cases h
    · rw [h'] at h
      cases h
      refine ⟨_, _, hsplit.before_eq, ?_, fun f hf => ?_⟩
      · have hle := ha.sortable.wf.le
        have hlt := ha.hi_lt
        exact part_lo (by omega)
      · exact (hsplit.pairwise ha hb hover horder hf).isChain.imp fun _ _ hle => apart_of_le hle

end Slurm.Hostlist
