import Slurm.Hostlist.Uniq

/-!
# Keeping exactly the set of hosts

* `hostrangeJoin_spec`: one join of neighbours in the order.
* `UniqFits`: between ranges that share a host there are only ranges that could be joined with them.
* `uniqLoop_spec`: the loop on sorted ranges.
* `uniqContract_iff`: a list has each of its hosts once after `hostlist_uniq`, exactly when its
  ranges fit.
-/

namespace Slurm.Hostlist

open Lib.Decimal List

variable {a b c : HostRange} {l m : List HostRange}
variable {a' b' : HostRange} {ndup : Int} {α β : Type} {R : α → β → Prop}

/-! ## Hosts of ranges -/

/-- Two ranges list the same name. -/
def Shares (a b : HostRange) : Prop := ∃ name, name ∈ a.hosts ∧ name ∈ b.hosts

theorem Rewidth.size_eq (h : Rewidth a b) : b.size = a.size := by
  rw [HostRange.size, HostRange.size, h.lo, h.hi]

theorem Rewidth.sameHosts (h : Rewidth a b) : SameHosts a b :=
  ⟨h.hostPrefix, h.lo, h.hi, h.singlehost, fun _ => h.padded_eq⟩

theorem mem_hosts_single (hs : a.singlehost = true) {name : List Char} :
    name ∈ a.hosts ↔ name = a.hostPrefix := by
  rw [hosts_single hs, mem_singleton]

/-- What a join of two ranges is to leave. -/
structure Joined (a b a' : HostRange) (ndup : Int) : Prop where
  mates : Mates a b
  sortable : Sortable a'
  key_eq : a'.key = a.key
  mates_iff : ∀ c, Mates a' c ↔ Mates a c
  mem_hosts : ∀ name, name ∈ a'.hosts ↔ name ∈ a.hosts ∨ name ∈ b.hosts
  size_eq : (a'.size : Int) + ndup = a.size + b.size
  ndup_nonneg : 0 ≤ ndup

/-- What is left of two ranges that are not joined. -/
structure NotJoined (a b a' b' : HostRange) : Prop where
  left : Rewidth a a'
  right : Rewidth b b'
  gap : Mates a b → a.singlehost = false ∧ a.hi.toNat + 1 < b.lo.toNat

theorem mem_hosts_width (ha : a.Wf) (hsize : a.size < 2 ^ 31) (hs : a.singlehost = false)
    (hwidth : Rewidth a b) {name : List Char} : name ∈ a.hosts ↔
      ∃ n, a.lo.toNat ≤ n ∧ n ≤ a.hi.toNat ∧ name = a.hostPrefix ++ padded b.width n := by
  rw [mem_hosts_iff ha hsize hs]
  refine exists_congr fun n => and_congr_right fun hn => and_congr_right fun _ => ?_
  rw [HostRange.numbered, hwidth.padded_eq hn]

theorem toInt_setWidth {x : BitVec 64} (h : x.toNat < 2 ^ 31) :
    (x.setWidth 32).toInt = x.toNat := by
  rw [BitVec.toInt_eq_toNat_cond, BitVec.toNat_setWidth]
  split <;> omega

/-- A range that is extended to the last number of both is the join of them. -/
theorem joined_extend (ha : Sortable a) (hb : Sortable b) (hab : Mates a b)
    (hs : a.singlehost = false) (hlo : a.lo.toNat ≤ b.lo.toNat) (hsize : a.size + b.size < 2 ^ 31)
    (hwa : Rewidth a a') (hwb : Rewidth b b') (hwidth : a'.width = b'.width) {hi : BitVec 64}
    (hmax : hi.toNat = max a.hi.toNat b.hi.toNat) (htouch : b.lo.toNat ≤ a.hi.toNat + 1)
    (hdup : ndup = min (a.hi.toNat : Int) b.hi.toNat - b.lo.toNat + 1) :
    Joined a b { a' with hi } ndup := by
  have hle := ha.wf.le
  have hle' := hb.wf.le
  have hext : ({ a' with hi } : HostRange).size = hi.toNat + 1 - a.lo.toNat := by
    rw [HostRange.size, hwa.lo]
  have hs' : ({ a' with hi } : HostRange).singlehost = false := hwa.singlehost.trans hs
  have hwf : ({ a' with hi } : HostRange).Wf := by
    refine ⟨?_, fun hsingle => ?_⟩
    · rw [show ({ a' with hi } : HostRange).lo = a.lo from hwa.lo]
      dsimp only
      omega
    · rw [hs'] at hsingle
      cases hsingle
  have hsizes : a.size = a.hi.toNat + 1 - a.lo.toNat := rfl
  have hsizes' : b.size = b.hi.toNat + 1 - b.lo.toNat := rfl
  refine ⟨hab, ⟨hwf, ?_, fun hsingle => ?_⟩, ?_, fun c => ?_, fun name => ?_, ?_, ?_⟩
  · exact hwa.hostPrefix ▸ ha.noSpace
  · rw [hs'] at hsingle
    cases hsingle
  · exact hwa.key_eq
  · rw [← hwa.mates_iff]
    exact ⟨fun h => ⟨h.hostPrefix, h.singlehost, h.widths⟩, fun h => ⟨h.hostPrefix, h.singlehost, h.widths⟩⟩
  · rw [mem_hosts_iff hwf (by omega) hs', mem_hosts_width ha.wf (by omega) hs hwa,
      mem_hosts_width hb.wf (by omega) (hab.singlehost ▸ hs) hwb, ← hwidth, ← hab.hostPrefix]
    simp only [HostRange.numbered, hwa.lo, hwa.hostPrefix, hmax]
    constructor
    · rintro ⟨n, hn, hn', rfl⟩
      by_cases hin : n ≤ a.hi.toNat
      · exact Or.inl ⟨n, hn, hin, rfl⟩
      · exact Or.inr ⟨n, by omega, by omega, rfl⟩
    · rintro (⟨n, hn, hn', rfl⟩ | ⟨n, hn, hn', rfl⟩)
      · exact ⟨n, hn, by omega, rfl⟩
      · exact ⟨n, by omega, by omega, rfl⟩
  · rw [hext]
    omega
  · omega

/-- Neighbours in the order are joined, or they are no mates or have a gap between them. -/
theorem hostrangeJoin_spec (ha : Sortable a) (hb : Sortable b) (hkey : a.key ≤ b.key)
    (hsize : a.size + b.size < 2 ^ 31) :
    (Joined a b (hostrangeJoin a b).2.1 (hostrangeJoin a b).1) ∨
      ((hostrangeJoin a b).1 < 0 ∧ NotJoined a b (hostrangeJoin a b).2.1 (hostrangeJoin a b).2.2) := by
  rw [hostrangeJoin]
  by_cases hzero : hostrangePrefixCmp a b = 0
  · rw [if_pos hzero]
    obtain ⟨hname, hsingle⟩ := (prefixCmp_eq_zero_iff ha hb).mp hzero
    cases hcombine : hostrangeWidthCombine a b with
    | none =>
      refine Or.inr ⟨Int.negSucc_lt_zero 0, Rewidth.refl a, Rewidth.refl b, fun hmates => ?_⟩
      have hsome := widthCombine_isSome_iff.mpr hmates.widths
      rw [hcombine] at hsome
      cases hsome
    | some ranges =>
      obtain ⟨a', b'⟩ := ranges
      obtain ⟨hwa, hwb, hwidth⟩ := widthCombine_some hcombine
      have hab : Mates a b :=
        ⟨hname, hsingle, widthCombine_isSome_iff.mp (by rw [hcombine]; rfl)⟩
      have hlo := hab.lo_le hkey
      have hle := ha.wf.le
      have hle' := hb.wf.le
      have hhi := a.hi.isLt
      have hhi' := b.hi.isLt
      have hsizes : a.size = a.hi.toNat + 1 - a.lo.toNat := rfl
      have hsizes' : b.size = b.hi.toNat + 1 - b.lo.toNat := rfl
      have hone : BitVec.toNat (1 : BitVec 64) = 1 := rfl
      dsimp only
      rw [hwa.hi, hwb.lo, hwb.hi]
      cases hs : a.singlehost with
      | true =>
        have hs' : b.singlehost = true := hsingle ▸ hs
        left
        rw [if_pos ⟨hwa.singlehost.trans hs, hwb.singlehost.trans hs'⟩]
        refine ⟨hab, hwa.sortable ha, hwa.key_eq, fun c => hwa.mates_iff, fun name => ?_, ?_, Int.one_nonneg⟩
        · rw [mem_hosts_single (hwa.singlehost.trans hs), mem_hosts_single hs, mem_hosts_single hs',
            hwa.hostPrefix, hname, or_self]
        · rw [hwa.size_eq, hb.wf.size_single hs']
          rfl
      | false =>
        rw [if_neg fun h => Bool.false_ne_true ((hwa.singlehost.trans hs).symm.trans h.1)]
        have hsub : (b.lo - 1).toNat = (2 ^ 64 - 1 + b.lo.toNat) % 2 ^ 64 := BitVec.toNat_sub b.lo 1
        by_cases htouch : a.hi = b.lo - 1
        · left
          rw [if_pos htouch]
          rw [BitVec.toNat_eq, hsub] at htouch
          refine joined_extend ha hb hab hs hlo hsize hwa hwb hwidth ?_ ?_ ?_ <;> omega
        · rw [if_neg htouch]
          rw [BitVec.toNat_eq, hsub] at htouch
          by_cases hover : a.hi ≥ b.lo
          · left
            rw [if_pos hover]
            rw [ge_iff_le, BitVec.le_def] at hover
            by_cases hlt : a.hi < b.hi
            · rw [if_pos hlt]
              rw [BitVec.lt_def] at hlt
              have hnum : (a.hi - b.lo + 1).toNat = a.hi.toNat - b.lo.toNat + 1 := by
                rw [BitVec.toNat_add, BitVec.toNat_sub, hone]
                omega
              have hdup := toInt_setWidth (show (a.hi - b.lo + 1).toNat < 2 ^ 31 by omega)
              rw [hnum] at hdup
              refine joined_extend ha hb hab hs hlo hsize hwa hwb hwidth ?_ ?_ ?_ <;> omega
            · rw [if_neg hlt]
              rw [BitVec.lt_def] at hlt
              have hcount : b'.count.toNat = b.size := by
                rw [count_toNat (hwb.sortable hb).wf (by rw [hwb.size_eq]; omega), hwb.size_eq]
              have hjoined : Joined a b { a' with hi := a.hi } ((b'.count.setWidth 32).toInt) := by
                have hdup := toInt_setWidth (show b'.count.toNat < 2 ^ 31 by omega)
                rw [hcount] at hdup
                refine joined_extend ha hb hab hs hlo hsize hwa hwb hwidth ?_ ?_ ?_ <;> omega
              rw [← hwa.hi] at hjoined
              exact hjoined
          · right
            rw [if_neg hover]
            rw [ge_iff_le, BitVec.le_def] at hover
            exact ⟨Int.negSucc_lt_zero 0, hwa, hwb, fun _ => ⟨hs, by omega⟩⟩
  · rw [if_neg hzero]
    refine Or.inr ⟨Int.negSucc_lt_zero 0, Rewidth.refl a, Rewidth.refl b, fun hmates => ?_⟩
    exact absurd ((prefixCmp_eq_zero_iff ha hb).mpr ⟨hmates.hostPrefix, hmates.singlehost⟩) hzero

/-! ## Ranges that fit -/

/-- Between two ranges that share a host, and at the second one, there are only ranges that can be
joined with the first. -/
def UniqFits (l : List HostRange) : Prop :=
  ∀ a ∈ l, ∀ b ∈ l, ∀ c ∈ l, a.key ≤ c.key → c.key ≤ b.key → Shares a b → Mates a c

/-- Ranges in order. -/
structure SortedRanges (l : List HostRange) : Prop where
  sortable : ∀ a ∈ l, Sortable a
  sorted : l.Pairwise fun a b => a.key ≤ b.key
  sizes_lt : sizes l < 2 ^ 31

theorem mates_of_tie (hac : a.key ≤ c.key) (hcb : c.key ≤ b.key) (hba : b.key ≤ a.key) : Mates a c :=
  mates_of_key_eq (le_antisymm hac (hcb.trans hba))

theorem mates_self (a : HostRange) : Mates a a := mates_of_key_eq rfl

theorem size_le_sizes (ha : a ∈ l) : a.size ≤ sizes l :=
  single_le_sum (fun _ _ => Nat.zero_le _) _ (mem_map_of_mem ha)

theorem Rewidth.hosts_eq (h : Rewidth a b) (ha : Sortable a) (hsize : a.size < 2 ^ 31) :
    b.hosts = a.hosts := h.sameHosts.hosts_eq ha.wf hsize

/-- Two ranges that touch are one range with the hosts of both. -/
theorem join_hosts (ha : a.Wf) (hb : b.Wf) (hs : a.singlehost = false)
    (hname : a.hostPrefix = b.hostPrefix) (hsingle : a.singlehost = b.singlehost)
    (hwa : Rewidth a a') (hwb : Rewidth b b') (hwidth : a'.width = b'.width)
    (hnext : a.hi.toNat + 1 = b.lo.toNat) (hsize : a.size + b.size < 2 ^ 31) :
    ({ a' with hi := b.hi } : HostRange).Wf ∧
      ({ a' with hi := b.hi } : HostRange).size = a.size + b.size ∧
        ({ a' with hi := b.hi } : HostRange).hosts = a.hosts ++ b.hosts := by
  have hle := ha.le
  have hle' := hb.le
  have hs' : ({ a' with hi := b.hi } : HostRange).singlehost = false := hwa.singlehost.trans hs
  have hlo : ({ a' with hi := b.hi } : HostRange).lo = a.lo := hwa.lo
  have hwf : ({ a' with hi := b.hi } : HostRange).Wf := by
    refine ⟨?_, fun h => absurd (hs'.symm.trans h) Bool.false_ne_true⟩
    rw [hlo]
    change a.lo.toNat ≤ b.hi.toNat
    omega
  have hsum : ({ a' with hi := b.hi } : HostRange).size = a.size + b.size := by
    rw [HostRange.size, hlo, HostRange.size, HostRange.size]
    change b.hi.toNat + 1 - a.lo.toNat = _
    omega
  have hmid : b.lo.toNat = a.lo.toNat + 1 * a.size := by
    rw [HostRange.size]
    omega
  refine ⟨hwf, hsum, ?_⟩
  rw [hosts_eq hwf (by omega) hs', hosts_eq ha (by omega) hs, hosts_eq hb (by omega) (hsingle ▸ hs),
    hsum, hlo, hmid, ← range'_append, map_append]
  congr 1
  · refine map_congr_left fun n hn => ?_
    rw [HostRange.numbered, HostRange.numbered, ← hwa.hostPrefix,
      ← hwa.padded_eq (List.mem_range'_1.mp hn).1]
  · refine map_congr_left fun n hn => ?_
    have hn' : b.lo.toNat ≤ n := hmid ▸ (List.mem_range'_1.mp hn).1
    rw [HostRange.numbered, HostRange.numbered, ← hname, ← hwa.hostPrefix, ← hwb.padded_eq hn',
      ← hwidth]

/-- Other widths make no difference. -/
theorem UniqFits.rewidth (h : UniqFits l) (hl : ∀ x ∈ l, Sortable x ∧ x.size < 2 ^ 31)
    (hm : ∀ x' ∈ m, ∃ x ∈ l, Rewidth x x') : UniqFits m := by
  intro a' ha' b' hb' c' hc' hac hcb hshares
  obtain ⟨a, ha, hwa⟩ := hm a' ha'
  obtain ⟨b, hb, hwb⟩ := hm b' hb'
  obtain ⟨c, hc, hwc⟩ := hm c' hc'
  rw [hwa.key_eq, hwc.key_eq] at hac
  rw [hwc.key_eq, hwb.key_eq] at hcb
  have hshares' : Shares a b := by
    obtain ⟨name, hname, hname'⟩ := hshares
    rw [hwa.hosts_eq (hl a ha).1 (hl a ha).2] at hname
    rw [hwb.hosts_eq (hl b hb).1 (hl b hb).2] at hname'
    exact ⟨name, hname, hname'⟩
  rw [hwa.mates_iff, mates_comm, hwc.mates_iff, mates_comm]
  exact h a ha b hb c hc hac hcb hshares'

/-- Mates that share a host have a number in common. -/
theorem Mates.lo_le_hi (h : Mates a b) (hs : a.singlehost = false) (ha : a.Wf) (hb : b.Wf)
    (hsize : a.size < 2 ^ 31) (hsize' : b.size < 2 ^ 31) (hshares : Shares a b) :
    b.lo.toNat ≤ a.hi.toNat := by
  obtain ⟨name, hname, hname'⟩ := hshares
  obtain ⟨n, -, hn, rfl⟩ := (mem_hosts_iff ha hsize hs).mp hname
  obtain ⟨k, hk, -, heq⟩ := (mem_hosts_iff hb hsize' (h.singlehost ▸ hs)).mp hname'
  rw [HostRange.numbered, HostRange.numbered, h.hostPrefix] at heq
  have hvalue := congrArg value (append_cancel_left heq)
  rw [value_padded, value_padded] at hvalue
  omega

theorem SortedRanges.tail (h : SortedRanges (a :: l)) : SortedRanges l := by
  have hlt := h.sizes_lt
  rw [sizes_cons] at hlt
  exact ⟨fun x hx => h.sortable x (mem_cons_of_mem a hx), h.sorted.of_cons, by omega⟩

/-- A range that is not joined with the next one shares no host with a later one, where the ranges
fit. -/
theorem uniqFits_notJoined (h : SortedRanges (a :: b :: l)) (hnot : NotJoined a b a' b') :
    UniqFits (a :: b :: l) ↔ (∀ x ∈ b :: l, ¬ Shares a x) ∧ UniqFits (b :: l) := by
  have hfirst : ∀ x ∈ b :: l, a.key ≤ x.key := fun x hx => rel_of_pairwise_cons h.sorted hx
  have hsecond : ∀ x ∈ b :: l, b.key ≤ x.key := by
    intro x hx
    rcases List.mem_cons.mp hx with rfl | hx
    · exact le_refl _
    · exact rel_of_pairwise_cons h.sorted.of_cons hx
  have hb : b ∈ a :: b :: l := mem_cons_of_mem a mem_cons_self
  constructor
  · intro hfits
    refine ⟨fun x hx hshares => ?_, fun y hy x hx z hz => hfits y (mem_cons_of_mem a hy) x
      (mem_cons_of_mem a hx) z (mem_cons_of_mem a hz)⟩
    have hx' := mem_cons_of_mem a hx
    have hab := hfits a mem_cons_self x hx' b hb (hfirst b mem_cons_self) (hsecond x hx) hshares
    have hax := hfits a mem_cons_self x hx' x hx' (hfirst x hx) (le_refl _) hshares
    have hbx := mates_between hab hax (hfirst b mem_cons_self) (hsecond x hx)
    have hlo := hbx.lo_le (hsecond x hx)
    obtain ⟨hs, hgap⟩ := hnot.gap hab
    have hsize := h.sizes_lt
    have hnum := hax.lo_le_hi hs (h.sortable a mem_cons_self).wf (h.sortable x hx').wf
      (Nat.lt_of_le_of_lt (size_le_sizes mem_cons_self) hsize)
      (Nat.lt_of_le_of_lt (size_le_sizes hx') hsize) hshares
    omega
  · rintro ⟨hnone, hfits⟩ x hx y hy z hz hxz hzy hshares
    rw [mem_cons] at hx hy hz
    rcases hx with rfl | hx
    · rcases hy with rfl | hy
      · exact mates_of_tie hxz hzy (le_refl _)
      · exact absurd hshares (hnone y hy)
    · rcases hy with rfl | hy
      · exact mates_of_tie hxz hzy (hfirst x hx)
      · rcases hz with rfl | hz
        · exact mates_of_key_eq (le_antisymm hxz (hfirst x hx))
        · exact hfits x hx y hy z hz hxz hzy hshares

/-- A range that is joined with the next one fits as the two ranges do. -/
theorem uniqFits_joined (h : SortedRanges (a :: b :: l)) (hjoined : Joined a b a' ndup) :
    UniqFits (a :: b :: l) ↔ UniqFits (a' :: l) := by
  have hab := hjoined.mates
  have hkey := hjoined.key_eq
  have hkeyab : a.key ≤ b.key := rel_of_pairwise_cons h.sorted mem_cons_self
  have hfirst : ∀ x ∈ l, a.key ≤ x.key :=
    fun x hx => rel_of_pairwise_cons h.sorted (mem_cons_of_mem b hx)
  have hsecond : ∀ x ∈ l, b.key ≤ x.key := fun x hx => rel_of_pairwise_cons h.sorted.of_cons hx
  have hshares : ∀ x, Shares a' x ↔ Shares a x ∨ Shares b x := by
    intro x
    simp only [Shares, hjoined.mem_hosts, or_and_right, exists_or]
  have ha : a ∈ a :: b :: l := mem_cons_self
  have hb : b ∈ a :: b :: l := mem_cons_of_mem a mem_cons_self
  have hl : ∀ x ∈ l, x ∈ a :: b :: l :=
    fun x hx => mem_cons_of_mem a (mem_cons_of_mem b hx)
  constructor
  · intro hfits x hx y hy z hz hxz hzy hxy
    rw [mem_cons] at hx hy hz
    rcases hx with rfl | hx
    · rcases hz with rfl | hz
      · exact mates_self _
      · rcases hy with rfl | hy
        · exact mates_of_tie hxz hzy (le_refl _)
        · rw [hkey] at hxz
          rw [hjoined.mates_iff]
          rcases (hshares y).mp hxy with hay | hby
          · exact hfits a ha y (hl y hy) z (hl z hz) hxz hzy hay
          · have hbz := hfits b hb y (hl y hy) z (hl z hz) (hsecond z hz) hzy hby
            exact mates_trans hab hbz hkeyab (hsecond z hz)
    · rcases hy with rfl | hy
      · exact mates_of_tie hxz hzy (hkey ▸ hfirst x hx)
      · rcases hz with rfl | hz
        · exact mates_of_key_eq (le_antisymm hxz (hkey ▸ hfirst x hx))
        · exact hfits x (hl x hx) y (hl y hy) z (hl z hz) hxz hzy hxy
  · intro hfits x hx y hy z hz hxz hzy hxy
    have hlater : ∀ y ∈ l, Shares a' y → ∀ z ∈ l, z.key ≤ y.key → Mates a z := by
      intro y hy hxy z hz hzy
      rw [← hjoined.mates_iff]
      exact hfits a' mem_cons_self y (mem_cons_of_mem a' hy) z (mem_cons_of_mem a' hz)
        (hkey ▸ hfirst z hz) hzy hxy
    rw [mem_cons, mem_cons] at hx hy hz
    rcases hx with rfl | rfl | hx
    · rcases hz with rfl | rfl | hz
      · exact mates_self _
      · exact hab
      · rcases hy with rfl | rfl | hy
        · exact mates_of_tie hxz hzy (le_refl _)
        · have hyz := mates_of_key_eq (le_antisymm (hsecond z hz) hzy)
          exact mates_trans hab hyz hkeyab (hsecond z hz)
        · exact hlater y hy ((hshares y).mpr (Or.inl hxy)) z hz hzy
    · rcases hz with rfl | rfl | hz
      · exact mates_comm.mp hab
      · exact mates_self _
      · rcases hy with rfl | rfl | hy
        · exact mates_of_tie hxz hzy hkeyab
        · exact mates_of_tie hxz hzy (le_refl _)
        · have haz := hlater y hy ((hshares y).mpr (Or.inr hxy)) z hz hzy
          exact mates_between hab haz hkeyab (hsecond z hz)
    · rcases hy with rfl | rfl | hy
      · exact mates_of_tie hxz hzy (hfirst x hx)
      · exact mates_of_tie hxz hzy (hsecond x hx)
      · rcases hz with rfl | rfl | hz
        · exact mates_of_key_eq (le_antisymm hxz (hfirst x hx))
        · exact mates_of_key_eq (le_antisymm hxz (hsecond x hx))
        · exact hfits x (mem_cons_of_mem _ hx) y (mem_cons_of_mem _ hy) z
            (mem_cons_of_mem _ hz) hxz hzy hxy

/-! ## The loop -/

/-- What the loop leaves of ranges in order. -/
structure LoopDone (l : List HostRange) (base : Nat) (hl : HostList) : Prop where
  mem : ∀ name, name ∈ hl.expansion ↔ name ∈ l.flatMap HostRange.hosts
  nhosts : hl.nhosts = BitVec.ofNat 32 (base + hl.expansion.length)
  nodup : hl.expansion.Nodup ↔ UniqFits l

theorem SortedRanges.joined (h : SortedRanges (a :: b :: l)) (hjoined : Joined a b a' ndup) :
    SortedRanges (a' :: l) := by
  have hlt := h.sizes_lt
  have hsize := hjoined.size_eq
  have hndup := hjoined.ndup_nonneg
  rw [sizes_cons, sizes_cons] at hlt
  refine ⟨fun x hx => ?_, List.pairwise_cons.mpr ⟨fun x hx => ?_, h.sorted.of_cons.of_cons⟩, ?_⟩
  · rcases List.mem_cons.mp hx with rfl | hx
    · exact hjoined.sortable
    · exact h.sortable x (mem_cons_of_mem a (mem_cons_of_mem b hx))
  · rw [hjoined.key_eq]
    exact rel_of_pairwise_cons h.sorted (mem_cons_of_mem b hx)
  · rw [sizes_cons]
    omega

theorem SortedRanges.rewidth_head (h : SortedRanges (b :: l)) (hw : Rewidth b b') :
    SortedRanges (b' :: l) := by
  have hlt := h.sizes_lt
  refine ⟨fun x hx => ?_, List.pairwise_cons.mpr ⟨fun x hx => ?_, h.sorted.of_cons⟩, ?_⟩
  · rcases List.mem_cons.mp hx with rfl | hx
    · exact hw.sortable (h.sortable b mem_cons_self)
    · exact h.sortable x (mem_cons_of_mem b hx)
  · rw [hw.key_eq]
    exact rel_of_pairwise_cons h.sorted hx
  · rw [sizes_cons] at *
    rw [hw.size_eq]
    exact hlt

theorem SortedRanges.uniqFits_rewidth_head (h : SortedRanges (b :: l)) (hw : Rewidth b b') :
    UniqFits (b' :: l) ↔ UniqFits (b :: l) := by
  have hgood : ∀ {l : List HostRange}, SortedRanges l → ∀ x ∈ l, Sortable x ∧ x.size < 2 ^ 31 :=
    fun h x hx => ⟨h.sortable x hx, Nat.lt_of_le_of_lt (size_le_sizes hx) h.sizes_lt⟩
  constructor
  · intro hfits
    refine hfits.rewidth (hgood (h.rewidth_head hw)) fun x hx => ?_
    rcases List.mem_cons.mp hx with rfl | hx
    · exact ⟨b', mem_cons_self, hw.symm⟩
    · exact ⟨x, mem_cons_of_mem b' hx, Rewidth.refl x⟩
  · intro hfits
    refine hfits.rewidth (hgood h) fun x hx => ?_
    rcases List.mem_cons.mp hx with rfl | hx
    · exact ⟨b, mem_cons_self, hw⟩
    · exact ⟨x, mem_cons_of_mem b hx, Rewidth.refl x⟩

/-- The loop keeps the names, counts what is left, and leaves no name twice exactly when the ranges
fit. -/
theorem uniqLoop_spec (h : SortedRanges (a :: l)) (base : Nat) :
    LoopDone (a :: l) base (uniqLoop a l (BitVec.ofNat 32 (base + sizes (a :: l)))) := by
  induction l generalizing a base with
  | nil =>
    have ha := h.sortable a mem_cons_self
    have hlt := h.sizes_lt
    rw [sizes_cons] at hlt
    have hexpansion : ∀ n, (HostList.mk [a] n).expansion = a.hosts :=
      fun n => flatMap_singleton _ _
    rw [uniqLoop]
    refine ⟨fun name => Iff.rfl, ?_, ?_⟩
    · rw [hexpansion, length_hosts ha.wf (by omega), sizes_cons]
      rfl
    · rw [hexpansion]
      refine iff_of_true (nodup_hosts ha.wf (by omega)) fun x hx y hy z hz hxz hzy _ => ?_
      rw [mem_singleton] at hx hz
      rw [hx, hz]
      exact mates_self a
  | cons b l ih =>
    have ha := h.sortable a mem_cons_self
    have hb := h.sortable b (mem_cons_of_mem a mem_cons_self)
    have hlt := h.sizes_lt
    rw [sizes_cons, sizes_cons] at hlt
    have hkey := rel_of_pairwise_cons h.sorted mem_cons_self
    rw [uniqLoop]
    have hspec := hostrangeJoin_spec ha hb hkey (by omega)
    generalize hostrangeJoin a b = join at hspec ⊢
    obtain ⟨ndup, a', b'⟩ := join
    dsimp only at hspec ⊢
    rcases hspec with hjoined | ⟨hneg, hnot⟩
    · have hsize := hjoined.size_eq
      have hndup := hjoined.ndup_nonneg
      have hnhosts : BitVec.ofNat 32 (base + sizes (a :: b :: l)) - BitVec.ofInt 32 ndup =
          BitVec.ofNat 32 (base + sizes (a' :: l)) := by
        obtain ⟨n, rfl⟩ := Int.eq_ofNat_of_zero_le hndup
        rw [BitVec.ofInt_natCast, sizes_cons, sizes_cons, sizes_cons]
        apply BitVec.eq_of_toNat_eq
        rw [BitVec.toNat_sub, BitVec.toNat_ofNat, BitVec.toNat_ofNat, BitVec.toNat_ofNat]
        omega
      have hdone := ih (h.joined hjoined) base
      rw [if_pos hndup, hnhosts]
      refine ⟨fun name => (hdone.mem name).trans ?_, hdone.nhosts,
        hdone.nodup.trans (uniqFits_joined h hjoined).symm⟩
      simp only [flatMap_cons, mem_append, hjoined.mem_hosts, or_assoc]
    · have hnhosts : base + sizes (a :: b :: l) = base + a.size + sizes (b' :: l) := by
        rw [sizes_cons, sizes_cons, sizes_cons, hnot.right.size_eq]
        omega
      have hdone := ih (h.tail.rewidth_head hnot.right) (base + a.size)
      have ha' : a'.hosts = a.hosts := hnot.left.hosts_eq ha (by omega)
      have hb' : b'.hosts = b.hosts := hnot.right.hosts_eq hb (by omega)
      have hlen := length_hosts ha.wf (show a.size < 2 ^ 31 by omega)
      have hnames : ∀ name, name ∈ (b' :: l).flatMap HostRange.hosts ↔
          name ∈ (b :: l).flatMap HostRange.hosts := by
        intro name
        rw [flatMap_cons, flatMap_cons, hb']
      rw [if_neg (by omega), hnhosts]
      generalize uniqLoop b' l (BitVec.ofNat 32 (base + a.size + sizes (b' :: l))) = hl at hdone
      have hexpansion : HostList.expansion { hl with hr := a' :: hl.hr } = a.hosts ++ hl.expansion := by
        rw [HostList.expansion, flatMap_cons, ha']
        rfl
      refine ⟨fun name => ?_, ?_, ?_⟩
      · rw [hexpansion, mem_append, hdone.mem, hnames, ← mem_append, ← flatMap_cons]
      · rw [hexpansion, length_append, hlen, ← Nat.add_assoc]
        exact hdone.nhosts
      · rw [hexpansion, nodup_append, hdone.nodup, uniqFits_notJoined h hnot,
          h.tail.uniqFits_rewidth_head hnot.right, and_iff_right (nodup_hosts ha.wf (by omega)),
          and_comm]
        refine and_congr_left fun _ => ?_
        simp only [hdone.mem, hnames, mem_flatMap]
        constructor
        · rintro hne x hx ⟨name, hname, hname'⟩
          exact hne name hname name ⟨x, hx, hname'⟩ rfl
        · rintro hnone name hname _ ⟨x, hx, hname'⟩ rfl
          exact hnone x hx ⟨name, hname, hname'⟩

/-! ## The sort -/

theorem forall₂_set {l : List α} {m : List β} (h : List.Forall₂ R l m) {i : Nat} {x : β}
    (hx : ∀ y ∈ l[i]?, R y x) : List.Forall₂ R l (m.set i x) := by
  induction h generalizing i with
  | nil => exact List.Forall₂.nil
  | cons hhead htail ih =>
    cases i with
    | zero => exact List.Forall₂.cons (hx _ rfl) htail
    | succ i => exact List.Forall₂.cons hhead (ih hx)

theorem forall₂_exists {l : List α} {m : List β} (h : List.Forall₂ R l m) {y : β} (hy : y ∈ m) :
    ∃ x ∈ l, R x y := by
  induction h with
  | nil => cases hy
  | @cons x _ l _ hhead _ ih =>
    rcases List.mem_cons.mp hy with rfl | hy
    · exact ⟨x, mem_cons_self, hhead⟩
    · obtain ⟨z, hz, hzy⟩ := ih hy
      exact ⟨z, mem_cons_of_mem x hz, hzy⟩

theorem forall₂_getElem? {l : List α} {m : List β} (h : List.Forall₂ R l m) {i : Nat} {y : β}
    (hy : m[i]? = some y) : ∀ x ∈ l[i]?, R x y := by
  induction h generalizing i with
  | nil => cases hy
  | cons hhead htail ih =>
    cases i with
    | zero =>
      intro x hx
      cases hx
      cases hy
      exact hhead
    | succ i => exact ih hy

/-- The comparisons of a sort change widths only. -/
theorem Compared.rewidth (h : Compared l m) : List.Forall₂ Rewidth l m := by
  induction h with
  | start => exact List.forall₂_same.mpr fun x _ => Rewidth.refl x
  | @compare m i j h1 h2 hm hi hj hne ih =>
    obtain ⟨hw, hw'⟩ := cmp_rewidth h1 h2
    refine forall₂_set (forall₂_set ih fun y hy => ?_) fun y hy => ?_
    · exact (forall₂_getElem? ih hi y hy).trans hw
    · exact (forall₂_getElem? ih hj y hy).trans hw'

/-- All first numbers that are compared have a difference with the right sign as an `int`. -/
def NearList (l : List HostRange) : Prop := ∀ a ∈ l, ∀ b ∈ l, Near a b

theorem Rewidth.near (ha : Rewidth a a') (hb : Rewidth b b') (h : Near a b) : Near a' b' := by
  intro hs hmates
  rw [ha.singlehost] at hs
  rw [ha.mates_iff, mates_comm, hb.mates_iff, mates_comm] at hmates
  rw [ha.lo, hb.lo]
  exact h hs hmates

theorem consistent_of_near (hl : ∀ x ∈ l, Sortable x) (hnear : NearList l) : Consistent l where
  symm a ha b hb := by
    have hab := hostrangeCmp_iff (hl a ha) (hl b hb) (hnear a ha b hb) (hnear b hb a ha)
    have hba := hostrangeCmp_iff (hl b hb) (hl a ha) (hnear b hb a ha) (hnear a ha b hb)
    rw [hba.2, ← not_le, ← not_le, hab.1]
  trans a ha b hb c hc := by
    rw [(hostrangeCmp_iff (hl a ha) (hl b hb) (hnear a ha b hb) (hnear b hb a ha)).1,
      (hostrangeCmp_iff (hl b hb) (hl c hc) (hnear b hb c hc) (hnear c hc b hb)).1,
      (hostrangeCmp_iff (hl a ha) (hl c hc) (hnear a ha c hc) (hnear c hc a ha)).1]
    exact le_trans

theorem sizes_perm (h : l.Perm m) : sizes l = sizes m := (h.map _).sum_eq

theorem sizes_rewidth (h : List.Forall₂ Rewidth l m) : sizes m = sizes l := by
  induction h with
  | nil => rfl
  | cons hw _ ih => rw [sizes_cons, sizes_cons, hw.size_eq, ih]

/-- The ranges in order, up to their widths. -/
structure SortedOf (l sorted : List HostRange) : Prop where
  ranges : SortedRanges sorted
  sizes_eq : sizes sorted = sizes l
  of_sorted : ∀ x' ∈ sorted, ∃ x ∈ l, Rewidth x x'
  to_sorted : ∀ x ∈ l, ∃ x' ∈ sorted, Rewidth x x'

/-- A sort leaves the ranges in order. -/
theorem Qsorted.spec {sorted : List HostRange} (h : Qsorted l sorted) (hl : ∀ x ∈ l, Sortable x)
    (hnear : NearList l) (hsizes : sizes l < 2 ^ 31) : SortedOf l sorted := by
  obtain ⟨m, hcompared, hperm, hsorted⟩ := h
  have hrewidth := hcompared.rewidth
  have hfrom : ∀ x' ∈ m, ∃ x ∈ l, Rewidth x x' := fun x' hx' => forall₂_exists hrewidth hx'
  have hgood : ∀ x' ∈ m, Sortable x' := by
    intro x' hx'
    obtain ⟨x, hx, hw⟩ := hfrom x' hx'
    exact hw.sortable (hl x hx)
  have hnear' : NearList m := by
    intro a' ha' b' hb'
    obtain ⟨a, ha, hwa⟩ := hfrom a' ha'
    obtain ⟨b, hb, hwb⟩ := hfrom b' hb'
    exact hwa.near hwb (hnear a ha b hb)
  have hsum : sizes sorted = sizes l := (sizes_perm hperm).trans (sizes_rewidth hrewidth)
  have hkeys : sorted.Pairwise fun a b => a.key ≤ b.key := by
    apply (hsorted (consistent_of_near hgood hnear')).imp_of_mem
    intro a b ha hb hle
    have ha' := hperm.mem_iff.mp ha
    have hb' := hperm.mem_iff.mp hb
    exact (hostrangeCmp_iff (hgood a ha') (hgood b hb') (hnear' a ha' b hb') (hnear' b hb' a ha')).1.mp hle
  refine ⟨⟨fun x hx => hgood x (hperm.mem_iff.mp hx), hkeys, hsum ▸ hsizes⟩, hsum,
    fun x' hx' => hfrom x' (hperm.mem_iff.mp hx'), fun x hx => ?_⟩
  obtain ⟨x', hx', hw⟩ := forall₂_exists hrewidth.flip hx
  exact ⟨x', hperm.mem_iff.mpr hx', hw⟩

/-! ## Every list -/

/-- A list of host names, which have no white space, with single hosts that have no width. -/
structure UniqList extends Listed where
  noSpace : ∀ a ∈ hr, NoSpace a.hostPrefix
  single : ∀ a ∈ hr, a.singlehost = true → a.width = 0

/-- What is promised of `hostlist_uniq`, for every way in which the ranges may be sorted. -/
structure UniqContract (hl : UniqList) : Prop where
  leaves : ∃ hl', HostlistUniq hl.toHostList hl'
  mem : ∀ hl', HostlistUniq hl.toHostList hl' → ∀ name, name ∈ hl'.expansion ↔ name ∈ hl.expansion
  nodup : ∀ hl', HostlistUniq hl.toHostList hl' → hl'.expansion.Nodup
  nhosts : ∀ hl', HostlistUniq hl.toHostList hl' →
    hl'.nhosts = BitVec.ofNat 32 hl'.expansion.length

theorem UniqList.sortable (hl : UniqList) : ∀ a ∈ hl.hr, Sortable a := by
  intro a ha
  have hwf := hl.ranges.wf a ha
  refine ⟨hwf, hl.noSpace a ha, fun hs => ?_⟩
  rw [HostRange.plen, HostRange.digits, hl.single a ha hs, (hwf.single hs).1]
  decide

/-- The sort leaves something, and what it leaves is in order. -/
theorem qsorted_insertionSort (hl : ∀ x ∈ l, Sortable x) (hnear : NearList l) :
    Qsorted l (l.insertionSort fun a b => a.key ≤ b.key) := by
  refine ⟨l, Compared.start, perm_insertionSort _ _, fun _ => ?_⟩
  have hmem : ∀ {a : HostRange}, a ∈ l.insertionSort (fun a b => a.key ≤ b.key) → a ∈ l :=
    fun h => (mem_insertionSort _).mp h
  apply (pairwise_insertionSort (fun a b : HostRange => a.key ≤ b.key) l).imp_of_mem
  intro a b ha hb hle
  exact (hostrangeCmp_iff (hl a (hmem ha)) (hl b (hmem hb)) (hnear a (hmem ha) b (hmem hb))
    (hnear b (hmem hb) a (hmem ha))).1.mpr hle

/-- Ranges in order have the names of the list. -/
theorem SortedOf.mem_hosts {sorted : List HostRange} (h : SortedOf l sorted)
    (hl : ∀ x ∈ l, Sortable x ∧ x.size < 2 ^ 31) (name : List Char) :
    name ∈ sorted.flatMap HostRange.hosts ↔ name ∈ l.flatMap HostRange.hosts := by
  rw [mem_flatMap, mem_flatMap]
  constructor
  · rintro ⟨x', hx', hname⟩
    obtain ⟨x, hx, hw⟩ := h.of_sorted x' hx'
    rw [hw.hosts_eq (hl x hx).1 (hl x hx).2] at hname
    exact ⟨x, hx, hname⟩
  · rintro ⟨x, hx, hname⟩
    obtain ⟨x', hx', hw⟩ := h.to_sorted x hx
    rw [← hw.hosts_eq (hl x hx).1 (hl x hx).2] at hname
    exact ⟨x', hx', hname⟩

theorem SortedOf.uniqFits_iff {sorted : List HostRange} (h : SortedOf l sorted)
    (hl : ∀ x ∈ l, Sortable x ∧ x.size < 2 ^ 31) : UniqFits sorted ↔ UniqFits l := by
  constructor
  · intro hfits
    apply hfits.rewidth
    · exact fun x hx => ⟨h.ranges.sortable x hx,
        Nat.lt_of_le_of_lt (size_le_sizes hx) h.ranges.sizes_lt⟩
    · intro x hx
      obtain ⟨x', hx', hw⟩ := h.to_sorted x hx
      exact ⟨x', hx', hw.symm⟩
  · exact fun hfits => hfits.rewidth hl h.of_sorted

theorem UniqList.good (hl : UniqList) : ∀ x ∈ hl.hr, Sortable x ∧ x.size < 2 ^ 31 :=
  fun x hx => ⟨hl.sortable x hx, Nat.lt_of_le_of_lt (size_le_sizes hx) hl.ranges.sizes_lt⟩

/-- A list of one range is as it was, and in order. -/
theorem joinSorted_short (h : l.length ≤ 1) (nhosts : BitVec 32) :
    joinSorted l nhosts = ⟨l, nhosts⟩ ∧ l.Pairwise fun a b => a.key ≤ b.key := by
  cases l with
  | nil => exact ⟨rfl, List.Pairwise.nil⟩
  | cons a rest =>
    have hrest : rest = [] := List.length_eq_zero_iff.mp (Nat.le_zero.mp (Nat.le_of_succ_le_succ h))
    rw [hrest]
    exact ⟨rfl, pairwise_singleton _ _⟩

/-- What is joined are always the ranges in order. -/
theorem HostlistUniq.sorted {hl : UniqList} (hnear : NearList hl.hr) {hl' : HostList}
    (h : HostlistUniq hl.toHostList hl') :
    ∃ sorted, SortedOf hl.hr sorted ∧ hl' = joinSorted sorted hl.nhosts := by
  rw [HostlistUniq] at h
  split at h
  · rename_i hlen
    obtain ⟨hjoin, hpairs⟩ := joinSorted_short hlen hl.nhosts
    exact ⟨hl.hr, ⟨⟨hl.sortable, hpairs, hl.ranges.sizes_lt⟩, rfl,
      fun x hx => ⟨x, hx, Rewidth.refl x⟩, fun x hx => ⟨x, hx, Rewidth.refl x⟩⟩, h.trans hjoin.symm⟩
  · obtain ⟨sorted, hsorted, heq⟩ := h
    exact ⟨sorted, hsorted.spec hl.sortable hnear hl.ranges.sizes_lt, heq⟩

/-- What `hostlist_uniq` leaves, for first numbers that `hostrange_cmp` orders. -/
theorem hostlistUniq_spec (hl : UniqList) (hnear : NearList hl.hr) {hl' : HostList}
    (h : HostlistUniq hl.toHostList hl') :
    (∀ name, name ∈ hl'.expansion ↔ name ∈ hl.expansion) ∧
      hl'.nhosts = BitVec.ofNat 32 hl'.expansion.length ∧
      (hl'.expansion.Nodup ↔ UniqFits hl.hr) := by
  obtain ⟨sorted, hsorted, rfl⟩ := h.sorted hnear
  have hnhosts : hl.nhosts = BitVec.ofNat 32 (0 + sizes sorted) := by
    rw [hl.nhosts_eq, hsorted.sizes_eq, Nat.zero_add]
  have hmem := hsorted.mem_hosts hl.good
  have hfits := hsorted.uniqFits_iff hl.good
  cases sorted with
  | nil =>
    refine ⟨hmem, hnhosts, iff_of_true nodup_nil ?_⟩
    rw [← hfits]
    exact fun a ha => absurd ha not_mem_nil
  | cons a rest =>
    have hdone := uniqLoop_spec hsorted.ranges 0
    rw [joinSorted, hnhosts]
    refine ⟨fun name => (hdone.mem name).trans (hmem name), ?_, hdone.nodup.trans hfits⟩
    exact hdone.nhosts.trans (congrArg _ (Nat.zero_add _))

/-- A list has each of its hosts once after `hostlist_uniq`, exactly when its ranges fit. -/
theorem uniqContract_iff (hl : UniqList) (hnear : NearList hl.hr) :
    UniqContract hl ↔ UniqFits hl.hr := by
  have hexists : ∃ hl', HostlistUniq hl.toHostList hl' := by
    by_cases hlen : hl.hr.length ≤ 1
    · refine ⟨hl.toHostList, ?_⟩
      rw [HostlistUniq, if_pos hlen]
    · refine ⟨joinSorted (hl.hr.insertionSort fun a b => a.key ≤ b.key) hl.nhosts, ?_⟩
      rw [HostlistUniq, if_neg hlen]
      exact ⟨_, qsorted_insertionSort hl.sortable hnear, rfl⟩
  constructor
  · intro hcontract
    obtain ⟨hl', h⟩ := hexists
    exact (hostlistUniq_spec hl hnear h).2.2.mp (hcontract.nodup hl' h)
  · intro hfits
    exact ⟨hexists, fun hl' h => (hostlistUniq_spec hl hnear h).1,
      fun hl' h => (hostlistUniq_spec hl hnear h).2.2.mpr hfits,
      fun hl' h => (hostlistUniq_spec hl hnear h).2.1⟩

/-- Small first numbers have differences with the right sign. -/
theorem nearList_of_lt (h : ∀ a ∈ l, a.lo.toNat < 2 ^ 31) : NearList l := by
  intro a ha b hb _ _ hlt
  have hb' := h b hb
  omega

/-- `n[1-3],n[2-5]`. -/
def overlapping : UniqList where
  hr := [⟨"n".toList, 1, 3, 1, false⟩, ⟨"n".toList, 2, 5, 1, false⟩]
  nhosts := 7
  ranges := ⟨by simp only [List.forall_mem_cons]; exact ⟨⟨by decide, Bool.noConfusion⟩,
    ⟨by decide, Bool.noConfusion⟩, fun x hx => absurd hx List.not_mem_nil⟩, by decide⟩
  nhosts_eq := by decide
  noSpace := by simp [NoSpace, isSpace]
  single := by decide

theorem uniqContract_overlapping : UniqContract overlapping := by
  refine (uniqContract_iff overlapping (nearList_of_lt (by decide))).mpr ?_
  intro a ha b _ c hc _ _ _
  have hname : ∀ x ∈ overlapping.hr, x.hostPrefix = "n".toList ∧ x.singlehost = false ∧ x.width = 1 := by
    decide
  obtain ⟨ha, hs, hw⟩ := hname a ha
  obtain ⟨hc, hs', hw'⟩ := hname c hc
  exact ⟨ha.trans hc.symm, hs.trans hs'.symm, Or.inl (by rw [hw, hw'])⟩

/-- `n[08-12],n[9-11]`. -/
def twoWidths : UniqList where
  hr := [⟨"n".toList, 8, 12, 2, false⟩, ⟨"n".toList, 9, 11, 1, false⟩]
  nhosts := 8
  ranges := ⟨by simp only [List.forall_mem_cons]; exact ⟨⟨by decide, Bool.noConfusion⟩,
    ⟨by decide, Bool.noConfusion⟩, fun x hx => absurd hx List.not_mem_nil⟩, by decide⟩
  nhosts_eq := by decide
  noSpace := by simp [NoSpace, isSpace]
  single := by decide

/-- The names `n10` and `n11` are kept twice. -/
theorem uniqContract_fails : ¬ UniqContract twoWidths := by
  intro h
  have hsorted : Qsorted twoWidths.hr twoWidths.hr.reverse :=
    ⟨twoWidths.hr, Compared.start, List.reverse_perm _, fun _ => by decide⟩
  have huniq : HostlistUniq twoWidths.toHostList (joinSorted twoWidths.hr.reverse 8) := by
    rw [HostlistUniq, if_neg (by decide)]
    exact ⟨twoWidths.hr.reverse, hsorted, rfl⟩
  have hnodup := h.nodup _ huniq
  revert hnodup
  decide

end Slurm.Hostlist
