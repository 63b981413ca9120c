import Slurm.Hostlist.Coalesce

/-!
# The order of ranges while they are split

A part of a range begins with a greater number than the range.  This number can have more digits, and
then the part comes after ranges that are written with zeros, which the range came before.

* `PartOf`: parts of a range, with their place in the order.
* `Clash`: two ranges that are split reach the digits of a later range with zeros.
* `Settled`: ranges were split, and nothing changed for the ranges before them.
* `insert_spec`: a range is inserted before ranges in order exactly when it does not clash with them.
-/

namespace Slurm.Hostlist

open Lib.Decimal List
open Lib.Restart (insert settle Apart)

variable {a b c p t x y : HostRange} {l m : List HostRange} {k : Nat}

/-! ## Parts of a range in the order -/

/-- The range is numbered as the other one, from a number of it on. -/
structure PartOf (a p : HostRange) : Prop where
  hostPrefix : p.hostPrefix = a.hostPrefix
  singlehost : p.singlehost = a.singlehost
  lo : a.lo.toNat ≤ p.lo.toNat
  width : p.width = a.width ∨ p.width ≤ a.digits ∧ a.width ≤ a.digits

theorem PartOf.digits_le (h : PartOf a p) : a.digits ≤ p.digits := digits_mono h.lo

theorem PartOf.key_le (h : PartOf a p) : a.key ≤ p.key := by
  have hdigits := h.digits_le
  have hwidth := h.width
  have hlo := h.lo
  rw [key_le_iff h.hostPrefix.symm h.singlehost.symm, HostRange.plen, HostRange.plen]
  omega

theorem digits_lt_of_lt (h : a.digits < b.digits) : a.lo.toNat < b.lo.toNat := by
  by_contra hle
  have hmono := digits_mono (show b.lo.toNat ≤ a.lo.toNat by omega)
  omega

/-- A mate before a range is a mate of its parts. -/
theorem PartOf.mates (h : PartOf a p) (hmates : Mates x a) (hle : x.key ≤ a.key) : Mates x p := by
  refine ⟨hmates.hostPrefix.trans h.hostPrefix.symm, hmates.singlehost.trans h.singlehost.symm, ?_⟩
  have hlo := digits_mono (hmates.lo_le hle)
  have hdigits := h.digits_le
  have hwidth := h.width
  have hwidths := hmates.widths
  omega

/-- A mate after a part of a range is a mate of the part. -/
theorem PartOf.mates_right (h : PartOf a p) (hmates : Mates a t) (hlo : p.lo.toNat ≤ t.lo.toNat) :
    Mates p t := by
  refine ⟨h.hostPrefix.trans hmates.hostPrefix, h.singlehost.trans hmates.singlehost, ?_⟩
  have hmono := digits_mono hlo
  have hdigits := h.digits_le
  have hwidth := h.width
  have hwidths := hmates.widths
  omega

/-- A later range of the prefix that is no mate is written with zeros, and longer. -/
theorem zeros_of_not_mates (hname : x.hostPrefix = t.hostPrefix)
    (hsingle : x.singlehost = t.singlehost) (hnot : ¬ Mates x t) (hle : x.key ≤ t.key) :
    t.digits < t.width ∧ x.plen < t.width := by
  have hwidths : ¬ (max x.width x.digits = max t.width x.digits ∨
      max t.width t.digits = max x.width t.digits) := fun h => hnot ⟨hname, hsingle, h⟩
  rw [key_le_iff hname hsingle, HostRange.plen, HostRange.plen] at hle
  rw [HostRange.plen]
  have hmono : x.lo.toNat ≤ t.lo.toNat → x.digits ≤ t.digits := digits_mono
  omega

/-- A part of a range with fewer digits than a later range has zeros stays before it. -/
theorem PartOf.before_zeros (h : PartOf a p) (hname : a.hostPrefix = t.hostPrefix)
    (hsingle : a.singlehost = t.singlehost) (hnot : ¬ Mates a t) (hle : a.key ≤ t.key)
    (hdigits : p.digits < t.width) : ¬ Mates p t ∧ p.key ≤ t.key := by
  obtain ⟨hzeros, hplen⟩ := zeros_of_not_mates hname hsingle hnot hle
  have hwidth := h.width
  rw [HostRange.plen] at hplen
  refine ⟨fun hmates => ?_, ?_⟩
  · have hwidths := hmates.widths
    omega
  · rw [key_le_iff (h.hostPrefix.trans hname) (h.singlehost.trans hsingle), HostRange.plen,
      HostRange.plen]
    omega

/-- A part of a range with as many digits as a later range is long is a mate of it, and greater. -/
theorem PartOf.after_zeros (h : PartOf a p) (hname : a.hostPrefix = t.hostPrefix)
    (hsingle : a.singlehost = t.singlehost) (hnot : ¬ Mates a t) (hle : a.key ≤ t.key)
    (hdigits : t.width ≤ p.digits) : Mates p t ∧ t.lo.toNat < p.lo.toNat := by
  obtain ⟨hzeros, hplen⟩ := zeros_of_not_mates hname hsingle hnot hle
  have hwidth := h.width
  rw [HostRange.plen] at hplen
  exact ⟨⟨h.hostPrefix.trans hname, h.singlehost.trans hsingle, by omega⟩,
    digits_lt_of_lt (by omega)⟩

/-- A part of a range stays before ranges of other prefixes. -/
theorem PartOf.before_other (h : PartOf a p) (hle : a.key ≤ t.key)
    (hother : ¬ (a.hostPrefix = t.hostPrefix ∧ a.singlehost = t.singlehost)) : p.key ≤ t.key := by
  simp only [HostRange.key, Prod.Lex.toLex_le_toLex] at hle ⊢
  rw [h.hostPrefix, h.singlehost]
  rcases hle with hlt | ⟨hname, hlt | ⟨hsingle, -⟩⟩
  · exact Or.inl hlt
  · exact Or.inr ⟨hname, Or.inl hlt⟩
  · refine absurd ⟨natKey_injective hname, ?_⟩ hother
    revert hsingle
    cases a.singlehost <;> cases t.singlehost <;> decide

/-- What is between two ranges of a prefix is of this prefix. -/
theorem same_of_between (hat : a.key ≤ t.key) (htb : t.key ≤ b.key)
    (hname : a.hostPrefix = b.hostPrefix) (hsingle : a.singlehost = b.singlehost) :
    a.hostPrefix = t.hostPrefix ∧ a.singlehost = t.singlehost := by
  by_contra hother
  simp only [HostRange.key, Prod.Lex.toLex_le_toLex] at hat htb
  rw [← hname, ← hsingle] at htb
  rcases hat with hlt | ⟨heq, hlt | ⟨hsame, -⟩⟩
  · rcases htb with hlt' | ⟨heq', -⟩
    · exact lt_asymm hlt hlt'
    · exact absurd (heq' ▸ hlt) (lt_irrefl _)
  · rcases htb with hlt' | ⟨-, hlt' | ⟨hsame', -⟩⟩
    · exact absurd (heq ▸ hlt') (lt_irrefl _)
    · omega
    · omega
  · refine hother ⟨natKey_injective heq, ?_⟩
    revert hsame
    cases a.singlehost <;> cases t.singlehost <;> decide

theorem mates_of_single (ha : Sortable a) (ht : Sortable t) (hs : a.singlehost = true)
    (hname : a.hostPrefix = t.hostPrefix) (hsingle : a.singlehost = t.singlehost) : Mates a t := by
  have hplen := ha.single hs
  have hplen' := ht.single (hsingle ▸ hs)
  have hpos := numDigits_pos a.lo.toNat
  have hpos' := numDigits_pos t.lo.toNat
  rw [HostRange.plen, HostRange.digits] at hplen hplen'
  refine ⟨hname, hsingle, ?_⟩
  rw [HostRange.digits, HostRange.digits]
  omega

theorem numDigits_max (m n : Nat) : numDigits (max m n) = max (numDigits m) (numDigits n) := by
  rcases Nat.le_total m n with h | h
  · rw [Nat.max_eq_right h, Nat.max_eq_right (numDigits_mono h)]
  · rw [Nat.max_eq_left h, Nat.max_eq_left (numDigits_mono h)]

theorem le_numDigits_min {m n : Nat} : k ≤ numDigits (min m n) ↔ k ≤ numDigits m ∧ k ≤ numDigits n := by
  rcases Nat.le_total m n with h | h
  · rw [Nat.min_eq_left h]
    have hmono := numDigits_mono h
    omega
  · rw [Nat.min_eq_right h]
    have hmono := numDigits_mono h
    omega

/-! ## Clashes -/

/-- One of the ranges reaches a number of `k` digits, and up to this range there are only mates. -/
def HotAt (x : HostRange) (k : Nat) (l : List HostRange) : Prop :=
  ∃ b ∈ l, (∀ z ∈ l, z.key ≤ b.key → Mates x z) ∧ k ≤ numDigits b.hi.toNat

/-- One of the ranges has the prefix, but zeros up to `k` digits. -/
def Barrier (x : HostRange) (k : Nat) (l : List HostRange) : Prop :=
  ∃ t ∈ l, ¬ Mates x t ∧ x.hostPrefix = t.hostPrefix ∧ x.singlehost = t.singlehost ∧ t.width = k

/-- A range and one that it is split with both reach the digits of a later range with zeros. -/
def Clash (x : HostRange) (l : List HostRange) : Prop :=
  ∃ k, Barrier x k l ∧ k ≤ numDigits x.hi.toNat ∧ HotAt x k l

/-- Ranges in order of their keys. -/
def Ordered (l : List HostRange) : Prop := l.Pairwise fun a b => a.key ≤ b.key

theorem Ordered.head_le (h : Ordered (a :: l)) (hx : x ∈ l) : a.key ≤ x.key :=
  rel_of_pairwise_cons h hx

/-- Ranges at one place of the order have the same mates. -/
theorem mates_congr_key (h : a.key = b.key) (hmates : Mates x a) : Mates x b := by
  obtain ⟨hname, hsingle, hplen, hlo⟩ := key_eq_iff.mp h
  have hdigits : a.digits = b.digits := congrArg numDigits hlo
  have hmono : a.lo.toNat ≤ x.lo.toNat → a.digits ≤ x.digits := digits_mono
  have hmono' : x.lo.toNat ≤ a.lo.toNat → x.digits ≤ a.digits := digits_mono
  rw [HostRange.plen, HostRange.plen] at hplen
  refine ⟨hmates.hostPrefix.trans hname, hmates.singlehost.trans hsingle, ?_⟩
  have hwidths := hmates.widths
  omega

theorem Ordered.tail (h : Ordered (a :: l)) : Ordered l := h.of_cons

theorem Ordered.cons (h : Ordered (b :: l)) (hle : a.key ≤ b.key) : Ordered (a :: b :: l) := by
  refine List.pairwise_cons.mpr ⟨fun z hz => ?_, h⟩
  rcases List.mem_cons.mp hz with rfl | hz
  · exact hle
  · exact hle.trans (h.head_le hz)

theorem hotAt_cons (h : Ordered (a :: l)) :
    HotAt x k (a :: l) ↔ Mates x a ∧ (k ≤ numDigits a.hi.toNat ∨ HotAt x k l) := by
  constructor
  · rintro ⟨b, hb, hall, hk⟩
    have hle : a.key ≤ b.key := by
      rcases List.mem_cons.mp hb with rfl | hb
      · exact le_refl _
      · exact h.head_le hb
    refine ⟨hall a mem_cons_self hle, ?_⟩
    rcases List.mem_cons.mp hb with rfl | hb
    · exact Or.inl hk
    · exact Or.inr ⟨b, hb, fun z hz => hall z (mem_cons_of_mem a hz), hk⟩
  · rintro ⟨hmates, hk | ⟨b, hb, hall, hk⟩⟩
    · refine ⟨a, mem_cons_self, fun z hz hza => ?_, hk⟩
      rcases List.mem_cons.mp hz with rfl | hz
      · exact hmates
      · exact mates_congr_key (le_antisymm (h.head_le hz) hza) hmates
    · refine ⟨b, mem_cons_of_mem a hb, fun z hz hzb => ?_, hk⟩
      rcases List.mem_cons.mp hz with rfl | hz
      · exact hmates
      · exact hall z hz hzb

theorem barrier_cons : Barrier x k (a :: l) ↔
    (¬ Mates x a ∧ x.hostPrefix = a.hostPrefix ∧ x.singlehost = a.singlehost ∧ a.width = k) ∨
      Barrier x k l := by
  simp only [Barrier, mem_cons, exists_eq_or_imp]

theorem barrier_append : Barrier x k (l ++ m) ↔ Barrier x k l ∨ Barrier x k m := by
  simp only [Barrier, mem_append, or_and_right, exists_or]

/-- Ranges that are mates, and reach no more digits than later ones, make no difference. -/
theorem hotAt_append (h : Ordered (l ++ m)) (hmates : ∀ p ∈ l, Mates x p)
    (hhot : ∀ p ∈ l, k ≤ numDigits p.hi.toNat → HotAt x k m) :
    HotAt x k (l ++ m) ↔ HotAt x k m := by
  induction l with
  | nil => exact Iff.rfl
  | cons p l ih =>
    rw [cons_append] at h ⊢
    have hrest := ih h.tail (fun q hq => hmates q (mem_cons_of_mem p hq))
      fun q hq => hhot q (mem_cons_of_mem p hq)
    rw [hotAt_cons h, hrest]
    constructor
    · rintro ⟨-, hk | hm⟩
      · exact hhot p mem_cons_self hk
      · exact hm
    · exact fun hm => ⟨hmates p mem_cons_self, Or.inr hm⟩

/-! ## What ranges become -/

/-- Ranges were split: they are in order, with the same hosts, and earlier ranges clash with them as
before. -/
structure Settled (l l' : List HostRange) : Prop where
  ordered : Ordered l'
  hosts : (l'.flatMap HostRange.hosts).Perm (l.flatMap HostRange.hosts)
  key_le : ∀ z' ∈ l', ∃ z ∈ l, z.key ≤ z'.key
  hot : ∀ x k, (∀ z ∈ l, x.key ≤ z.key) → (HotAt x k l' ↔ HotAt x k l)
  barrier : ∀ x k, (∀ z ∈ l, x.key ≤ z.key) → (Barrier x k l' ↔ Barrier x k l)

theorem Settled.refl (h : Ordered l) : Settled l l :=
  ⟨h, List.Perm.refl _, fun z hz => ⟨z, hz, le_refl _⟩, fun _ _ _ => Iff.rfl, fun _ _ _ => Iff.rfl⟩

theorem Settled.le_of_le (h : Settled l m) (hx : ∀ z ∈ l, x.key ≤ z.key) : ∀ z ∈ m, x.key ≤ z.key := by
  intro z hz
  obtain ⟨z', hz', hle⟩ := h.key_le z hz
  exact (hx z' hz').trans hle

theorem Settled.clash_iff (h : Settled l m) (hx : ∀ z ∈ l, x.key ≤ z.key) : Clash x m ↔ Clash x l :=
  exists_congr fun k => by rw [h.hot x k hx, h.barrier x k hx]

theorem Settled.trans {n : List HostRange} (h : Settled l m) (h' : Settled m n) : Settled l n where
  ordered := h'.ordered
  hosts := h'.hosts.trans h.hosts
  key_le z hz := by
    obtain ⟨z', hz', hle⟩ := h'.key_le z hz
    obtain ⟨z'', hz'', hle'⟩ := h.key_le z' hz'
    exact ⟨z'', hz'', hle'.trans hle⟩
  hot x k hx := (h'.hot x k (h.le_of_le hx)).trans (h.hot x k hx)
  barrier x k hx := (h'.barrier x k (h.le_of_le hx)).trans (h.barrier x k hx)

theorem Settled.cons (hl : Ordered (a :: l)) (h : Settled l m) : Settled (a :: l) (a :: m) := by
  have hm : Ordered (a :: m) :=
    List.pairwise_cons.mpr ⟨h.le_of_le fun z hz => hl.head_le hz, h.ordered⟩
  refine ⟨hm, ?_, fun z hz => ?_, fun x k hx => ?_, fun x k hx => ?_⟩
  · rw [flatMap_cons, flatMap_cons]
    exact h.hosts.append_left _
  · rcases List.mem_cons.mp hz with rfl | hz
    · exact ⟨z, mem_cons_self, le_refl _⟩
    · obtain ⟨z', hz', hle⟩ := h.key_le z hz
      exact ⟨z', mem_cons_of_mem a hz', hle⟩
  · rw [hotAt_cons hl, hotAt_cons hm, h.hot x k fun z hz => hx z (mem_cons_of_mem a hz)]
  · rw [barrier_cons, barrier_cons, h.barrier x k fun z hz => hx z (mem_cons_of_mem a hz)]

/-! ## The parts that two ranges are split into -/

theorem part_key_le {lo lo' hi hi' : Nat} (hle : lo ≤ lo') (hlt : lo' < 2 ^ 31) :
    (c.part lo hi).key ≤ (c.part lo' hi').key := by
  have hmates : Mates (c.part lo hi) (c.part lo' hi') := ⟨rfl, rfl, Or.inl rfl⟩
  rw [hmates.key_le_iff_lo, part_lo (by omega), part_lo hlt]
  exact hle

namespace SplitInto

variable {before : List HostRange} {next : HostRange}

theorem partOf (h : SplitInto a b before next c) (ha : Small a) (hb : Small b)
    (hover : Overlaps a b) (horder : a.lo.toNat ≤ b.lo.toNat) (hx : x ∈ before ∨ x = next) :
    PartOf a x := by
  obtain ⟨lo, hi, rfl, hlo, hle, hlt, -⟩ := h.exists_part ha hb hover horder hx
  refine ⟨h.left.hostPrefix, h.left.singlehost, ?_, h.left.width⟩
  rwa [part_lo (by omega)]

/-- The first part has the place of the range. -/
theorem first_key_eq (h : SplitInto a b before next c) :
    ∃ p rest, before = p :: rest ∧ p.key = a.key := by
  refine ⟨_, _, h.before_eq, ?_⟩
  rw [← h.left.key_eq]
  conv_rhs => rw [h.left.part]
  rfl

/-- The other parts come before the last one, and reach no further than it begins. -/
theorem before_next (h : SplitInto a b before next c) (ha : Small a) (hb : Small b)
    (hover : Overlaps a b) (horder : a.lo.toNat ≤ b.lo.toNat) (hx : x ∈ before) :
    x.key ≤ next.key ∧ x.hi.toNat ≤ next.lo.toNat := by
  have hpairs := h.pairwise ha hb hover horder (f := next) rfl
  have hhi : x.hi.toNat ≤ next.lo.toNat :=
    (List.pairwise_append.mp hpairs).2.2 x hx next (mem_singleton_self _)
  have hle := (h.small ha hb hover horder (Or.inl hx)).sortable.wf.le
  refine ⟨?_, hhi⟩
  obtain ⟨lo, hi, rfl, -, hle', hlt, -⟩ := h.exists_part ha hb hover horder (Or.inl hx)
  obtain ⟨lo', hi', rfl, -, hle'', hlt', -⟩ := h.exists_part ha hb hover horder (Or.inr rfl)
  rw [part_lo (by omega)] at hle hhi
  apply part_key_le
  · omega
  · omega

theorem ordered_before (h : SplitInto a b before next c) (ha : Small a) (hb : Small b)
    (hover : Overlaps a b) (horder : a.lo.toNat ≤ b.lo.toNat) : Ordered before := by
  have hpairs := h.pairwise ha hb hover horder (f := next) rfl
  apply (List.pairwise_append.mp hpairs).1.imp_of_mem
  intro x y hx hy hxy
  have hle := (h.small ha hb hover horder (Or.inl hx)).sortable.wf.le
  obtain ⟨lo, hi, rfl, -, hle', hlt, -⟩ := h.exists_part ha hb hover horder (Or.inl hx)
  obtain ⟨lo', hi', rfl, -, hle'', hlt', -⟩ := h.exists_part ha hb hover horder (Or.inl hy)
  rw [part_lo (by omega)] at hle hxy
  apply part_key_le
  · omega
  · omega

/-- The parts are numbered with the width of the range, where it is one of zeros. -/
theorem width_eq (h : SplitInto a b before next c) (ha : Small a) (hb : Small b)
    (hover : Overlaps a b) (horder : a.lo.toNat ≤ b.lo.toNat) (hzeros : a.digits < a.width)
    (hx : x ∈ before ∨ x = next) : x.width = a.width := by
  have hwidth := (h.partOf ha hb hover horder hx).width
  omega

/-- The parts have zeros up to `k` digits where the ranges have them. -/
theorem barrier_iff (h : SplitInto a b before next c) (ha : Small a) (hb : Small b)
    (hover : Overlaps a b) (horder : a.lo.toNat ≤ b.lo.toNat) (hab : a.key ≤ b.key)
    (hxa : x.key ≤ a.key) : Barrier x k (before ++ [next]) ↔ Barrier x k [a, b] := by
  obtain ⟨p, rest, rfl, hp⟩ := h.first_key_eq
  constructor
  · rintro ⟨q, hq, hnot, hname, hsingle, hk⟩
    have hq' : q ∈ p :: rest ∨ q = next := by
      rw [mem_append, mem_singleton] at hq
      exact hq
    have hpart := h.partOf ha hb hover horder hq'
    have hnot' : ¬ Mates x a := fun hmates => hnot (hpart.mates hmates hxa)
    have hname' := hname.trans hpart.hostPrefix
    have hsingle' := hsingle.trans hpart.singlehost
    obtain ⟨hzeros, -⟩ := zeros_of_not_mates hname' hsingle' hnot' hxa
    exact ⟨a, mem_cons_self, hnot', hname', hsingle',
      (h.width_eq ha hb hover horder hzeros hq').symm.trans hk⟩
  · rintro ⟨t, ht, hnot, hname, hsingle, hk⟩
    have ht' : t = a ∨ t = b := by
      simp only [mem_cons, not_mem_nil, or_false] at ht
      exact ht
    have hnot' : ¬ Mates x a := by
      intro hmates
      rcases ht' with rfl | rfl
      · exact hnot hmates
      · exact hnot (mates_trans hmates hover.mates hxa hab)
    have hname' : x.hostPrefix = a.hostPrefix := by
      rcases ht' with rfl | rfl
      · exact hname
      · exact hname.trans hover.mates.hostPrefix.symm
    have hsingle' : x.singlehost = a.singlehost := by
      rcases ht' with rfl | rfl
      · exact hsingle
      · exact hsingle.trans hover.mates.singlehost.symm
    obtain ⟨hzeros, hplen⟩ := zeros_of_not_mates hname' hsingle' hnot' hxa
    have hwidth : t.width = a.width := by
      rcases ht' with rfl | rfl
      · rfl
      · obtain ⟨hzeros', -⟩ := zeros_of_not_mates hname hsingle hnot (hxa.trans hab)
        have hleft := h.left.width
        have hright := h.right.width
        change c.width = t.width ∨ c.width ≤ t.digits ∧ t.width ≤ t.digits at hright
        omega
    have hpart := h.partOf ha hb hover horder (Or.inl mem_cons_self)
    refine ⟨p, mem_append_left _ mem_cons_self, fun hmates => ?_,
      hname'.trans hpart.hostPrefix.symm, hsingle'.trans hpart.singlehost.symm, ?_⟩
    · exact hnot' (mates_congr_key hp hmates)
    · exact (h.width_eq ha hb hover horder hzeros (Or.inl mem_cons_self)).trans
        (hwidth.symm.trans hk)

/-- Two ranges before others become their parts. -/
theorem settled (h : SplitInto a b before next c) (ha : Small a) (hb : Small b)
    (hover : Overlaps a b) (horder : a.lo.toNat ≤ b.lo.toNat) (hl : Ordered (a :: b :: l))
    (hnext : Ordered (next :: l)) (hm : Settled (next :: l) m) :
    Settled (a :: b :: l) (before ++ m) := by
  have hab := hl.head_le mem_cons_self
  have hlater : ∀ p ∈ before, ∀ z ∈ m, p.key ≤ z.key := by
    intro p hp
    apply hm.le_of_le
    intro z hz
    have hle := (h.before_next ha hb hover horder hp).1
    rcases List.mem_cons.mp hz with rfl | hz
    · exact hle
    · exact hle.trans (hnext.head_le hz)
  have hordered : Ordered (before ++ m) :=
    List.pairwise_append.mpr ⟨h.ordered_before ha hb hover horder, hm.ordered, hlater⟩
  have hnextkey := (h.partOf ha hb hover horder (Or.inr rfl)).key_le
  have hbelow : ∀ x : HostRange, (∀ z ∈ a :: b :: l, x.key ≤ z.key) → ∀ z ∈ next :: l, x.key ≤ z.key := by
    intro x hx z hz
    rcases List.mem_cons.mp hz with rfl | hz
    · exact (hx a mem_cons_self).trans hnextkey
    · exact hx z (mem_cons_of_mem a (mem_cons_of_mem b hz))
  refine ⟨hordered, ?_, fun z hz => ?_, fun x k hx => ?_, fun x k hx => ?_⟩
  · have hparts := h.hosts_perm ha hb hover horder
    rw [flatMap_append, flatMap_cons, flatMap_cons, ← append_assoc]
    refine (hm.hosts.append_left _).trans ?_
    rw [flatMap_cons, ← append_assoc]
    exact hparts.append_right _
  · refine ⟨a, mem_cons_self, ?_⟩
    rcases List.mem_append.mp hz with hz | hz
    · exact (h.partOf ha hb hover horder (Or.inl hz)).key_le
    · obtain ⟨y, hy, hle⟩ := hm.key_le z hz
      rcases List.mem_cons.mp hy with rfl | hy
      · exact hnextkey.trans hle
      · exact (hl.head_le (mem_cons_of_mem b hy)).trans hle
  · have hxa := hx a mem_cons_self
    rw [hotAt_cons hl, hotAt_cons hl.tail]
    by_cases hmates : Mates x a
    · have hall : ∀ p, p ∈ before ∨ p = next → Mates x p :=
        fun p hp => (h.partOf ha hb hover horder hp).mates hmates hxa
      have hhi := h.next_hi ha hb
      have hhot : HotAt x k m ↔ k ≤ max (numDigits a.hi.toNat) (numDigits b.hi.toNat) ∨ HotAt x k l := by
        rw [hm.hot x k (hbelow x hx), hotAt_cons hnext, hhi, numDigits_max,
          and_iff_right (hall next (Or.inr rfl))]
      rw [hotAt_append hordered (fun p hp => hall p (Or.inl hp)), hhot, and_iff_right hmates,
        and_iff_right (mates_trans hmates hover.mates hxa hab), ← or_assoc, le_max_iff]
      intro p hp hk
      have hreach := (h.before_next ha hb hover horder hp).2
      have hle := (h.small ha hb hover horder (Or.inr rfl)).sortable.wf.le
      rw [hhot, ← numDigits_max, ← hhi]
      exact Or.inl (hk.trans (numDigits_mono (by omega)))
    · obtain ⟨p, rest, rfl, hp⟩ := h.first_key_eq
      rw [cons_append] at hordered ⊢
      rw [hotAt_cons hordered]
      exact iff_of_false (fun hhot => hmates (mates_congr_key hp hhot.1)) fun hhot => hmates hhot.1
  · have hxa := hx a mem_cons_self
    have hiff := h.barrier_iff (x := x) (k := k) ha hb hover horder hab hxa
    rw [barrier_append, hm.barrier x k (hbelow x hx), ← barrier_append, append_cons, barrier_append,
      hiff, ← barrier_append]
    rfl

end SplitInto

/-! ## Inserting a range -/

/-- A mate of a range has fewer digits than a later range that is no mate. -/
theorem digits_lt_of_not_mates (hab : Mates a b) (hle : a.key ≤ b.key) (hnot : ¬ Mates a t)
    (hname : a.hostPrefix = t.hostPrefix) (hsingle : a.singlehost = t.singlehost)
    (hbt : b.key ≤ t.key) : b.digits < t.width := by
  have hnot' : ¬ Mates b t := fun hbt' => hnot (mates_trans hab hbt' hle hbt)
  obtain ⟨-, hplen⟩ := zeros_of_not_mates (hab.hostPrefix.symm.trans hname)
    (hab.singlehost.symm.trans hsingle) hnot' hbt
  rw [HostRange.plen] at hplen
  omega

/-- A range that reaches no number of the next one that it could be joined with does not clash. -/
theorem not_clash_of_apart (ha : Small a) (hl : Ordered (a :: b :: l)) (hsmall : ∀ x ∈ b :: l, Small x)
    (hnot : ¬ Overlaps a b) : ¬ Clash a (b :: l) := by
  rintro ⟨k, ⟨t, ht, hnotm, hname, hsingle, rfl⟩, hk, hhot⟩
  have hmates := ((hotAt_cons hl.tail).mp hhot).1
  have hbt : b.key ≤ t.key := by
    rcases List.mem_cons.mp ht with rfl | ht
    · exact le_refl _
    · exact hl.tail.head_le ht
  have hdigits := digits_lt_of_not_mates hmates (hl.head_le mem_cons_self) hnotm hname hsingle hbt
  have hs : a.singlehost = false := by
    rw [Bool.eq_false_iff]
    exact fun hs => hnotm (mates_of_single ha.sortable (hsmall t ht).sortable hs hname hsingle)
  have hle : a.hi.toNat ≤ b.lo.toNat := by
    by_contra hlt
    exact hnot ⟨hs, hmates, Nat.lt_of_not_le hlt⟩
  have hmono := numDigits_mono hle
  rw [HostRange.digits] at hdigits
  omega

theorem hotAt_congr (h : ∀ z ∈ l, Mates a z ↔ Mates x z) : HotAt a k l ↔ HotAt x k l :=
  exists_congr fun b => and_congr_right fun _ => and_congr_left' <| forall₂_congr fun z hz => by
    rw [h z hz]

theorem barrier_congr (hname : a.hostPrefix = x.hostPrefix) (hsingle : a.singlehost = x.singlehost)
    (h : ∀ z ∈ l, Mates a z ↔ Mates x z) : Barrier a k l ↔ Barrier x k l :=
  exists_congr fun t => and_congr_right fun ht => by rw [h t ht, hname, hsingle]

/-- Ranges that could be joined do not overlap where they stay as they are. -/
theorem le_of_apart (ha : Small a) (hb : Small b) (hs : a.singlehost = false) (hmates : Mates a b)
    (h : Apart coalescePair a b) : a.hi.toNat ≤ b.lo.toNat := by
  by_contra hlt
  have hover : Overlaps a b := ⟨hs, hmates, Nat.lt_of_not_le hlt⟩
  rw [Apart] at h
  rcases coalescePair_cases ha hb with ⟨hnot, -⟩ | ⟨-, -, h'⟩ | ⟨-, -, before, next, c, -, h'⟩
  · exact hnot hover
  · rw [h] at h'
    cases h'
  · rw [h] at h'
    cases h'

section Split

variable {before : List HostRange} {next : HostRange}

/-- The last part goes on to a range that could be joined: it clashes where the first range does. -/
theorem clash_next (h : SplitInto a b before next c) (ha : Small a) (hb : Small b)
    (hover : Overlaps a b) (horder : a.lo.toNat ≤ b.lo.toNat) (hl : Ordered (a :: b :: t :: l))
    (hbt : Mates b t) (hreach : b.hi.toNat ≤ t.lo.toNat) :
    Ordered (next :: t :: l) ∧ (Clash a (b :: t :: l) ↔ Clash next (t :: l)) := by
  have hab := hl.head_le mem_cons_self
  have hat := hl.head_le (mem_cons_of_mem b mem_cons_self)
  have hpart := h.partOf ha hb hover horder (Or.inr rfl)
  have hmates : Mates a t := mates_trans hover.mates hbt hab (hl.tail.head_le mem_cons_self)
  have hlo : next.lo.toNat ≤ t.lo.toNat := by
    rw [h.next_lo ha]
    omega
  have hnext : Mates next t := hpart.mates_right hmates hlo
  have hordered : Ordered (next :: t :: l) := hl.tail.tail.cons (hnext.key_le_iff_lo.mpr hlo)
  have hiff : ∀ z ∈ t :: l, Mates a z ↔ Mates next z := by
    intro z hz
    have htz : t.key ≤ z.key := by
      rcases List.mem_cons.mp hz with rfl | hz
      · exact le_refl _
      · exact hl.tail.tail.head_le hz
    constructor
    · intro haz
      have htz' := mates_between hmates haz hat htz
      exact hpart.mates_right haz (hlo.trans (htz'.lo_le htz))
    · intro hnz
      exact mates_trans (hpart.mates (mates_self a) (le_refl _)) hnz hpart.key_le
        (hordered.head_le hz)
  refine ⟨hordered, exists_congr fun k => ?_⟩
  rw [barrier_cons, or_iff_right fun hnot => hnot.1 hover.mates, hotAt_cons hl.tail,
    and_iff_right hover.mates, hotAt_congr hiff,
    barrier_congr hpart.hostPrefix.symm hpart.singlehost.symm hiff, h.next_hi ha hb, numDigits_max]
  refine and_congr_right fun hbarrier => ?_
  -- The second range has fewer digits than the zeros.
  have hfew : numDigits b.hi.toNat < k := by
    obtain ⟨z, hz, hnot, hname, hsingle, rfl⟩ := hbarrier
    have htz : t.key ≤ z.key := by
      rcases List.mem_cons.mp hz with rfl | hz
      · exact le_refl _
      · exact hl.tail.tail.head_le hz
    have hdigits := digits_lt_of_not_mates hmates hat (fun haz => hnot ((hiff z hz).mp haz))
      (hpart.hostPrefix.symm.trans hname) (hpart.singlehost.symm.trans hsingle) htz
    have hmono := numDigits_mono hreach
    rw [HostRange.digits] at hdigits
    omega
  rw [le_max_iff, or_iff_right (show ¬ k ≤ numDigits b.hi.toNat by omega),
    or_iff_left (show ¬ k ≤ numDigits b.hi.toNat by omega)]

/-- The last part comes before a range of another prefix, and there is no clash. -/
theorem next_before_other (h : SplitInto a b before next c) (ha : Small a) (hb : Small b)
    (hover : Overlaps a b) (horder : a.lo.toNat ≤ b.lo.toNat) (hl : Ordered (a :: b :: t :: l))
    (hother : ¬ (a.hostPrefix = t.hostPrefix ∧ a.singlehost = t.singlehost)) :
    ¬ Clash a (b :: t :: l) ∧ ¬ Overlaps next t ∧ next.key ≤ t.key := by
  have hat := hl.head_le (mem_cons_of_mem b mem_cons_self)
  have hpart := h.partOf ha hb hover horder (Or.inr rfl)
  refine ⟨?_, fun hnext => hother ⟨hpart.hostPrefix.symm.trans hnext.mates.hostPrefix,
    hpart.singlehost.symm.trans hnext.mates.singlehost⟩, hpart.before_other hat hother⟩
  rintro ⟨k, ⟨z, hz, hnot, hname, hsingle, -⟩, -, -⟩
  rcases List.mem_cons.mp hz with rfl | hz
  · exact hnot hover.mates
  · have htz : t.key ≤ z.key := by
      rcases List.mem_cons.mp hz with rfl | hz
      · exact le_refl _
      · exact hl.tail.tail.head_le hz
    exact hother (same_of_between hat htz hname hsingle)

/-- The last part meets a range with zeros: it reaches the digits of this range where the two ranges
clash. -/
theorem next_before_zeros (h : SplitInto a b before next c) (ha : Small a) (hb : Small b)
    (hover : Overlaps a b) (horder : a.lo.toNat ≤ b.lo.toNat) (hl : Ordered (a :: b :: t :: l))
    (hnot : ¬ Mates b t) (hname : a.hostPrefix = t.hostPrefix) (hsingle : a.singlehost = t.singlehost) :
    (Clash a (b :: t :: l) ∧ Mates next t ∧ t.lo.toNat < next.lo.toNat) ∨
      (¬ Clash a (b :: t :: l) ∧ ¬ Mates next t ∧ next.key ≤ t.key) := by
  have hab := hl.head_le mem_cons_self
  have hat := hl.head_le (mem_cons_of_mem b mem_cons_self)
  have hpart := h.partOf ha hb hover horder (Or.inr rfl)
  have hnot' : ¬ Mates a t := fun hmates =>
    hnot (mates_between hover.mates hmates hab (hl.tail.head_le mem_cons_self))
  have hlo := h.next_lo ha
  obtain ⟨hzeros, -⟩ := zeros_of_not_mates hname hsingle hnot' hat
  rcases Nat.lt_or_ge next.digits t.width with hfew | hmany
  · right
    refine ⟨?_, hpart.before_zeros hname hsingle hnot' hat hfew⟩
    rintro ⟨k, hbarrier, hk, hhot⟩
    rw [HostRange.digits, hlo] at hfew
    rw [hotAt_cons hl.tail, hotAt_cons hl.tail.tail] at hhot
    have hkb : k ≤ numDigits b.hi.toNat := hhot.2.resolve_right fun hhot => hnot' hhot.1
    have hkmin : k ≤ numDigits (min a.hi.toNat b.hi.toNat) := le_numDigits_min.mpr ⟨hk, hkb⟩
    -- The zeros of later ranges are as many.
    have hkt : t.width ≤ k := by
      obtain ⟨z, hz, hnotz, hnamez, hsinglez, rfl⟩ := hbarrier
      rcases List.mem_cons.mp hz with rfl | hz
      · exact absurd hover.mates hnotz
      · rcases List.mem_cons.mp hz with rfl | hz'
        · exact le_refl _
        · have hle := hl.tail.tail.head_le hz'
          obtain ⟨hzerosz, -⟩ := zeros_of_not_mates hnamez hsinglez hnotz (hat.trans hle)
          rw [key_le_iff (hname.symm.trans hnamez) (hsingle.symm.trans hsinglez), HostRange.plen,
            HostRange.plen] at hle
          omega
    omega
  · left
    refine ⟨⟨t.width, ⟨t, by simp, hnot', hname, hsingle, rfl⟩, ?_⟩,
      hpart.after_zeros hname hsingle hnot' hat hmany⟩
    rw [HostRange.digits, hlo, ge_iff_le, le_numDigits_min] at hmany
    exact ⟨hmany.1, (hotAt_cons hl.tail).mpr ⟨hover.mates, Or.inl hmany.2⟩⟩

end Split

theorem pair_of_not_overlaps (ha : Small a) (hb : Small b) (h : ¬ Overlaps a b) :
    coalescePair a b = none := by
  unfold coalescePair
  rw [intersect_none ha.sortable hb.sortable h, Option.map_none]

theorem insert_apart (h : coalescePair a b = none) :
    insert coalescePair a (b :: l) = some (a :: b :: l) := by
  rw [Lib.Restart.insert, h]

/-- A range is inserted before ranges that are settled, where it does not clash with them. -/
theorem insert_spec (ha : Small a) (hl : ∀ x ∈ l, Small x) (hordered : Ordered (a :: l))
    (hchain : List.IsChain (Apart coalescePair) l) :
    (Clash a l ∧ insert coalescePair a l = none) ∨
      (¬ Clash a l ∧ ∃ m, insert coalescePair a l = some m ∧ Settled (a :: l) m) := by
  induction l generalizing a with
  | nil =>
    refine Or.inr ⟨?_, [a], rfl, Settled.refl hordered⟩
    rintro ⟨k, ⟨t, ht, -⟩, -⟩
    exact absurd ht not_mem_nil
  | cons b l ih =>
    have hb := hl b mem_cons_self
    have hab := hordered.head_le mem_cons_self
    have hrest : ∀ x ∈ l, Small x := fun x hx => hl x (mem_cons_of_mem b hx)
    rcases coalescePair_cases ha hb with ⟨hnot, hpair⟩ | ⟨hover, hwrong, -⟩ |
      ⟨hover, horder, before, next, c, hsplit, hpair⟩
    · exact Or.inr ⟨not_clash_of_apart ha hordered hl hnot, _, insert_apart hpair,
        Settled.refl hordered⟩
    · exact absurd (hover.mates.lo_le hab) (Nat.not_le_of_lt hwrong)
    · have hnext : Small next := hsplit.small ha hb hover horder (Or.inr rfl)
      have hstep : insert coalescePair a (b :: l) = (insert coalescePair next l).map (before ++ ·) := by
        rw [Lib.Restart.insert, hpair]
      have hdone : ∀ m, Ordered (next :: l) → insert coalescePair next l = some m →
          Settled (next :: l) m →
          ∃ m', insert coalescePair a (b :: l) = some m' ∧ Settled (a :: b :: l) m' := by
        intro m hnextl hm hsettled
        refine ⟨before ++ m, ?_, hsplit.settled ha hb hover horder hordered hnextl hsettled⟩
        rw [hstep, hm, Option.map_some]
      cases l with
      | nil =>
        refine Or.inr ⟨?_, hdone [next] (pairwise_singleton _ _) rfl
          (Settled.refl (pairwise_singleton _ _))⟩
        rintro ⟨k, ⟨t, ht, hnot, -⟩, -⟩
        rw [mem_singleton] at ht
        exact hnot (ht ▸ hover.mates)
      | cons t l =>
        have ht := hrest t mem_cons_self
        by_cases hbt : Mates b t
        · have hs : b.singlehost = false := hover.mates.singlehost ▸ hover.numbered
          have hreach := le_of_apart hb ht hs hbt hchain.rel
          obtain ⟨hnextl, hclash⟩ := clash_next hsplit ha hb hover horder hordered hbt hreach
          rw [hclash]
          rcases ih hnext hrest hnextl hchain.tail with ⟨hyes, hnone⟩ | ⟨hno, m, hm, hsettled⟩
          · exact Or.inl ⟨hyes, by rw [hstep, hnone, Option.map_none]⟩
          · exact Or.inr ⟨hno, hdone m hnextl hm hsettled⟩
        · by_cases hsame : a.hostPrefix = t.hostPrefix ∧ a.singlehost = t.singlehost
          · rcases next_before_zeros hsplit ha hb hover horder hordered hbt hsame.1 hsame.2 with
              ⟨hyes, hmates, hlt⟩ | ⟨hno, hnot, hle⟩
            · -- The last part and the range with zeros are in the wrong order.
              refine Or.inl ⟨hyes, ?_⟩
              have hover' : Overlaps next t := by
                refine ⟨(hsplit.partOf ha hb hover horder (Or.inr rfl)).singlehost.trans hover.numbered,
                  hmates, ?_⟩
                exact Nat.lt_of_lt_of_le hlt hnext.sortable.wf.le
              have hnone : insert coalescePair next (t :: l) = none := by
                rcases coalescePair_cases hnext ht with ⟨hnot, -⟩ | ⟨-, -, hpair'⟩ | ⟨-, hle, -⟩
                · exact absurd hover' hnot
                · rw [Lib.Restart.insert, hpair']
                · exact absurd hle (Nat.not_le_of_lt hlt)
              rw [hstep, hnone, Option.map_none]
            · have hpair' := pair_of_not_overlaps hnext ht fun hover' => hnot hover'.mates
              have hnextl : Ordered (next :: t :: l) := hordered.tail.tail.cons hle
              exact Or.inr ⟨hno, hdone _ hnextl (insert_apart hpair') (Settled.refl hnextl)⟩
          · obtain ⟨hno, hnot, hle⟩ := next_before_other hsplit ha hb hover horder hordered hsame
            have hpair' := pair_of_not_overlaps hnext ht hnot
            have hnextl : Ordered (next :: t :: l) := hordered.tail.tail.cons hle
            exact Or.inr ⟨hno, hdone _ hnextl (insert_apart hpair') (Settled.refl hnextl)⟩

end Slurm.Hostlist
