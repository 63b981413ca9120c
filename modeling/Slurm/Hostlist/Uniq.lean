import Slurm.Hostlist.Natcmp

/-!
# Sorting and joining ranges

`hostlist_uniq` sorts the ranges and joins neighbours.  A comparison of two ranges may give one of
them the width of the other.

* `hostrangeCmp`, `hostrangeJoin`, `uniqLoop`: the comparison, one join and the loop.
* `Qsorted`: what `qsort` leaves, whatever it compares on the way.
-/

namespace Slurm.Hostlist

open Lib.Decimal

/-! ## The code -/

/-- `hostrange_prefix_cmp`. -/
def hostrangePrefixCmp (h1 h2 : HostRange) : Int :=
  let retval := strnatcmp h1.hostPrefix h2.hostPrefix
  if retval = 0 then h2.singlehost.toNat - h1.singlehost.toNat else retval

/-- `hostrange_width_combine`: the ranges after it, where they can be combined. -/
def hostrangeWidthCombine (h0 h1 : HostRange) : Option (HostRange × HostRange) :=
  (widthEquiv h0.lo h0.width h1.lo h1.width).map fun (w0, w1) =>
    ({ h0 with width := w0 }, { h1 with width := w1 })

/-- `hostrange_cmp`: what is returned as an `int`, and the ranges after it. -/
def hostrangeCmp (h1 h2 : HostRange) : Int × HostRange × HostRange :=
  if hostrangePrefixCmp h1 h2 = 0 then
    match hostrangeWidthCombine h1 h2 with
    | some (h1', h2') => (((h1.lo - h2.lo).setWidth 32).toInt, h1', h2')
    | none => ((h1.width : Int) - h2.width, h1, h2)
  else
    (hostrangePrefixCmp h1 h2, h1, h2)

/-- `hostrange_join`: the hosts that were duplicated or `-1`, and the ranges after it. -/
def hostrangeJoin (h1 h2 : HostRange) : Int × HostRange × HostRange :=
  if hostrangePrefixCmp h1 h2 = 0 then
    match hostrangeWidthCombine h1 h2 with
    | none => (-1, h1, h2)
    | some (h1, h2) =>
      if h1.singlehost ∧ h2.singlehost then
        (1, h1, h2)
      else if h1.hi = h2.lo - 1 then
        (0, { h1 with hi := h2.hi }, h2)
      else if h1.hi ≥ h2.lo then
        if h1.hi < h2.hi then
          (((h1.hi - h2.lo + 1).setWidth 32).toInt, { h1 with hi := h2.hi }, h2)
        else
          ((h2.count.setWidth 32).toInt, h1, h2)
      else
        (-1, h1, h2)
  else
    (-1, h1, h2)

/-- The loop of `hostlist_uniq`, which joins a range with the ones after it as long as
`_attempt_range_join` does. -/
def uniqLoop (h1 : HostRange) : List HostRange → BitVec 32 → HostList
  | [], nhosts => ⟨[h1], nhosts⟩
  | h2 :: rest, nhosts =>
    match hostrangeJoin h1 h2 with
    | (ndup, h1', h2') =>
      if 0 ≤ ndup then
        uniqLoop h1' rest (nhosts - BitVec.ofInt 32 ndup)
      else
        let hl := uniqLoop h2' rest nhosts
        { hl with hr := h1' :: hl.hr }

/-- The ranges of a list are joined after they were sorted. -/
def joinSorted (sorted : List HostRange) (nhosts : BitVec 32) : HostList :=
  match sorted with
  | [] => ⟨[], nhosts⟩
  | h1 :: rest => uniqLoop h1 rest nhosts

/-! ## The sort -/

/-- The widths after `qsort` has compared pairs of the ranges. -/
inductive Compared (l : List HostRange) : List HostRange → Prop
  | start : Compared l l
  | compare {m : List HostRange} {i j : Nat} {h1 h2 : HostRange} (hm : Compared l m)
      (hi : m[i]? = some h1) (hj : m[j]? = some h2) (hne : i ≠ j) :
      Compared l ((m.set i (hostrangeCmp h1 h2).2.1).set j (hostrangeCmp h1 h2).2.2)

/-- The comparison orders the ranges, as `qsort` requires it. -/
structure Consistent (l : List HostRange) : Prop where
  symm : ∀ a ∈ l, ∀ b ∈ l, 0 < (hostrangeCmp a b).1 ↔ (hostrangeCmp b a).1 < 0
  trans : ∀ a ∈ l, ∀ b ∈ l, ∀ c ∈ l,
    (hostrangeCmp a b).1 ≤ 0 → (hostrangeCmp b c).1 ≤ 0 → (hostrangeCmp a c).1 ≤ 0

/-- What `qsort` leaves: the ranges in some order, with the widths of the comparisons, and sorted
where the comparison orders them. -/
def Qsorted (l sorted : List HostRange) : Prop :=
  ∃ m, Compared l m ∧ sorted.Perm m ∧
    (Consistent m → sorted.Pairwise fun a b => (hostrangeCmp a b).1 ≤ 0)

/-- What `hostlist_uniq` leaves. -/
def HostlistUniq (hl hl' : HostList) : Prop :=
  if hl.hr.length ≤ 1 then hl' = hl
  else ∃ sorted, Qsorted hl.hr sorted ∧ hl' = joinSorted sorted hl.nhosts

end Slurm.Hostlist

/-!
## The order of ranges

Ranges are sorted by their prefix, with single hosts first, then by the length that their first
number is printed with, and then by this number.

* `Rewidth`: a range got another width that prints its numbers alike.
* `Mates`: two ranges could be joined; `mates_trans` and `mates_between` are how this goes along
  with the order.
* `hostrangeCmp_iff`: the comparison is the one of the order, for first numbers whose difference has
  the right sign as an `int`.
-/

namespace Slurm.Hostlist

open Lib.Decimal

variable {a b c : HostRange}

/-- The digits of the first number. -/
def HostRange.digits (hr : HostRange) : Nat := numDigits hr.lo.toNat

/-- The length that the first number is printed with. -/
def HostRange.plen (hr : HostRange) : Nat := max hr.width hr.digits

/-- What ranges are sorted by. -/
def HostRange.key (hr : HostRange) : List TokenKey ×ₗ ℕ ×ₗ ℕ ×ₗ ℕ :=
  toLex (natKey hr.hostPrefix, toLex ((!hr.singlehost).toNat, toLex (hr.plen, hr.lo.toNat)))

theorem digits_mono (h : a.lo.toNat ≤ b.lo.toNat) : a.digits ≤ b.digits := numDigits_mono h

/-- The ranges have one prefix and kind, and one of their widths can be used for both. -/
structure Mates (a b : HostRange) : Prop where
  hostPrefix : a.hostPrefix = b.hostPrefix
  singlehost : a.singlehost = b.singlehost
  widths : max a.width a.digits = max b.width a.digits ∨ max b.width b.digits = max a.width b.digits

theorem key_le_iff (hname : a.hostPrefix = b.hostPrefix) (hsingle : a.singlehost = b.singlehost) :
    a.key ≤ b.key ↔ a.plen < b.plen ∨ a.plen = b.plen ∧ a.lo.toNat ≤ b.lo.toNat := by
  simp [HostRange.key, Prod.Lex.toLex_le_toLex, hname, hsingle]

theorem key_eq_iff : a.key = b.key ↔
    a.hostPrefix = b.hostPrefix ∧ a.singlehost = b.singlehost ∧ a.plen = b.plen ∧
      a.lo.toNat = b.lo.toNat := by
  simp only [HostRange.key, EmbeddingLike.apply_eq_iff_eq, Prod.mk.injEq]
  have hbool : (!a.singlehost).toNat = (!b.singlehost).toNat ↔ a.singlehost = b.singlehost := by
    cases a.singlehost <;> cases b.singlehost <;> decide
  rw [hbool]
  exact and_congr_left' ⟨natKey_injective, congrArg natKey⟩

/-- Ranges at one place of the order are mates. -/
theorem mates_of_key_eq (h : a.key = b.key) : Mates a b := by
  obtain ⟨hname, hsingle, hplen, hlo⟩ := key_eq_iff.mp h
  refine ⟨hname, hsingle, ?_⟩
  have hdigits : a.digits = b.digits := congrArg numDigits hlo
  rw [HostRange.plen, HostRange.plen] at hplen
  omega

theorem Mates.lo_le (h : Mates a b) (hkey : a.key ≤ b.key) : a.lo.toNat ≤ b.lo.toNat := by
  rw [key_le_iff h.hostPrefix h.singlehost, HostRange.plen, HostRange.plen] at hkey
  have hwidths := h.widths
  by_contra hlt
  have hdigits := digits_mono (show b.lo.toNat ≤ a.lo.toNat by omega)
  omega

theorem mates_trans (hab : Mates a b) (hbc : Mates b c) (hkey : a.key ≤ b.key)
    (hkey' : b.key ≤ c.key) : Mates a c := by
  have hlo := digits_mono (hab.lo_le hkey)
  have hlo' := digits_mono (hbc.lo_le hkey')
  have hwidths := hab.widths
  have hwidths' := hbc.widths
  refine ⟨hab.hostPrefix.trans hbc.hostPrefix, hab.singlehost.trans hbc.singlehost, ?_⟩
  rw [key_le_iff hab.hostPrefix hab.singlehost, HostRange.plen, HostRange.plen] at hkey
  rw [key_le_iff hbc.hostPrefix hbc.singlehost, HostRange.plen, HostRange.plen] at hkey'
  omega

/-- Of two mates of a range the first is a mate of the second. -/
theorem mates_between (hab : Mates a b) (hac : Mates a c) (hkey : a.key ≤ b.key)
    (hkey' : b.key ≤ c.key) : Mates b c := by
  have hlo := digits_mono (hab.lo_le hkey)
  have hwidths := hab.widths
  have hwidths' := hac.widths
  have hname := hab.hostPrefix.symm.trans hac.hostPrefix
  have hsingle := hab.singlehost.symm.trans hac.singlehost
  refine ⟨hname, hsingle, ?_⟩
  have hlo' := digits_mono (hac.lo_le (hkey.trans hkey'))
  rw [key_le_iff hname hsingle, HostRange.plen, HostRange.plen] at hkey'
  have hmono : c.lo.toNat ≤ b.lo.toNat → c.digits ≤ b.digits := digits_mono
  have hmono' : b.lo.toNat ≤ c.lo.toNat → b.digits ≤ c.digits := digits_mono
  omega

/-! ## Widths that print alike -/

/-- The range got a width that prints its first number, and so all of them, as before. -/
structure Rewidth (a b : HostRange) : Prop where
  hostPrefix : b.hostPrefix = a.hostPrefix
  lo : b.lo = a.lo
  hi : b.hi = a.hi
  singlehost : b.singlehost = a.singlehost
  width : b.width = a.width ∨ b.width ≤ a.digits ∧ a.width ≤ a.digits

theorem Rewidth.refl (a : HostRange) : Rewidth a a := ⟨rfl, rfl, rfl, rfl, Or.inl rfl⟩

theorem Rewidth.digits_eq (h : Rewidth a b) : b.digits = a.digits := by
  rw [HostRange.digits, HostRange.digits, h.lo]

theorem Rewidth.symm (h : Rewidth a b) : Rewidth b a := by
  refine ⟨h.hostPrefix.symm, h.lo.symm, h.hi.symm, h.singlehost.symm, ?_⟩
  have hwidth := h.width
  rw [h.digits_eq]
  omega

theorem Rewidth.trans (h : Rewidth a b) (h' : Rewidth b c) : Rewidth a c := by
  refine ⟨h'.hostPrefix.trans h.hostPrefix, h'.lo.trans h.lo, h'.hi.trans h.hi,
    h'.singlehost.trans h.singlehost, ?_⟩
  have hwidth := h.width
  have hwidth' := h'.width
  rw [h.digits_eq] at hwidth'
  omega

theorem Rewidth.key_eq (h : Rewidth a b) : b.key = a.key := by
  refine key_eq_iff.mpr ⟨h.hostPrefix, h.singlehost, ?_, by rw [h.lo]⟩
  have hwidth := h.width
  rw [HostRange.plen, HostRange.plen, h.digits_eq]
  omega

theorem Rewidth.mates_iff (h : Rewidth a b) : Mates b c ↔ Mates a c := by
  have hwidth := h.width
  have hdigits := h.digits_eq
  have hmono : ∀ x y : HostRange, x.lo.toNat ≤ y.lo.toNat → x.digits ≤ y.digits :=
    fun _ _ => digits_mono
  have hac := hmono a c
  have hca := hmono c a
  constructor
  · intro hm
    refine ⟨h.hostPrefix.symm.trans hm.hostPrefix, h.singlehost.symm.trans hm.singlehost, ?_⟩
    have hwidths := hm.widths
    omega
  · intro hm
    refine ⟨h.hostPrefix.trans hm.hostPrefix, h.singlehost.trans hm.singlehost, ?_⟩
    have hwidths := hm.widths
    omega

theorem mates_comm : Mates a b ↔ Mates b a := by
  constructor <;> rintro ⟨hname, hsingle, hwidths⟩ <;>
    exact ⟨hname.symm, hsingle.symm, by omega⟩

theorem Rewidth.padded_eq (h : Rewidth a b) {n : Nat} (hn : a.lo.toNat ≤ n) :
    padded b.width n = padded a.width n := by
  have hdigits : a.digits ≤ numDigits n := numDigits_mono hn
  have hwidth := h.width
  rw [padded, padded]
  congr 2
  omega

/-! ## The comparison -/

/-- A range that can be sorted: its prefix has no white space and a single host has no width. -/
structure Sortable (a : HostRange) : Prop where
  wf : a.Wf
  noSpace : NoSpace a.hostPrefix
  single : a.singlehost = true → a.plen = 1

theorem Rewidth.sortable (h : Rewidth a b) (ha : Sortable a) : Sortable b where
  wf := by
    refine ⟨by rw [h.lo, h.hi]; exact ha.wf.le, fun hs => ?_⟩
    rw [h.singlehost] at hs
    rw [h.lo, h.hi]
    exact ha.wf.single hs
  noSpace := by
    rw [h.hostPrefix]
    exact ha.noSpace
  single hs := by
    rw [h.singlehost] at hs
    rw [(key_eq_iff.mp h.key_eq).2.2.1]
    exact ha.single hs

/-- The difference of the first numbers has the right sign as an `int`. -/
def Near (a b : HostRange) : Prop :=
  a.singlehost = false → Mates a b → a.lo.toNat < b.lo.toNat →
    0 < (b.lo.toNat - a.lo.toNat) % 2 ^ 32 ∧ (b.lo.toNat - a.lo.toNat) % 2 ^ 32 < 2 ^ 31

theorem prefixCmp_zero_iff (ha : NoSpace a.hostPrefix) (hb : NoSpace b.hostPrefix) :
    hostrangePrefixCmp a b = 0 ↔ a.hostPrefix = b.hostPrefix ∧ a.singlehost = b.singlehost := by
  rw [hostrangePrefixCmp, strnatcmp_eq ha hb]
  split
  · rename_i h
    rw [cmpSign_eq_zero] at h
    rw [and_iff_right (natKey_injective h)]
    cases a.singlehost <;> cases b.singlehost <;> decide
  · rename_i h
    exact iff_of_false h fun heq => h (by rw [heq.1, cmpSign_self])

theorem prefixCmp_eq_zero_iff (ha : Sortable a) (hb : Sortable b) :
    hostrangePrefixCmp a b = 0 ↔ a.hostPrefix = b.hostPrefix ∧ a.singlehost = b.singlehost :=
  prefixCmp_zero_iff ha.noSpace hb.noSpace

theorem widthCombine_isSome_iff : (hostrangeWidthCombine a b).isSome = true ↔
    max a.width a.digits = max b.width a.digits ∨ max b.width b.digits = max a.width b.digits := by
  rw [hostrangeWidthCombine, Option.isSome_map]
  exact widthEquiv_isSome_iff _ _ _ _

theorem widthCombine_some {a' b' : HostRange} (h : hostrangeWidthCombine a b = some (a', b')) :
    Rewidth a a' ∧ Rewidth b b' ∧ a'.width = b'.width := by
  rw [hostrangeWidthCombine, Option.map_eq_some_iff] at h
  obtain ⟨⟨w, w'⟩, hwidths, h⟩ := h
  obtain ⟨heq, ha, hb⟩ := widthEquiv_some hwidths
  cases h
  exact ⟨⟨rfl, rfl, rfl, rfl, ha⟩, ⟨rfl, rfl, rfl, rfl, hb⟩, heq⟩

theorem cmp_rewidth (a b : HostRange) :
    Rewidth a (hostrangeCmp a b).2.1 ∧ Rewidth b (hostrangeCmp a b).2.2 := by
  rw [hostrangeCmp]
  split
  · split
    · rename_i a' b' hcombine
      obtain ⟨ha, hb, -⟩ := widthCombine_some hcombine
      exact ⟨ha, hb⟩
    · exact ⟨Rewidth.refl a, Rewidth.refl b⟩
  · exact ⟨Rewidth.refl a, Rewidth.refl b⟩

theorem Mates.key_le_iff_lo (h : Mates a b) : a.key ≤ b.key ↔ a.lo.toNat ≤ b.lo.toNat := by
  refine ⟨h.lo_le, fun hlo => ?_⟩
  have hdigits := digits_mono hlo
  have hwidths := h.widths
  have hmono : b.lo.toNat ≤ a.lo.toNat → b.digits ≤ a.digits := digits_mono
  rw [key_le_iff h.hostPrefix h.singlehost, HostRange.plen, HostRange.plen]
  omega

theorem toInt_sub_iff {x y : BitVec 64}
    (h : x.toNat < y.toNat →
      0 < (y.toNat - x.toNat) % 2 ^ 32 ∧ (y.toNat - x.toNat) % 2 ^ 32 < 2 ^ 31)
    (h' : y.toNat < x.toNat →
      0 < (x.toNat - y.toNat) % 2 ^ 32 ∧ (x.toNat - y.toNat) % 2 ^ 32 < 2 ^ 31) :
    (((x - y).setWidth 32).toInt ≤ 0 ↔ x.toNat ≤ y.toNat) ∧
      (((x - y).setWidth 32).toInt < 0 ↔ x.toNat < y.toNat) := by
  have hx := x.isLt
  have hy := y.isLt
  have hnat : ((x - y).setWidth 32).toNat = (2 ^ 64 - y.toNat + x.toNat) % 2 ^ 64 % 2 ^ 32 := by
    rw [BitVec.toNat_setWidth, BitVec.toNat_sub]
  rw [BitVec.toInt_eq_toNat_cond, hnat]
  rcases Nat.lt_trichotomy x.toNat y.toNat with hlt | heq | hgt
  · have := h hlt
    split <;> omega
  · split <;> omega
  · have := h' hgt
    split <;> omega

/-- The comparison is the one of the order. -/
theorem hostrangeCmp_iff (ha : Sortable a) (hb : Sortable b) (hnear : Near a b) (hnear' : Near b a) :
    ((hostrangeCmp a b).1 ≤ 0 ↔ a.key ≤ b.key) ∧ ((hostrangeCmp a b).1 < 0 ↔ a.key < b.key) := by
  rw [hostrangeCmp]
  by_cases hzero : hostrangePrefixCmp a b = 0
  · obtain ⟨hname, hsingle⟩ := (prefixCmp_eq_zero_iff ha hb).mp hzero
    rw [if_pos hzero]
    cases hcombine : hostrangeWidthCombine a b with
    | some ranges =>
      have hmates : Mates a b :=
        ⟨hname, hsingle, widthCombine_isSome_iff.mp (by rw [hcombine]; rfl)⟩
      have hmates' := mates_comm.mp hmates
      rw [← not_le, ← not_le, hmates.key_le_iff_lo, hmates'.key_le_iff_lo, not_le, not_le]
      cases hs : a.singlehost with
      | true =>
        have hlo : a.lo = b.lo := by rw [(ha.wf.single hs).1, (hb.wf.single (hsingle ▸ hs)).1]
        rw [hlo]
        simp
      | false => exact toInt_sub_iff (hnear hs hmates) (hnear' (hsingle ▸ hs) hmates')
    | none =>
      have hnot : ¬ (max a.width a.digits = max b.width a.digits ∨
          max b.width b.digits = max a.width b.digits) := by
        rw [← widthCombine_isSome_iff, hcombine]
        exact Bool.false_ne_true
      have hmono : a.lo.toNat ≤ b.lo.toNat → a.digits ≤ b.digits := digits_mono
      have hmono' : b.lo.toNat ≤ a.lo.toNat → b.digits ≤ a.digits := digits_mono
      rw [← not_le (a := b.key), key_le_iff hname hsingle, key_le_iff hname.symm hsingle.symm,
        HostRange.plen, HostRange.plen]
      dsimp only
      constructor <;> omega
  · rw [if_neg hzero]
    rw [hostrangePrefixCmp, strnatcmp_eq ha.noSpace hb.noSpace] at hzero ⊢
    by_cases hname : natKey a.hostPrefix = natKey b.hostPrefix
    · rw [cmpSign_eq_zero.mpr hname] at hzero ⊢
      simp only [HostRange.key, Prod.Lex.toLex_le_toLex, Prod.Lex.toLex_lt_toLex, hname,
        lt_irrefl, true_and, false_or]
      cases hs : a.singlehost <;> cases hs' : b.singlehost
      · exact absurd (by rw [hs, hs']; rfl) hzero
      · simp
      · simp
      · exact absurd (by rw [hs, hs']; rfl) hzero
    · have hsign := cmpSign_of_ne hname
      have hne : cmpSign (natKey a.hostPrefix) (natKey b.hostPrefix) ≠ 0 :=
        fun h => hname (cmpSign_eq_zero.mp h)
      simp only [if_neg hne]
      rw [hsign]
      simp only [HostRange.key, Prod.Lex.toLex_le_toLex, Prod.Lex.toLex_lt_toLex, hname, false_and,
        or_false]
      split
      · rename_i hlt
        simp [hlt]
      · rename_i hlt
        simp [hlt]

end Slurm.Hostlist
