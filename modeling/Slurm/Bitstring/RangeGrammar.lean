import Slurm.Bitstring.RangeParse

/-!
# The grammar of range strings

A range string is a list of numbers and ranges or one range with a step.

* `UnfmtContract`: `bit_unfmt` accepts a list where each of its numbers is a bit, and the bits are
  then those of the list or those that the steps come to.
* `unfmtContract_iff`: this holds where no number is too large for an `int32_t` or a range before
  it is out of bounds as well, and where the steps do not end on the last bit of the range.
-/

namespace Slurm.Bitstring

open Lib.Decimal Lib.RangeList Lib.Int32 List

variable {nbits : Nat}

/-! ## The contract -/

/-- What is promised of `bit_unfmt` for a text. -/
structure UnfmtContract (b : Bitstr) (s : List Char) : Prop where
  list : ∀ rs, read s = some rs → ∃ rc b', bitUnfmt b (some s) = some (rc, b') ∧
    (rc = 0 ↔ ∀ r ∈ rs, r.1 < b.nbits ∧ r.2 < b.nbits) ∧ (rc = 0 → Holds b b' (Denotes rs))
  step : ∀ lo hi step, IsStep s lo hi step → lo ≤ hi → hi < b.nbits → 0 < step →
    ∃ b', bitUnfmt b (some s) = some (0, b') ∧
      Holds b b' fun i => ∃ k, i = lo + k * step ∧ lo + k * step ≤ hi

/-- A range that is refused comes before any of which both numbers wrap to -1. -/
def Refused (nbits : Nat) (rs : List (Nat × Nat)) : Prop :=
  ∃ before r after, rs = before ++ r :: after ∧ (∀ q ∈ before, (pairOf q).1 ≠ -1) ∧
    (pairOf r).1 ≠ -1 ∧ ¬ InBounds nbits (pairOf r)

/-- The lists that are read as they are written. -/
def ListFits (b : Bitstr) (s : List Char) (rs : List (Nat × Nat)) : Prop :=
  (s = [] → ∀ i, i < b.nbits → b.bit i = false) ∧ s.length + 1 < 1073741824 ∧
    ((∀ r ∈ rs, r.1 < 2147483648 ∧ r.2 < 2147483648) ∨ Refused b.nbits rs)

/-- How many bits a range with a step has before its end. -/
def stepCount (lo hi : Nat) (step : Int) : Nat := (hi - lo - 1) / step.toNat + 1

/-- The steps that are taken as they are written. -/
def StepFits (lo hi step : Nat) : Prop :=
  ¬ step ∣ hi - lo ∧ 0 < stepOf step ∧ (stepOf step = step ∨ (hi : Int) ≤ lo + stepOf step) ∧
    lo + stepCount lo hi (stepOf step) * stepOf step < 2147483648

/-! ## Lists -/

section Lists

variable {b : Bitstr} {s : List Char} {rs : List (Nat × Nat)}

theorem inBounds_pairOf {r : Nat × Nat} (h1 : r.1 < b.nbits) (h2 : r.2 < b.nbits) :
    InBounds b.nbits (pairOf r) := by
  have hvalid := b.valid.2
  rw [pairOf_eq (by omega) (by omega), InBounds, OutOfRange, OutOfRange]
  dsimp only
  omega

/-- A list of bits is accepted. -/
theorem inx2bitstr_list (h : ∀ r ∈ rs, r.1 < b.nbits ∧ r.2 < b.nbits) :
    ∃ b', inx2bitstr b (flat (rs.map pairOf) ++ [-1]) = some (0, b') ∧ Holds b b' (Denotes rs) := by
  have hvalid := b.valid.2
  have hbounds : ∀ p ∈ rs.map pairOf, InBounds b.nbits p := by
    intro p hp
    obtain ⟨r, hr, rfl⟩ := List.mem_map.mp hp
    exact inBounds_pairOf (h r hr).1 (h r hr).2
  obtain ⟨b', hok, hholds⟩ := inx2bitstr_ok hbounds
  refine ⟨b', hok, hholds.congr fun i _ => ?_⟩
  constructor
  · rintro ⟨p, hp, hle⟩
    obtain ⟨r, hr, rfl⟩ := List.mem_map.mp hp
    have hin := h r hr
    rw [pairOf_eq (by omega) (by omega)] at hle
    exact ⟨r, hr, by omega⟩
  · rintro ⟨r, hr, hle⟩
    have hin := h r hr
    refine ⟨_, mem_map_of_mem hr, ?_⟩
    rw [pairOf_eq (by omega) (by omega)]
    dsimp only
    omega

theorem inBounds_ne {p : Int × Int} (h : InBounds nbits p) : p.1 ≠ -1 := by
  have hfirst := h.1
  rw [OutOfRange] at hfirst
  omega

/-- The first of some pairs that is not in bounds. -/
theorem split_inBounds (nbits : Nat) (rs : List (Nat × Nat)) :
    (∀ r ∈ rs, InBounds nbits (pairOf r)) ∨
      ∃ before r after, rs = before ++ r :: after ∧ (∀ q ∈ before, InBounds nbits (pairOf q)) ∧
        ¬ InBounds nbits (pairOf r) := by
  induction rs with
  | nil => exact .inl fun r hr => absurd hr not_mem_nil
  | cons r rs ih =>
    by_cases hr : InBounds nbits (pairOf r)
    · rcases ih with ih | ⟨before, q, after, rfl, hbefore, hq⟩
      · exact .inl (List.forall_mem_cons.mpr ⟨hr, ih⟩)
      · exact .inr ⟨r :: before, q, after, rfl, List.forall_mem_cons.mpr ⟨hr, hbefore⟩, hq⟩
    · exact .inr ⟨[], r, rs, rfl, fun q hq => absurd hq not_mem_nil, hr⟩

/-- The first pair that is not in bounds is the end for the loop or is refused. -/
theorem refused_split {before after : List (Nat × Nat)} {r : Nat × Nat}
    (hbefore : ∀ q ∈ before, InBounds nbits (pairOf q)) (hr : ¬ InBounds nbits (pairOf r)) :
    Refused nbits (before ++ r :: after) ↔ (pairOf r).1 ≠ -1 := by
  constructor
  · rintro ⟨before', r', after', heq, hne, hr', hbad⟩ hstop
    rcases List.append_eq_append_iff.mp heq with ⟨tail, hb, ht⟩ | ⟨tail, hb, ht⟩
    · cases tail with
      | nil =>
        rw [nil_append] at ht
        exact hr' ((List.cons.inj ht).1 ▸ hstop)
      | cons q tail =>
        apply hne r
        · rw [hb, (List.cons.inj ht).1]
          exact mem_append_right _ mem_cons_self
        · exact hstop
    · cases tail with
      | nil =>
        rw [nil_append] at ht
        exact hr' ((List.cons.inj ht).1 ▸ hstop)
      | cons q tail =>
        apply hbad
        apply hbefore
        rw [hb, (List.cons.inj ht).1]
        exact mem_append_right _ mem_cons_self
  · intro hne
    exact ⟨before, r, after, rfl, fun q hq => inBounds_ne (hbefore q hq), hne, hr⟩

theorem not_refused (h : ∀ r ∈ rs, InBounds nbits (pairOf r)) : ¬ Refused nbits rs := by
  rintro ⟨before, r, after, rfl, -, -, hbad⟩
  exact hbad (h r (mem_append_right _ mem_cons_self))

/-- Where the numbers fit, a pair that is not in bounds is refused. -/
theorem refused_of_fits (hfits : ∀ r ∈ rs, r.1 < 2147483648 ∧ r.2 < 2147483648)
    (h : ¬ ∀ r ∈ rs, InBounds nbits (pairOf r)) : Refused nbits rs := by
  rcases split_inBounds nbits rs with hall | ⟨before, r, after, rfl, hbefore, hr⟩
  · exact absurd hall h
  · have hfit := hfits r (mem_append_right _ mem_cons_self)
    rw [refused_split hbefore hr, pairOf_eq hfit.1 hfit.2]
    dsimp only
    omega

/-- An array is refused where the list of ranges is. -/
theorem inx2bitstr_refused (h : ¬ ∀ r ∈ rs, InBounds b.nbits (pairOf r)) :
    ∃ rc b', inx2bitstr b (flat (rs.map pairOf) ++ [-1]) = some (rc, b') ∧
      (rc ≠ 0 ↔ Refused b.nbits rs) := by
  rcases split_inBounds b.nbits rs with hall | ⟨before, r, after, rfl, hbefore, hr⟩
  · exact absurd hall h
  · have hpairs : ∀ q ∈ before.map pairOf, InBounds b.nbits q := by
      intro q hq
      obtain ⟨q', hq', rfl⟩ := List.mem_map.mp hq
      exact hbefore q' hq'
    rw [refused_split hbefore hr, map_append, map_cons, flat_append, flat_cons,
      append_assoc, cons_append, cons_append]
    by_cases hstop : (pairOf r).1 = -1
    · obtain ⟨b', hb'⟩ := inx2bitstr_stop hpairs hstop (flat (after.map pairOf) ++ [-1])
      exact ⟨0, b', hb', iff_of_false (fun hne => hne rfl) fun hne => hne hstop⟩
    · obtain ⟨b', hb'⟩ := inx2bitstr_bad hpairs hr hstop (flat (after.map pairOf) ++ [-1])
      exact ⟨-1, b', hb', iff_of_true (by decide) hstop⟩

theorem bitUnfmt_list (h : read s = some rs) (hne : s ≠ []) :
    bitUnfmt b (some s) =
      if 1073741824 ≤ s.length + 1 then none
      else inx2bitstr b (flat (rs.map pairOf) ++ [-1]) := by
  rw [bitUnfmt, Option.getD_some, if_neg hne, bitfmt2int_list h hne]
  by_cases hlong : 1073741824 ≤ s.length + 1
  · rw [if_pos hlong, if_pos hlong]
  · rw [if_neg hlong, if_neg hlong]

/-- The list is read as it is written. -/
theorem list_iff (h : read s = some rs) :
    (∃ rc b', bitUnfmt b (some s) = some (rc, b') ∧
      (rc = 0 ↔ ∀ r ∈ rs, r.1 < b.nbits ∧ r.2 < b.nbits) ∧ (rc = 0 → Holds b b' (Denotes rs))) ↔
      ListFits b s rs := by
  by_cases hnil : s = []
  · subst hnil
    have hrs := read_nil h
    subst hrs
    have hunfmt : bitUnfmt b (some []) = some (0, b) := if_pos rfl
    constructor
    · rintro ⟨rc, b', heq, -, hholds⟩
      rw [hunfmt] at heq
      obtain ⟨rfl, rfl⟩ := Prod.mk.inj (Option.some.inj heq)
      refine ⟨fun _ i hi => ?_, by decide, .inl fun r hr => absurd hr not_mem_nil⟩
      by_contra hset
      exact denotes_nil i (((hholds rfl).2 i hi).mp (Bool.of_not_eq_false hset))
    · rintro ⟨hclear, -, -⟩
      refine ⟨0, b, hunfmt, iff_of_true rfl fun r hr => absurd hr not_mem_nil, fun _ => ?_⟩
      refine ⟨rfl, fun i hi => iff_of_false ?_ (denotes_nil i)⟩
      rw [hclear rfl i hi]
      exact Bool.false_ne_true
  · rw [bitUnfmt_list h hnil, ListFits]
    by_cases hlong : 1073741824 ≤ s.length + 1
    · rw [if_pos hlong]
      constructor
      · rintro ⟨rc, b', heq, -⟩
        cases heq
      · intro hfits
        exact absurd hfits.2.1 (by omega)
    · rw [if_neg hlong]
      by_cases hin : ∀ r ∈ rs, r.1 < b.nbits ∧ r.2 < b.nbits
      · have hvalid := b.valid.2
        obtain ⟨b', heq, hholds⟩ := inx2bitstr_list hin
        refine iff_of_true ⟨0, b', heq, iff_of_true rfl hin, fun _ => hholds⟩ ?_
        refine ⟨fun hs => absurd hs hnil, by omega, .inl fun r hr => ?_⟩
        have hr' := hin r hr
        omega
      · by_cases hall : ∀ r ∈ rs, InBounds b.nbits (pairOf r)
        · obtain ⟨b', heq, -⟩ := inx2bitstr_ok (b := b) fun p hp => by
            obtain ⟨r, hr, rfl⟩ := List.mem_map.mp hp
            exact hall r hr
          apply iff_of_false
          · rintro ⟨rc, b'', heq', hzero, -⟩
            rw [heq] at heq'
            exact hin (hzero.mp (Prod.mk.inj (Option.some.inj heq')).1.symm)
          · rintro ⟨-, -, hfits | hrefused⟩
            · apply hin
              intro r hr
              obtain ⟨hlo, hhi⟩ := hall r hr
              rw [pairOf_eq (hfits r hr).1 (hfits r hr).2, OutOfRange] at hlo hhi
              dsimp only at hlo hhi
              omega
            · exact not_refused hall hrefused
        · obtain ⟨rc, b', heq, hrc⟩ := inx2bitstr_refused (b := b) hall
          constructor
          · rintro ⟨rc', b'', heq', hzero, -⟩
            rw [heq] at heq'
            obtain ⟨rfl, rfl⟩ := Prod.mk.inj (Option.some.inj heq')
            exact ⟨fun hs => absurd hs hnil, by omega, .inr (hrc.mp fun hz => hin (hzero.mp hz))⟩
          · rintro ⟨-, -, hfits⟩
            have hne : rc ≠ 0 := by
              rcases hfits with hfits | hrefused
              · exact hrc.mpr (refused_of_fits hfits hall)
              · exact hrc.mpr hrefused
            exact ⟨rc, b', heq, iff_of_false hne hin, fun hz => absurd hz hne⟩

end Lists

/-! ## Steps -/

section Steps

variable {b b' : Bitstr} {s : List Char} {lo hi step t : Nat}

theorem stepOf_eq (h : step < 2147483648) : stepOf step = step := by
  rw [stepOf, min_eq_right (by omega), wrap_eq (by omega) (by omega)]

theorem stepOf_lt (step : Nat) : stepOf step < 2147483648 := wrap_lt _

theorem mem_stepPairs {i d : Int} {n : Nat} {p : Int × Int} :
    p ∈ stepPairs i d n ↔ ∃ k : Nat, k < n ∧ p = (i + k * d, i + k * d) := by
  induction n generalizing i with
  | zero => exact iff_of_false not_mem_nil fun ⟨k, hk, _⟩ => Nat.not_lt_zero k hk
  | succ n ih =>
    rw [stepPairs, mem_cons, ih]
    constructor
    · rintro (rfl | ⟨k, hk, rfl⟩)
      · exact ⟨0, Nat.succ_pos n, by simp⟩
      · exact ⟨k + 1, Nat.succ_lt_succ hk, by push_cast; ring_nf⟩
    · rintro ⟨k, hk, rfl⟩
      cases k with
      | zero => exact .inl (by simp)
      | succ k => exact .inr ⟨k, Nat.lt_of_succ_lt_succ hk, by push_cast; ring_nf⟩

/-- The last bit before the end of the range, and the place after it. -/
theorem stepCount_bounds (hlt : lo < hi) (ht : 0 < t) :
    (∀ k, k < stepCount lo hi t → lo + k * t < hi) ∧ hi ≤ lo + stepCount lo hi t * t ∧
      lo + stepCount lo hi t * t < hi + t ∧ stepCount lo hi t ≤ (hi - lo) / t + 1 := by
  have hnat : ((t : Int)).toNat = t := Int.toNat_natCast t
  rw [stepCount, hnat]
  have hdiv := Nat.div_add_mod (hi - lo - 1) t
  have hmod := Nat.mod_lt (hi - lo - 1) ht
  rw [Nat.mul_comm] at hdiv
  refine ⟨fun k hk => ?_, ?_, ?_, ?_⟩
  · have hle : k * t ≤ (hi - lo - 1) / t * t := Nat.mul_le_mul_right t (Nat.le_of_lt_succ hk)
    omega
  · rw [Nat.succ_mul]
    omega
  · rw [Nat.succ_mul]
    omega
  · exact Nat.succ_le_succ (Nat.div_le_div_right (Nat.sub_le _ _))

/-- The array of a range with a step: the bits before its end, and what the loop does after them. -/
theorem stepIndices_eq (hlt : lo < hi) (hhi : hi < 2147483648) (ht : 0 < t) :
    stepIndices lo hi t =
      if 2147483648 ≤ ((hi - lo) / t + 1) * 2 + 1 then .overrun
      else ((stepLoop hi t ((hi - lo) / t + 1 - stepCount lo hi t)
        (wrap (lo + stepCount lo hi t * t))).map
          (flat (stepPairs lo t (stepCount lo hi t)) ++ ·)).elim .overrun .array := by
  obtain ⟨hbelow, -, -, hroom⟩ := stepCount_bounds hlt ht
  have hsize : (wrap ((hi : Int) - lo)).tdiv t + 1 = (((hi - lo) / t + 1 : Nat) : Int) := by
    rw [wrap_eq (by omega) (by omega), ← Int.natCast_sub hlt.le, ← Int.ofNat_tdiv]
    push_cast
    rfl
  have hwrap : wrap (lo : Int) = lo := wrap_eq (by omega) (by omega)
  have hloop := @stepLoop_steps hi t (by omega) ((hi - lo) / t + 1 - stepCount lo hi t)
    (stepCount lo hi t) lo (Int.natCast_nonneg lo) (Int.natCast_nonneg t) fun hne => by
      have hlast := hbelow (stepCount lo hi t - 1) (by omega)
      have hcast : ((stepCount lo hi t : Nat) : Int) - 1 = ((stepCount lo hi t - 1 : Nat) : Int) := by
        omega
      rw [hcast]
      exact_mod_cast hlast
  rw [Nat.sub_add_cancel hroom, hwrap] at hloop
  rw [stepIndices, hsize, Int.toNat_natCast, hloop]
  have hiff : ((((hi - lo) / t + 1 : Nat) : Int) * 2 + 1 ≤ 0 ∨
      2147483648 ≤ (((hi - lo) / t + 1 : Nat) : Int) * 2 + 1) ↔
      2147483648 ≤ ((hi - lo) / t + 1) * 2 + 1 := by omega
  exact if_congr hiff rfl rfl

theorem stepLoop_end {last d i : Int} (h : last ≤ i) (room : Nat) : stepLoop last d room i = some [-1] := by
  cases room with
  | zero => exact if_neg (by omega)
  | succ room => exact if_neg (by omega)

/-- The place after the range is an `int32_t`. -/
theorem stepIndices_fits (hlt : lo < hi) (hhi : hi < 2147483648) (ht : 0 < t)
    (hsize : ((hi - lo) / t + 1) * 2 + 1 < 2147483648)
    (hfits : lo + stepCount lo hi t * t < 2147483648) :
    stepIndices lo hi t = .array (flat (stepPairs lo t (stepCount lo hi t)) ++ [-1]) := by
  obtain ⟨-, hend, -, -⟩ := stepCount_bounds hlt ht
  have hcast : (lo : Int) + stepCount lo hi t * t = ((lo + stepCount lo hi t * t : Nat) : Int) := by
    push_cast
    rfl
  rw [stepIndices_eq hlt hhi ht, if_neg (by omega), hcast, wrap_eq (by omega) (by omega),
    stepLoop_end (by omega)]
  rfl

/-- It is not: the loop goes on with a negative number. -/
theorem stepIndices_overflow (hlt : lo < hi) (hhi : hi < 1073741824) (ht : 0 < t) (ht' : t < 2147483648)
    (hover : 2147483648 ≤ lo + stepCount lo hi t * t) :
    stepIndices lo hi t = .overrun ∨ ∃ v inx, v < -1 ∧
      stepIndices lo hi t = .array (flat (stepPairs lo t (stepCount lo hi t)) ++ v :: v :: inx) := by
  obtain ⟨-, -, hnear, -⟩ := stepCount_bounds hlt ht
  have hcast : (lo : Int) + stepCount lo hi t * t = ((lo + stepCount lo hi t * t : Nat) : Int) := by
    push_cast
    rfl
  have hwrap : wrap ((lo + stepCount lo hi t * t : Nat) : Int) =
      ((lo + stepCount lo hi t * t : Nat) : Int) - 4294967296 := by
    rw [wrap, modulus, Int.bmod_def]
    omega
  rw [stepIndices_eq hlt (by omega) ht, hcast, hwrap]
  split
  · exact .inl rfl
  · cases (hi - lo) / t + 1 - stepCount lo hi t with
    | zero =>
      rw [stepLoop, if_pos (by omega)]
      exact .inl rfl
    | succ room =>
      rw [stepLoop, if_pos (by omega)]
      cases stepLoop hi t room
          (wrap (((lo + stepCount lo hi t * t : Nat) : Int) - 4294967296 + t)) with
      | none => exact .inl rfl
      | some inx => exact .inr ⟨_, inx, by omega, rfl⟩

theorem stepPairs_inBounds (hlt : lo < hi) (hhi : hi < b.nbits) (ht : 0 < t) :
    ∀ p ∈ stepPairs lo t (stepCount lo hi t), InBounds b.nbits p := by
  intro p hp
  obtain ⟨k, hk, rfl⟩ := mem_stepPairs.mp hp
  have hbelow := (stepCount_bounds hlt ht).1 k hk
  have hcast : (lo : Int) + k * t = ((lo + k * t : Nat) : Int) := by
    push_cast
    rfl
  rw [hcast, InBounds, OutOfRange]
  omega

theorem isStep_ne_nil (h : IsStep s lo hi step) : s ≠ [] := by
  obtain ⟨l, u, t, hl, -, -, rfl, -⟩ := h
  exact append_ne_nil_of_left_ne_nil hl.1 _

/-- The bits of the pairs. -/
theorem holds_stepPairs {n : Nat}
    (h : Holds b b' fun i => ∃ p ∈ stepPairs lo t n, p.1 ≤ (i : Int) ∧ (i : Int) ≤ p.2) :
    Holds b b' fun i => ∃ k, k < n ∧ i = lo + k * t := by
  apply h.congr
  intro i _
  constructor
  · rintro ⟨p, hp, hle⟩
    obtain ⟨k, hk, rfl⟩ := mem_stepPairs.mp hp
    refine ⟨k, hk, ?_⟩
    have heq : (i : Int) = lo + k * t := Int.le_antisymm hle.2 hle.1
    exact_mod_cast heq
  · rintro ⟨k, hk, rfl⟩
    refine ⟨_, mem_stepPairs.mpr ⟨k, hk, rfl⟩, ?_⟩
    push_cast
    exact ⟨le_rfl, le_rfl⟩

/-- The last bit is not set of a range of one bit. -/
theorem bitUnfmt_single (h : IsStep s lo lo step) (hlo : lo < b.nbits) (hpos : 0 < stepOf step) :
    ∃ b', bitUnfmt b (some s) = some (0, b') ∧ Holds b b' fun _ => False := by
  have hvalid := b.valid.2
  have harray : stepIndices lo lo (stepOf step) = .array [-1] := by
    rw [stepIndices, Int.sub_self, wrap_eq (by decide) (by decide), Int.zero_tdiv, if_neg (by decide)]
    show (stepLoop lo (stepOf step) 1 lo).elim Indices.overrun Indices.array = _
    rw [stepLoop_end (Int.le_refl _)]
    rfl
  obtain ⟨b', hok, hholds⟩ := @inx2bitstr_ok b [] fun p hp => absurd hp not_mem_nil
  refine ⟨b', ?_, hholds.congr fun i _ => ?_⟩
  · rw [bitUnfmt, Option.getD_some, if_neg (isStep_ne_nil h),
      bitfmt2int_step h (Nat.le_refl _) (by omega), if_neg (by omega), harray]
    exact hok
  · exact iff_of_false (fun ⟨p, hp, _⟩ => not_mem_nil hp) id

/-- What is set where `bit_unfmt` accepts a range with a step. -/
theorem bitUnfmt_step (h : IsStep s lo hi step) (hlt : lo < hi) (hhi : hi < b.nbits)
    (ht : stepOf step = t) (hpos : 0 < t) (hok : bitUnfmt b (some s) = some (0, b')) :
    lo + stepCount lo hi t * t < 2147483648 ∧
      Holds b b' fun i => ∃ k, k < stepCount lo hi t ∧ i = lo + k * t := by
  have hvalid := b.valid.2
  have hstep := stepOf_lt step
  rw [ht] at hstep
  have hbounds := stepPairs_inBounds hlt hhi hpos
  rw [bitUnfmt, Option.getD_some, if_neg (isStep_ne_nil h), bitfmt2int_step h hlt.le (by omega), ht,
    if_neg (by omega)] at hok
  by_cases hfits : lo + stepCount lo hi t * t < 2147483648
  · refine ⟨hfits, ?_⟩
    by_cases hsize : ((hi - lo) / t + 1) * 2 + 1 < 2147483648
    · rw [stepIndices_fits hlt (by omega) hpos hsize hfits] at hok
      obtain ⟨b'', hok', hholds⟩ := inx2bitstr_ok hbounds
      obtain ⟨-, rfl⟩ := Prod.mk.inj (Option.some.inj (hok'.symm.trans hok))
      exact holds_stepPairs hholds
    · rw [stepIndices_eq hlt (by omega) hpos, if_pos (by omega)] at hok
      cases hok
  · rcases stepIndices_overflow hlt (by omega) hpos (by omega) (by omega) with hnone | ⟨v, inx, hv, harray⟩
    · rw [hnone] at hok
      cases hok
    · rw [harray] at hok
      have hbad : ¬ InBounds b.nbits (v, v) := fun hin => hin.1 (.inl (by omega))
      obtain ⟨b'', hbad'⟩ := @inx2bitstr_bad b _ (v, v) hbounds hbad (by dsimp only; omega) inx
      exact absurd (Prod.mk.inj (Option.some.inj (hbad'.symm.trans hok))).1 (by decide)

/-- It accepts one where the place after the range is an `int32_t` and the array is not too large. -/
theorem bitUnfmt_step_ok (h : IsStep s lo hi step) (hlt : lo < hi) (hhi : hi < b.nbits)
    (ht : stepOf step = t) (hpos : 0 < t) (hsize : ((hi - lo) / t + 1) * 2 + 1 < 2147483648)
    (hfits : lo + stepCount lo hi t * t < 2147483648) :
    ∃ b', bitUnfmt b (some s) = some (0, b') ∧
      Holds b b' fun i => ∃ k, k < stepCount lo hi t ∧ i = lo + k * t := by
  have hvalid := b.valid.2
  obtain ⟨b', hok, hholds⟩ := inx2bitstr_ok (stepPairs_inBounds hlt hhi hpos)
  refine ⟨b', ?_, holds_stepPairs hholds⟩
  rw [bitUnfmt, Option.getD_some, if_neg (isStep_ne_nil h), bitfmt2int_step h hlt.le (by omega), ht,
    if_neg (by omega), stepIndices_fits hlt (by omega) hpos hsize hfits]
  exact hok

/-- The steps come to the bits that are written. -/
theorem stepFits_bits (hlt : lo < hi) (ht : stepOf step = t) (hpos : 0 < t) (hhi : hi < 2147483648)
    (hdvd : ¬ step ∣ hi - lo) (hsame : (t : Int) = step ∨ (hi : Int) ≤ lo + t) (i : Nat) :
    (∃ k, k < stepCount lo hi t ∧ i = lo + k * t) ↔ ∃ k, i = lo + k * step ∧ lo + k * step ≤ hi := by
  obtain ⟨hbelow, hend, -, -⟩ := stepCount_bounds hlt hpos
  by_cases heq : t = step
  · subst heq
    constructor
    · rintro ⟨k, hk, rfl⟩
      exact ⟨k, rfl, (hbelow k hk).le⟩
    · rintro ⟨k, rfl, hle⟩
      refine ⟨k, ?_, rfl⟩
      have hne : lo + k * t ≠ hi := by
        rintro rfl
        exact hdvd ⟨k, by rw [Nat.add_sub_cancel_left, Nat.mul_comm]⟩
      have hmul : k * t < stepCount lo hi t * t := by omega
      exact Nat.lt_of_mul_lt_mul_right hmul
  · have hlarge : 2147483648 ≤ step := by
      by_contra hsmall
      rw [stepOf_eq (by omega)] at ht
      exact heq (by omega)
    have hone : stepCount lo hi t = 1 := by
      have hnat : ((t : Int)).toNat = t := Int.toNat_natCast t
      rw [stepCount, hnat, Nat.div_eq_of_lt (by omega)]
    rw [hone]
    constructor
    · rintro ⟨k, hk, rfl⟩
      have hzero : k = 0 := by omega
      subst hzero
      exact ⟨0, by omega, by omega⟩
    · rintro ⟨k, rfl, hle⟩
      have hzero : k = 0 := by
        by_contra hne
        have hmul : 1 * step ≤ k * step := Nat.mul_le_mul_right step (by omega)
        omega
      subst hzero
      exact ⟨0, by omega, by omega⟩

/-- A range with a step is read as it is written. -/
theorem step_iff (h : IsStep s lo hi step) (hle : lo ≤ hi) (hhi : hi < b.nbits) (hstep : 0 < step) :
    (∃ b', bitUnfmt b (some s) = some (0, b') ∧
      Holds b b' fun i => ∃ k, i = lo + k * step ∧ lo + k * step ≤ hi) ↔ StepFits lo hi step := by
  have hvalid := b.valid.2
  by_cases hpos : 0 < stepOf step
  · obtain ⟨t, ht⟩ := Int.eq_ofNat_of_zero_le hpos.le
    rw [StepFits, ht]
    rw [ht] at hpos
    rcases Nat.eq_or_lt_of_le hle with rfl | hlt
    · apply iff_of_false
      · rintro ⟨b', hok, hholds⟩
        obtain ⟨b'', hok', hholds'⟩ := bitUnfmt_single h hhi (ht ▸ hpos)
        rw [hok'] at hok
        obtain ⟨-, rfl⟩ := Prod.mk.inj (Option.some.inj hok)
        exact (hholds'.2 lo hhi).mp ((hholds.2 lo hhi).mpr ⟨0, by omega, by omega⟩)
      · rintro ⟨hdvd, -⟩
        exact hdvd (Nat.sub_self lo ▸ Nat.dvd_zero step)
    · have htpos : 0 < t := by omega
      obtain ⟨hbelow, -, -, -⟩ := stepCount_bounds hlt htpos
      constructor
      · rintro ⟨b', hok, hholds⟩
        obtain ⟨hfits, hholds'⟩ := bitUnfmt_step h hlt hhi ht htpos hok
        refine ⟨?_, hpos, ?_, by exact_mod_cast hfits⟩
        · rintro ⟨k, hk⟩
          have hlast : hi = lo + k * step := by
            rw [Nat.mul_comm] at hk
            omega
          obtain ⟨k', hk', hhi'⟩ := (hholds'.2 hi hhi).mp ((hholds.2 hi hhi).mpr ⟨k, hlast, hlast.ge⟩)
          have hbelow' := hbelow k' hk'
          omega
        · by_contra hne
          have hsecond : lo + t < hi := by omega
          have hcount : 1 < stepCount lo hi t := by
            by_contra hle
            have hend := (stepCount_bounds hlt htpos).2.1
            have hmul : stepCount lo hi t * t ≤ 1 * t := Nat.mul_le_mul_right t (by omega)
            omega
          obtain ⟨k, hk, -⟩ := (hholds.2 (lo + t) (by omega)).mp
            ((hholds'.2 (lo + t) (by omega)).mpr ⟨1, hcount, by omega⟩)
          have hk0 : k ≠ 0 := by
            rintro rfl
            omega
          have hmul : 1 * step ≤ k * step := Nat.mul_le_mul_right step (by omega)
          rw [stepOf_eq (by omega)] at ht
          omega
      · rintro ⟨hdvd, -, hsame, hfits⟩
        have hsize : ((hi - lo) / t + 1) * 2 + 1 < 2147483648 := by
          by_cases htwo : 2 ≤ t
          · have hdiv : (hi - lo) / t ≤ (hi - lo) / 2 := Nat.div_le_div_left htwo (by decide)
            omega
          · have hone : t = 1 := by omega
            subst hone
            have hne : step ≠ 1 := fun heq => hdvd (heq ▸ Nat.one_dvd _)
            rw [Nat.div_one]
            omega
        obtain ⟨b', hok, hholds⟩ := bitUnfmt_step_ok h hlt hhi ht htpos hsize (by exact_mod_cast hfits)
        exact ⟨b', hok, hholds.congr fun i _ => stepFits_bits hlt ht htpos (by omega) hdvd hsame i⟩
  · apply iff_of_false
    · rintro ⟨b', hok, -⟩
      rw [bitUnfmt, Option.getD_some, if_neg (isStep_ne_nil h), bitfmt2int_step h hle (by omega),
        if_pos (by omega)] at hok
      exact absurd (Prod.mk.inj (Option.some.inj hok)).1 (by decide)
    · rintro ⟨-, hpos', -⟩
      exact hpos hpos'

end Steps

/-! ## When the contract holds -/

/-- `bit_unfmt` keeps what is promised exactly where a list and a range with a step are read as they
are written. -/
theorem unfmtContract_iff (b : Bitstr) (s : List Char) :
    UnfmtContract b s ↔ (∀ rs, read s = some rs → ListFits b s rs) ∧
      ∀ lo hi step, IsStep s lo hi step → lo ≤ hi → hi < b.nbits → 0 < step → StepFits lo hi step := by
  constructor
  · intro h
    exact ⟨fun rs hrs => (list_iff hrs).mp (h.list rs hrs),
      fun lo hi step hs hle hhi hpos => (step_iff hs hle hhi hpos).mp (h.step lo hi step hs hle hhi hpos)⟩
  · rintro ⟨hlist, hstep⟩
    exact ⟨fun rs hrs => (list_iff hrs).mpr (hlist rs hrs),
      fun lo hi step hs hle hhi hpos => (step_iff hs hle hhi hpos).mpr (hstep lo hi step hs hle hhi hpos)⟩

/-- The steps of `1-17:4` end on bit 17, which is not set. -/
theorem unfmtContract_fails : ¬ UnfmtContract (bitAlloc 32 (by decide)) "1-17:4".toList := by
  intro h
  have hstep : IsStep "1-17:4".toList 1 17 4 :=
    ⟨['1'], ['1', '7'], ['4'], isNumber_toDigits 1, isNumber_toDigits 17, isNumber_toDigits 4, rfl, rfl,
      rfl, rfl⟩
  obtain ⟨b', hok, hholds⟩ := h.step 1 17 4 hstep (by decide) (by decide) (by decide)
  have hbit : (bitUnfmt (bitAlloc 32 (by decide)) (some "1-17:4".toList)).map (fun r => r.2.bit 17) =
      some false := by decide +kernel
  rw [hok] at hbit
  have hset := (hholds.2 17 (by decide)).mpr ⟨4, rfl, by decide⟩
  rw [Option.map_some, Option.some.injEq, hset] at hbit
  cases hbit

end Slurm.Bitstring
