import Slurm.Hostlist.Find

/-!
# Finding and deleting a host

* `findLoop_iff`: when the search returns the first place of a name.
* `expansion_deleteNth`: deleting at a place of the list.
* `findContract_iff`: a host is found where it is first listed and no other host is deleted with
  it, exactly when the tests, the numbers of single hosts and the last number allow it.
-/

namespace Slurm.Hostlist

open Lib.Decimal List

variable {hr : HostRange} {rs : List HostRange} {name : List Char} {pos count : Nat}
variable {n k : Nat}

/-! ## The search -/

/-- A name in the course of the search. -/
def hnAt (name : List Char) (pos : Nat) : HostName :=
  if EndsInDigit name then splitAt name pos
  else { hostname := name, hostPrefix := name, suffix := none, num := 0 }

theorem nextPos_le (hpos : pos ≤ name.length) (hr : HostRange) : nextPos hr name pos ≤ name.length := by
  rw [nextPos]
  split
  · rename_i h
    exact h.2
  · exact hpos

theorem hostrangeHnWithin_hnAt (hpos : pos ≤ name.length) (hr : HostRange) :
    ∃ hr', hostrangeHnWithin hr (hnAt name pos) =
      (decide (Tested hr name), hr', hnAt name (nextPos hr name pos)) ∧ SameHosts hr hr' := by
  by_cases hends : EndsInDigit name
  · rw [hnAt, hnAt, if_pos hends, if_pos hends]
    exact hostrangeHnWithin_eq hpos hends hr
  · refine ⟨hr, ?_, SameHosts.refl hr⟩
    rw [hnAt, hnAt, if_neg hends, if_neg hends, hostrangeHnWithin]
    cases hs : hr.singlehost with
    | true =>
      have htested : Tested hr name ↔ name = hr.hostPrefix := by rw [Tested, if_pos hs]
      rw [if_pos rfl, decide_eq_decide.mpr htested]
    | false =>
      have htested : ¬ Tested hr name := by
        rw [Tested, if_neg (by rw [hs]; exact Bool.false_ne_true)]
        exact fun h => hends h.1
      rw [if_neg Bool.false_ne_true, decide_eq_false htested]

/-- What is returned for a range that passes the test. -/
def foundAt (hr : HostRange) (name : List Char) (pos count : Nat) : BitVec 32 :=
  if EndsInDigit name then
    (BitVec.ofNat 64 count + (strtoul (name.drop (nextPos hr name pos))).1 - hr.lo).setWidth 32
  else
    BitVec.ofNat 32 count

theorem findLoop_cons (hpos : pos ≤ name.length) (hr : HostRange) (rs : List HostRange)
    (count : Nat) :
    (findLoop (hr :: rs) (hnAt name pos) count).1 =
        (if Tested hr name then foundAt hr name pos count
        else (findLoop rs (hnAt name (nextPos hr name pos)) (count + hr.count.toNat)).1) ∧
      ∃ hr', SameHosts hr hr' ∧
        ((findLoop (hr :: rs) (hnAt name pos) count).2 = hr' :: rs ∨
          (findLoop (hr :: rs) (hnAt name pos) count).2 =
            hr' :: (findLoop rs (hnAt name (nextPos hr name pos)) (count + hr.count.toNat)).2) := by
  obtain ⟨hr', hwithin, hhosts⟩ := hostrangeHnWithin_hnAt hpos hr
  rw [findLoop, hwithin]
  by_cases htested : Tested hr name
  · rw [decide_eq_true htested, if_pos htested]
    refine ⟨?_, hr', hhosts, Or.inl rfl⟩
    rw [foundAt, hnAt]
    by_cases hends : EndsInDigit name
    · rw [if_pos hends, if_pos hends]
      rfl
    · rw [if_neg hends, if_neg hends]
      rfl
  · rw [decide_eq_false htested, if_neg htested]
    exact ⟨rfl, hr', hhosts, Or.inr rfl⟩

/-- The ranges keep their hosts in a search. -/
theorem findLoop_sameHosts (hpos : pos ≤ name.length) (rs : List HostRange) (count : Nat) :
    List.Forall₂ SameHosts rs (findLoop rs (hnAt name pos) count).2 := by
  induction rs generalizing pos count with
  | nil => exact List.Forall₂.nil
  | cons hr rs ih =>
    obtain ⟨-, hr', hhosts, hloop | hloop⟩ := findLoop_cons hpos hr rs count
    · rw [hloop]
      exact List.Forall₂.cons hhosts (List.forall₂_same.mpr fun hr _ => SameHosts.refl hr)
    · rw [hloop]
      exact List.Forall₂.cons hhosts (ih (nextPos_le hpos hr) _)

/-! ## What is found -/

/-- The place of the first of the names that is the name, counted from a number on. -/
def indexFrom (count : Nat) (names : List (List Char)) (name : List Char) : BitVec 32 :=
  if name ∈ names then BitVec.ofNat 32 (count + names.idxOf name) else -1

/-- The index of a single host is right: its name has no number after the place where it is split,
or one that an `int` takes for 0. -/
def SingleOk (hr : HostRange) (name : List Char) (pos : Nat) : Prop :=
  hr.singlehost = true → EndsInDigit name → (strtoul (name.drop pos)).1.setWidth 32 = (0 : BitVec 32)

/-- The index of a later single host is, after it wrapped, the one of the range that was missed. -/
def WrapsTo (name : List Char) (index : Nat) : List HostRange → Nat → Nat → Prop
  | [], _, _ => False
  | hr :: rest, pos, count =>
    if hr.singlehost = true ∧ name = hr.hostPrefix then
      BitVec.ofNat 32 count + (strtoul (name.drop pos)).1.setWidth 32 = BitVec.ofNat 32 index
    else
      (RangeOk hr name ↔ name ∉ hr.hosts) ∧
        WrapsTo name index rest (nextPos hr name pos) (count + hr.size)

/-- Where the name is first listed, and on the way there, the tests and the index are right. -/
def FindFits (name : List Char) : List HostRange → Nat → Nat → Prop
  | [], _, _ => True
  | hr :: rest, pos, count =>
    (RangeOk hr name ∧ (name ∈ hr.hosts → SingleOk hr name pos) ∧
      (name ∉ hr.hosts → FindFits name rest (nextPos hr name pos) (count + hr.size))) ∨
    (¬ RangeOk hr name ∧ name ∈ hr.hosts ∧
      WrapsTo name (count + hr.hosts.idxOf name) rest (nextPos hr name pos) (count + hr.size))

theorem ofNat_inj {m : Nat} (hm : m < 2 ^ 31) (hn : n < 2 ^ 31) :
    BitVec.ofNat 32 m = BitVec.ofNat 32 n ↔ m = n := by
  rw [BitVec.toNat_eq, BitVec.toNat_ofNat, BitVec.toNat_ofNat]
  omega

theorem ofNat_ne_neg_one (hn : n < 2 ^ 31) : BitVec.ofNat 32 n ≠ -1 := by
  rw [Ne, BitVec.toNat_eq, BitVec.toNat_ofNat]
  change ¬ n % 2 ^ 32 = 2 ^ 32 - 1
  omega

/-- What is returned for a range of numbers is the place of the number in it. -/
theorem foundAt_range (hs : hr.singlehost = false) (htested : Tested hr name) (pos count : Nat) :
    ∃ k, k < hr.size ∧ foundAt hr name pos count = BitVec.ofNat 32 (count + k) ∧
      k = (strtoul (name.drop hr.hostPrefix.length)).1.toNat - hr.lo.toNat := by
  rw [Tested, if_neg (by rw [hs]; exact Bool.false_ne_true)] at htested
  obtain ⟨hends, hname, hhi, hlo, -⟩ := htested
  rw [ge_iff_le, BitVec.le_def] at hlo
  rw [BitVec.le_def] at hhi
  refine ⟨_, ?_, ?_, rfl⟩
  · rw [HostRange.size]
    omega
  · rw [foundAt, if_pos hends, nextPos, if_pos ⟨hs, hname.length_le⟩]
    generalize (strtoul (name.drop hr.hostPrefix.length)).1 = num at *
    apply BitVec.eq_of_toNat_eq
    rw [BitVec.toNat_setWidth, BitVec.toNat_sub, BitVec.toNat_add, BitVec.toNat_ofNat,
      BitVec.toNat_ofNat]
    have hlt := hr.lo.isLt
    omega

/-- What is returned for a single host has the number of its name added. -/
theorem foundAt_single (h : hr.Wf) (hs : hr.singlehost = true) (pos count : Nat) :
    foundAt hr name pos count = if EndsInDigit name then
      BitVec.ofNat 32 count + (strtoul (name.drop pos)).1.setWidth 32 else
      BitVec.ofNat 32 count := by
  have hstay : nextPos hr name pos = pos := if_neg fun h => by rw [hs] at h; cases h.1
  rw [foundAt, hstay, (h.single hs).1]
  split
  · apply BitVec.eq_of_toNat_eq
    rw [BitVec.toNat_setWidth, BitVec.toNat_sub, BitVec.toNat_add, BitVec.toNat_add,
      BitVec.toNat_ofNat, BitVec.toNat_ofNat, BitVec.toNat_setWidth]
    change (2 ^ 64 - 0 + _) % _ % _ = _
    omega
  · rfl

theorem add_eq_self_iff {x y : BitVec 32} : x + y = x ↔ y = 0 := by
  rw [BitVec.toNat_eq, BitVec.toNat_eq, BitVec.toNat_add]
  have hx := x.isLt
  have hy := y.isLt
  change (_ + _) % _ = _ ↔ _ = 0
  omega

/-- The index of the first host of the list that the range is right about. -/
theorem foundAt_iff (h : hr.Wf) (hsize : hr.size < 2 ^ 31) (hmem : name ∈ hr.hosts)
    (htested : Tested hr name) (pos count : Nat) :
    foundAt hr name pos count = BitVec.ofNat 32 (count + hr.hosts.idxOf name) ↔
      SingleOk hr name pos := by
  cases hs : hr.singlehost with
  | true =>
    rw [hosts_single hs, mem_singleton] at hmem
    rw [foundAt_single h hs, hosts_single hs, ← hmem, idxOf_cons_self, Nat.add_zero, SingleOk]
    by_cases hends : EndsInDigit name
    · rw [if_pos hends, add_eq_self_iff]
      exact ⟨fun h _ _ => h, fun h => h hs hends⟩
    · rw [if_neg hends]
      exact iff_of_true rfl fun _ h => absurd h hends
  | false =>
    obtain ⟨k, hk, hfound, hnum⟩ := foundAt_range hs htested pos count
    obtain ⟨rest, rfl, hnumber, hlo, hhi, hlen⟩ := exists_append_of_mem_hosts h hsize hs hmem
    have hlt := hr.hi.isLt
    rw [drop_left, strtoul_number hnumber, if_neg (by omega), BitVec.toNat_ofNat,
      Nat.mod_eq_of_lt (by omega)] at hnum
    have hname : hr.hostPrefix ++ rest = hr.numbered (value rest) := by
      rw [HostRange.numbered, ← (eq_padded_iff hnumber _ _).mpr ⟨rfl, hlen⟩]
    have hidx : hr.hosts.idxOf (hr.hostPrefix ++ rest) = k := by
      rw [hname, idxOf_hosts h hsize hs hlo hhi, hnum]
    rw [hfound, hidx]
    exact iff_of_true rfl fun hsingle => by rw [hs] at hsingle; cases hsingle

/-- After a range that was missed, its index is returned only for a single host whose index
wraps. -/
theorem findLoop_missed (hpos : pos ≤ name.length) (hends : EndsInDigit name) {index : Nat}
    (h : RangesWf rs) (hindex : index < count) (hcount : count + sizes rs < 2 ^ 31) :
    (findLoop rs (hnAt name pos) count).1 = BitVec.ofNat 32 index ↔ WrapsTo name index rs pos count := by
  induction rs generalizing pos count with
  | nil => exact iff_of_false (ofNat_ne_neg_one (by omega)).symm id
  | cons hr rs ih =>
    obtain ⟨hwf, hsize⟩ := h.head
    rw [sizes_cons] at hcount
    rw [(findLoop_cons hpos hr rs count).1, WrapsTo]
    have hok := rangeOk_iff hwf hsize name
    by_cases hsingle : hr.singlehost = true ∧ name = hr.hostPrefix
    · have htested : Tested hr name := by
        rw [Tested, if_pos hsingle.1]
        exact hsingle.2
      rw [if_pos htested, if_pos hsingle, foundAt_single hwf hsingle.1, if_pos hends]
    · rw [if_neg hsingle]
      by_cases htested : Tested hr name
      · have hs : hr.singlehost = false := by
          cases hs : hr.singlehost with
          | false => rfl
          | true =>
            rw [Tested, if_pos hs] at htested
            exact absurd ⟨hs, htested⟩ hsingle
        obtain ⟨k, hk, hfound, -⟩ := foundAt_range hs htested pos count
        rw [if_pos htested, hfound, ofNat_inj (by omega) (by omega)]
        refine iff_of_false (by omega) fun hwraps => ?_
        tauto
      · have hmiss : RangeOk hr name ↔ name ∉ hr.hosts := by rw [hok]; simp [htested]
        rw [if_neg htested, and_iff_right hmiss, count_toNat hwf hsize]
        exact ih (nextPos_le hpos hr) h.tail (by omega) (by omega)

theorem indexFrom_append_of_mem {l m : List (List Char)} (hmem : name ∈ l) (count : Nat) :
    indexFrom count (l ++ m) name = BitVec.ofNat 32 (count + l.idxOf name) := by
  rw [indexFrom, if_pos (mem_append_left _ hmem), idxOf_append_of_mem hmem]

theorem indexFrom_append_of_notMem {l m : List (List Char)} (hmem : name ∉ l) (count : Nat) :
    indexFrom count (l ++ m) name = indexFrom (count + l.length) m name := by
  rw [indexFrom, indexFrom, idxOf_append_of_notMem hmem, Nat.add_assoc]
  simp [hmem]

/-- A place of the list is not returned where the name is only in later ranges. -/
theorem indexFrom_ne (h : RangesWf rs) (hn : n < count) (hcount : count + sizes rs < 2 ^ 31) :
    BitVec.ofNat 32 n ≠ indexFrom count (rs.flatMap HostRange.hosts) name := by
  rw [indexFrom]
  split
  · rename_i hmem
    have hlt := idxOf_lt_length_of_mem hmem
    rw [length_expansion h] at hlt
    rw [Ne, ofNat_inj (by omega) (by omega)]
    omega
  · exact ofNat_ne_neg_one (by omega)

theorem singlehost_of_ne (h : ¬ (Tested hr name ↔ name ∈ hr.hosts)) : hr.singlehost = false := by
  cases hs : hr.singlehost with
  | false => rfl
  | true =>
    refine absurd ?_ h
    rw [Tested, if_pos hs, hosts_single hs, mem_singleton]

/-- The search returns the first place of the name exactly when the ranges fit. -/
theorem findLoop_iff (hpos : pos ≤ name.length) (h : RangesWf rs)
    (hcount : count + sizes rs < 2 ^ 31) :
    (findLoop rs (hnAt name pos) count).1 = indexFrom count (rs.flatMap HostRange.hosts) name ↔
      FindFits name rs pos count := by
  induction rs generalizing pos count with
  | nil =>
    rw [indexFrom, flatMap_nil, if_neg not_mem_nil]
    exact iff_of_true rfl trivial
  | cons hr rs ih =>
    obtain ⟨hwf, hsize⟩ := h.head
    have hok := rangeOk_iff hwf hsize name
    have hlen := length_hosts hwf hsize
    rw [sizes_cons] at hcount
    rw [(findLoop_cons hpos hr rs count).1, FindFits, flatMap_cons]
    by_cases hmem : name ∈ hr.hosts
    · have hidx := idxOf_lt_length_of_mem hmem
      rw [indexFrom_append_of_mem hmem]
      by_cases htested : Tested hr name
      · rw [if_pos htested, foundAt_iff hwf hsize hmem htested]
        simp [hok, htested, hmem]
      · have hs := singlehost_of_ne fun h => htested (h.mpr hmem)
        have hends : EndsInDigit name := by
          obtain ⟨rest, rfl, hnumber, -⟩ := exists_append_of_mem_hosts hwf hsize hs hmem
          exact endsInDigit_append _ hnumber
        rw [if_neg htested, count_toNat hwf hsize,
          findLoop_missed (nextPos_le hpos hr) hends h.tail (by omega) (by omega)]
        simp [hok, htested, hmem]
    · rw [indexFrom_append_of_notMem hmem, hlen]
      by_cases htested : Tested hr name
      · have hs := singlehost_of_ne fun h => hmem (h.mp htested)
        obtain ⟨k, hk, hfound, -⟩ := foundAt_range hs htested pos count
        rw [if_pos htested, hfound]
        refine iff_of_false (indexFrom_ne h.tail (by omega) (by omega)) ?_
        simp [hok, htested, hmem]
      · rw [if_neg htested, count_toNat hwf hsize,
          ih (nextPos_le hpos hr) h.tail (by omega)]
        simp [hok, htested, hmem]

/-! ## Deleting a host -/

/-- Taking the host off does not empty a range of several hosts: it is not the first one of a range
up to `ULONG_MAX`. -/
def DeleteOk (hr : HostRange) (name : List Char) : Prop :=
  hr.singlehost = false → hr.hi = -1 → name = hr.hostAt 0 → hr.lo = hr.hi

/-- The range where the name is first listed keeps its other hosts. -/
def DeleteFits (name : List Char) : List HostRange → Prop
  | [] => True
  | hr :: rest =>
    (name ∈ hr.hosts → DeleteOk hr name) ∧ (name ∉ hr.hosts → DeleteFits name rest)

theorem eraseIdx_range' (hk : k < n) (lo : Nat) :
    (List.range' lo n).eraseIdx k = List.range' lo k ++ List.range' (lo + k + 1) (n - (k + 1)) := by
  have hsplit : List.range' lo n = List.range' lo k ++ (lo + k) :: List.range' (lo + k + 1) (n - (k + 1)) := by
    rw [← range'_succ, range'_append_1]
    congr 1
    omega
  have hlen : (List.range' lo k).length = k := length_range'
  rw [hsplit, eraseIdx_append_of_length_le (by omega), hlen, Nat.sub_self, eraseIdx_cons_zero]

/-- A part of a range has a part of its names. -/
theorem hosts_part (hs : hr.singlehost = false) {lo hi : BitVec 64} (hle : lo.toNat ≤ hi.toNat)
    (hsize : hi.toNat + 1 - lo.toNat < 2 ^ 31) :
    ({ hr with lo, hi } : HostRange).hosts =
      (List.range' lo.toNat (hi.toNat + 1 - lo.toNat)).map hr.numbered := by
  refine hosts_eq ⟨hle, fun hsingle => ?_⟩ hsize hs
  rw [show ({ hr with lo, hi } : HostRange).singlehost = hr.singlehost from rfl, hs] at hsingle
  cases hsingle

theorem add_one_toNat_of_lt {x y : BitVec 64} (h : x.toNat < y.toNat) :
    (x + 1).toNat = x.toNat + 1 := by
  have hy := y.isLt
  rw [BitVec.toNat_add]
  change (_ + 1) % _ = _
  omega

theorem sub_one_toNat_of_lt {x y : BitVec 64} (h : x.toNat < y.toNat) :
    (y - 1).toNat = y.toNat - 1 := by
  have hy := y.isLt
  rw [BitVec.toNat_sub]
  change (2 ^ 64 - 1 + _) % _ = _
  omega

/-- Taking the first host off. -/
theorem deleteIn_first (h : hr.Wf) (hsize : hr.size < 2 ^ 31) (hs : hr.singlehost = false)
    (hok : hr.hi = -1 → hr.lo = hr.hi) : (deleteIn hr 0).flatMap HostRange.hosts =
      (List.range' (hr.lo.toNat + 1) (hr.hi.toNat - hr.lo.toNat)).map hr.numbered := by
  have hle := h.le
  have hdelete : hr.deleteHost (hr.lo + BitVec.ofNat 64 0) = ({ hr with lo := hr.lo + 1 }, none) := by
    rw [HostRange.deleteHost, if_pos (BitVec.add_zero _)]
  rw [HostRange.size] at hsize
  rw [deleteIn, if_neg (by rw [hs]; exact Bool.false_ne_true), hdelete]
  by_cases hlast : hr.lo = hr.hi
  · have hempty : ({ hr with lo := hr.lo + 1 } : HostRange).empty = true := by
      rw [HostRange.empty, decide_eq_true_iff]
      by_cases hmax : hr.hi = -1
      · exact Or.inr hmax
      · have hne : hr.hi.toNat ≠ 2 ^ 64 - 1 := fun hmax' => hmax (BitVec.eq_of_toNat_eq hmax')
        have hhi := hr.hi.isLt
        left
        rw [BitVec.lt_def, hlast, BitVec.toNat_add]
        change hr.hi.toNat < (hr.hi.toNat + 1) % 2 ^ 64
        omega
    simp only [hempty, if_true]
    rw [hlast, Nat.sub_self]
    rfl
  · have hlt : hr.lo.toNat < hr.hi.toNat :=
      Nat.lt_of_le_of_ne hle fun heq => hlast (BitVec.eq_of_toNat_eq heq)
    have hone := add_one_toNat_of_lt hlt
    have hempty : ¬ ({ hr with lo := hr.lo + 1 } : HostRange).empty = true := by
      rw [HostRange.empty, decide_eq_true_iff, not_or, BitVec.lt_def]
      exact ⟨by dsimp only; omega, fun hmax => hlast (hok hmax)⟩
    simp only [hempty]
    rw [if_neg Bool.false_ne_true, flatMap_singleton, hosts_part hs (by omega) (by omega), hone,
      Nat.add_sub_add_right]

/-- The names of a range without the host at a place. -/
theorem deleteIn_hosts (h : hr.Wf) (hsize : hr.size < 2 ^ 31) (hk : k < hr.size)
    (hok : hr.singlehost = false → hr.hi = -1 → k = 0 → hr.lo = hr.hi) :
    (deleteIn hr k).flatMap HostRange.hosts = hr.hosts.eraseIdx k := by
  cases hs : hr.singlehost with
  | true =>
    rw [h.size_single hs, Nat.lt_one_iff] at hk
    rw [deleteIn, if_pos hs, hk, hosts_single hs]
    rfl
  | false =>
    have hhi := hr.hi.isLt
    have hle := h.le
    rw [hosts_eq h hsize hs, eraseIdx_map, eraseIdx_range' hk]
    by_cases hfirst : k = 0
    · subst hfirst
      rw [deleteIn_first h hsize hs fun hmax => hok hs hmax rfl, HostRange.size]
      congr 2
      omega
    · rw [HostRange.size] at *
      have hadd : (hr.lo + BitVec.ofNat 64 k).toNat = hr.lo.toNat + k := by
        rw [BitVec.toNat_add, BitVec.toNat_ofNat]
        omega
      have hlo : hr.lo + BitVec.ofNat 64 k ≠ hr.lo := by
        rw [Ne, BitVec.toNat_eq, hadd]
        omega
      rw [deleteIn, if_neg (by rw [hs]; exact Bool.false_ne_true), HostRange.deleteHost, if_neg hlo]
      generalize hr.lo + BitVec.ofNat 64 k = num at *
      by_cases hlast : num = hr.hi
      · rw [if_pos hlast]
        have hone := sub_one_toNat_of_lt (show hr.lo.toNat < hr.hi.toNat by omega)
        have hempty : ¬ ({ hr with hi := hr.hi - 1 } : HostRange).empty = true := by
          rw [HostRange.empty, decide_eq_true_iff, not_or, BitVec.lt_def, BitVec.toNat_eq]
          change ¬ (_ : Nat) < _ ∧ ¬ _ = 2 ^ 64 - 1
          dsimp only
          omega
        simp only [hempty]
        rw [if_neg Bool.false_ne_true, flatMap_singleton, hosts_part hs (by omega) (by omega),
          hone]
        have hnum : num.toNat = hr.hi.toNat := congrArg BitVec.toNat hlast
        have hcount : hr.hi.toNat - 1 + 1 - hr.lo.toNat = k := by omega
        have hrest : hr.hi.toNat + 1 - hr.lo.toNat - (k + 1) = 0 := by omega
        rw [hcount, hrest, range'_zero, append_nil]
      · rw [if_neg hlast]
        have hne : num.toNat ≠ hr.hi.toNat := fun heq => hlast (BitVec.eq_of_toNat_eq heq)
        have hadd' := add_one_toNat_of_lt (show num.toNat < hr.hi.toNat by omega)
        have hsub := sub_one_toNat_of_lt (show hr.lo.toNat < num.toNat by omega)
        simp only [flatMap_cons, flatMap_nil, append_nil]
        rw [hosts_part hs (by omega) (by omega), hosts_part hs (by omega) (by omega), ← map_append]
        congr 2
        · congr 1
          omega
        · congr 1 <;> omega

/-! ## Deleting from a list -/

theorem SameHosts.deleteOk_iff {hr' : HostRange} (h : SameHosts hr hr') (name : List Char) :
    DeleteOk hr' name ↔ DeleteOk hr name := by
  have hfirst : hr'.hostAt 0 = hr.hostAt 0 := by
    rw [HostRange.hostAt, HostRange.hostAt, h.singlehost, h.hostPrefix, h.lo, BitVec.add_zero,
      h.padded _ (Nat.le_refl _)]
  rw [DeleteOk, DeleteOk, h.singlehost, h.hi, h.lo, hfirst]

/-- The lists have the same names and the same places where deleting goes wrong. -/
theorem sameHosts_list {rs' : List HostRange} (h : List.Forall₂ SameHosts rs rs')
    (hrs : RangesWf rs) : RangesWf rs' ∧ rs'.flatMap HostRange.hosts = rs.flatMap HostRange.hosts ∧
      ∀ name, DeleteFits name rs' ↔ DeleteFits name rs := by
  induction h with
  | nil => exact ⟨hrs, rfl, fun _ => Iff.rfl⟩
  | @cons hr hr' rs rs' hhosts _ ih =>
    obtain ⟨hwf, hsize⟩ := hrs.head
    obtain ⟨hrs', hexpansion, hfits⟩ := ih hrs.tail
    have heq := hhosts.hosts_eq hwf hsize
    have hlt := hrs.sizes_lt
    have hlen : sizes rs' = sizes rs := by
      rw [← length_expansion hrs', hexpansion, length_expansion hrs.tail]
    refine ⟨⟨fun x hx => ?_, ?_⟩, ?_, fun name => ?_⟩
    · rcases List.mem_cons.mp hx with rfl | hx
      · exact hhosts.wf hwf
      · exact hrs'.wf x hx
    · rw [sizes_cons, hhosts.size_eq, hlen, ← sizes_cons]
      exact hlt
    · rw [flatMap_cons, flatMap_cons, heq, hexpansion]
    · rw [DeleteFits, DeleteFits, heq, hhosts.deleteOk_iff, hfits name]

theorem deleteNthLoop_append (h : RangesWf (rs ++ [hr])) (after : List HostRange) (hk : k < hr.size)
    (count : Nat) :
    deleteNthLoop (count + sizes rs + k) (rs ++ hr :: after) count = rs ++ deleteIn hr k ++ after := by
  induction rs generalizing count with
  | nil =>
    have hcount := count_toNat h.head.1 h.head.2
    have hzero : sizes [] = 0 := rfl
    rw [hzero, nil_append, deleteNthLoop]
    simp only [hcount]
    rw [if_pos (by omega), nil_append]
    congr 2
    omega
  | cons x rs ih =>
    have hcount := count_toNat h.head.1 h.head.2
    rw [cons_append, deleteNthLoop, sizes_cons]
    simp only [hcount]
    rw [if_neg (by omega), ← Nat.add_assoc, ih h.tail]
    rfl

/-- The range where a name is first listed. -/
theorem exists_first (h : RangesWf rs) (hmem : name ∈ rs.flatMap HostRange.hosts) :
    ∃ before hr after, rs = before ++ hr :: after ∧ name ∈ hr.hosts ∧
      name ∉ before.flatMap HostRange.hosts ∧ (DeleteFits name rs ↔ DeleteOk hr name) := by
  induction rs with
  | nil => exact absurd hmem not_mem_nil
  | cons x rs ih =>
    rw [flatMap_cons, mem_append] at hmem
    by_cases hx : name ∈ x.hosts
    · refine ⟨[], x, rs, rfl, hx, not_mem_nil, ?_⟩
      simp [DeleteFits, hx]
    · obtain ⟨before, hr, after, rfl, hhr, hbefore, hfits⟩ := ih h.tail (hmem.resolve_left hx)
      refine ⟨x :: before, hr, after, rfl, hhr, ?_, ?_⟩
      · rw [flatMap_cons, mem_append, not_or]
        exact ⟨hx, hbefore⟩
      · simp [DeleteFits, hx, hfits]

theorem deleteFits_of_notMem (hmem : name ∉ rs.flatMap HostRange.hosts) : DeleteFits name rs := by
  induction rs with
  | nil => trivial
  | cons x rs ih =>
    rw [flatMap_cons, mem_append, not_or] at hmem
    exact ⟨fun hx => absurd hx hmem.1, fun _ => ih hmem.2⟩

/-- A range up to `ULONG_MAX` is emptied with its first host. -/
theorem deleteIn_max (hs : hr.singlehost = false) (hmax : hr.hi = -1) : deleteIn hr 0 = [] := by
  have hdelete : hr.deleteHost (hr.lo + BitVec.ofNat 64 0) = ({ hr with lo := hr.lo + 1 }, none) := by
    rw [HostRange.deleteHost, if_pos (BitVec.add_zero _)]
  have hempty : ({ hr with lo := hr.lo + 1 } : HostRange).empty = true := by
    rw [HostRange.empty, decide_eq_true_iff]
    exact Or.inr hmax
  rw [deleteIn, if_neg (by rw [hs]; exact Bool.false_ne_true), hdelete]
  simp only [hempty, if_true]

/-- Deleting a name of a range keeps its other names exactly when it does not empty the range. -/
theorem deleteIn_iff (h : hr.Wf) (hsize : hr.size < 2 ^ 31) (hmem : name ∈ hr.hosts) :
    (∀ other, other ≠ name → hr.hosts.count other ≤
      ((deleteIn hr (hr.hosts.idxOf name)).flatMap HostRange.hosts).count other) ↔
        DeleteOk hr name := by
  have hk := idxOf_lt_length_of_mem hmem
  rw [length_hosts h hsize] at hk
  have hle := h.le
  have hfirst : hr.singlehost = false → hr.hostAt 0 = hr.numbered hr.lo.toNat := by
    intro hs
    rw [HostRange.hostAt, if_neg (by rw [hs]; exact Bool.false_ne_true), BitVec.add_zero]
    rfl
  constructor
  · intro hkept hs hmax hname
    by_contra hne
    have hlt : hr.lo.toNat < hr.hi.toNat :=
      Nat.lt_of_le_of_ne hle fun heq => hne (BitVec.eq_of_toNat_eq heq)
    rw [hfirst hs] at hname
    subst hname
    have hother : hr.numbered (hr.lo.toNat + 1) ∈ hr.hosts :=
      (mem_hosts_iff h hsize hs).mpr ⟨_, Nat.le_succ _, hlt, rfl⟩
    have hcount := hkept (hr.numbered (hr.lo.toNat + 1)) fun heq => by
      have := numbered_inj heq
      omega
    rw [idxOf_hosts h hsize hs (Nat.le_refl _) hle, Nat.sub_self, deleteIn_max hs hmax] at hcount
    have hpos := List.count_pos_iff.mpr hother
    simp at hcount
    omega
  · intro hok other hother
    rw [deleteIn_hosts h hsize hk, ← erase_eq_eraseIdx_of_idxOf rfl,
      count_erase_of_ne hother]
    intro hs hmax hzero
    apply hok hs hmax
    rw [hfirst hs]
    obtain ⟨n, hlo, hhi, rfl⟩ := (mem_hosts_iff h hsize hs).mp hmem
    rw [idxOf_hosts h hsize hs hlo hhi] at hzero
    congr 1
    omega

/-- Deleting at the first place of a name keeps all other names exactly when the range where it is
keeps its other hosts. -/
theorem deleteNth_iff (h : RangesWf rs) (hmem : name ∈ rs.flatMap HostRange.hosts) :
    (∀ other, other ≠ name → (rs.flatMap HostRange.hosts).count other ≤
      ((deleteNthLoop ((rs.flatMap HostRange.hosts).idxOf name) rs 0).flatMap HostRange.hosts).count
        other) ↔ DeleteFits name rs := by
  obtain ⟨before, hr, after, rfl, hhr, hbefore, hfits⟩ := exists_first h hmem
  have hsplit : before ++ hr :: after = (before ++ [hr]) ++ after := by simp
  have hleft : RangesWf (before ++ [hr]) := RangesWf.append_left (hsplit ▸ h)
  have hwf : hr.Wf := hleft.wf hr (by simp)
  have hsize : hr.size < 2 ^ 31 := by
    have hlt := hleft.sizes_lt
    rw [sizes, map_append, sum_append, map_singleton, sum_singleton] at hlt
    omega
  have hk := idxOf_lt_length_of_mem hhr
  rw [length_hosts hwf hsize] at hk
  have hidx : ((before ++ hr :: after).flatMap HostRange.hosts).idxOf name =
      0 + sizes before + hr.hosts.idxOf name := by
    rw [flatMap_append, flatMap_cons, idxOf_append_of_notMem hbefore,
      idxOf_append_of_mem hhr, length_expansion hleft.append_left, Nat.zero_add]
  rw [hfits, hidx, deleteNthLoop_append hleft after hk, ← deleteIn_iff hwf hsize hhr]
  simp only [flatMap_append, flatMap_cons, count_append]
  refine forall_congr' fun other => imp_congr_right fun _ => ?_
  omega

/-! ## Every list and every name -/

/-- What is promised of a list and a name: the index of the first place where the name is listed is
returned, or `-1`, and no other host is deleted with the name. -/
structure FindContract (hl : Listed) (name : List Char) : Prop where
  find : (hostlistFindDims hl.toHostList name).1 = indexFrom 0 hl.expansion name
  keeps : ∀ other, other ≠ name →
    hl.expansion.count other ≤ (hostlistDeleteHost hl.toHostList name).expansion.count other

theorem hnAt_hostPrefixEnd (name : List Char) :
    hostnameCreateDims name = hnAt name (hostPrefixEnd name) := by
  rw [hostnameCreateDims_eq, hnAt]

/-- A host is found and deleted as promised exactly when the ranges up to the one where it is first
listed fit. -/
theorem findContract_iff (hl : Listed) (name : List Char) :
    FindContract hl name ↔
      FindFits name hl.hr (hostPrefixEnd name) 0 ∧ DeleteFits name hl.hr := by
  have hpos := hostPrefixEnd_le name
  have hfind : (hostlistFindDims hl.toHostList name).1 = indexFrom 0 hl.expansion name ↔
      FindFits name hl.hr (hostPrefixEnd name) 0 := by
    rw [hostlistFindDims, hnAt_hostPrefixEnd]
    exact findLoop_iff hpos hl.ranges (by rw [Nat.zero_add]; exact hl.ranges.sizes_lt)
  have hkeeps : (hostlistFindDims hl.toHostList name).1 = indexFrom 0 hl.expansion name →
      ((∀ other, other ≠ name → hl.expansion.count other ≤
        (hostlistDeleteHost hl.toHostList name).expansion.count other) ↔ DeleteFits name hl.hr) := by
    intro hret
    obtain ⟨hwf, hexpansion, hfits⟩ := sameHosts_list (findLoop_sameHosts hpos hl.hr 0) hl.ranges
    rw [← hnAt_hostPrefixEnd] at hwf hexpansion hfits
    have hsame : hl.expansion = (hostlistFindDims hl.toHostList name).2.expansion := hexpansion.symm
    have hlt := hwf.sizes_lt
    rw [hostlistDeleteHost]
    simp only [hret]
    by_cases hmem : name ∈ hl.expansion
    · have hidx : hl.expansion.idxOf name < 2 ^ 31 := by
        have hidx := List.idxOf_lt_length_of_mem hmem
        rw [HostList.expansion, length_expansion hl.ranges] at hidx
        exact hidx.trans hl.ranges.sizes_lt
      have hnat : (indexFrom 0 hl.expansion name).toNat = hl.expansion.idxOf name := by
        rw [indexFrom, if_pos hmem, BitVec.toNat_ofNat]
        omega
      have hmsb : ¬ (indexFrom 0 hl.expansion name).msb = true := by
        rw [Bool.not_eq_true, BitVec.msb_eq_false_iff_two_mul_lt, hnat]
        omega
      have hdelete := deleteNth_iff hwf (by rw [hexpansion]; exact hmem)
      rw [hexpansion, hfits name] at hdelete
      rw [if_neg hmsb, hnat]
      exact hdelete
    · have hmsb : (indexFrom 0 hl.expansion name).msb = true := by
        rw [indexFrom, if_neg hmem]
        decide
      rw [if_pos hmsb, ← hsame]
      exact iff_of_true (fun _ _ => Nat.le_refl _) (deleteFits_of_notMem hmem)
  constructor
  · exact fun h => ⟨hfind.mp h.find, (hkeeps h.find).mp h.keeps⟩
  · rintro ⟨hfits, hdelete⟩
    exact ⟨hfind.mpr hfits, (hkeeps (hfind.mpr hfits)).mpr hdelete⟩

/-- `node1[0-3]`. -/
def fourNodes : Listed where
  hr := [⟨"node1".toList, 0, 3, 1, false⟩]
  nhosts := 4
  ranges := by
    refine ⟨fun hr hmem => ?_, by decide⟩
    rw [List.mem_singleton.mp hmem]
    exact ⟨by decide, Bool.noConfusion⟩
  nhosts_eq := by decide

/-- The name `node1`, which is not listed, is found at the place of `node10`. -/
theorem findContract_fails : ¬ FindContract fourNodes "node1".toList := by
  intro h
  have hfind := h.find
  revert hfind
  decide

end Slurm.Hostlist
