import Slurm.Lib.Decimal

/-!
# Host lists

Host names, host ranges and host lists, from `src/common/hostlist.c`, for a system of one
dimension.

* `hostrangeHnWithin`, `hostlistFindDims`, `hostlistDeleteHost`: the search for a name.
* `hosts`, `HostList.expansion`: the names that a range and a list stand for.
-/

namespace Slurm.Hostlist

open Lib.Decimal

/-! ## Numbers in texts -/

def isSpace (c : Char) : Bool := c == ' ' || (9 ≤ c.toNat && c.toNat ≤ 13)

/-- The sign before the digits, and what is after it. -/
def strtoulSign : List Char → Bool × List Char
  | '-' :: s => (true, s)
  | '+' :: s => (false, s)
  | s => (false, s)

/-- `strtoul` in base 10: the number at the start, which is `ULONG_MAX` when it does not fit
and is negated after a minus sign, and what is after it. -/
def strtoul (s : List Char) : BitVec 64 × List Char :=
  let (negative, t) := strtoulSign (s.dropWhile isSpace)
  let digits := t.takeWhile Char.isDigit
  if digits = [] then
    (0, s)
  else if 2 ^ 64 ≤ value digits then
    (-1, t.dropWhile Char.isDigit)
  else
    (if negative then -BitVec.ofNat 64 (value digits) else BitVec.ofNat 64 (value digits),
      t.dropWhile Char.isDigit)

/-- The digits that are counted by the loop of `_zero_padded`, which divides the number at most
as often as it has units. -/
def countDigits : Nat → Nat → Nat
  | 0, _ => 1
  | fuel + 1, num => if num / 10 = 0 then 1 else countDigits fuel (num / 10) + 1

/-- `_zero_padded`. -/
def zeroPadded (num : BitVec 64) (width : Nat) : Nat :=
  let n := countDigits num.toNat num.toNat
  if n < width then width - n else 0

/-- `_width_equiv`: the two widths after it, where they are equivalent. -/
def widthEquiv (n : BitVec 64) (wn : Nat) (m : BitVec 64) (wm : Nat) : Option (Nat × Nat) :=
  if wn = wm then
    some (wn, wm)
  else
    let npad := zeroPadded n wn
    let nmpad := zeroPadded n wm
    let mpad := zeroPadded m wm
    let mnpad := zeroPadded m wn
    if npad ≠ nmpad ∧ mpad ≠ mnpad then
      none
    else if npad ≠ nmpad then
      some (wn, wn)
    else
      some (wm, wm)

/-! ## Host names -/

/-- `hostname_t`.  The suffix is a place in the host name. -/
structure HostName where
  hostname : List Char
  hostPrefix : List Char
  suffix : Option Nat
  num : BitVec 64
  deriving DecidableEq

/-- The length of the prefix that `host_prefix_end` finds. -/
def hostPrefixEnd (hostname : List Char) : Nat :=
  hostname.length - (hostname.reverse.takeWhile Char.isDigit).length

/-- `hostname_create_dims`. -/
def hostnameCreateDims (hostname : List Char) : HostName :=
  let idx := hostPrefixEnd hostname
  if idx = hostname.length then
    { hostname, hostPrefix := hostname, suffix := none, num := 0 }
  else
    let (num, p) := strtoul (hostname.drop idx)
    if p = [] then
      { hostname, hostPrefix := hostname.take idx, suffix := some idx, num }
    else
      { hostname, hostPrefix := hostname, suffix := none, num }

/-! ## Host ranges -/

/-- `hostrange_t`. -/
structure HostRange where
  hostPrefix : List Char
  lo : BitVec 64
  hi : BitVec 64
  width : Nat
  singlehost : Bool
  deriving DecidableEq

namespace HostRange

/-- `hostrange_create_single`. -/
def createSingle (hostPrefix : List Char) : HostRange := ⟨hostPrefix, 0, 0, 0, true⟩

/-- `hostrange_count`. -/
def count (hr : HostRange) : BitVec 64 := if hr.singlehost then 1 else hr.hi - hr.lo + 1

/-- `hostrange_empty`. -/
def empty (hr : HostRange) : Bool := hr.hi < hr.lo ∨ hr.hi = -1

/-- `hostrange_delete_host`: the range without a host, and the upper part of a range that is
split. -/
def deleteHost (hr : HostRange) (n : BitVec 64) : HostRange × Option HostRange :=
  if n = hr.lo then
    ({ hr with lo := hr.lo + 1 }, none)
  else if n = hr.hi then
    ({ hr with hi := hr.hi - 1 }, none)
  else
    ({ hr with hi := n - 1 }, some { hr with lo := n + 1 })

/-- The name of the host at a place of a range, as `_hostrange_string` prints it. -/
def hostAt (hr : HostRange) (depth : Nat) : List Char :=
  if hr.singlehost then
    hr.hostPrefix
  else
    hr.hostPrefix ++ padded hr.width (hr.lo + BitVec.ofNat 64 depth).toNat

/-- The names that a range stands for. -/
def hosts (hr : HostRange) : List (List Char) := (List.range hr.count.toNat).map hr.hostAt

end HostRange

/-- The new place of the suffix where the prefixes of the range and the name differ, if there is
one. -/
def moveSuffix (hr : HostRange) (hn : HostName) (suffix : Nat) : Option Nat :=
  let len1 := hr.hostPrefix.length
  let len2 := hn.hostPrefix.length
  if len1 = len2 then
    none
  else if len2 < len1 ∧ len1 - len2 ≤ hn.hostname.length - suffix then
    some (suffix + (len1 - len2))
  else if len1 < len2 then
    some (suffix - (len2 - len1))
  else
    none

/-- The prefix up to the new place of the suffix, and the number after it. -/
def resplit (hn : HostName) (suffix suffix' : Nat) : HostName :=
  let hostPrefix :=
    if suffix ≤ suffix' then
      hn.hostPrefix ++ (hn.hostname.drop suffix).take (suffix' - suffix)
    else
      hn.hostPrefix.take (hn.hostPrefix.length - (suffix - suffix'))
  { hn with hostPrefix, suffix := some suffix', num := (strtoul (hn.hostname.drop suffix')).1 }

/-- A number that went through an `int`. -/
def viaInt (num : BitVec 64) : BitVec 64 := (num.setWidth 32).signExtend 64

/-- The end of `hostrange_hn_within`: the number is compared with the range, and the width of the
suffix with its width. -/
def numWithin (hr : HostRange) (hn : HostName) (suffix : Nat) : Bool × HostRange × HostName :=
  if hn.num ≤ hr.hi ∧ hn.num ≥ hr.lo then
    match widthEquiv hr.lo hr.width (viaInt hn.num) (hn.hostname.length - suffix) with
    | none => (false, hr, hn)
    | some (width', _) => (true, { hr with width := width' }, hn)
  else
    (false, hr, hn)

/-- `hostrange_hn_within`, with the range and the name after it. -/
def hostrangeHnWithin (hr : HostRange) (hn : HostName) : Bool × HostRange × HostName :=
  if hr.singlehost then
    (hn.hostname = hr.hostPrefix, hr, hn)
  else
    match hn.suffix with
    | none => (false, hr, hn)
    | some suffix =>
      if hr.hostPrefix = hn.hostPrefix then
        numWithin hr hn suffix
      else
        match moveSuffix hr hn suffix with
        | none => (false, hr, hn)
        | some suffix' =>
          let hn' := resplit hn suffix suffix'
          if hr.hostPrefix = hn'.hostPrefix then numWithin hr hn' suffix' else (false, hr, hn')

/-! ## Host lists -/

/-- `hostlist_t`. -/
structure HostList where
  hr : List HostRange
  nhosts : BitVec 32
  deriving DecidableEq

/-- The names that a list stands for. -/
def HostList.expansion (hl : HostList) : List (List Char) := hl.hr.flatMap HostRange.hosts

/-- The loop of `hostlist_find_dims`: what is returned, as an `int`, and the ranges after it. -/
def findLoop : List HostRange → HostName → Nat → BitVec 32 × List HostRange
  | [], _, _ => (-1, [])
  | hr :: rest, hn, count =>
    match hostrangeHnWithin hr hn with
    | (true, hr', hn') =>
      let ret :=
        if hn'.suffix.isSome then
          (BitVec.ofNat 64 count + hn'.num - hr.lo).setWidth 32
        else
          BitVec.ofNat 32 count
      (ret, hr' :: rest)
    | (false, hr', hn') =>
      let (ret, rest') := findLoop rest hn' (count + hr.count.toNat)
      (ret, hr' :: rest')

/-- `hostlist_find_dims` with one dimension. -/
def hostlistFindDims (hl : HostList) (hostname : List Char) : BitVec 32 × HostList :=
  let (ret, hr) := findLoop hl.hr (hostnameCreateDims hostname) 0
  (ret, { hl with hr })

/-- The range in which a host is deleted. -/
def deleteIn (hr : HostRange) (depth : Nat) : List HostRange :=
  if hr.singlehost then
    []
  else
    match hr.deleteHost (hr.lo + BitVec.ofNat 64 depth) with
    | (hr', some new) => [hr', new]
    | (hr', none) => if hr'.empty then [] else [hr']

/-- The loop of `hostlist_delete_nth`. -/
def deleteNthLoop (n : Nat) : List HostRange → Nat → List HostRange
  | [], _ => []
  | hr :: rest, count =>
    let numInRange := hr.count.toNat
    if n < numInRange + count then
      deleteIn hr (n - count) ++ rest
    else
      hr :: deleteNthLoop n rest (count + numInRange)

/-- `hostlist_delete_nth`. -/
def hostlistDeleteNth (hl : HostList) (n : Nat) : HostList :=
  { hr := deleteNthLoop n hl.hr 0, nhosts := hl.nhosts - 1 }

/-- `hostlist_delete_host`. -/
def hostlistDeleteHost (hl : HostList) (hostname : List Char) : HostList :=
  let (n, hl) := hostlistFindDims hl hostname
  if n.msb then hl else hostlistDeleteNth hl n.toNat

end Slurm.Hostlist

/-!
## Widths, numbers and the names of ranges

* `widthEquiv_isSome_iff`: when two widths are equivalent, by the numbers of digits.
* `widthEquiv_padded`: the width that a range gets prints its numbers as before.
* `hosts_eq`, `mem_hosts_iff`: the names of a range.
-/

namespace Slurm.Hostlist

open Lib.Decimal List

/-! ## Widths -/

theorem countDigits_eq {fuel num : Nat} (h : num ≤ fuel) : countDigits fuel num = numDigits num := by
  induction fuel generalizing num with
  | zero =>
    rw [Nat.le_zero.mp h]
    rfl
  | succ fuel ih =>
    rw [countDigits, numDigits_eq]
    by_cases hsmall : num < 10
    · rw [if_pos (Nat.div_eq_of_lt hsmall), if_pos hsmall]
    · rw [if_neg (by omega), if_neg hsmall, ih (by omega)]

theorem zeroPadded_eq (num : BitVec 64) (width : Nat) :
    zeroPadded num width = width - numDigits num.toNat := by
  rw [zeroPadded, countDigits_eq (Nat.le_refl _)]
  split <;> omega

/-- Two widths are equivalent when one of the numbers is printed alike with both. -/
theorem widthEquiv_isSome_iff (n : BitVec 64) (wn : Nat) (m : BitVec 64) (wm : Nat) :
    (widthEquiv n wn m wm).isSome = true ↔
      max wn (numDigits n.toNat) = max wm (numDigits n.toNat) ∨
        max wm (numDigits m.toNat) = max wn (numDigits m.toNat) := by
  rw [widthEquiv]
  simp only [zeroPadded_eq]
  split
  · simp_all
  · split
    · simp only [Option.isSome_none, Bool.false_eq_true, false_iff]
      omega
    · split
      · simp only [Option.isSome_some, true_iff]
        omega
      · simp only [Option.isSome_some, true_iff]
        omega

/-- Equivalent widths become one width, and each is kept or replaced by one that adds no zeros
to its number, as it did not itself. -/
theorem widthEquiv_some {n m : BitVec 64} {wn wm w w' : Nat} (h : widthEquiv n wn m wm = some (w, w')) :
    w = w' ∧ (w = wn ∨ w ≤ numDigits n.toNat ∧ wn ≤ numDigits n.toNat) ∧
      (w' = wm ∨ w' ≤ numDigits m.toNat ∧ wm ≤ numDigits m.toNat) := by
  rw [widthEquiv] at h
  simp only [zeroPadded_eq] at h
  split at h
  · cases h
    omega
  · split at h
    · cases h
    · split at h
      · cases h
        omega
      · cases h
        omega

/-- The first width prints the first number, and all greater ones, as before. -/
theorem widthEquiv_padded {n m : BitVec 64} {wn wm wn' wm' : Nat}
    (h : widthEquiv n wn m wm = some (wn', wm')) {k : Nat} (hk : n.toNat ≤ k) :
    padded wn' k = padded wn k := by
  have hdigits := numDigits_mono hk
  obtain ⟨-, hwidth, -⟩ := widthEquiv_some h
  rw [padded, padded]
  congr 2
  omega

/-! ## Numbers -/

theorem not_isSpace {c : Char} (h : c.isDigit = true) : isSpace c = false := by
  have hrange := isDigit_iff.mp h
  have hne : c ≠ ' ' := by
    rintro rfl
    exact absurd h (by decide)
  rw [isSpace]
  simp [hne]
  omega

/-- A string of digits is read to its end. -/
theorem strtoul_number {s : List Char} (h : IsNumber s) :
    strtoul s = (if 2 ^ 64 ≤ value s then -1 else BitVec.ofNat 64 (value s), []) := by
  have htake : s.takeWhile Char.isDigit = s := List.takeWhile_eq_self_iff.mpr h.2
  have hdrop : s.dropWhile Char.isDigit = [] := List.dropWhile_eq_nil_iff.mpr h.2
  have hstart : strtoulSign (s.dropWhile isSpace) = (false, s) := by
    cases s with
    | nil => exact absurd rfl h.1
    | cons c s =>
      have hc := h.2 c mem_cons_self
      rw [dropWhile_cons_of_neg (by rw [not_isSpace hc]; exact Bool.false_ne_true)]
      rw [strtoulSign]
      · rintro t ht
        rw [cons_eq_cons] at ht
        rw [ht.1] at hc
        exact absurd hc (by decide)
      · rintro t ht
        rw [cons_eq_cons] at ht
        rw [ht.1] at hc
        exact absurd hc (by decide)
  rw [strtoul, hstart]
  simp only [htake, hdrop, if_neg h.1]
  split <;> rfl

/-! ## The names of a range -/

/-- A range has a first and a last host, and a single host has no numbers. -/
structure HostRange.Wf (hr : HostRange) : Prop where
  le : hr.lo.toNat ≤ hr.hi.toNat
  single : hr.singlehost = true → hr.lo = 0 ∧ hr.hi = 0

/-- The number of hosts of a range. -/
def HostRange.size (hr : HostRange) : Nat := hr.hi.toNat + 1 - hr.lo.toNat

/-- The name with a number of a range. -/
def HostRange.numbered (hr : HostRange) (n : Nat) : List Char := hr.hostPrefix ++ padded hr.width n

variable {hr : HostRange} {name : List Char}

theorem HostRange.Wf.size_single (h : hr.Wf) (hs : hr.singlehost = true) : hr.size = 1 := by
  rw [HostRange.size, (h.single hs).1, (h.single hs).2]
  rfl

theorem HostRange.Wf.size_pos (h : hr.Wf) : 0 < hr.size := by
  have := h.le
  rw [HostRange.size]
  omega

theorem count_toNat (h : hr.Wf) (hsize : hr.size < 2 ^ 31) : hr.count.toNat = hr.size := by
  rw [HostRange.count]
  split
  · rename_i hs
    rw [h.size_single hs]
    rfl
  · have hle := h.le
    have hhi := hr.hi.isLt
    rw [HostRange.size] at *
    have hone : BitVec.toNat (1 : BitVec 64) = 1 := rfl
    rw [BitVec.toNat_add, BitVec.toNat_sub, hone]
    omega

theorem hosts_single (hs : hr.singlehost = true) : hr.hosts = [hr.hostPrefix] := by
  rw [HostRange.hosts, HostRange.count, if_pos hs]
  change [hr.hostAt 0] = _
  rw [HostRange.hostAt, if_pos hs]

/-- The names of a range are those of its numbers, in order. -/
theorem hosts_eq (h : hr.Wf) (hsize : hr.size < 2 ^ 31) (hs : hr.singlehost = false) :
    hr.hosts = (List.range' hr.lo.toNat hr.size).map hr.numbered := by
  rw [HostRange.hosts, count_toNat h hsize, range'_eq_map_range, map_map]
  refine map_congr_left fun depth hdepth => ?_
  have hlt := List.mem_range.mp hdepth
  have hhi := hr.hi.isLt
  rw [HostRange.size] at hlt
  have hadd : (hr.lo + BitVec.ofNat 64 depth).toNat = hr.lo.toNat + depth := by
    rw [BitVec.toNat_add, BitVec.toNat_ofNat]
    omega
  rw [HostRange.hostAt, if_neg (by rw [hs]; exact Bool.false_ne_true), hadd]
  rfl

theorem length_hosts (h : hr.Wf) (hsize : hr.size < 2 ^ 31) : hr.hosts.length = hr.size := by
  rw [HostRange.hosts, length_map, length_range, count_toNat h hsize]

theorem mem_hosts_iff (h : hr.Wf) (hsize : hr.size < 2 ^ 31) (hs : hr.singlehost = false) :
    name ∈ hr.hosts ↔ ∃ n, hr.lo.toNat ≤ n ∧ n ≤ hr.hi.toNat ∧ name = hr.numbered n := by
  have hle := h.le
  rw [hosts_eq h hsize hs, mem_map]
  constructor
  · rintro ⟨n, hn, rfl⟩
    rw [mem_range'_1, HostRange.size] at hn
    exact ⟨n, hn.1, by omega, rfl⟩
  · rintro ⟨n, hlo, hhi, rfl⟩
    refine ⟨n, ?_, rfl⟩
    rw [mem_range'_1, HostRange.size]
    omega

/-- The names of a range differ. -/
theorem numbered_inj {m n : Nat} (h : hr.numbered m = hr.numbered n) : m = n := by
  have hpadded := append_cancel_left h
  rw [← value_padded hr.width m, hpadded, value_padded]

theorem nodup_hosts (h : hr.Wf) (hsize : hr.size < 2 ^ 31) : hr.hosts.Nodup := by
  cases hs : hr.singlehost with
  | true =>
    rw [hosts_single hs]
    exact nodup_singleton _
  | false =>
    rw [hosts_eq h hsize hs]
    have hnumbers : (List.range' hr.lo.toNat hr.size).Nodup := nodup_range'
    exact hnumbers.map fun _ _ => numbered_inj

/-- The place of a name in its range. -/
theorem idxOf_hosts (h : hr.Wf) (hsize : hr.size < 2 ^ 31) (hs : hr.singlehost = false) {n : Nat}
    (hlo : hr.lo.toNat ≤ n) (hhi : n ≤ hr.hi.toNat) :
    hr.hosts.idxOf (hr.numbered n) = n - hr.lo.toNat := by
  have hlen : n - hr.lo.toNat < hr.hosts.length := by
    rw [length_hosts h hsize, HostRange.size]
    omega
  have hget : hr.hosts[n - hr.lo.toNat] = hr.numbered n := by
    simp only [hosts_eq h hsize hs, getElem_map, getElem_range']
    congr 1
    omega
  rw [← hget]
  exact (nodup_hosts h hsize).idxOf_getElem _ hlen

/-! ## Ranges with the same hosts -/

/-- The range has the same hosts, and the same numbers. -/
structure SameHosts (hr hr' : HostRange) : Prop where
  hostPrefix : hr'.hostPrefix = hr.hostPrefix
  lo : hr'.lo = hr.lo
  hi : hr'.hi = hr.hi
  singlehost : hr'.singlehost = hr.singlehost
  padded : ∀ n, hr.lo.toNat ≤ n → padded hr'.width n = padded hr.width n

theorem SameHosts.refl (hr : HostRange) : SameHosts hr hr := ⟨rfl, rfl, rfl, rfl, fun _ _ => rfl⟩

variable {hr' : HostRange}

theorem SameHosts.wf (h : SameHosts hr hr') (hwf : hr.Wf) : hr'.Wf where
  le := by
    rw [h.lo, h.hi]
    exact hwf.le
  single hs := by
    rw [h.singlehost] at hs
    rw [h.lo, h.hi]
    exact hwf.single hs

theorem SameHosts.size_eq (h : SameHosts hr hr') : hr'.size = hr.size := by
  rw [HostRange.size, HostRange.size, h.lo, h.hi]

theorem SameHosts.hosts_eq (h : SameHosts hr hr') (hwf : hr.Wf) (hsize : hr.size < 2 ^ 31) :
    hr'.hosts = hr.hosts := by
  have hsize' : hr'.size < 2 ^ 31 := by rw [h.size_eq]; exact hsize
  cases hs : hr.singlehost with
  | true =>
    rw [hosts_single hs, hosts_single (h.singlehost.trans hs), h.hostPrefix]
  | false =>
    rw [Hostlist.hosts_eq hwf hsize hs, Hostlist.hosts_eq (h.wf hwf) hsize' (h.singlehost.trans hs),
      h.size_eq, h.lo]
    refine map_congr_left fun n hn => ?_
    rw [HostRange.numbered, HostRange.numbered, h.hostPrefix, h.padded n (List.mem_range'_1.mp hn).1]

/-! ## Lists of ranges -/

variable {rs : List HostRange}

/-- The number of hosts of some ranges. -/
def sizes (rs : List HostRange) : Nat := (rs.map HostRange.size).sum

/-- All the ranges of a list are as they should be, and the hosts fit in an `int`. -/
structure RangesWf (rs : List HostRange) : Prop where
  wf : ∀ hr ∈ rs, hr.Wf
  sizes_lt : sizes rs < 2 ^ 31

theorem sizes_cons (hr : HostRange) (rs : List HostRange) : sizes (hr :: rs) = hr.size + sizes rs := by
  rw [sizes, map_cons, sum_cons, sizes]

theorem RangesWf.tail (h : RangesWf (hr :: rs)) : RangesWf rs := by
  have hlt := h.sizes_lt
  rw [sizes_cons] at hlt
  exact ⟨fun x hx => h.wf x (mem_cons_of_mem hr hx), by omega⟩

theorem RangesWf.head (h : RangesWf (hr :: rs)) : hr.Wf ∧ hr.size < 2 ^ 31 := by
  have hlt := h.sizes_lt
  rw [sizes_cons] at hlt
  exact ⟨h.wf hr mem_cons_self, by omega⟩

theorem RangesWf.append_left {before after : List HostRange} (h : RangesWf (before ++ after)) :
    RangesWf before := by
  have hlt := h.sizes_lt
  rw [sizes, map_append, sum_append] at hlt
  exact ⟨fun x hx => h.wf x (mem_append_left _ hx), by rw [sizes]; omega⟩

theorem length_expansion (h : RangesWf rs) : (rs.flatMap HostRange.hosts).length = sizes rs := by
  induction rs with
  | nil => rfl
  | cons hr rs ih =>
    rw [flatMap_cons, length_append, length_hosts h.head.1 h.head.2, ih h.tail, sizes_cons]

/-- A list of ranges that are as they should be, with the number of its hosts. -/
structure Listed extends HostList where
  ranges : RangesWf hr
  nhosts_eq : nhosts = BitVec.ofNat 32 (sizes hr)

end Slurm.Hostlist
