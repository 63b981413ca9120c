import Slurm.Hostlist.FindContract

/-!
# Iterating over a host list

`hostlist_next` and `hostlist_remove` of `src/common/hostlist.c`, for a list with one iterator.

* `Between`: the iterator stands between the hosts that it has returned and the others.
* `AtHost`: it stands on a host, after `_iterator_advance`.
* `removeCases`: what `hostlist_remove` can do to it.

The pointer `hr` of the iterator is always the range at `idx`, so that only `idx` is kept.
-/

namespace Slurm.Hostlist

open Lib.Decimal List

/-! ## The iterator -/

/-- The size of the buffer of `hostlist_next_dims`, `HOST_NAME_MAX + 16`. -/
def nameSize : Nat := 80

/-- `hostlist_iterator_t` and its list. -/
structure Iter where
  hl : HostList
  idx : Nat
  depth : Int
  deriving DecidableEq

/-- `hostlist_iterator_create`. -/
def hostlistIteratorCreate (hl : HostList) : Iter := ⟨hl, 0, -1⟩

/-- `hostlist_iterator_reset`. -/
def hostlistIteratorReset (i : Iter) : Iter := { i with idx := 0, depth := -1 }

/-- `_iterator_advance`.  The depth is compared as an `unsigned long`. -/
def iteratorAdvance (i : Iter) : Iter :=
  match i.hl.hr[i.idx]? with
  | none => i
  | some hr =>
    if hr.hi - hr.lo < BitVec.ofInt 64 (i.depth + 1) then { i with idx := i.idx + 1, depth := 0 }
    else { i with depth := i.depth + 1 }

/-- What `hostlist_next_dims` prints, which goes through a buffer. -/
def nextName (hr : HostRange) (depth : Int) : Option (List Char) :=
  if nameSize ≤ hr.hostPrefix.length + 1 then
    none
  else if hr.singlehost then
    some hr.hostPrefix
  else
    let digits := padded hr.width (hr.lo + BitVec.ofInt 64 depth).toNat
    if nameSize ≤ digits.length then none
    else some ((hr.hostPrefix ++ digits).take (nameSize - 1))

/-- `hostlist_next_dims` with one dimension. -/
def hostlistNext (i : Iter) : Option (List Char) × Iter :=
  let i := iteratorAdvance i
  (i.hl.hr[i.idx]?.bind fun hr => nextName hr i.depth, i)

/-- `hostlist_insert_range`. -/
def hostlistInsertRange (i : Iter) (hr : HostRange) (n : Nat) : Iter :=
  if i.hl.hr.length < n then i
  else
    { i with
      hl := { i.hl with hr := i.hl.hr.insertIdx n hr }
      idx := if n ≤ i.idx then i.idx + 1 else i.idx }

/-- `hostlist_shift_iterators` of one deleted range. -/
def hostlistShiftIterators (i : Iter) (idx : Nat) : Iter :=
  if i.idx < idx then i
  else if i.idx = 0 then hostlistIteratorReset i
  else { i with idx := i.idx - 1 }

/-- `hostlist_delete_range`. -/
def hostlistDeleteRange (i : Iter) (n : Nat) : Iter :=
  hostlistShiftIterators { i with hl := { i.hl with hr := i.hl.hr.eraseIdx n } } n

/-- The range of the iterator is changed. -/
def Iter.setRange (i : Iter) (hr : HostRange) : Iter :=
  { i with hl := { i.hl with hr := i.hl.hr.set i.idx hr } }

/-- `hostlist_remove`, up to the number of hosts. -/
def removeHost (i : Iter) : Iter :=
  match i.hl.hr[i.idx]? with
  | none => i
  | some hr =>
    match hr.deleteHost (hr.lo + BitVec.ofInt 64 i.depth) with
    | (hr', some new) =>
      let i := hostlistInsertRange (i.setRange hr') new (i.idx + 1)
      { i with idx := i.idx + 1, depth := -1 }
    | (hr', none) =>
      if hr'.empty then hostlistDeleteRange (i.setRange hr') i.idx
      else { i.setRange hr' with depth := i.depth - 1 }

/-- `hostlist_remove`. -/
def hostlistRemove (i : Iter) : Iter :=
  let i := removeHost i
  { i with hl := { i.hl with nhosts := i.hl.nhosts - 1 } }

/-- Calls of `hostlist_next` until it returns nothing, with a call of `hostlist_remove` after those
that are chosen, numbered from `k`: the names and the iterator at the end. -/
def visit (chosen : Nat → Bool) : Nat → Nat → Iter → Option (List (List Char) × Iter)
  | 0, _, _ => none
  | fuel + 1, k, i =>
    let next := hostlistNext i
    next.1.elim (some ([], next.2)) fun name =>
      (visit chosen fuel (k + 1) (if chosen k then hostlistRemove next.2 else next.2)).map
        fun r => (name :: r.1, r.2)

/-- Those of some hosts, numbered from `k`, that are not chosen. -/
def unchosen (chosen : Nat → Bool) : Nat → List (List Char) → List (List Char)
  | _, [] => []
  | k, name :: names =>
    if chosen k then unchosen chosen (k + 1) names else name :: unchosen chosen (k + 1) names

/-! ## Parts of a range -/

section

variable {hr : HostRange} {k : Nat}

theorem lo_add (h : hr.Wf) (hk : k < hr.size) :
    (hr.lo + BitVec.ofNat 64 k).toNat = hr.lo.toNat + k := by
  have hle := h.le
  have hhi := hr.hi.isLt
  rw [HostRange.size] at hk
  rw [BitVec.toNat_add, BitVec.toNat_ofNat]
  omega

/-- The hosts of a range up to a number. -/
theorem hosts_below (h : hr.Wf) (hsize : hr.size < 2 ^ 31) (hs : hr.singlehost = false)
    (hk : 0 < k) (hlt : k ≤ hr.size) {hi : BitVec 64} (hhi : hi.toNat + 1 = hr.lo.toNat + k) :
    ({ hr with hi } : HostRange).hosts = hr.hosts.take k := by
  rw [hosts_part hs (by omega) (by rw [HostRange.size] at *; omega), hosts_eq h hsize hs,
    ← map_take, take_range'_of_length_ge hlt]
  congr 2
  omega

/-- The hosts of a range from a number on. -/
theorem hosts_above (h : hr.Wf) (hsize : hr.size < 2 ^ 31) (hs : hr.singlehost = false)
    (hlt : k < hr.size) {lo : BitVec 64} (hlo : lo.toNat = hr.lo.toNat + k) :
    ({ hr with lo } : HostRange).hosts = hr.hosts.drop k := by
  rw [HostRange.size] at *
  rw [hosts_part hs (by omega) (by omega), hosts_eq h (by rw [HostRange.size]; omega) hs,
    ← map_drop, drop_range', HostRange.size]
  congr 2
  · omega
  · omega

/-- The first of several hosts is deleted. -/
theorem deleteHost_first (h : hr.Wf) (hsize : hr.size < 2 ^ 31) (hlt : 1 < hr.size) :
    ∃ hr', hr.deleteHost hr.lo = (hr', none) ∧ hr'.Wf ∧ hr'.size + 1 = hr.size ∧
      hr'.hosts = hr.hosts.drop 1 ∧ (hr'.empty = true ↔ hr.hi = -1) := by
  have hle : hr.lo.toNat < hr.hi.toNat := by
    rw [HostRange.size] at hlt
    omega
  have hone := add_one_toNat_of_lt hle
  have hs : hr.singlehost = false := by
    refine Bool.eq_false_iff.mpr fun hs => ?_
    rw [h.size_single hs] at hlt
    exact Nat.lt_irrefl 1 hlt
  refine ⟨{ hr with lo := hr.lo + 1 }, by rw [HostRange.deleteHost, if_pos rfl], ⟨?_, ?_⟩, ?_, ?_, ?_⟩
  · show (hr.lo + 1).toNat ≤ hr.hi.toNat
    omega
  · intro hsingle
    exact absurd (hs.symm.trans hsingle) Bool.false_ne_true
  · show hr.hi.toNat + 1 - (hr.lo + 1).toNat + 1 = hr.hi.toNat + 1 - hr.lo.toNat
    omega
  · exact hosts_above h hsize hs hlt (by omega)
  · rw [HostRange.empty, decide_eq_true_iff]
    refine ⟨fun hempty => hempty.resolve_left ?_, Or.inr⟩
    rw [BitVec.lt_def]
    dsimp only
    omega

/-- The only host is deleted. -/
theorem deleteHost_only (hle : hr.lo = hr.hi) :
    ∃ hr', hr.deleteHost hr.lo = (hr', none) ∧ hr'.empty = true := by
  refine ⟨{ hr with lo := hr.lo + 1 }, by rw [HostRange.deleteHost, if_pos rfl], ?_⟩
  rw [HostRange.empty, decide_eq_true_iff]
  by_cases hmax : hr.hi = -1
  · exact Or.inr hmax
  · left
    have hne : hr.hi.toNat ≠ 2 ^ 64 - 1 := fun heq => hmax (BitVec.eq_of_toNat_eq heq)
    have hhi := hr.hi.isLt
    rw [BitVec.lt_def, hle, BitVec.toNat_add]
    change hr.hi.toNat < (hr.hi.toNat + 1) % 2 ^ 64
    omega

/-- The last of several hosts is deleted. -/
theorem deleteHost_last (h : hr.Wf) (hsize : hr.size < 2 ^ 31) (hk : 0 < k) (hlast : k + 1 = hr.size) :
    ∃ hr', hr.deleteHost (hr.lo + BitVec.ofNat 64 k) = (hr', none) ∧ hr'.Wf ∧ hr'.size = k ∧
      hr'.hosts = hr.hosts.take k ∧ hr'.empty = false := by
  have hadd := lo_add h (show k < hr.size by omega)
  have hs : hr.singlehost = false := by
    refine Bool.eq_false_iff.mpr fun hs => ?_
    rw [h.size_single hs] at hlast
    omega
  have hsizes : hr.size = hr.hi.toNat + 1 - hr.lo.toNat := rfl
  have hone := sub_one_toNat_of_lt (show hr.lo.toNat < hr.hi.toNat by omega)
  have hfirst : hr.lo + BitVec.ofNat 64 k ≠ hr.lo := by
    rw [Ne, BitVec.toNat_eq, hadd]
    omega
  have hend : hr.lo + BitVec.ofNat 64 k = hr.hi := by
    rw [BitVec.toNat_eq, hadd]
    omega
  refine ⟨{ hr with hi := hr.hi - 1 }, ?_, ⟨?_, ?_⟩, ?_, ?_, ?_⟩
  · rw [HostRange.deleteHost, if_neg hfirst, if_pos hend]
  · show hr.lo.toNat ≤ (hr.hi - 1).toNat
    omega
  · intro hsingle
    exact absurd (hs.symm.trans hsingle) Bool.false_ne_true
  · show (hr.hi - 1).toNat + 1 - hr.lo.toNat = k
    omega
  · exact hosts_below h hsize hs hk (by omega) (by omega)
  · have hhi := hr.hi.isLt
    rw [HostRange.empty, decide_eq_false_iff_not, not_or, BitVec.lt_def, BitVec.toNat_eq]
    change ¬ (_ : Nat) < _ ∧ ¬ _ = 2 ^ 64 - 1
    dsimp only
    omega

/-- A host between others is deleted, and the range is split. -/
theorem deleteHost_middle (h : hr.Wf) (hsize : hr.size < 2 ^ 31) (hk : 0 < k)
    (hlt : k + 1 < hr.size) :
    ∃ hr' new, hr.deleteHost (hr.lo + BitVec.ofNat 64 k) = (hr', some new) ∧
      hr'.Wf ∧ hr'.size = k ∧ hr'.hosts = hr.hosts.take k ∧
      new.Wf ∧ new.size + (k + 1) = hr.size ∧ new.hosts = hr.hosts.drop (k + 1) := by
  have hadd := lo_add h (show k < hr.size by omega)
  have hs : hr.singlehost = false := by
    refine Bool.eq_false_iff.mpr fun hs => ?_
    rw [h.size_single hs] at hlt
    omega
  have hsizes : hr.size = hr.hi.toNat + 1 - hr.lo.toNat := rfl
  have hfirst : hr.lo + BitVec.ofNat 64 k ≠ hr.lo := by
    rw [Ne, BitVec.toNat_eq, hadd]
    omega
  have hend : hr.lo + BitVec.ofNat 64 k ≠ hr.hi := by
    rw [Ne, BitVec.toNat_eq, hadd]
    omega
  generalize hr.lo + BitVec.ofNat 64 k = num at *
  have hup := add_one_toNat_of_lt (show num.toNat < hr.hi.toNat by omega)
  have hdown := sub_one_toNat_of_lt (show hr.lo.toNat < num.toNat by omega)
  refine ⟨{ hr with hi := num - 1 }, { hr with lo := num + 1 }, ?_, ⟨?_, ?_⟩, ?_, ?_, ⟨?_, ?_⟩, ?_, ?_⟩
  · rw [HostRange.deleteHost, if_neg hfirst, if_neg hend]
  · show hr.lo.toNat ≤ (num - 1).toNat
    omega
  · intro hsingle
    exact absurd (hs.symm.trans hsingle) Bool.false_ne_true
  · show (num - 1).toNat + 1 - hr.lo.toNat = k
    omega
  · exact hosts_below h hsize hs hk (by omega) (by omega)
  · show (num + 1).toNat ≤ hr.hi.toNat
    omega
  · intro hsingle
    exact absurd (hs.symm.trans hsingle) Bool.false_ne_true
  · show hr.hi.toNat + 1 - (num + 1).toNat + (k + 1) = hr.size
    omega
  · exact hosts_above h hsize hs hlt (by omega)

end

/-! ## Where the iterator stands -/

/-- The hosts of some ranges. -/
abbrev names (rs : List HostRange) : List (List Char) := rs.flatMap HostRange.hosts

/-- The iterator stands between the hosts that it has returned and the others. -/
inductive Between (i : Iter) : List (List Char) → List (List Char) → Prop
  | empty (ranges : i.hl.hr = []) (idx : i.idx = 0) : Between i [] []
  | inside {before : List HostRange} {hr : HostRange} {after : List HostRange} {d : Nat}
      (ranges : i.hl.hr = before ++ hr :: after) (idx : i.idx = before.length)
      (depth : i.depth = d - 1) (le : d ≤ hr.size) :
      Between i (names before ++ hr.hosts.take d) (hr.hosts.drop d ++ names after)

/-- The iterator stands on a host. -/
structure AtHost (i : Iter) (before : List HostRange) (hr : HostRange) (d : Nat)
    (after : List HostRange) : Prop where
  ranges : i.hl.hr = before ++ hr :: after
  idx : i.idx = before.length
  depth : i.depth = d
  lt : d < hr.size

section

variable {i : Iter} {before after : List HostRange} {hr : HostRange} {d : Nat}
  {done todo : List (List Char)} {x : List Char}

theorem between_inside (i : Iter) (before : List HostRange) (hr : HostRange) (after : List HostRange)
    (d : Nat) (ranges : i.hl.hr = before ++ hr :: after) (idx : i.idx = before.length)
    (depth : i.depth = d - 1) (le : d ≤ hr.size) :
    Between i (names before ++ hr.hosts.take d) (hr.hosts.drop d ++ names after) :=
  Between.inside ranges idx depth le

theorem RangesWf.mem {rs : List HostRange} (h : RangesWf rs) (hmem : hr ∈ rs) :
    hr.Wf ∧ hr.size < 2 ^ 31 := by
  have hle : hr.size ≤ sizes rs := single_le_sum (fun _ _ => Nat.zero_le _) _
    (mem_map_of_mem hmem)
  have hlt := h.sizes_lt
  exact ⟨h.wf hr hmem, by omega⟩

theorem drop_hosts (h : hr.Wf) (hsize : hr.size < 2 ^ 31) (hd : d < hr.size) :
    hr.hosts.drop d = hr.hostAt d :: hr.hosts.drop (d + 1) := by
  have hlen := length_hosts h hsize
  rw [drop_eq_getElem_cons (by omega)]
  congr 1
  simp [HostRange.hosts]

theorem Between.expansion (h : Between i done todo) : done ++ todo = i.hl.expansion := by
  cases h with
  | empty hranges _ => rw [HostList.expansion, hranges]; rfl
  | inside hranges _ _ _ =>
    rw [HostList.expansion, hranges, flatMap_append, flatMap_cons, append_assoc,
      ← append_assoc (List.take _ _), take_append_drop]

theorem getElem?_middle (before after : List HostRange) (hr : HostRange) :
    (before ++ hr :: after)[before.length]? = some hr := by
  rw [getElem?_append_right (Nat.le_refl _), Nat.sub_self, getElem?_cons_zero]

theorem AtHost.getElem? (h : AtHost i before hr d after) : i.hl.hr[i.idx]? = some hr := by
  rw [h.ranges, h.idx, getElem?_middle]

theorem AtHost.range (h : AtHost i before hr d after) (hwf : RangesWf i.hl.hr) :
    hr.Wf ∧ hr.size < 2 ^ 31 := by
  rw [h.ranges] at hwf
  exact hwf.mem (mem_append_right _ mem_cons_self)

/-- The depth is compared with the number of hosts. -/
theorem lt_depth_iff (h : hr.Wf) (hsize : hr.size < 2 ^ 31) (hd : d ≤ hr.size) :
    hr.hi - hr.lo < BitVec.ofInt 64 ((d : Int) - 1 + 1) ↔ d = hr.size := by
  have hle := h.le
  have hhi := hr.hi.isLt
  rw [Int.sub_add_cancel, BitVec.ofInt_natCast, BitVec.lt_def, BitVec.toNat_sub,
    BitVec.toNat_ofNat]
  rw [HostRange.size] at *
  omega

/-- `_iterator_advance` comes to the next host. -/
theorem advance_at (h : Between i done (x :: todo)) (hwf : RangesWf i.hl.hr) :
    (iteratorAdvance i).hl = i.hl ∧ ∃ before hr d after,
      AtHost (iteratorAdvance i) before hr d after ∧ done = names before ++ hr.hosts.take d ∧
        x = hr.hostAt d ∧ todo = hr.hosts.drop (d + 1) ++ names after := by
  generalize hrest : x :: todo = rest at h
  cases h with
  | empty => cases hrest
  | @inside before hr after d hranges hidx hdepth hle =>
    have hcur : i.hl.hr[i.idx]? = some hr := by rw [hranges, hidx, getElem?_middle]
    obtain ⟨hhr, hsize⟩ := hwf.mem
      (show hr ∈ i.hl.hr by rw [hranges]; exact mem_append_right _ mem_cons_self)
    have hlen := length_hosts hhr hsize
    unfold iteratorAdvance
    rw [hcur]
    dsimp only
    rw [hdepth]
    by_cases hd : d = hr.size
    · rw [if_pos ((lt_depth_iff hhr hsize hle).mpr hd)]
      rw [drop_eq_nil_of_le (by omega), nil_append] at hrest
      -- The next range has a host.
      cases after with
      | nil => cases hrest
      | cons hr' after =>
        obtain ⟨hhr', hsize'⟩ := hwf.mem (show hr' ∈ i.hl.hr by rw [hranges]; simp)
        have hdrop := drop_hosts hhr' hsize' hhr'.size_pos
        rw [names, flatMap_cons, ← drop_zero (l := hr'.hosts), hdrop, cons_append,
          List.cons.injEq] at hrest
        refine ⟨rfl, before ++ [hr], hr', 0, after, ⟨?_, ?_, rfl, hhr'.size_pos⟩, ?_, hrest.1,
          hrest.2⟩
        · simp [hranges]
        · simp [hidx]
        · rw [take_of_length_le (by omega)]
          simp [names]
    · rw [if_neg fun hlt => hd ((lt_depth_iff hhr hsize hle).mp hlt)]
      rw [drop_hosts hhr hsize (by omega), cons_append, List.cons.injEq] at hrest
      exact ⟨rfl, before, hr, d, after, ⟨hranges, hidx, by dsimp only; omega, by omega⟩, rfl,
        hrest.1, hrest.2⟩

/-- After the last host it comes to the end. -/
theorem advance_end (h : Between i done []) (hwf : RangesWf i.hl.hr) :
    (iteratorAdvance i).hl = i.hl ∧ (iteratorAdvance i).idx = i.hl.hr.length := by
  generalize hrest : ([] : List (List Char)) = rest at h
  cases h with
  | empty hranges hidx =>
    have hcur : i.hl.hr[i.idx]? = none := by rw [hranges, getElem?_nil]
    unfold iteratorAdvance
    rw [hcur, hranges]
    exact ⟨rfl, hidx⟩
  | @inside before hr after d hranges hidx hdepth hle =>
    have hcur : i.hl.hr[i.idx]? = some hr := by rw [hranges, hidx, getElem?_middle]
    obtain ⟨hhr, hsize⟩ := hwf.mem
      (show hr ∈ i.hl.hr by rw [hranges]; exact mem_append_right _ mem_cons_self)
    have hlen := length_hosts hhr hsize
    have hnil := List.append_eq_nil_iff.mp hrest.symm
    have hd : d = hr.size := by
      have hdrop := List.drop_eq_nil_iff.mp hnil.1
      omega
    have hafter : after = [] := by
      cases after with
      | nil => rfl
      | cons hr' after =>
        obtain ⟨hhr', hsize'⟩ := hwf.mem (show hr' ∈ i.hl.hr by rw [hranges]; simp)
        have hlen' := length_hosts hhr' hsize'
        have hpos := hhr'.size_pos
        rw [names, flatMap_cons, append_eq_nil_iff] at hnil
        rw [hnil.2.1] at hlen'
        simp at hlen'
        omega
    unfold iteratorAdvance
    rw [hcur]
    dsimp only
    rw [hdepth, if_pos ((lt_depth_iff hhr hsize hle).mpr hd)]
    refine ⟨rfl, ?_⟩
    rw [hranges, hafter, hidx]
    simp

/-- A host that stays is behind the iterator. -/
theorem AtHost.between (h : AtHost i before hr d after) (hwf : RangesWf i.hl.hr) :
    Between i ((names before ++ hr.hosts.take d) ++ [hr.hostAt d])
      (hr.hosts.drop (d + 1) ++ names after) := by
  obtain ⟨hhr, hsize⟩ := h.range hwf
  have htake : hr.hosts.take d ++ [hr.hostAt d] = hr.hosts.take (d + 1) := by
    rw [take_add_one]
    have hlen := length_hosts hhr hsize
    have hget : hr.hosts[d]? = some (hr.hostAt d) := by
      rw [getElem?_eq_getElem (by have := h.lt; omega)]
      simp [HostRange.hosts]
    rw [hget]
    rfl
  rw [append_assoc, htake]
  have hlt := h.lt
  refine .inside h.ranges h.idx ?_ hlt
  rw [h.depth]
  omega

/-! ## Removing a host -/

theorem set_middle (before after : List HostRange) (hr hr' : HostRange) :
    (before ++ hr :: after).set before.length hr' = before ++ hr' :: after := by
  simp

theorem erase_middle (before after : List HostRange) (hr : HostRange) :
    (before ++ hr :: after).eraseIdx before.length = before ++ after := by
  simp [eraseIdx_append]

theorem insert_middle (before after : List HostRange) (hr new : HostRange) :
    (before ++ hr :: after).insertIdx (before.length + 1) new = before ++ hr :: new :: after := by
  induction before with
  | nil => rfl
  | cons x before ih => simp [ih]

theorem sizes_append (rs rs' : List HostRange) : sizes (rs ++ rs') = sizes rs + sizes rs' := by
  rw [sizes, map_append, sum_append, sizes, sizes]

/-- A range is replaced by ranges that have no more hosts. -/
theorem RangesWf.replace (mid : List HostRange) (h : RangesWf (before ++ hr :: after))
    (hmid : ∀ x ∈ mid, x.Wf) (hsize : sizes mid ≤ hr.size) :
    RangesWf (before ++ (mid ++ after)) := by
  refine ⟨fun x hx => ?_, ?_⟩
  · rcases List.mem_append.mp hx with hx | hx
    · exact h.wf x (mem_append_left _ hx)
    · rcases List.mem_append.mp hx with hx | hx
      · exact hmid x hx
      · exact h.wf x (mem_append_right _ (mem_cons_of_mem hr hx))
  · have hlt := h.sizes_lt
    rw [sizes_append, sizes_cons] at hlt
    rw [sizes_append, sizes_append]
    omega

/-- What `hostlist_remove` leaves. -/
structure Removed (i i' : Iter) (done todo : List (List Char)) : Prop where
  ranges : RangesWf i'.hl.hr
  nhosts : i'.hl.nhosts = i.hl.nhosts - 1
  between : Between i' done todo

/-- A host between others of its range: the iterator goes to the upper part. -/
theorem remove_middle (h : AtHost i before hr d after) (hwf : RangesWf i.hl.hr) (hd : 0 < d)
    (hlt : d + 1 < hr.size) : Removed i (hostlistRemove i) (names before ++ hr.hosts.take d)
      (hr.hosts.drop (d + 1) ++ names after) := by
  obtain ⟨hhr, hsize⟩ := h.range hwf
  obtain ⟨hr', new, hdel, hwf', hsize', hhosts', hwfn, hsizen, hhostsn⟩ :=
    deleteHost_middle hhr hsize hd hlt
  have hlen : ¬ (before ++ hr' :: after).length < before.length + 1 := by
    simp
  have hidx : ¬ before.length + 1 ≤ before.length := by omega
  have hremove : removeHost i =
      { hl := { i.hl with hr := before ++ hr' :: new :: after }, idx := before.length + 1,
        depth := -1 } := by
    unfold removeHost
    rw [h.getElem?, h.depth, BitVec.ofInt_natCast]
    dsimp only
    rw [hdel]
    dsimp only [Iter.setRange, hostlistInsertRange]
    rw [h.ranges, h.idx, set_middle, if_neg hlen, insert_middle, if_neg hidx]
  unfold hostlistRemove
  rw [hremove]
  have hranges := h.ranges ▸ hwf
  refine ⟨RangesWf.replace [hr', new] hranges ?_ ?_, rfl, ?_⟩
  · intro x hx
    rcases List.mem_cons.mp hx with rfl | hx
    · exact hwf'
    · rw [List.mem_singleton.mp hx]
      exact hwfn
  · simp only [sizes, map_cons, map_nil, sum_cons, sum_nil]
    omega
  · have hbetween := between_inside
      { hl := { i.hl with hr := before ++ hr' :: new :: after, nhosts := i.hl.nhosts - 1 },
        idx := before.length + 1, depth := -1 }
      (before ++ [hr']) new after 0 (by simp) (by simp) rfl (Nat.zero_le _)
    rw [take_zero, drop_zero, append_nil, names, flatMap_append,
      flatMap_singleton, hhosts', hhostsn] at hbetween
    exact hbetween

/-- The last host of a range that has a host before it. -/
theorem remove_last (h : AtHost i before hr d after) (hwf : RangesWf i.hl.hr) (hd : 0 < d)
    (hlast : d + 1 = hr.size) : Removed i (hostlistRemove i) (names before ++ hr.hosts.take d)
      (hr.hosts.drop (d + 1) ++ names after) := by
  obtain ⟨hhr, hsize⟩ := h.range hwf
  obtain ⟨hr', hdel, hwf', hsize', hhosts', hempty⟩ := deleteHost_last hhr hsize hd hlast
  have hremove : removeHost i =
      { hl := { i.hl with hr := before ++ hr' :: after }, idx := before.length, depth := d - 1 } := by
    unfold removeHost
    rw [h.getElem?, h.depth, BitVec.ofInt_natCast]
    dsimp only
    rw [hdel]
    dsimp only [Iter.setRange]
    rw [hempty, if_neg Bool.false_ne_true, h.ranges, h.idx, set_middle]
  unfold hostlistRemove
  rw [hremove]
  have hranges := h.ranges ▸ hwf
  have hlen := length_hosts hhr hsize
  refine ⟨RangesWf.replace [hr'] hranges ?_ ?_, rfl, ?_⟩
  · intro x hx
    rw [List.mem_singleton.mp hx]
    exact hwf'
  · simp only [sizes, map_cons, map_nil, sum_cons, sum_nil]
    omega
  · have hbetween := between_inside
      { hl := { i.hl with hr := before ++ hr' :: after, nhosts := i.hl.nhosts - 1 },
        idx := before.length, depth := d - 1 }
      before hr' after d rfl rfl rfl (by omega)
    rw [hhosts', take_take, Nat.min_self, drop_eq_nil_of_le (by simp)] at hbetween
    rw [drop_eq_nil_of_le (by omega)]
    exact hbetween

/-- The first host of a range, which has others and does not reach `ULONG_MAX`. -/
theorem remove_first (h : AtHost i before hr 0 after) (hwf : RangesWf i.hl.hr)
    (hlt : 1 < hr.size) (hmax : hr.hi ≠ -1) :
    Removed i (hostlistRemove i) (names before ++ hr.hosts.take 0)
      (hr.hosts.drop 1 ++ names after) := by
  obtain ⟨hhr, hsize⟩ := h.range hwf
  obtain ⟨hr', hdel, hwf', hsize', hhosts', hempty⟩ := deleteHost_first hhr hsize hlt
  have hremove : removeHost i =
      { hl := { i.hl with hr := before ++ hr' :: after }, idx := before.length, depth := -1 } := by
    unfold removeHost
    rw [h.getElem?, h.depth, BitVec.ofInt_natCast]
    dsimp only
    rw [BitVec.add_zero, hdel]
    dsimp only [Iter.setRange]
    rw [if_neg fun he => hmax (hempty.mp he), h.ranges, h.idx, set_middle]
    rfl
  unfold hostlistRemove
  rw [hremove]
  have hranges := h.ranges ▸ hwf
  refine ⟨RangesWf.replace [hr'] hranges ?_ ?_, rfl, ?_⟩
  · intro x hx
    rw [List.mem_singleton.mp hx]
    exact hwf'
  · simp only [sizes, map_cons, map_nil, sum_cons, sum_nil]
    omega
  · have hbetween := between_inside
      { hl := { i.hl with hr := before ++ hr' :: after, nhosts := i.hl.nhosts - 1 },
        idx := before.length, depth := -1 }
      before hr' after 0 rfl rfl rfl (Nat.zero_le _)
    rw [take_zero, drop_zero, hhosts'] at hbetween
    exact hbetween

/-- What the iterator has before it and after it when its range is deleted: it goes to the first
host of the range before, or to the start. -/
def afterDelete (before after : List HostRange) : List (List Char) × List (List Char) :=
  before.getLast?.elim ([], names after) fun prev =>
    (names before.dropLast ++ prev.hosts.take 1, prev.hosts.drop 1 ++ names after)

theorem afterDelete_concat (before after : List HostRange) (prev : HostRange) :
    afterDelete (before ++ [prev]) after =
      (names before ++ prev.hosts.take 1, prev.hosts.drop 1 ++ names after) := by
  simp [afterDelete]

theorem length_afterDelete (before after : List HostRange) :
    ((afterDelete before after).1 ++ (afterDelete before after).2).length
      = (names before ++ names after).length := by
  rcases eq_nil_or_concat before with rfl | ⟨before, prev, rfl⟩
  · rfl
  · rw [concat_eq_append, afterDelete_concat, append_assoc, ← append_assoc
      (prev.hosts.take 1), take_append_drop]
    simp [names]

/-- A range that is empty after it, or looks so. -/
theorem remove_range (h : AtHost i before hr 0 after) (hwf : RangesWf i.hl.hr)
    (hdelete : hr.size = 1 ∨ hr.hi = -1) :
    Removed i (hostlistRemove i) (afterDelete before after).1 (afterDelete before after).2 := by
  obtain ⟨hhr, hsize⟩ := h.range hwf
  obtain ⟨hr', hdel, hempty⟩ : ∃ hr', hr.deleteHost hr.lo = (hr', none) ∧ hr'.empty = true := by
    by_cases hone : hr.size = 1
    · refine deleteHost_only (BitVec.eq_of_toNat_eq ?_)
      have hle := hhr.le
      rw [HostRange.size] at hone
      omega
    · have hpos := hhr.size_pos
      obtain ⟨hr', hdel, -, -, -, hempty⟩ := deleteHost_first hhr hsize (by omega)
      exact ⟨hr', hdel, hempty.mpr (hdelete.resolve_left hone)⟩
  have hremove : removeHost i = hostlistShiftIterators
      { hl := { i.hl with hr := before ++ after }, idx := before.length, depth := 0 }
      before.length := by
    unfold removeHost
    rw [h.getElem?, h.depth, BitVec.ofInt_natCast]
    dsimp only
    rw [BitVec.add_zero, hdel]
    dsimp only [Iter.setRange, hostlistDeleteRange]
    rw [if_pos hempty, h.ranges, h.idx, set_middle, erase_middle, h.depth]
    rfl
  have hranges : RangesWf (before ++ after) := by
    have hreplace := RangesWf.replace [] (h.ranges ▸ hwf) (fun x hx => absurd hx not_mem_nil)
      (Nat.zero_le _)
    exact hreplace
  unfold hostlistRemove
  rw [hremove]
  rcases eq_nil_or_concat before with rfl | ⟨before', prev, rfl⟩
  · refine ⟨hranges, rfl, ?_⟩
    show Between ⟨{ i.hl with hr := after, nhosts := i.hl.nhosts - 1 }, 0, -1⟩ [] (names after)
    cases after with
    | nil => exact .empty rfl rfl
    | cons hr'' after => exact between_inside _ [] hr'' after 0 rfl rfl rfl (Nat.zero_le _)
  · rw [concat_eq_append] at *
    have hnot : ¬ (before' ++ [prev]).length < (before' ++ [prev]).length := Nat.lt_irrefl _
    have hne : ¬ (before' ++ [prev]).length = 0 := by simp
    dsimp only [hostlistShiftIterators]
    rw [if_neg hnot, if_neg hne]
    refine ⟨hranges, rfl, ?_⟩
    rw [afterDelete_concat]
    refine .inside (d := 1) ?_ ?_ rfl (hranges.mem (by simp)).1.size_pos
    · simp
    · simp

end

end Slurm.Hostlist
