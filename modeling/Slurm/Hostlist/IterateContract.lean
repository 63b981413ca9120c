import Slurm.Hostlist.Iterate

/-!
# Removing hosts while iterating

* `IterateContract`: a run of `hostlist_next` with removals returns each host once.
* `remove_cases`: what a removal does to the place of the iterator.
* `iterateContract_iff`: the run is right exactly when each name fits in the buffer and each
  removal keeps the place (`StepsOk`).

When the last host of a range is removed, the range is deleted and the iterator goes to the range
before it, but to the first host of it and not to the last.
-/

namespace Slurm.Hostlist

open Lib.Decimal List Option

variable {i : Iter} {before after : List HostRange} {hr : HostRange} {d : Nat}
  {done todo : List (List Char)} {x : List Char}

/-! ## The contract -/

/-- The run returns every host once, in order, and nothing only at the end; the hosts that were not
chosen are left. -/
def IterateContract (hl : HostList) (chosen : Nat → Bool) : Prop :=
  ∃ fuel i, visit chosen fuel 0 (hostlistIteratorCreate hl) = some (hl.expansion, i) ∧
    i.idx = i.hl.hr.length ∧ i.hl.expansion = unchosen chosen 0 hl.expansion ∧
    i.hl.nhosts = BitVec.ofNat 32 (unchosen chosen 0 hl.expansion).length

/-! ## The condition -/

/-- The name of the host of the iterator fits in the buffer of `hostlist_next_dims`. -/
def NextFits (i : Iter) : Prop :=
  ∀ hr, i.hl.hr[i.idx]? = some hr →
    hr.hostPrefix.length + 1 < nameSize ∧ (hr.hostAt i.depth.toNat).length < nameSize

/-- The host of the iterator can be removed: it is not the first of several of a range up to
`ULONG_MAX`, and where it is the only one of its range, the range before has one host too. -/
structure RemoveOk (i : Iter) : Prop where
  kept : ∀ hr, i.hl.hr[i.idx]? = some hr → i.depth = 0 → hr.hi = -1 → hr.lo = hr.hi
  back : ∀ hr prev, i.hl.hr[i.idx]? = some hr → hr.lo = hr.hi → 0 < i.idx →
    i.hl.hr[i.idx - 1]? = some prev → prev.lo = prev.hi

/-- The condition on the next steps of a run, numbered from `k`. -/
def StepsOk (chosen : Nat → Bool) : Nat → Nat → Iter → Prop
  | 0, _, _ => True
  | n + 1, k, i =>
    let i := iteratorAdvance i
    (NextFits i ∧ (chosen k = true → RemoveOk i)) ∧
      StepsOk chosen n (k + 1) (if chosen k then hostlistRemove i else i)

/-! ## One step -/

theorem lo_eq_hi_iff (h : hr.Wf) : hr.lo = hr.hi ↔ hr.size = 1 := by
  have hle := h.le
  rw [BitVec.toNat_eq, HostRange.size]
  omega

/-- The name is printed in full exactly when it fits. -/
theorem nextName_iff (h : AtHost i before hr d after) :
    nextName hr i.depth = some (hr.hostAt d) ↔ NextFits i := by
  have hfits : NextFits i ↔
      hr.hostPrefix.length + 1 < nameSize ∧ (hr.hostAt d).length < nameSize := by
    unfold NextFits
    rw [h.getElem?, h.depth, Int.toNat_natCast]
    exact ⟨fun hall => hall hr rfl, fun hone hr' heq => by rwa [← Option.some.inj heq]⟩
  rw [hfits, h.depth]
  unfold nextName HostRange.hostAt
  by_cases hprefix : nameSize ≤ hr.hostPrefix.length + 1
  · rw [if_pos hprefix]
    constructor
    · intro heq
      cases heq
    · intro hlt
      omega
  · rw [if_neg hprefix]
    by_cases hs : hr.singlehost = true
    · rw [if_pos hs, if_pos hs]
      exact ⟨fun _ => ⟨by omega, by omega⟩, fun _ => rfl⟩
    · rw [if_neg hs, if_neg hs, BitVec.ofInt_natCast]
      dsimp only
      generalize padded hr.width (hr.lo + BitVec.ofNat 64 d).toNat = digits
      rw [length_append]
      by_cases hdigits : nameSize ≤ digits.length
      · rw [if_pos hdigits]
        constructor
        · intro heq
          cases heq
        · intro hlt
          omega
      · rw [if_neg hdigits, Option.some.injEq, take_eq_self_iff, length_append]
        have hsize : nameSize = 80 := rfl
        omega

/-- The only host of a range is removed: the place is kept, or hosts come again. -/
theorem remove_only (h : AtHost i before hr 0 after) (hwf : RangesWf i.hl.hr)
    (honly : hr.size = 1) :
    RemoveOk i ∧ afterDelete before after = (names before, names after) ∨
      ¬ RemoveOk i ∧ (names after).length < (afterDelete before after).2.length := by
  have hone := lo_eq_hi_iff (h.range hwf).1
  have hcur := h.getElem?
  have hkept : ∀ hr', i.hl.hr[i.idx]? = some hr' → i.depth = 0 → hr'.hi = -1 → hr'.lo = hr'.hi := by
    intro hr' heq _ _
    rw [hcur] at heq
    rw [← Option.some.inj heq]
    exact hone.mpr honly
  rcases eq_nil_or_concat before with rfl | ⟨before, prev, rfl⟩
  · refine Or.inl ⟨⟨hkept, fun _ _ _ _ hpos => ?_⟩, rfl⟩
    rw [h.idx] at hpos
    exact absurd hpos (Nat.lt_irrefl 0)
  · rw [concat_eq_append] at *
    obtain ⟨hprev, hprevsize⟩ := hwf.mem (show prev ∈ i.hl.hr by rw [h.ranges]; simp)
    have hlen := length_hosts hprev hprevsize
    have hpos := hprev.size_pos
    have hprevone := lo_eq_hi_iff hprev
    have hprevget : i.hl.hr[i.idx - 1]? = some prev := by
      rw [h.ranges, h.idx, length_append, length_singleton, Nat.add_sub_cancel,
        append_assoc]
      exact getElem?_middle _ _ _
    have hidx : 0 < i.idx := by
      rw [h.idx, length_append, length_singleton]
      omega
    rw [afterDelete_concat]
    by_cases hback : prev.size = 1
    · refine Or.inl ⟨⟨hkept, fun _ prev' _ _ _ heq => ?_⟩, ?_⟩
      · rw [hprevget] at heq
        rw [← Option.some.inj heq]
        exact hprevone.mpr hback
      · rw [take_of_length_le (by omega), drop_eq_nil_of_le (by omega)]
        simp [names]
    · refine Or.inr ⟨fun hok => hback ?_, ?_⟩
      · exact hprevone.mp (hok.back hr prev hcur (hone.mpr honly) hidx hprevget)
      · rw [length_append, length_drop]
        omega

/-- Where the range keeps a host, the condition is about its last number only. -/
theorem removeOk_of_several (h : AtHost i before hr d after) (hwf : RangesWf i.hl.hr)
    (hmany : 1 < hr.size) (hmax : d = 0 → hr.hi ≠ -1) : RemoveOk i := by
  have hone := lo_eq_hi_iff (h.range hwf).1
  have hcur := h.getElem?
  refine ⟨fun hr' heq hzero hlast => ?_, fun hr' _ heq honly => ?_⟩
  · rw [h.depth, Int.natCast_eq_zero] at hzero
    rw [hcur] at heq
    rw [← Option.some.inj heq] at hlast
    exact absurd hlast (hmax hzero)
  · rw [hcur] at heq
    rw [← Option.some.inj heq, hone] at honly
    omega

/-- What a removal does: the place is kept, or hosts come again, or hosts are lost. -/
theorem remove_cases (h : AtHost i before hr d after) (hwf : RangesWf i.hl.hr)
    (hdone : done = names before ++ hr.hosts.take d)
    (htodo : todo = hr.hosts.drop (d + 1) ++ names after) :
    ∃ done' todo', Removed i (hostlistRemove i) done' todo' ∧
      (RemoveOk i ∧ done' = done ∧ todo' = todo ∨
        ¬ RemoveOk i ∧ todo.length < todo'.length ∧
            (done' ++ todo').length = (done ++ todo).length ∨
          ¬ RemoveOk i ∧ (done' ++ todo').length < (done ++ todo).length) := by
  subst hdone htodo
  obtain ⟨hhr, hsize⟩ := h.range hwf
  have hlen := length_hosts hhr hsize
  have hlt := h.lt
  by_cases hd : d = 0
  · subst hd
    rw [take_zero, append_nil]
    by_cases honly : hr.size = 1
    · refine ⟨_, _, remove_range h hwf (Or.inl honly), ?_⟩
      rw [drop_eq_nil_of_le (by omega), nil_append]
      rcases remove_only h hwf honly with ⟨hok, hafter⟩ | ⟨hnot, hlonger⟩
      · rw [hafter]
        exact Or.inl ⟨hok, rfl, rfl⟩
      · exact Or.inr (Or.inl ⟨hnot, hlonger, length_afterDelete before after⟩)
    · have hmany : 1 < hr.size := by
        have hpos := hhr.size_pos
        omega
      by_cases hmax : hr.hi = -1
      · -- The other hosts of the range are lost.
        refine ⟨_, _, remove_range h hwf (Or.inr hmax), Or.inr (Or.inr ⟨fun hok => honly ?_, ?_⟩)⟩
        · exact (lo_eq_hi_iff hhr).mp (hok.kept hr h.getElem? h.depth hmax)
        · rw [length_afterDelete]
          simp only [length_append, length_drop]
          omega
      · have hremove := remove_first h hwf hmany hmax
        rw [take_zero, append_nil] at hremove
        exact ⟨_, _, hremove, Or.inl ⟨removeOk_of_several h hwf hmany fun _ => hmax, rfl, rfl⟩⟩
  · have hpos := Nat.pos_of_ne_zero hd
    have hok := removeOk_of_several h hwf (by omega) fun hzero => absurd hzero hd
    by_cases hlast : d + 1 = hr.size
    · exact ⟨_, _, remove_last h hwf hpos hlast, Or.inl ⟨hok, rfl, rfl⟩⟩
    · exact ⟨_, _, remove_middle h hwf hpos (by omega), Or.inl ⟨hok, rfl, rfl⟩⟩

/-! ## The run -/

variable {chosen : Nat → Bool} {k : Nat}

theorem visit_succ (chosen : Nat → Bool) (fuel k : Nat) (i : Iter) :
    visit chosen (fuel + 1) k i =
      (hostlistNext i).1.elim (some ([], (hostlistNext i).2)) fun name =>
        (visit chosen fuel (k + 1)
          (if chosen k then hostlistRemove (hostlistNext i).2 else (hostlistNext i).2)).map
            fun r => (name :: r.1, r.2) := rfl

theorem AtHost.next (h : AtHost (iteratorAdvance i) before hr d after) :
    hostlistNext i = (nextName hr (iteratorAdvance i).depth, iteratorAdvance i) := by
  unfold hostlistNext
  dsimp only
  rw [h.getElem?]
  rfl

theorem next_end (h : Between i done []) (hwf : RangesWf i.hl.hr) :
    hostlistNext i = (none, iteratorAdvance i) := by
  obtain ⟨hhl, hidx⟩ := advance_end h hwf
  unfold hostlistNext
  dsimp only
  rw [hhl, hidx, getElem?_length]
  rfl

/-- A run whose steps are right returns the hosts that are left, and keeps those not chosen. -/
theorem visit_ok (h : Between i done todo) (hwf : RangesWf i.hl.hr)
    (hnhosts : i.hl.nhosts = BitVec.ofNat 32 (done.length + todo.length))
    (hsteps : StepsOk chosen todo.length k i) :
    ∃ i', visit chosen (todo.length + 1) k i = some (todo, i') ∧ i'.idx = i'.hl.hr.length ∧
      i'.hl.expansion = done ++ unchosen chosen k todo ∧
      i'.hl.nhosts = BitVec.ofNat 32 (done.length + (unchosen chosen k todo).length) := by
  induction todo generalizing i k done with
  | nil =>
    obtain ⟨hhl, hidx⟩ := advance_end h hwf
    refine ⟨iteratorAdvance i, ?_, ?_, ?_, ?_⟩
    · rw [visit_succ, next_end h hwf]
      rfl
    · rw [hhl, hidx]
    · rw [hhl, ← h.expansion]
      rfl
    · rw [hhl, hnhosts]
      rfl
  | cons x todo ih =>
    obtain ⟨hhl, before, hr, d, after, hat, hdone, hx, htodo⟩ := advance_at h hwf
    obtain ⟨⟨hfits, hok⟩, hrest⟩ := hsteps
    have hwf' : RangesWf (iteratorAdvance i).hl.hr := hhl ▸ hwf
    have hname : (hostlistNext i).1 = some x := by
      rw [hat.next, hx]
      exact (nextName_iff hat).mpr hfits
    have hiter : (hostlistNext i).2 = iteratorAdvance i := by rw [hat.next]
    rw [length_cons, visit_succ, hname, hiter, elim_some]
    by_cases hk : chosen k = true
    · rw [if_pos hk] at hrest ⊢
      obtain ⟨done', todo', hremoved, hcases⟩ := remove_cases hat hwf' hdone htodo
      rcases hcases with ⟨-, rfl, rfl⟩ | ⟨hnot, -⟩ | ⟨hnot, -⟩
      · have hcount : (hostlistRemove (iteratorAdvance i)).hl.nhosts
            = BitVec.ofNat 32 (done'.length + todo'.length) := by
          rw [hremoved.nhosts, hhl, hnhosts, length_cons, ← Nat.add_assoc, BitVec.ofNat_add]
          exact BitVec.add_sub_cancel _ _
        obtain ⟨i', hvisit, hidx, hexp, hcount'⟩ := ih hremoved.between hremoved.ranges hcount hrest
        refine ⟨i', ?_, hidx, ?_, ?_⟩
        · rw [hvisit]
          rfl
        · rw [hexp, unchosen, if_pos hk]
        · rw [hcount', unchosen, if_pos hk]
      · exact absurd (hok hk) hnot
      · exact absurd (hok hk) hnot
    · rw [if_neg hk] at hrest ⊢
      have hbetween := hat.between hwf'
      rw [← hdone, ← htodo, ← hx] at hbetween
      have hcount : (iteratorAdvance i).hl.nhosts
          = BitVec.ofNat 32 ((done ++ [x]).length + todo.length) := by
        rw [hhl, hnhosts, length_cons, length_append, length_singleton]
        congr 1
        omega
      obtain ⟨i', hvisit, hidx, hexp, hcount'⟩ := ih hbetween hwf' hcount hrest
      refine ⟨i', ?_, hidx, ?_, ?_⟩
      · rw [hvisit]
        rfl
      · rw [hexp, unchosen, if_neg hk, append_assoc]
        rfl
      · rw [hcount', unchosen, if_neg hk, length_append, length_singleton,
          length_cons]
        congr 1
        omega

/-- What a run to the end has returned, however its steps went: hosts that were not removed are lost,
or every host that was left has been returned. -/
theorem visit_count {fuel : Nat} {returned : List (List Char)} {i' : Iter} (h : Between i done todo)
    (hwf : RangesWf i.hl.hr) (hvisit : visit chosen fuel k i = some (returned, i'))
    (hend : i'.idx = i'.hl.hr.length) :
    ∃ removed lost, (done ++ todo).length = i'.hl.expansion.length + removed + lost ∧
      i'.hl.nhosts = i.hl.nhosts - BitVec.ofNat 32 removed ∧
      (lost = 0 → todo.length ≤ returned.length) := by
  induction fuel generalizing i k done todo returned with
  | zero => cases hvisit
  | succ fuel ih =>
    rw [visit_succ] at hvisit
    cases todo with
    | nil =>
      rw [next_end h hwf, elim_none, Option.some.injEq, Prod.mk.injEq] at hvisit
      obtain ⟨rfl, rfl⟩ := hvisit
      obtain ⟨hhl, -⟩ := advance_end h hwf
      rw [hhl, ← h.expansion]
      refine ⟨0, 0, rfl, ?_, fun _ => Nat.le_refl 0⟩
      exact (BitVec.sub_zero _).symm
    | cons x todo =>
      obtain ⟨hhl, before, hr, d, after, hat, hdone, hx, htodo⟩ := advance_at h hwf
      have hwf' : RangesWf (iteratorAdvance i).hl.hr := hhl ▸ hwf
      rw [hat.next] at hvisit
      cases hname : nextName hr (iteratorAdvance i).depth with
      | none =>
        -- Nothing is returned before the end.
        rw [hname, elim_none, Option.some.injEq, Prod.mk.injEq] at hvisit
        obtain ⟨-, rfl⟩ := hvisit
        have hget := hat.getElem?
        rw [hend, getElem?_length] at hget
        cases hget
      | some name =>
        rw [hname, elim_some] at hvisit
        dsimp only at hvisit
        obtain ⟨r, hr', heq⟩ := Option.map_eq_some_iff.mp hvisit
        rw [Prod.mk.injEq] at heq
        obtain ⟨rfl, rfl⟩ := heq
        by_cases hk : chosen k = true
        · rw [if_pos hk] at hr'
          obtain ⟨done', todo', hremoved, hcases⟩ := remove_cases hat hwf' hdone htodo
          obtain ⟨removed, lost, hsum, hcount, hall⟩ := ih hremoved.between hremoved.ranges hr'
          have hminus : r.2.hl.nhosts = i.hl.nhosts - BitVec.ofNat 32 (removed + 1) := by
            rw [hcount, hremoved.nhosts, hhl, BitVec.ofNat_add, BitVec.sub_sub, BitVec.add_comm]
            rfl
          have hgap : (done' ++ todo').length ≤ (done ++ todo).length := by
            rcases hcases with ⟨-, rfl, rfl⟩ | ⟨-, -, heq⟩ | ⟨-, hlt⟩ <;> omega
          refine ⟨removed + 1, lost + ((done ++ todo).length - (done' ++ todo').length), ?_, hminus,
            fun hzero => ?_⟩
          · rw [length_append, length_cons]
            have hlength : (done ++ todo).length = done.length + todo.length := length_append
            omega
          · have hle := hall (by omega)
            have hlonger : todo.length ≤ todo'.length := by
              rcases hcases with ⟨-, -, rfl⟩ | ⟨-, hlt, -⟩ | ⟨-, hlt⟩ <;> omega
            rw [length_cons, length_cons]
            omega
        · rw [if_neg hk] at hr'
          have hbetween := hat.between hwf'
          rw [← hdone, ← htodo, ← hx] at hbetween
          obtain ⟨removed, lost, hsum, hcount, hall⟩ := ih hbetween hwf' hr'
          refine ⟨removed, lost, ?_, hhl ▸ hcount, fun hzero => ?_⟩
          · rw [← hsum]
            simp
          · have hle := hall hzero
            rw [length_cons, length_cons]
            omega

/-- A run that returns the hosts that are left, and whose list has the number of its hosts, took
right steps only. -/
theorem steps_of_visit {fuel : Nat} {i' : Iter} (h : Between i done todo) (hwf : RangesWf i.hl.hr)
    (hnhosts : i.hl.nhosts = BitVec.ofNat 32 (done ++ todo).length)
    (hvisit : visit chosen fuel k i = some (todo, i')) (hend : i'.idx = i'.hl.hr.length)
    (hnhosts' : i'.hl.nhosts = BitVec.ofNat 32 i'.hl.expansion.length) :
    StepsOk chosen todo.length k i := by
  induction todo generalizing i k done fuel with
  | nil => exact trivial
  | cons x todo ih =>
    obtain ⟨hhl, before, hr, d, after, hat, hdone, hx, htodo⟩ := advance_at h hwf
    have hwf' : RangesWf (iteratorAdvance i).hl.hr := hhl ▸ hwf
    cases fuel with
    | zero => cases hvisit
    | succ fuel =>
      rw [visit_succ, hat.next] at hvisit
      cases hname : nextName hr (iteratorAdvance i).depth with
      | none =>
        rw [hname] at hvisit
        cases hvisit
      | some name =>
        rw [hname, elim_some] at hvisit
        dsimp only at hvisit
        obtain ⟨r, hr', heq⟩ := Option.map_eq_some_iff.mp hvisit
        rw [Prod.mk.injEq, List.cons.injEq] at heq
        obtain ⟨⟨hnx, hr1⟩, rfl⟩ := heq
        have hfits : NextFits (iteratorAdvance i) := by
          rw [← nextName_iff hat, hname, hnx, hx]
        have hr'' : visit chosen fuel (k + 1)
            (if chosen k then hostlistRemove (iteratorAdvance i) else iteratorAdvance i)
              = some (todo, r.2) := by
          rw [hr', ← hr1]
        by_cases hk : chosen k = true
        · rw [if_pos hk] at hr''
          obtain ⟨done', todo', hremoved, hcases⟩ := remove_cases hat hwf' hdone htodo
          have hcount : (hostlistRemove (iteratorAdvance i)).hl.nhosts
              = BitVec.ofNat 32 (done ++ todo).length := by
            rw [hremoved.nhosts, hhl, hnhosts]
            rw [length_append, length_cons, ← Nat.add_assoc, BitVec.ofNat_add,
              length_append]
            exact BitVec.add_sub_cancel _ _
          rcases hcases with ⟨hok, rfl, rfl⟩ | hbad
          · refine ⟨⟨hfits, fun _ => hok⟩, ?_⟩
            rw [if_pos hk]
            exact ih hremoved.between hremoved.ranges hcount hr''
          · -- A wrong step shows at the end of the run.
            exfalso
            obtain ⟨removed, lost, hsum, hcount', hall⟩ :=
              visit_count hremoved.between hremoved.ranges hr'' hend
            have hlength : (done ++ x :: todo).length < 2 ^ 31 := by
              rw [h.expansion, HostList.expansion, length_expansion hwf]
              exact hwf.sizes_lt
            rw [length_append, length_cons] at hlength
            have hsame : (r.2.hl.expansion.length + removed) % 2 ^ 32
                = (done ++ todo).length % 2 ^ 32 := by
              have heq := congrArg BitVec.toNat (eq_sub_iff_add_eq.mp (hnhosts'.symm.trans
                (hcount'.trans (congrArg (· - BitVec.ofNat 32 removed) hcount))))
              rwa [← BitVec.ofNat_add, BitVec.toNat_ofNat, BitVec.toNat_ofNat] at heq
            rw [length_append] at hsame hsum
            rcases hbad with ⟨-, hlonger, heq⟩ | ⟨-, hlt⟩
            · rw [length_append, length_append] at heq
              have hle := hall (by omega)
              omega
            · rw [length_append, length_append] at hlt
              omega
        · rw [if_neg hk] at hr''
          refine ⟨⟨hfits, fun hk' => absurd hk' hk⟩, ?_⟩
          rw [if_neg hk]
          have hbetween := hat.between hwf'
          rw [← hdone, ← htodo, ← hx] at hbetween
          refine ih hbetween hwf' ?_ hr''
          rw [hhl, hnhosts, append_assoc]
          rfl

/-- The iterator of a list starts before its hosts. -/
theorem between_create (hl : HostList) (hwf : RangesWf hl.hr) :
    Between (hostlistIteratorCreate hl) [] hl.expansion := by
  obtain ⟨ranges, nhosts⟩ := hl
  cases ranges with
  | nil => exact .empty rfl rfl
  | cons hr after => exact between_inside _ [] hr after 0 rfl rfl rfl (Nat.zero_le _)

/-- Every host is returned once exactly when each name fits in the buffer and each removal keeps the
place of the iterator. -/
theorem iterateContract_iff (hl : Listed) (chosen : Nat → Bool) :
    IterateContract hl.toHostList chosen ↔
      StepsOk chosen hl.expansion.length 0 (hostlistIteratorCreate hl.toHostList) := by
  have hbetween := between_create hl.toHostList hl.ranges
  have hnhosts : hl.nhosts = BitVec.ofNat 32 hl.expansion.length := by
    rw [hl.nhosts_eq, HostList.expansion, length_expansion hl.ranges]
  constructor
  · rintro ⟨fuel, i, hvisit, hend, hexp, hcount⟩
    refine steps_of_visit hbetween hl.ranges hnhosts hvisit hend ?_
    rw [hexp, hcount]
  · intro hsteps
    have hcount : hl.nhosts = BitVec.ofNat 32 (([] : List (List Char)).length + hl.expansion.length) := by
      rw [hnhosts, List.length_nil, Nat.zero_add]
    obtain ⟨i, hvisit, hend, hexp, hcount'⟩ := visit_ok hbetween hl.ranges hcount hsteps
    refine ⟨_, i, hvisit, hend, hexp, ?_⟩
    rw [hcount', List.length_nil, Nat.zero_add]

/-! ## A host that comes again -/

theorem visit_add {fuel : Nat} {r : List (List Char) × Iter} (h : visit chosen fuel k i = some r)
    (more : Nat) : visit chosen (fuel + more) k i = some r := by
  induction fuel generalizing i k r with
  | zero => cases h
  | succ fuel ih =>
    rw [Nat.add_right_comm, visit_succ]
    rw [visit_succ] at h
    cases hname : (hostlistNext i).1 with
    | none => rwa [hname] at h
    | some name =>
      rw [hname, elim_some] at h
      obtain ⟨r', hr', heq⟩ := Option.map_eq_some_iff.mp h
      rw [elim_some, ih hr', map_some, heq]

/-- `node[1-2],login` -/
def loginLast : Listed where
  hr := [⟨"node".toList, 1, 2, 1, false⟩, HostRange.createSingle "login".toList]
  nhosts := 3
  ranges := by
    refine ⟨?_, by decide⟩
    intro hr hmem
    rcases List.mem_cons.mp hmem with rfl | hmem
    · exact ⟨by decide, by decide⟩
    · rw [List.mem_singleton.mp hmem]
      exact ⟨by decide, by decide⟩
  nhosts_eq := by decide

/-- After `login` is removed, `node2` comes a second time. -/
theorem iterateContract_fails : ¬ IterateContract loginLast.toHostList (fun k => k == 2) := by
  rintro ⟨fuel, i, hvisit, -⟩
  have hrun : (visit (fun k => k == 2) 5 0 (hostlistIteratorCreate loginLast.toHostList)).map
      Prod.fst = some ["node1".toList, "node2".toList, "login".toList, "node2".toList] := by
    decide +kernel
  obtain ⟨r, hr, hnames⟩ := Option.map_eq_some_iff.mp hrun
  have hsame := (visit_add hvisit 5).symm.trans ((Nat.add_comm 5 fuel) ▸ visit_add hr fuel)
  have hfst := congrArg Prod.fst (Option.some.inj hsame)
  have hne : loginLast.expansion
      ≠ ["node1".toList, "node2".toList, "login".toList, "node2".toList] := by
    decide +kernel
  exact hne (hfst.trans hnames)

end Slurm.Hostlist
