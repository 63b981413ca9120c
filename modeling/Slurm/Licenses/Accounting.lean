import Slurm.Licenses.Model

/-!
# License accounting along a run

The first part is about the entries of one id (`sumFor`), then about what charging and
returning a list of entries does to the cluster list.

* `foldl_charge`: what a list of entries charges, by id.
* `jobGetLoop_and`, `jobGetLoop_or` and `jobGetLoop_or_none`: the loop of
  `license_job_get` for all of the licenses and for one of them; `licenseJobGet_and`,
  `licenseJobGet_or` and `licenseJobGet_or_none` are the calls.
* `jobReturnLoop_spec`: a return of no more than is used.
-/

namespace Slurm.Licenses

open Lib.FirstMatch List

variable {id : UInt16} {e m : License} {l es cluster : List License} {req : Request}

/-! ## Entries by id -/

theorem isRec_iff : isRec id e = true ↔ e.licId = id :=
  decide_eq_true_iff

theorem findById_licId (h : findById l id = some m) :
    m.licId = id := isRec_iff.mp (find?_some h)

/-- With distinct ids every entry is the one that is found. -/
theorem findById_of_mem (hids : (l.map License.licId).Nodup) (h : m ∈ l) :
    findById l m.licId = some m := by
  cases hfind : findById l m.licId with
  | none => exact absurd (isRec_iff.mpr rfl) (List.find?_eq_none.mp hfind m h)
  | some m' =>
    have hmem := mem_of_find?_eq_some hfind
    rw [inj_on_of_nodup_map hids hmem h (findById_licId hfind)]

/-- With distinct ids the first entry of an id is the only one. -/
theorem modifyFirst_isRec (hids : (l.map License.licId).Nodup) (k : UInt16)
    (f : License → License) :
    modifyFirst (isRec k) f l = l.map fun m => if m.licId = k then f m else m := by
  induction l with
  | nil => rfl
  | cons x xs ih =>
    rw [map_cons, nodup_cons] at hids
    rw [modifyFirst, map_cons]
    by_cases hk : x.licId = k
    · have hrest : xs.map (fun m => if m.licId = k then f m else m) = xs := by
        refine (map_congr_left fun m hm => ?_).trans xs.map_id
        exact if_neg fun heq => hids.1 (List.mem_map.mpr ⟨m, hm, heq.trans hk.symm⟩)
      rw [if_pos (isRec_iff.mpr hk), if_pos hk, hrest]
    · rw [if_neg fun h => hk (isRec_iff.mp h), if_neg hk, ih hids.2]

/-- The licenses of an id among some entries. -/
def sumFor (es : List License) (id : UInt16) : Nat :=
  (es.map fun e => if e.licId = id then e.total.toNat else 0).sum

theorem sumFor_cons (e : License) (es : List License) (id : UInt16) :
    sumFor (e :: es) id = (if e.licId = id then e.total.toNat else 0) + sumFor es id :=
  sum_cons

theorem sumFor_append (es es' : List License) (id : UInt16) :
    sumFor (es ++ es') id = sumFor es id + sumFor es' id := by
  rw [sumFor, map_append, sum_append]
  rfl

theorem sumFor_eq_zero (h : ∀ e ∈ es, e.licId ≠ id) : sumFor es id = 0 := by
  induction es with
  | nil => rfl
  | cons e es ih =>
    rw [sumFor_cons, if_neg (h e mem_cons_self), ih fun x hx => h x (mem_cons_of_mem _ hx)]

/-- With distinct ids an entry is all there is of its id. -/
theorem sumFor_of_mem (hids : (es.map License.licId).Nodup) (h : e ∈ es) :
    sumFor es e.licId = e.total.toNat := by
  induction es with
  | nil => exact absurd h not_mem_nil
  | cons x xs ih =>
    rw [map_cons, nodup_cons] at hids
    rw [sumFor_cons]
    rcases List.mem_cons.mp h with rfl | h
    · rw [if_pos rfl, sumFor_eq_zero fun y hy heq => hids.1 (List.mem_map.mpr ⟨y, hy, heq⟩),
        Nat.add_zero]
    · rw [if_neg fun heq => hids.1 (List.mem_map.mpr ⟨e, h, heq.symm⟩), ih hids.2 h, Nat.zero_add]

/-! ## Charging -/

theorem charge_licId (cluster : List License) (e : License) :
    (charge cluster e).map License.licId = cluster.map License.licId := by
  rw [charge]
  apply map_modifyFirst
  exact fun _ _ => rfl

/-- An entry of the cluster list after some entries were charged to it. -/
def chargeAll (es : List License) (m : License) : License :=
  { m with used := UInt32.ofNat (m.used.toNat + sumFor es m.licId) }

theorem chargeAll_used (es : List License) (m : License) :
    (chargeAll es m).used.toNat = (m.used.toNat + sumFor es m.licId) % 2 ^ 32 := rfl

/-- Charging one entry after another. -/
theorem foldl_charge (es : List License) (hids : (cluster.map License.licId).Nodup) :
    es.foldl charge cluster = cluster.map (chargeAll es) := by
  induction es generalizing cluster with
  | nil =>
    refine ((map_congr_left fun m _ => ?_).trans cluster.map_id).symm
    rw [chargeAll, sumFor, map_nil, sum_nil, Nat.add_zero, UInt32.ofNat_toNat]
    rfl
  | cons e es ih =>
    have hids' : ((charge cluster e).map License.licId).Nodup := by
      rw [charge_licId]
      exact hids
    rw [foldl_cons, ih hids', charge, modifyFirst_isRec hids, map_map]
    refine map_congr_left fun m _ => ?_
    rw [Function.comp_apply, chargeAll, chargeAll, sumFor_cons]
    by_cases hid : m.licId = e.licId
    · rw [if_pos hid, if_pos hid.symm]
      congr 1
      apply UInt32.toNat.inj
      simp only [UInt32.toNat_ofNat', UInt32.toNat_add]
      omega
    · rw [if_neg hid, if_neg fun heq => hid heq.symm, Nat.zero_add]

/-- What the sufficiency test means when its sum does not wrap. -/
theorem total_of_sufficient {resv : UInt32}
    (hfits : e.total.toNat + m.used.toNat + m.lastDeficit.toNat + resv.toNat < 2 ^ 32)
    (h : sufficientLicenses e m resv = true) :
    e.total.toNat + m.used.toNat + m.lastDeficit.toNat + resv.toNat ≤ m.total.toNat := by
  unfold sufficientLicenses at h
  split at h
  · rename_i hinf
    rw [hinf, show infinite.toNat = 2 ^ 32 - 1 from rfl]
    omega
  · have hle := UInt32.le_iff_toNat_le.mp (of_decide_eq_true h)
    simp only [UInt32.toNat_add] at hle
    omega

/-! ## The loop of `license_job_get` -/

/-- A license of the list is there and not short. -/
def usable (cluster : List License) (resv : Reserved) (e : License) : Bool :=
  match findById cluster e.licId with
  | some m => sufficientLicenses e m (resv m.licId)
  | none => false

/-- A license of the list is there. -/
def known (cluster : List License) (e : License) : Bool := (findById cluster e.licId).isSome

/-- The entry of a job after it was charged. -/
def chargedEntry (e : License) : License := { e with used := e.used + e.total }

theorem known_iff : known cluster e = true ↔ e.licId ∈ cluster.map License.licId := by
  rw [known, findById, find?_isSome, mem_map]
  simp only [isRec_iff]

theorem known_charge (cluster : List License) (e x : License) :
    known (charge cluster e) x = known cluster x := by
  rw [Bool.eq_iff_iff, known_iff, known_iff, charge_licId]

/-- All of the licenses, each of which is there. -/
theorem jobGetLoop_and (resv : Reserved) (cluster : List License) (rc : Rc) {licOr : Bool}
    (hlic : licOr = false) (hop : ∀ e ∈ es, e.opOr = false)
    (hknown : ∀ e ∈ es, known cluster e = true) :
    jobGetLoop resv cluster es rc licOr =
      { cluster := es.foldl charge cluster
        entries := es.map chargedEntry
        rc := rc
        licOr := false
        licenseEntry := none } := by
  induction es generalizing cluster licOr with
  | nil =>
    subst hlic
    rfl
  | cons e es ih =>
    have hand := hop e mem_cons_self
    obtain ⟨m, hm⟩ := Option.isSome_iff_exists.mp (hknown e mem_cons_self)
    rw [jobGetLoop, hm, hand]
    simp only [Bool.false_and, Bool.false_eq_true, if_false]
    rw [ih (charge cluster e) rfl (fun x hx => hop x (mem_cons_of_mem _ hx)) fun x hx => by
      rw [known_charge]
      exact hknown x (mem_cons_of_mem _ hx), map_cons, chargedEntry, hand]
    rfl

/-- An alternative that is not taken. -/
theorem jobGetLoop_skip (resv : Reserved) (cluster : List License) (hop : e.opOr = true)
    (huse : usable cluster resv e = false) (es : List License) (rc : Rc) (licOr : Bool) :
    jobGetLoop resv cluster (e :: es) rc licOr =
      let rest := jobGetLoop resv cluster es (if known cluster e then rc else .error) true
      { rest with entries := e :: rest.entries } := by
  rw [jobGetLoop, known]
  rw [usable] at huse
  cases hfind : findById cluster e.licId with
  | none =>
    rw [hop]
    rfl
  | some m =>
    rw [hfind] at huse
    simp only [hop, huse, Bool.not_false, Bool.and_self, if_true, Option.isSome_some]

/-- One of the licenses, none of which is usable. -/
theorem jobGetLoop_or_none (resv : Reserved) (cluster : List License) (rc : Rc) (licOr : Bool)
    (hop : ∀ e ∈ es, e.opOr = true) (huse : ∀ e ∈ es, usable cluster resv e = false) :
    jobGetLoop resv cluster es rc licOr =
      { cluster := cluster
        entries := es
        rc := if es.all (known cluster) then rc else .error
        licOr := licOr || !es.isEmpty
        licenseEntry := none } := by
  induction es generalizing rc licOr with
  | nil =>
    rw [jobGetLoop]
    simp
  | cons e es ih =>
    rw [jobGetLoop_skip resv cluster (hop e mem_cons_self) (huse e mem_cons_self),
      ih _ true (fun x hx => hop x (mem_cons_of_mem _ hx)) fun x hx =>
        huse x (mem_cons_of_mem _ hx), all_cons]
    cases known cluster e <;> simp

/-- One of the licenses: the first one that is usable. -/
theorem jobGetLoop_or (resv : Reserved) {before : List License} (after : List License)
    (cluster : List License) (rc : Rc) (licOr : Bool) (hop : ∀ x ∈ before, x.opOr = true)
    (hope : e.opOr = true) (huse : ∀ x ∈ before, usable cluster resv x = false)
    (husee : usable cluster resv e = true) :
    jobGetLoop resv cluster (before ++ e :: after) rc licOr =
      { cluster := charge cluster e
        entries := before ++ chargedEntry e :: after
        rc := if before.all (known cluster) then rc else .error
        licOr := true
        licenseEntry := some (chargedEntry e) } := by
  induction before generalizing rc licOr with
  | nil =>
    rw [usable] at husee
    rw [nil_append, jobGetLoop]
    cases hfind : findById cluster e.licId with
    | none =>
      rw [hfind] at husee
      cases husee
    | some m =>
      rw [hfind] at husee
      simp only [hope, husee, Bool.not_true, Bool.and_false, Bool.false_eq_true, if_false, if_true]
      rw [chargedEntry, hope]
      rfl
  | cons x xs ih =>
    rw [cons_append,
      jobGetLoop_skip resv cluster (hop x mem_cons_self) (huse x mem_cons_self),
      ih _ true (fun y hy => hop y (mem_cons_of_mem _ hy)) fun y hy =>
        huse y (mem_cons_of_mem _ hy), all_cons]
    cases known cluster x <;> simp

/-! ## The calls -/

/-- `license_job_get` for all of the licenses. -/
theorem licenseJobGet_and (cluster : List License) (got : Reserved) (hand : req.opOr = false)
    (hknown : ∀ e ∈ req.entries, known cluster e = true) :
    licenseJobGet cluster got req =
      { cluster := req.entries.foldl charge cluster
        entries := req.entries.map chargedEntry
        rc := .success } := by
  have hop : ∀ e ∈ req.entries, e.opOr = false := fun e he => (req.same_op e he).trans hand
  rw [licenseJobGet, jobGetLoop_and got cluster .success rfl hop hknown]
  rfl

/-- `license_job_get` for one of the licenses, when there is one. -/
theorem licenseJobGet_or {got : Reserved} (hor : req.opOr = true) {before : List License}
    {after : List License} (hreq : req.entries = before ++ e :: after)
    (huse : ∀ x ∈ before, usable cluster got x = false) (husee : usable cluster got e = true) :
    (licenseJobGet cluster got req).cluster = charge cluster e ∧
      ((licenseJobGet cluster got req).rc = .success ↔ ∀ x ∈ before, known cluster x = true) ∧
      ((licenseJobGet cluster got req).rc = .success →
        (licenseJobGet cluster got req).entries = [chargedEntry e]) := by
  have hop : ∀ x ∈ before ++ e :: after, x.opOr = true := fun x hx =>
    (req.same_op x (hreq ▸ hx)).trans hor
  have hloop := jobGetLoop_or got after cluster .success false
    (fun x hx => hop x (mem_append_left _ hx))
    (hop e (mem_append_right _ mem_cons_self)) huse husee
  rw [licenseJobGet, hreq, hloop]
  cases hall : before.all (known cluster) with
  | false =>
    have hnot : ¬ ∀ x ∈ before, known cluster x = true := fun h => by
      rw [List.all_eq_true.mpr h] at hall
      cases hall
    simp only [Bool.false_eq_true, if_false, reduceCtorEq, hnot, false_implies, and_self]
  | true =>
    have hfilter : (before ++ chargedEntry e :: after).filter (isRec (chargedEntry e).licId)
        = [chargedEntry e] := by
      have hids := req.ids_nodup
      rw [hreq, map_append, map_cons, nodup_append, nodup_cons] at hids
      obtain ⟨-, ⟨hafter, -⟩, hbefore⟩ := hids
      have hnone : ∀ x ∈ before, ¬ isRec (chargedEntry e).licId x = true := fun x hx heq =>
        hbefore x.licId (mem_map_of_mem hx) e.licId mem_cons_self (isRec_iff.mp heq)
      have hnone' : ∀ x ∈ after, ¬ isRec (chargedEntry e).licId x = true := fun x hx heq =>
        hafter (List.mem_map.mpr ⟨x, hx, isRec_iff.mp heq⟩)
      rw [filter_append, filter_cons_of_pos (isRec_iff.mpr rfl),
        List.filter_eq_nil_iff.mpr hnone, List.filter_eq_nil_iff.mpr hnone', nil_append]
    simp only [if_true, setLicensesAlloc, hfilter, true_iff, forall_const, true_and, and_true]
    exact List.all_eq_true.mp hall

/-- `license_job_get` for one of the licenses, when there is none. -/
theorem licenseJobGet_or_none {got : Reserved} (hor : req.opOr = true)
    (huse : ∀ e ∈ req.entries, usable cluster got e = false) :
    (licenseJobGet cluster got req).cluster = cluster ∧
      ((licenseJobGet cluster got req).rc = .success →
        (licenseJobGet cluster got req).entries = []) := by
  have hop : ∀ e ∈ req.entries, e.opOr = true := fun e he => (req.same_op e he).trans hor
  rw [licenseJobGet, jobGetLoop_or_none got cluster .success false hop huse]
  cases req.entries.all (known cluster) with
  | false => exact ⟨rfl, fun h => Rc.noConfusion h⟩
  | true =>
    cases hes : req.entries with
    | nil => exact ⟨rfl, fun _ => rfl⟩
    | cons e es => exact ⟨rfl, fun h => Rc.noConfusion h⟩

/-- The first usable alternative, if there is one. -/
theorem usable_split (cluster : List License) (got : Reserved) (es : List License) :
    (∀ e ∈ es, usable cluster got e = false) ∨
      ∃ before e after, es = before ++ e :: after ∧
        (∀ x ∈ before, usable cluster got x = false) ∧ usable cluster got e = true := by
  cases hfind : es.find? (usable cluster got) with
  | none =>
    exact Or.inl fun e he => Bool.eq_false_iff.mpr (List.find?_eq_none.mp hfind e he)
  | some e =>
    obtain ⟨huse, before, after, hes, hbefore⟩ := List.find?_eq_some_iff_append.mp hfind
    refine Or.inr ⟨before, e, after, hes, fun x hx => ?_, huse⟩
    simpa only [Bool.not_eq_true'] using hbefore x hx

/-- A successful test for all of the licenses saw enough of each. -/
theorem sufficient_of_jobTestLoop {resv : Reserved} {rc : Rc} (hop : ∀ e ∈ es, e.opOr = false)
    (h : jobTestLoop cluster resv es rc = .success) :
    rc = .success ∧ ∀ e ∈ es, ∃ m, findById cluster e.licId = some m ∧
      sufficientLicenses e m (resv e.licId) = true := by
  induction es generalizing rc with
  | nil => exact ⟨h, fun e he => absurd he not_mem_nil⟩
  | cons e es ih =>
    have hop' := fun x hx => hop x (mem_cons_of_mem _ hx)
    rw [jobTestLoop] at h
    cases hfind : findById cluster e.licId with
    | none =>
      rw [hfind] at h
      cases h
    | some m =>
      rw [hfind] at h
      simp only [hop e mem_cons_self, Bool.false_eq_true, if_false] at h
      split at h
      · cases h
      · split at h
        · cases (ih hop' h).1
        · split at h
          · cases (ih hop' h).1
          · rename_i hsuff
            obtain ⟨hrc, hrest⟩ := ih hop' h
            refine ⟨hrc, fun x hx => ?_⟩
            rcases List.mem_cons.mp hx with rfl | hx
            · exact ⟨m, hfind, Bool.eq_true_of_not_eq_false hsuff⟩
            · exact hrest x hx

/-! ## Return -/

/-- An entry of the cluster list after some entries were returned to it. -/
def dischargeAll (es : List License) (m : License) : License :=
  { m with used := UInt32.ofNat (m.used.toNat - sumFor es m.licId) }

theorem dischargeAll_used (es : List License) (m : License) :
    (dischargeAll es m).used.toNat = m.used.toNat - sumFor es m.licId := by
  have hlt := m.used.toNat_lt
  rw [dischargeAll, UInt32.toNat_ofNat']
  omega

/-- A return of no more than is used does not underflow. -/
theorem jobReturnLoop_spec (es : List License) (hids : (cluster.map License.licId).Nodup)
    (hfits : ∀ m ∈ cluster, sumFor es m.licId ≤ m.used.toNat) :
    jobReturnLoop cluster es = (cluster.map (dischargeAll es), false) := by
  induction es generalizing cluster with
  | nil =>
    have hid : cluster.map (dischargeAll []) = cluster := by
      refine (map_congr_left fun m _ => ?_).trans cluster.map_id
      rw [dischargeAll, sumFor, map_nil, sum_nil, Nat.sub_zero, UInt32.ofNat_toNat]
      rfl
    rw [jobReturnLoop, hid]
  | cons e es ih =>
    have hsum : ∀ m : License, m.licId = e.licId →
        sumFor (e :: es) m.licId = e.total.toNat + sumFor es m.licId := fun m hm => by
      rw [sumFor_cons, if_pos hm.symm]
    have hskip : ∀ m : License, m.licId ≠ e.licId → sumFor (e :: es) m.licId = sumFor es m.licId :=
      fun m hm => by rw [sumFor_cons, if_neg fun heq => hm heq.symm, Nat.zero_add]
    have hdischarge : ∀ m ∈ cluster, m.licId = e.licId →
        (discharge e m).used.toNat = m.used.toNat - e.total.toNat := by
      intro m hm hid
      have hle := hfits m hm
      rw [hsum m hid] at hle
      have hle' : e.total ≤ m.used := UInt32.le_iff_toNat_le.mpr (by omega)
      rw [discharge, if_pos hle', UInt32.toNat_sub_of_le _ _ hle']
    have hmap := modifyFirst_isRec hids e.licId (discharge e)
    have hnext : jobReturnLoop (modifyFirst (isRec e.licId) (discharge e) cluster) es
        = (cluster.map (dischargeAll (e :: es)), false) := by
      rw [ih]
      · rw [hmap, map_map]
        refine congrArg (·, false) (map_congr_left fun m hm => ?_)
        rw [Function.comp_apply]
        by_cases hid : m.licId = e.licId
        · rw [if_pos hid, dischargeAll, hdischarge m hm hid, dischargeAll, hsum m hid,
            Nat.sub_sub]
          rfl
        · rw [if_neg hid, dischargeAll, dischargeAll, hskip m hid]
      · have hkeep : ∀ m, (discharge e m).licId = m.licId := fun _ => rfl
        rw [map_modifyFirst fun m _ => hkeep m]
        exact hids
      · intro m' hm'
        rw [hmap] at hm'
        obtain ⟨m, hm, rfl⟩ := List.mem_map.mp hm'
        have hle := hfits m hm
        by_cases hid : m.licId = e.licId
        · rw [hsum m hid] at hle
          rw [if_pos hid, hdischarge m hm hid]
          change sumFor es m.licId ≤ _
          omega
        · rw [hskip m hid] at hle
          rw [if_neg hid]
          exact hle
    rw [jobReturnLoop, hnext]
    cases hfind : findById cluster e.licId with
    | none => rfl
    | some m =>
      have hle := hfits m (mem_of_find?_eq_some hfind)
      rw [hsum m (findById_licId hfind)] at hle
      have hnot : ¬ m.used < e.total := fun h => by
        have := UInt32.lt_iff_toNat_lt.mp h
        omega
      simp only [hnot, decide_false, Bool.or_self]

end Slurm.Licenses
