import Slurm.Licenses.Backfill

/-!
# Planning licenses as they were tested (`slurmctld/licenses.c`)

`slurm_bf_licenses_avail` tests the licenses of a job on a record of the backfill map,
and `slurm_bf_licenses_deduct` takes them.  `PlanContract` says that after a test that
succeeds the licenses are taken without an error and from the right records: all that
the job asks for, or those of one alternative.  `planContract_iff` gives the condition.

Each loop makes its own choice.  `deductEntry_available` says what is taken for an entry
that is available, `deductEntry_skipped` that an alternative which is not available
leaves the list as it was.  The second has an exception (`stranded`): when there is no
global record, what was taken from the reservation is not given back.
-/

namespace Slurm.Licenses

open Lib.FirstMatch List Option

variable {id : UInt16}

/-! ## Errors -/

/-- The errors that `slurm_bf_licenses_deduct` logs. -/
inductive DeductError where
  /-- `missing license lic_id=%u` -/
  | missing (licId : UInt16)
  /-- `underflow on lic_id=%u` -/
  | underflow (licId : UInt16)
  /-- `No OR'd licenses available for bf plan` -/
  | noneAvailable
  deriving DecidableEq

/-- The errors of the global part for an entry of the job. -/
def globalErrors (e : License) (needed : UInt32) (l : List BfLicense) : List DeductError :=
  match l.find? (isBfRec e.licId) with
  | none => [.missing e.licId]
  | some b => if b.remaining < needed ∧ e.opOr = false then [.underflow b.licId] else []

/-- The errors for an entry of the job. -/
def entryErrors (resv : Option ResvId) (e : License) (l : List BfLicense) : List DeductError :=
  match resvEntry resv e.licId l with
  | none => globalErrors e e.total l
  | some r =>
    if e.total ≤ r.remaining then []
    else
      globalErrors e (e.total - r.remaining)
        (modifyFirst (isBfResv e.licId resv) (·.setRemaining fun _ => 0) l)

section

variable {n : Nat} (nodesOf : NodesOf n)

/-- The errors of the loop of `slurm_bf_licenses_deduct`, from `lic_or`. -/
def deductErrorsLoop (job : BfJob n) : List License → List BfLicense → Bool → List DeductError
  | [], _, licOr => if licOr then [.noneAvailable] else []
  | e :: es, l, licOr =>
    if e.hresId ≠ noVal16 then deductErrorsLoop job es (hresDeduct nodesOf job e l) licOr
    else
      let r := deductEntry job e l
      entryErrors job.resv e l ++ (if r.2 then [] else deductErrorsLoop job es r.1 e.opOr)

/-- The errors of `slurm_bf_licenses_deduct`. -/
def bfLicensesDeductErrors (job : BfJob n) (l : List BfLicense) : List DeductError :=
  match job.licenseList with
  | none => []
  | some es => deductErrorsLoop nodesOf job es l false

end

/-- The job with a list of licenses. -/
def BfJob.asking {n : Nat} (job : BfJob n) (req : Request) : BfJob n :=
  { job with licenseList := some req.entries }

/-! ## The contract -/

/-- What the reservation and the cluster have left of a license together. -/
def planned (resv : Option ResvId) (l : List BfLicense) (id : UInt16) : Nat :=
  ((resvEntry resv id l).map fun b => b.remaining.toNat).getD 0
    + ((l.find? (isBfRec id)).map fun b => b.remaining.toNat).getD 0

/-- The record at a position is the one of the reservation, or the global one. -/
def OwnRecord (resv : Option ResvId) (id : UInt16) (l : List BfLicense) (i : Nat) : Prop :=
  i = l.findIdx (isBfRec id) ∨ resv ≠ none ∧ i = l.findIdx (isBfResv id resv)

/-- The license and the reservation of a record. -/
def BfLicense.key (b : BfLicense) : UInt16 × Option ResvId := (b.licId, b.resv)

/-- Only counters of the records for some licenses change. -/
structure Confined (resv : Option ResvId) (taken : List License) (l l' : List BfLicense) :
    Prop where
  keys : l'.map BfLicense.key = l.map BfLicense.key
  others : ∀ i, (∀ e ∈ taken, ¬ OwnRecord resv e.licId l i) → l'[i]? = l[i]?

/-- The licenses are taken, each in its amount, and nothing else changes. -/
structure Lowered (resv : Option ResvId) (taken : List License) (l l' : List BfLicense) : Prop
    extends Confined resv taken l l' where
  sums : ∀ e ∈ taken, planned resv l' e.licId + e.total.toNat = planned resv l e.licId

/-- What a test that succeeds promises. -/
structure Planned (resv : Option ResvId) (req : Request) (l l' : List BfLicense)
    (errors : List DeductError) : Prop where
  no_underflow : ∀ id, DeductError.underflow id ∉ errors
  found : DeductError.noneAvailable ∉ errors
  all : req.opOr = false → Lowered resv req.entries l l'
  one : req.opOr = true → req.entries ≠ [] → ∃ e ∈ req.entries, Lowered resv [e] l l'

/-- Taking licenses agrees with the test of them, and keeps the records of other
reservations. -/
structure PlanContract {n : Nat} (nodesOf : NodesOf n) (job : BfJob n) (nodes : Option (BitVec n))
    (req : Request) (l : List BfLicense) : Prop where
  agrees : bfLicensesAvail nodesOf (job.asking req) nodes l = true →
    Planned job.resv req l (bfLicensesDeduct nodesOf (job.asking req) l)
      (bfLicensesDeductErrors nodesOf (job.asking req) l)
  others : ∀ (i : Nat) (b : BfLicense), l[i]? = some b → b.resv ≠ none → b.resv ≠ job.resv →
    (bfLicensesDeduct nodesOf (job.asking req) l)[i]? = some b

/-! ## The condition -/

/-- The test of `slurm_bf_licenses_avail` for an entry. -/
def entryAvail (resv : Option ResvId) (l : List BfLicense) (e : License) : Bool :=
  ((resvEntry resv e.licId l).any fun r => decide (e.total ≤ r.remaining)) ||
    !((l.find? (isBfRec e.licId)).all fun b => decide
      (b.remaining < e.total - ((resvEntry resv e.licId l).map BfLicense.remaining).getD 0))

/-- The reservation has some of the license, and there is no global record of it. -/
def stranded (resv : Option ResvId) (l : List BfLicense) (e : License) : Bool :=
  ((resvEntry resv e.licId l).any fun r => decide (r.remaining ≠ 0)) &&
    (l.find? (isBfRec e.licId)).isNone

/-- No alternative before the first that is available is stranded. -/
def GivenBack (resv : Option ResvId) (req : Request) (l : List BfLicense) : Prop :=
  req.opOr = true → req.entries.any (entryAvail resv l) = true →
    ∀ e ∈ req.entries.takeWhile (fun e => !entryAvail resv l e), stranded resv l e = false

/-! ## Changes of few records -/

theorem findIdx_of_keys {l l' : List BfLicense} (h : l'.map BfLicense.key = l.map BfLicense.key)
    (id : UInt16) (resv : Option ResvId) :
    l'.findIdx (isBfResv id resv) = l.findIdx (isBfResv id resv) := by
  have hkey : ∀ m : List BfLicense, m.findIdx (isBfResv id resv)
      = (m.map BfLicense.key).findIdx fun k => decide (k.2 = resv ∧ k.1 = id) := by
    intro m
    rw [findIdx_map]
    rfl
  rw [hkey, hkey, h]

theorem ownRecord_of_keys {resv : Option ResvId} {l l' : List BfLicense}
    (h : l'.map BfLicense.key = l.map BfLicense.key) (id : UInt16) (i : Nat) :
    OwnRecord resv id l' i ↔ OwnRecord resv id l i := by
  unfold OwnRecord
  rw [isBfRec_eq, findIdx_of_keys h, findIdx_of_keys h]

namespace Confined

variable {resv : Option ResvId} {taken : List License} {l l' l'' : List BfLicense}

theorem refl (resv : Option ResvId) (taken : List License) (l : List BfLicense) :
    Confined resv taken l l := ⟨rfl, fun _ _ => rfl⟩

theorem trans (h : Confined resv taken l l') (h' : Confined resv taken l' l'') :
    Confined resv taken l l'' where
  keys := h'.keys.trans h.keys
  others i hi := by
    have hi' : ∀ e ∈ taken, ¬ OwnRecord resv e.licId l' i := fun e he hown =>
      hi e he ((ownRecord_of_keys h.keys e.licId i).mp hown)
    rw [h'.others i hi', h.others i hi]

theorem mono (h : Confined resv taken l l') {taken' : List License} (hsub : taken ⊆ taken') :
    Confined resv taken' l l' := ⟨h.keys, fun i hi => h.others i fun e he => hi e (hsub he)⟩

/-- One change of an own record. -/
theorem modify {e : License} {r : Option ResvId}
    (hr : OwnRecord resv e.licId l (l.findIdx (isBfResv e.licId r))) (f : UInt32 → UInt32) :
    Confined resv [e] l (modifyFirst (isBfResv e.licId r) (·.setRemaining f) l) where
  keys := map_modifyFirst (f := (·.setRemaining f)) (g := BfLicense.key) (fun _ _ => rfl) l
  others i hi := by
    have hne : i ≠ l.findIdx (isBfResv e.licId r) := by
      intro heq
      rw [← heq] at hr
      exact hi e (mem_singleton_self e) hr
    rw [getElem?_modifyFirst, if_neg hne]

/-- Searches for other licenses find what they found. -/
theorem find? (h : Confined resv taken l l') (hid : id ∉ taken.map License.licId)
    (r : Option ResvId) : l'.find? (isBfResv id r) = l.find? (isBfResv id r) := by
  rw [find?_eq_getElem?_findIdx, find?_eq_getElem?_findIdx, findIdx_of_keys h.keys]
  by_cases hlt : l.findIdx (isBfResv id r) < l.length
  · apply h.others
    intro e he hown
    have hfound := isBfResv_iff.mp (findIdx_getElem (w := hlt))
    refine hid (List.mem_map.mpr ⟨e, he, ?_⟩)
    -- The record found there is one of `e` too.
    rcases hown with heq | ⟨-, heq⟩
    · have hlt' : l.findIdx (isBfRec e.licId) < l.length := heq ▸ hlt
      have hown' := isBfResv_iff.mp (findIdx_getElem (w := hlt'))
      simp only [← heq] at hown'
      exact hown'.2.symm.trans hfound.2
    · have hlt' : l.findIdx (isBfResv e.licId resv) < l.length := heq ▸ hlt
      have hown' := isBfResv_iff.mp (findIdx_getElem (w := hlt'))
      simp only [← heq] at hown'
      exact hown'.2.symm.trans hfound.2
  · have hlen : l'.length = l.length := by
      have hmap := congrArg List.length h.keys
      rwa [length_map, length_map] at hmap
    rw [getElem?_eq_none (by omega), getElem?_eq_none (by omega)]

theorem resvEntry (h : Confined resv taken l l') (hid : id ∉ taken.map License.licId)
    (r : Option ResvId) : resvEntry r id l' = resvEntry r id l := by
  cases r with
  | none => rfl
  | some r => exact h.find? hid (some r)

theorem planned (h : Confined resv taken l l') (hid : id ∉ taken.map License.licId) :
    planned resv l' id = planned resv l id := by
  unfold Licenses.planned
  rw [isBfRec_eq, h.resvEntry hid, h.find? hid]

theorem entryAvail (h : Confined resv taken l l') {e : License}
    (hid : e.licId ∉ taken.map License.licId) :
    entryAvail resv l' e = entryAvail resv l e := by
  unfold Licenses.entryAvail
  rw [isBfRec_eq, h.resvEntry hid, h.find? hid]

end Confined

/-- The licenses of one entry are taken, then those of others. -/
theorem Lowered.cons {resv : Option ResvId} {e : License} {es : List License}
    {l l' l'' : List BfLicense} (h : Lowered resv [e] l l') (h' : Lowered resv es l' l'')
    (hids : ((e :: es).map License.licId).Nodup) : Lowered resv (e :: es) l l'' := by
  rw [map_cons, nodup_cons] at hids
  refine ⟨(h.mono (by simp)).trans (h'.mono (by simp)), fun x hx => ?_⟩
  rcases List.mem_cons.mp hx with rfl | hx
  · rw [h'.planned hids.1]
    exact h.sums x (mem_singleton_self x)
  · have hne : x.licId ∉ [e].map License.licId := by
      intro hmem
      rw [map_singleton, mem_singleton] at hmem
      exact hids.1 (hmem ▸ mem_map_of_mem hx)
    rw [h'.sums x hx, h.planned hne]

/-! ## One entry of the job -/

section

variable {n : Nat} (job : BfJob n) (e : License) (l : List BfLicense)

theorem toNat_sub_add {a b : UInt32} (h : b ≤ a) : (a - b).toNat + b.toNat = a.toNat := by
  have hle : b.toNat ≤ a.toNat := UInt32.le_iff_toNat_le.mp h
  rw [UInt32.toNat_sub_of_le _ _ h]
  omega

/-- The record of the reservation is found by the key of the reservation. -/
theorem resvEntry_some {resv : Option ResvId} {r : BfLicense} (h : resvEntry resv id l = some r) :
    resv ≠ none ∧ l.find? (isBfResv id resv) = some r := by
  cases resv with
  | none => cases h
  | some k => exact ⟨some_ne_none k, h⟩

/-- The global record is not the one that a reservation has. -/
theorem isBfRec_of_isBfResv {resv : Option ResvId} (hresv : resv ≠ none) (id id' : UInt16)
    (b : BfLicense) (h : isBfResv id resv b = true) : isBfRec id' b = false := by
  refine Bool.eq_false_iff.mpr fun hrec => hresv ?_
  exact (isBfResv_iff.mp h).1.symm.trans (isBfResv_iff.mp hrec).1

theorem find?_modify_resv {resv : Option ResvId} (hresv : resv ≠ none) (id id' : UInt16)
    (f : UInt32 → UInt32) :
    (modifyFirst (isBfResv id resv) (·.setRemaining f) l).find? (isBfRec id')
      = l.find? (isBfRec id') :=
  find?_modifyFirst_other (f := (·.setRemaining f)) (isBfResv_setRemaining id' none f)
    (isBfRec_of_isBfResv hresv id id') l

theorem resvEntry_modify_rec (resv : Option ResvId) (id id' : UInt16) (f : UInt32 → UInt32) :
    resvEntry resv id' (modifyFirst (isBfRec id) (·.setRemaining f) l) = resvEntry resv id' l := by
  cases resv with
  | none => rfl
  | some k =>
    refine find?_modifyFirst_other (f := (·.setRemaining f)) (isBfResv_setRemaining id' (some k) f)
      (fun b hb => Bool.eq_false_iff.mpr fun hb' => ?_) l
    rw [isBfRec_of_isBfResv (some_ne_none k) id' id b hb'] at hb
    cases hb

theorem resvEntry_modify_resv {resv : Option ResvId} (hresv : resv ≠ none) (id : UInt16)
    (f : UInt32 → UInt32) :
    resvEntry resv id (modifyFirst (isBfResv id resv) (·.setRemaining f) l)
      = (resvEntry resv id l).map (·.setRemaining f) := by
  cases resv with
  | none => exact absurd rfl hresv
  | some k =>
    exact find?_modifyFirst_same (f := (·.setRemaining f)) (isBfResv_setRemaining id (some k) f) l

theorem find?_modify_rec (id : UInt16) (f : UInt32 → UInt32) :
    (modifyFirst (isBfRec id) (·.setRemaining f) l).find? (isBfRec id)
      = (l.find? (isBfRec id)).map (·.setRemaining f) :=
  find?_modifyFirst_same (f := (·.setRemaining f)) (isBfResv_setRemaining id none f) l

theorem confined_rec (resv : Option ResvId) (f : UInt32 → UInt32) :
    Confined resv [e] l (modifyFirst (isBfRec e.licId) (·.setRemaining f) l) :=
  Confined.modify (Or.inl rfl) f

theorem confined_resv {resv : Option ResvId} (hresv : resv ≠ none) (f : UInt32 → UInt32) :
    Confined resv [e] l (modifyFirst (isBfResv e.licId resv) (·.setRemaining f) l) :=
  Confined.modify (Or.inr ⟨hresv, rfl⟩) f

theorem deductGlobal_confined (needed : UInt32) (acquired : Option UInt32)
    (hacquired : acquired ≠ none → job.resv ≠ none) :
    Confined job.resv [e] l (deductGlobal job e needed acquired l).1 := by
  unfold deductGlobal
  cases l.find? (isBfRec e.licId) with
  | none => exact Confined.refl _ _ _
  | some b =>
    dsimp only
    split
    · split
      · cases acquired with
        | none => exact Confined.refl _ _ _
        | some k => exact confined_resv e l (hacquired (some_ne_none k)) _
      · exact confined_rec e l _ _
    · exact confined_rec e l _ _

/-- An entry changes the two records of its license only. -/
theorem deductEntry_confined : Confined job.resv [e] l (deductEntry job e l).1 := by
  unfold deductEntry
  cases hr : resvEntry job.resv e.licId l with
  | none => exact deductGlobal_confined job e l _ _ fun h => absurd rfl h
  | some r =>
    have hresv := (resvEntry_some l hr).1
    dsimp only
    split
    · exact confined_resv e l hresv _
    · exact (confined_resv e l hresv _).trans (deductGlobal_confined job e _ _ _ fun _ => hresv)

/-- What the test needs of the global record. -/
theorem not_all_lt_iff (needed : UInt32) :
    (!((l.find? (isBfRec e.licId)).all fun b => decide (b.remaining < needed))) = true ↔
      ∃ b, l.find? (isBfRec e.licId) = some b ∧ needed ≤ b.remaining := by
  cases l.find? (isBfRec e.licId) with
  | none => simp
  | some b => simp

theorem entryAvail_none_iff {resv : Option ResvId} (hr : resvEntry resv e.licId l = none) :
    entryAvail resv l e = true ↔
      ∃ b, l.find? (isBfRec e.licId) = some b ∧ e.total ≤ b.remaining := by
  rw [← not_all_lt_iff]
  unfold entryAvail
  rw [hr]
  simp

theorem entryAvail_some_iff {resv : Option ResvId} {r : BfLicense}
    (hr : resvEntry resv e.licId l = some r) :
    entryAvail resv l e = true ↔ e.total ≤ r.remaining ∨
      ∃ b, l.find? (isBfRec e.licId) = some b ∧ e.total - r.remaining ≤ b.remaining := by
  rw [← not_all_lt_iff]
  unfold entryAvail
  rw [hr, Bool.or_eq_true, any_some, decide_eq_true_iff, map_some, getD_some]

/-- An entry that is available is taken, without an error. -/
theorem deductEntry_available (h : entryAvail job.resv l e = true) :
    Lowered job.resv [e] l (deductEntry job e l).1 ∧ (deductEntry job e l).2 = e.opOr ∧
      entryErrors job.resv e l = [] := by
  have hsums : planned job.resv (deductEntry job e l).1 e.licId + e.total.toNat
        = planned job.resv l e.licId ∧ (deductEntry job e l).2 = e.opOr ∧
      entryErrors job.resv e l = [] := by
    unfold deductEntry entryErrors planned
    cases hr : resvEntry job.resv e.licId l with
    | none =>
      obtain ⟨b, hb, hle⟩ := (entryAvail_none_iff e l hr).mp h
      have hlt : ¬ b.remaining < e.total := UInt32.not_lt.mpr hle
      have hsub := toNat_sub_add hle
      dsimp only [deductGlobal, globalErrors]
      rw [hb]
      dsimp only
      rw [if_neg hlt, if_neg fun hboth => hlt hboth.1, resvEntry_modify_rec, hr,
        find?_modify_rec, hb]
      refine ⟨?_, rfl, rfl⟩
      simp only [map_some, map_none, getD_some, getD_none,
        BfLicense.setRemaining]
      omega
    | some r =>
      have hresv := (resvEntry_some l hr).1
      dsimp only
      by_cases hle : e.total ≤ r.remaining
      · have hsub := toNat_sub_add hle
        rw [if_pos hle, if_pos hle]
        dsimp only
        rw [resvEntry_modify_resv l hresv, hr, find?_modify_resv l hresv]
        refine ⟨?_, rfl, rfl⟩
        simp only [map_some, getD_some, BfLicense.setRemaining]
        omega
      · have hglobal := (entryAvail_some_iff e l hr).mp h
        obtain ⟨b, hb, hle'⟩ := hglobal.resolve_left hle
        have hlt : ¬ b.remaining < e.total - r.remaining := UInt32.not_lt.mpr hle'
        have hrest := toNat_sub_add (UInt32.le_of_lt (UInt32.not_le.mp hle))
        have hsub := toNat_sub_add hle'
        rw [if_neg hle, if_neg hle]
        dsimp only [deductGlobal, globalErrors]
        rw [find?_modify_resv l hresv, hb]
        dsimp only
        rw [if_neg hlt, if_neg fun hboth => hlt hboth.1, resvEntry_modify_rec,
          resvEntry_modify_resv l hresv, hr, find?_modify_rec, find?_modify_resv l hresv, hb]
        refine ⟨?_, rfl, rfl⟩
        simp only [map_some, getD_some, BfLicense.setRemaining, UInt32.toNat_zero]
        omega
  refine ⟨⟨deductEntry_confined job e l, fun x hx => ?_⟩, hsums.2⟩
  rw [List.mem_singleton.mp hx]
  exact hsums.1

/-- An alternative that is not available leaves the list as it was. -/
theorem deductEntry_skipped (h : entryAvail job.resv l e = false) (hop : e.opOr = true)
    (hs : stranded job.resv l e = false) :
    deductEntry job e l = (l, false) ∧
      ∀ err ∈ entryErrors job.resv e l, err = .missing e.licId := by
  have hnot := Bool.eq_false_iff.mp h
  unfold deductEntry entryErrors
  cases hr : resvEntry job.resv e.licId l with
  | none =>
    rw [Ne, entryAvail_none_iff e l hr] at hnot
    dsimp only [deductGlobal, globalErrors]
    cases hb : l.find? (isBfRec e.licId) with
    | none => exact ⟨rfl, fun err herr => List.mem_singleton.mp herr⟩
    | some b =>
      have hlt : b.remaining < e.total := UInt32.not_le.mp fun hle => hnot ⟨b, hb, hle⟩
      dsimp only
      rw [if_pos hlt, if_pos hop, if_neg fun hboth => Bool.noConfusion (hop.symm.trans hboth.2)]
      exact ⟨rfl, fun err herr => absurd herr not_mem_nil⟩
  | some r =>
    rw [Ne, entryAvail_some_iff e l hr, not_or] at hnot
    obtain ⟨hresv, hfound⟩ := resvEntry_some l hr
    have hback : ∀ k, (k = r.remaining) →
        modifyFirst (isBfResv e.licId job.resv) (·.setRemaining (· + k))
          (modifyFirst (isBfResv e.licId job.resv) (·.setRemaining fun _ => 0) l) = l := by
      rintro _ rfl
      rw [modifyFirst_modifyFirst (isBfResv_setRemaining e.licId job.resv _)]
      refine modifyFirst_eq_self fun b hb => ?_
      obtain rfl := Option.some.inj (hfound.symm.trans hb)
      simp [BfLicense.setRemaining]
    dsimp only
    rw [if_neg hnot.1, if_neg hnot.1]
    dsimp only [deductGlobal, globalErrors]
    rw [find?_modify_resv l hresv]
    cases hb : l.find? (isBfRec e.licId) with
    | none =>
      -- The reservation has none of the license, so that it has none to lose.
      unfold stranded at hs
      rw [hr, hb, any_some, isNone_none, Bool.and_true, decide_eq_false_iff_not,
        not_not] at hs
      refine ⟨?_, fun err herr => List.mem_singleton.mp herr⟩
      rw [modifyFirst_eq_self fun b hb => ?_]
      obtain rfl := Option.some.inj (hfound.symm.trans hb)
      rw [BfLicense.setRemaining, ← hs]
    | some b =>
      have hlt : b.remaining < e.total - r.remaining :=
        UInt32.not_le.mp fun hle => hnot.2 ⟨b, hb, hle⟩
      dsimp only
      rw [if_pos hlt, if_pos hop, if_neg fun hboth => Bool.noConfusion (hop.symm.trans hboth.2),
        hback r.remaining rfl]
      exact ⟨rfl, fun err herr => absurd herr not_mem_nil⟩

/-- A stranded alternative loses what the reservation has of it. -/
theorem deductEntry_stranded (h : entryAvail job.resv l e = false)
    (hs : stranded job.resv l e = true) :
    planned job.resv (deductEntry job e l).1 e.licId = 0 ∧ (deductEntry job e l).2 = false ∧
      0 < planned job.resv l e.licId ∧ planned job.resv l e.licId < e.total.toNat := by
  have hnot := Bool.eq_false_iff.mp h
  unfold stranded at hs
  rw [Bool.and_eq_true, isNone_iff_eq_none] at hs
  obtain ⟨hresv', hnone⟩ := hs
  obtain ⟨r, hr, hne⟩ : ∃ r, resvEntry job.resv e.licId l = some r ∧ r.remaining ≠ 0 := by
    cases hr : resvEntry job.resv e.licId l with
    | none =>
      rw [hr] at hresv'
      cases hresv'
    | some r =>
      rw [hr, any_some] at hresv'
      exact ⟨r, rfl, of_decide_eq_true hresv'⟩
  rw [Ne, entryAvail_some_iff e l hr, not_or] at hnot
  have hresv := (resvEntry_some l hr).1
  have hlt := UInt32.lt_iff_toNat_lt.mp (UInt32.not_le.mp hnot.1)
  have hpos : r.remaining.toNat ≠ 0 := by
    intro h0
    exact hne (UInt32.toNat_inj.mp h0)
  unfold deductEntry planned
  rw [hr]
  dsimp only
  rw [if_neg hnot.1]
  dsimp only [deductGlobal]
  rw [find?_modify_resv l hresv, hnone]
  dsimp only
  rw [find?_modify_resv l hresv, hnone, resvEntry_modify_resv l hresv, hr]
  simp only [map_some, map_none, getD_some, getD_none,
    BfLicense.setRemaining, UInt32.toNat_zero]
  exact ⟨trivial, trivial, by omega, by omega⟩

end

/-! ## The test -/

section

variable {n : Nat} (nodesOf : NodesOf n) (job : BfJob n) (nodes : Option (BitVec n))
  (l : List BfLicense)

theorem availLoop_cons {e : License} (he : e.hresId = noVal16) (es : List License) (avail : Bool) :
    availLoop nodesOf job nodes l (e :: es) avail =
      if entryAvail job.resv l e then
        if e.opOr then true else availLoop nodesOf job nodes l es avail
      else if e.opOr then availLoop nodesOf job nodes l es false else false := by
  conv_lhs => unfold availLoop
  rw [if_neg (not_not.mpr he)]
  unfold entryAvail
  dsimp only
  generalize ((resvEntry job.resv e.licId l).any fun r => decide (e.total ≤ r.remaining)) = enough
  generalize ((l.find? (isBfRec e.licId)).all fun b => decide
    (b.remaining < e.total - ((resvEntry job.resv e.licId l).map BfLicense.remaining).getD 0))
    = short
  cases enough <;> cases short <;> rfl

/-- All of the licenses are asked for. -/
theorem availLoop_all (es : List License) (hes : ∀ e ∈ es, e.hresId = noVal16 ∧ e.opOr = false)
    (h : availLoop nodesOf job nodes l es true = true) :
    ∀ e ∈ es, entryAvail job.resv l e = true := by
  induction es with
  | nil => exact fun e he => absurd he not_mem_nil
  | cons e es ih =>
    obtain ⟨hplain, hop⟩ := hes e mem_cons_self
    rw [availLoop_cons nodesOf job nodes l hplain, hop] at h
    by_cases he : entryAvail job.resv l e = true
    · rw [if_pos he, if_neg Bool.false_ne_true] at h
      intro x hx
      rcases List.mem_cons.mp hx with rfl | hx
      · exact he
      · exact ih (fun y hy => hes y (mem_cons_of_mem e hy)) h x hx
    · rw [if_neg he, if_neg Bool.false_ne_true] at h
      cases h

/-- One of the licenses is enough. -/
theorem availLoop_any (es : List License) (hes : ∀ e ∈ es, e.hresId = noVal16 ∧ e.opOr = true) :
    ∀ avail, availLoop nodesOf job nodes l es avail =
      (es.any (entryAvail job.resv l) || (es.isEmpty && avail)) := by
  induction es with
  | nil => exact fun avail => rfl
  | cons e es ih =>
    intro avail
    obtain ⟨hplain, hop⟩ := hes e mem_cons_self
    have hrest := ih fun x hx => hes x (mem_cons_of_mem e hx)
    rw [availLoop_cons nodesOf job nodes l hplain, hop, if_pos rfl, if_pos rfl, hrest]
    cases hav : entryAvail job.resv l e <;> simp [hav]

end

/-! ## The loop -/

section

variable {n : Nat} (nodesOf : NodesOf n) (job : BfJob n)

theorem deductLoop_cons {e : License} (he : e.hresId = noVal16) (es : List License)
    (l : List BfLicense) :
    deductLoop nodesOf job (e :: es) l =
      if (deductEntry job e l).2 then (deductEntry job e l).1
      else deductLoop nodesOf job es (deductEntry job e l).1 := by
  rw [deductLoop, if_neg (not_not.mpr he)]

theorem deductErrorsLoop_cons {e : License} (he : e.hresId = noVal16) (es : List License)
    (l : List BfLicense) (licOr : Bool) :
    deductErrorsLoop nodesOf job (e :: es) l licOr = entryErrors job.resv e l ++
      (if (deductEntry job e l).2 then []
        else deductErrorsLoop nodesOf job es (deductEntry job e l).1 e.opOr) := by
  rw [deductErrorsLoop, if_neg (not_not.mpr he)]

/-- The loop changes the records of the licenses of the job only. -/
theorem deductLoop_confined (es : List License) (hes : ∀ e ∈ es, e.hresId = noVal16)
    (l : List BfLicense) : Confined job.resv es l (deductLoop nodesOf job es l) := by
  induction es generalizing l with
  | nil => exact Confined.refl _ _ _
  | cons e es ih =>
    have hfirst := (deductEntry_confined job e l).mono
      (cons_subset_cons e (nil_subset es))
    rw [deductLoop_cons nodesOf job (hes e mem_cons_self)]
    split
    · exact hfirst
    · exact hfirst.trans ((ih (fun x hx => hes x (mem_cons_of_mem e hx)) _).mono
        (subset_cons_self e es))

/-- All of the licenses are taken when all are available. -/
theorem deductLoop_all (es : List License) (hes : ∀ e ∈ es, e.hresId = noVal16 ∧ e.opOr = false)
    (hids : (es.map License.licId).Nodup) (l : List BfLicense)
    (h : ∀ e ∈ es, entryAvail job.resv l e = true) :
    Lowered job.resv es l (deductLoop nodesOf job es l) ∧
      deductErrorsLoop nodesOf job es l false = [] := by
  induction es generalizing l with
  | nil => exact ⟨⟨Confined.refl _ _ _, fun e he => absurd he not_mem_nil⟩, rfl⟩
  | cons e es ih =>
    obtain ⟨hplain, hop⟩ := hes e mem_cons_self
    obtain ⟨hlow, hstop, herr⟩ := deductEntry_available job e l (h e mem_cons_self)
    have hnext : ∀ x ∈ es, entryAvail job.resv (deductEntry job e l).1 x = true := by
      intro x hx
      have hne : x.licId ∉ [e].map License.licId := by
        intro hmem
        rw [map_singleton, mem_singleton] at hmem
        rw [map_cons, nodup_cons] at hids
        exact hids.1 (hmem ▸ mem_map_of_mem hx)
      rw [hlow.entryAvail hne]
      exact h x (mem_cons_of_mem e hx)
    obtain ⟨hrest, herrs⟩ := ih (fun x hx => hes x (mem_cons_of_mem e hx))
      (List.nodup_cons.mp hids).2 _ hnext
    rw [deductLoop_cons nodesOf job hplain, deductErrorsLoop_cons nodesOf job hplain, hstop, hop,
      if_neg Bool.false_ne_true, if_neg Bool.false_ne_true, herr, herrs]
    exact ⟨hlow.cons hrest hids, rfl⟩

/-- Alternatives that are not available and not stranded are passed over. -/
theorem deductLoop_skip (before : List License) {e : License} (he : e.hresId = noVal16)
    (es : List License) (l : List BfLicense) (licOr : Bool)
    (hplain : ∀ e ∈ before, e.hresId = noVal16 ∧ e.opOr = true)
    (hskip : ∀ e ∈ before, entryAvail job.resv l e = false ∧ stranded job.resv l e = false) :
    deductLoop nodesOf job (before ++ e :: es) l = deductLoop nodesOf job (e :: es) l ∧
      ∀ err ∈ deductErrorsLoop nodesOf job (before ++ e :: es) l licOr,
        err ∈ deductErrorsLoop nodesOf job (e :: es) l true ∨ ∃ id, err = .missing id := by
  induction before generalizing licOr with
  | nil =>
    refine ⟨rfl, fun err herr => Or.inl ?_⟩
    rw [nil_append] at herr
    rwa [deductErrorsLoop_cons nodesOf job he] at herr ⊢
  | cons x before ih =>
    obtain ⟨hres, hop⟩ := hplain x mem_cons_self
    obtain ⟨hav, hs⟩ := hskip x mem_cons_self
    obtain ⟨hstay, herr⟩ := deductEntry_skipped job x l hav hop hs
    obtain ⟨hloop, herrs⟩ := ih true (fun y hy => hplain y (mem_cons_of_mem x hy))
      (fun y hy => hskip y (mem_cons_of_mem x hy))
    rw [cons_append, deductLoop_cons nodesOf job hres, deductErrorsLoop_cons nodesOf job hres,
      hstay, hop, if_neg Bool.false_ne_true, if_neg Bool.false_ne_true]
    refine ⟨hloop, fun err hmem => ?_⟩
    rcases List.mem_append.mp hmem with hmem | hmem
    · exact Or.inr ⟨_, herr err hmem⟩
    · exact herrs err hmem

end

/-! ## The contract holds when what is taken is given back -/

section

variable {n : Nat} (nodesOf : NodesOf n) (job : BfJob n) (nodes : Option (BitVec n))
  {req : Request} {l : List BfLicense}

theorem Request.hresId_eq (req : Request) {e : License} (he : e ∈ req.entries) :
    e.hresId = noVal16 := (req.plain e he).1

theorem deductErrorsLoop_available {e : License} (he : e.hresId = noVal16) (hop : e.opOr = true)
    (h : entryAvail job.resv l e = true) (es : List License) (licOr : Bool) :
    deductErrorsLoop nodesOf job (e :: es) l licOr = [] := by
  obtain ⟨-, hstop, herr⟩ := deductEntry_available job e l h
  rw [deductErrorsLoop_cons nodesOf job he, herr, hstop, hop, if_pos rfl, append_nil]

/-- Records of other reservations are no own records. -/
theorem others_of_confined {resv : Option ResvId} {taken : List License} {l' : List BfLicense}
    (h : Confined resv taken l l') {i : Nat} {b : BfLicense} (hb : l[i]? = some b)
    (hsome : b.resv ≠ none) (hne : b.resv ≠ resv) : l'[i]? = some b := by
  rw [← hb]
  apply h.others
  rintro e - (rfl | ⟨-, rfl⟩)
  · exact hsome (isBfResv_iff.mp (findIdx_of_getElem?_eq_some hb)).1
  · exact hne (isBfResv_iff.mp (findIdx_of_getElem?_eq_some hb)).1

/-- An alternative that is available is taken, and it only. -/
theorem planned_one (hop : req.opOr = true) (hback : GivenBack job.resv req l)
    (hany : req.entries.any (entryAvail job.resv l) = true) :
    Planned job.resv req l (deductLoop nodesOf job req.entries l)
      (deductErrorsLoop nodesOf job req.entries l false) := by
  have hsafe := hback hop hany
  obtain ⟨before, e, after, hsplit, hav, hbefore, htake⟩ := first_of_any hany
  rw [htake] at hsafe
  have hmem : ∀ x, x ∈ before ∨ x = e → x ∈ req.entries := by
    intro x hx
    rw [hsplit, mem_append, mem_cons]
    exact hx.imp id Or.inl
  have hplain : ∀ x, x ∈ before ∨ x = e → x.hresId = noVal16 ∧ x.opOr = true := fun x hx =>
    ⟨req.hresId_eq (hmem x hx), (req.same_op x (hmem x hx)).trans hop⟩
  obtain ⟨hres, hope⟩ := hplain e (Or.inr rfl)
  obtain ⟨hloop, herrs⟩ := deductLoop_skip nodesOf job before hres after l false
    (fun x hx => hplain x (Or.inl hx)) fun x hx => ⟨hbefore x hx, hsafe x hx⟩
  rw [← hsplit] at hloop herrs
  obtain ⟨hlow, hstop, -⟩ := deductEntry_available job e l hav
  rw [deductLoop_cons nodesOf job hres, hstop, hope, if_pos rfl] at hloop
  rw [deductErrorsLoop_available nodesOf job hres hope hav] at herrs
  refine ⟨fun id herr => ?_, fun herr => ?_, fun hand => ?_, fun _ _ => ?_⟩
  · obtain ⟨id', heq⟩ := (herrs _ herr).resolve_left not_mem_nil
    cases heq
  · obtain ⟨id', heq⟩ := (herrs _ herr).resolve_left not_mem_nil
    cases heq
  · exact Bool.noConfusion (hop.symm.trans hand)
  · rw [hloop]
    exact ⟨e, hmem e (Or.inr rfl), hlow⟩

/-- All are available, and all are taken. -/
theorem planned_all (hop : req.opOr = false)
    (hall : ∀ e ∈ req.entries, entryAvail job.resv l e = true) :
    Planned job.resv req l (deductLoop nodesOf job req.entries l)
      (deductErrorsLoop nodesOf job req.entries l false) := by
  obtain ⟨hlow, herrs⟩ := deductLoop_all nodesOf job req.entries
    (fun e he => ⟨req.hresId_eq he, (req.same_op e he).trans hop⟩) req.ids_nodup l hall
  rw [herrs]
  exact ⟨fun _ => not_mem_nil, not_mem_nil, fun _ => hlow,
    fun h => Bool.noConfusion (hop.symm.trans h)⟩

/-- What the test says, by the operator of the request. -/
theorem bfLicensesAvail_or (hop : req.opOr = true) :
    bfLicensesAvail nodesOf (job.asking req) nodes l = true ↔
      req.entries.any (entryAvail job.resv l) = true ∨ req.entries = [] := by
  show availLoop nodesOf (job.asking req) nodes l req.entries true = true ↔ _
  rw [availLoop_any nodesOf (job.asking req) nodes l req.entries fun e he =>
    ⟨req.hresId_eq he, (req.same_op e he).trans hop⟩, Bool.or_eq_true, Bool.and_true,
    List.isEmpty_iff]
  rfl

theorem bfLicensesAvail_and (hop : req.opOr = false)
    (h : bfLicensesAvail nodesOf (job.asking req) nodes l = true) :
    ∀ e ∈ req.entries, entryAvail job.resv l e = true :=
  availLoop_all nodesOf (job.asking req) nodes l req.entries
    (fun e he => ⟨req.hresId_eq he, (req.same_op e he).trans hop⟩) h

/-- A stranded alternative before the available one is lost, whatever is taken. -/
theorem not_planned_of_stranded {before after : List License} {e : License}
    (hsplit : req.entries = before ++ e :: after) (hop : req.opOr = true)
    (hbefore : ∀ x ∈ before, entryAvail job.resv l x = false ∧ stranded job.resv l x = false)
    (hav : entryAvail job.resv l e = false) (hs : stranded job.resv l e = true)
    {errors : List DeductError} :
    ¬ Planned job.resv req l (deductLoop nodesOf job req.entries l) errors := by
  intro h
  have hmem : ∀ x, x ∈ before ∨ x = e ∨ x ∈ after → x ∈ req.entries := by
    intro x hx
    rwa [hsplit, mem_append, mem_cons]
  have he := hmem e (Or.inr (Or.inl rfl))
  obtain ⟨hzero, hstop, hpos, hlt⟩ := deductEntry_stranded job e l hav hs
  -- After the loop the license has nothing left.
  have hend : planned job.resv (deductLoop nodesOf job req.entries l) e.licId = 0 := by
    have hids := req.ids_nodup
    rw [hsplit, map_append, map_cons, nodup_append, nodup_cons] at hids
    rw [hsplit, (deductLoop_skip nodesOf job before (req.hresId_eq he) after l false
      (fun x hx => ⟨req.hresId_eq (hmem x (Or.inl hx)),
        (req.same_op x (hmem x (Or.inl hx))).trans hop⟩) hbefore).1,
      deductLoop_cons nodesOf job (req.hresId_eq he), hstop, if_neg Bool.false_ne_true,
      (deductLoop_confined nodesOf job after (fun x hx => req.hresId_eq (hmem x
        (Or.inr (Or.inr hx)))) _).planned hids.2.1.1]
    exact hzero
  obtain ⟨x, hx, hlow⟩ := h.one hop (ne_nil_of_mem he)
  by_cases hid : e.licId = x.licId
  · obtain rfl := inj_on_of_nodup_map req.ids_nodup he hx hid
    have hsum := hlow.sums e (mem_singleton_self e)
    omega
  · have hnot : e.licId ∉ [x].map License.licId := by
      rwa [map_singleton, mem_singleton]
    have hsame := hlow.planned hnot
    omega

/-- Licenses are taken as they were tested exactly when no alternative before the first
that is available is stranded. -/
theorem planContract_iff (nodesOf : NodesOf n) (job : BfJob n) (nodes : Option (BitVec n))
    (req : Request) (l : List BfLicense) :
    PlanContract nodesOf job nodes req l ↔ GivenBack job.resv req l := by
  constructor
  · intro h hop hany e he
    by_contra hs
    obtain ⟨before, a, after, hsplit, -, hbefore, htake⟩ := first_of_any hany
    rw [htake] at he
    obtain ⟨before', x, after', rfl, hx, hbefore', -⟩ := first_of_any
      (List.any_eq_true.mpr ⟨e, he, Bool.of_not_eq_false hs⟩)
    rw [List.append_assoc, List.cons_append] at hsplit
    refine not_planned_of_stranded nodesOf (job.asking req) hsplit hop (fun y hy => ⟨?_, hbefore' y hy⟩)
      (hbefore x (by simp)) hx (h.agrees ((bfLicensesAvail_or nodesOf job nodes hop).mpr
        (Or.inl hany)))
    exact hbefore y (List.mem_append_left _ hy)
  · intro h
    refine ⟨fun hav => ?_, fun i b hb hsome hne => ?_⟩
    · cases hop : req.opOr with
      | false => exact planned_all nodesOf (job.asking req) hop (bfLicensesAvail_and nodesOf job
          nodes hop hav)
      | true =>
        rcases (bfLicensesAvail_or nodesOf job nodes hop).mp hav with hany | hnil
        · exact planned_one nodesOf (job.asking req) hop h hany
        · have hnothing : bfLicensesDeductErrors nodesOf (job.asking req) l = [] := by
            show deductErrorsLoop nodesOf (job.asking req) req.entries l false = []
            rw [hnil]
            rfl
          rw [hnothing]
          exact ⟨fun _ => List.not_mem_nil, List.not_mem_nil,
            fun hand => Bool.noConfusion (hop.symm.trans hand), fun _ hne => absurd hnil hne⟩
    · exact others_of_confined (deductLoop_confined nodesOf (job.asking req) req.entries
        (fun e he => req.hresId_eq he) l) hb hsome hne

/-! ## A license that the cluster has no more -/

/-- A request for a license that is not hierarchical. -/
def alternative (id : UInt16) (name : String) (total : UInt32) : License where
  licId := id
  hresId := noVal16
  name := name
  opOr := true
  total := total
  used := 0
  remote := .no
  lastDeficit := 0
  lastConsumed := 0
  lastUpdate := 0
  nodes := none
  mode := 0

/-- `fluent:5|ansys:2` -/
def fluentOrAnsys : Request where
  entries := [alternative 9 "fluent" 5, alternative 1 "ansys" 2]
  opOr := true
  same_op := by decide
  ids_nodup := by decide
  plain := by decide

/-- Reservation 7 holds three licenses of `fluent`, which the cluster list has no more. -/
def fluentRemoved : List BfLicense :=
  [{ licId := 1, hresId := noVal16, remaining := 4, resv := none },
    { licId := 9, hresId := noVal16, remaining := 3, resv := some 7 }]

/-- A job of reservation 7. -/
def jobOfReservation : BfJob 0 :=
  { licenseList := none, resv := some 7, running := false, nodeBitmap := 0 }

/-- Two licenses of `ansys` are taken, and the three of `fluent` are lost. -/
theorem planContract_fails :
    ¬ PlanContract (fun _ => none) jobOfReservation none fluentOrAnsys fluentRemoved := by
  intro h
  obtain ⟨e, he, hlow⟩ := (h.agrees (by decide)).one rfl (by decide)
  rcases List.mem_cons.mp he with rfl | he
  · exact absurd (hlow.sums _ (List.mem_singleton_self _)) (by decide)
  · obtain rfl := List.mem_singleton.mp he
    have hnot : (9 : UInt16) ∉ [alternative 1 "ansys" 2].map License.licId := by decide
    exact absurd (hlow.planned hnot) (by decide)

end

end Slurm.Licenses
