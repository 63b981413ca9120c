import Slurm.Licenses.Model

/-!
# Licenses of the backfill map (`slurmctld/licenses.c`)

`slurm_bf_licenses_deduct`, `_transfer`, `_avail` and `_equal`, on the license list of
one record of the backfill map.  An entry with a reservation holds what was transferred
to it.  Hierarchical licenses are those with an `hres_id`; where their nodes are is read
from the cluster list (`NodesOf`).

`int needed` is compared with and subtracted from unsigned counters only, so it is
unsigned here.
-/

namespace Slurm.Licenses

open Lib.FirstMatch (modifyFirst)

/-- A reservation. -/
abbrev ResvId := Nat

/-- `bf_license_t` -/
structure BfLicense where
  licId : UInt16
  hresId : UInt16
  remaining : UInt32
  resv : Option ResvId
  deriving DecidableEq

/-- What the backfill map reads of a job. -/
structure BfJob (n : Nat) where
  /-- `license_list` -/
  licenseList : Option (List License)
  /-- `resv_ptr` -/
  resv : Option ResvId
  /-- `IS_JOB_RUNNING` -/
  running : Bool
  nodeBitmap : BitVec n

/-- An entry of the cluster list with its nodes. -/
structure HresRec (n : Nat) where
  nodeBitmap : BitVec n
  mode : UInt8

/-- What `_license_find_rec_by_id` finds in the cluster list. -/
abbrev NodesOf (n : Nat) := UInt16 → Option (HresRec n)

/-- `HRES_MODE_1` -/
def hresMode1 : UInt8 := 1

/-- `HRES_MODE_2` -/
def hresMode2 : UInt8 := 2

/-- `_bf_licenses_find_rec` -/
def isBfRec (id : UInt16) (b : BfLicense) : Bool := decide (b.resv = none ∧ b.licId = id)

/-- `_bf_licenses_find_resv` -/
def isBfResv (id : UInt16) (resv : Option ResvId) (b : BfLicense) : Bool :=
  decide (b.resv = resv ∧ b.licId = id)

/-- `remaining` is changed. -/
def BfLicense.setRemaining (f : UInt32 → UInt32) (b : BfLicense) : BfLicense :=
  { b with remaining := f b.remaining }

/-- The entry of the job's reservation. -/
def resvEntry (resv : Option ResvId) (id : UInt16) (l : List BfLicense) : Option BfLicense :=
  match resv with
  | some r => l.find? (isBfResv id (some r))
  | none => none

/-! ## Hierarchical licenses -/

section

variable {n : Nat} (nodesOf : NodesOf n)

/-- The entry is not one of another reservation. -/
def BfLicense.visible (resv : Option ResvId) (b : BfLicense) : Bool :=
  decide (b.resv = none ∨ resv = b.resv)

/-- `_foreach_hres_deduct`: the entry after it, and whether the walk stops there. -/
def foreachHresDeduct (job : BfJob n) (e : License) (b : BfLicense) : BfLicense × Bool :=
  if b.hresId ≠ e.hresId ∨ (e.mode = hresMode1 ∧ job.running = true ∧ b.licId ≠ e.licId) then
    (b, false)
  else if b.visible job.resv = false then (b, false)
  else
    match nodesOf b.licId with
    | none => (b, false)
    | some m =>
      if m.nodeBitmap &&& job.nodeBitmap = 0 then (b, false)
      else
        (b.setRemaining fun r => if r = infinite then r else if r < e.total then 0 else r - e.total,
          decide (m.mode = hresMode1))

/-- `list_for_each_ro` with `_foreach_hres_deduct`. -/
def hresDeduct (job : BfJob n) (e : License) : List BfLicense → List BfLicense
  | [] => []
  | b :: l =>
    let r := foreachHresDeduct nodesOf job e b
    r.1 :: (if r.2 then l else hresDeduct job e l)

/-- `_foreach_bf_hres_filter_mode1`, over the list of the record. -/
def hresMask1 (job : BfJob n) (e : License) (mask : BitVec n) (l : List BfLicense) : BitVec n :=
  l.foldl (fun mask b =>
    if b.hresId = e.hresId ∧ b.visible job.resv = true ∧ e.total ≤ b.remaining then
      match nodesOf b.licId with
      | none => mask
      | some m => mask ||| m.nodeBitmap
    else mask) mask

/-- `_foreach_bf_hres_filter_mode2`, over the list of the record. -/
def hresMask2 (job : BfJob n) (e : License) (mask : BitVec n) (l : List BfLicense) : BitVec n :=
  l.foldl (fun mask b =>
    if b.hresId = e.hresId ∧ b.visible job.resv = true ∧ b.remaining < e.total then
      match nodesOf b.licId with
      | none => mask
      | some m => mask &&& ~~~m.nodeBitmap
    else mask) mask

/-- `slurm_bf_hres_filter`, over the list `es` of the job. -/
def hresFilter (job : BfJob n) (l : List BfLicense) (es : List License) (nodes : BitVec n) :
    BitVec n :=
  es.foldl (fun nodes e =>
    if e.hresId = noVal16 then nodes
    else
      let mask := hresMask1 nodesOf job e 0 l
      nodes &&& (if e.mode = hresMode2 then hresMask2 nodesOf job e mask l else mask)) nodes

/-! ## Deduct -/

/-- The global part of `slurm_bf_licenses_deduct` for an entry of the job, of which
`acquired` licenses came from the reservation.  The second result is whether the loop
is left. -/
def deductGlobal (job : BfJob n) (e : License) (needed : UInt32) (acquired : Option UInt32)
    (l : List BfLicense) : List BfLicense × Bool :=
  match l.find? (isBfRec e.licId) with
  | none => (l, false)
  | some b =>
    if b.remaining < needed then
      if e.opOr then
        match acquired with
        | none => (l, false)
        | some k => (modifyFirst (isBfResv e.licId job.resv) (·.setRemaining (· + k)) l, false)
      else (modifyFirst (isBfRec e.licId) (·.setRemaining fun _ => 0) l, false)
    else (modifyFirst (isBfRec e.licId) (·.setRemaining (· - needed)) l, e.opOr)

/-- One entry of the job, from its reservation first. -/
def deductEntry (job : BfJob n) (e : License) (l : List BfLicense) : List BfLicense × Bool :=
  match resvEntry job.resv e.licId l with
  | none => deductGlobal job e e.total none l
  | some r =>
    if e.total ≤ r.remaining then
      (modifyFirst (isBfResv e.licId job.resv) (·.setRemaining (· - e.total)) l, e.opOr)
    else
      deductGlobal job e (e.total - r.remaining) (some r.remaining)
        (modifyFirst (isBfResv e.licId job.resv) (·.setRemaining fun _ => 0) l)

/-- The loop of `slurm_bf_licenses_deduct`. -/
def deductLoop (job : BfJob n) : List License → List BfLicense → List BfLicense
  | [], l => l
  | e :: es, l =>
    if e.hresId ≠ noVal16 then deductLoop job es (hresDeduct nodesOf job e l)
    else
      let r := deductEntry job e l
      if r.2 then r.1 else deductLoop job es r.1

/-- `slurm_bf_licenses_deduct` -/
def bfLicensesDeduct (job : BfJob n) (l : List BfLicense) : List BfLicense :=
  match job.licenseList with
  | none => l
  | some es => deductLoop nodesOf job es l

/-! ## Transfer -/

/-- One entry of the reservation. -/
def transferEntry (resv : Option ResvId) (e : License) (l : List BfLicense) : List BfLicense :=
  let reserved (remaining : UInt32) : BfLicense :=
    { licId := e.licId, hresId := e.hresId, remaining := remaining, resv := resv }
  match l.find? (isBfRec e.licId) with
  | none => l ++ [reserved e.total]
  | some b =>
    if b.remaining < e.total then
      modifyFirst (isBfRec e.licId) (·.setRemaining fun _ => 0) l ++ [reserved b.remaining]
    else modifyFirst (isBfRec e.licId) (·.setRemaining (· - e.total)) l ++ [reserved e.total]

/-- `slurm_bf_licenses_transfer` -/
def bfLicensesTransfer (job : BfJob n) (l : List BfLicense) : List BfLicense :=
  match job.licenseList with
  | none => l
  | some es => es.foldl (fun l e => transferEntry job.resv e l) l

/-! ## Avail -/

/-- The loop of `slurm_bf_licenses_avail`. -/
def availLoop (job : BfJob n) (nodes : Option (BitVec n)) (l : List BfLicense) :
    List License → Bool → Bool
  | [], avail => avail
  | e :: es, avail =>
    if e.hresId ≠ noVal16 then
      match nodes with
      | none => availLoop job nodes l es avail
      | some bitmap =>
        if hresFilter nodesOf job l (job.licenseList.getD []) bitmap = bitmap then
          availLoop job nodes l es avail
        else false
    else
      let resv := resvEntry job.resv e.licId l
      if (resv.any fun r => decide (e.total ≤ r.remaining)) then
        if e.opOr then true else availLoop job nodes l es avail
      else
        let needed := e.total - (resv.map BfLicense.remaining).getD 0
        if ((l.find? (isBfRec e.licId)).all fun b => decide (b.remaining < needed)) then
          if e.opOr then availLoop job nodes l es false else false
        else if e.opOr then true
        else availLoop job nodes l es avail

/-- `slurm_bf_licenses_avail` -/
def bfLicensesAvail (job : BfJob n) (nodes : Option (BitVec n)) (l : List BfLicense) : Bool :=
  match job.licenseList with
  | none => true
  | some es => availLoop nodesOf job nodes l es true

end

/-! ## Equal -/

/-- `_bf_licenses_find_difference` -/
def differsIn (b : List BfLicense) (x : BfLicense) : Bool :=
  match b.find? (isBfResv x.licId x.resv) with
  | none => true
  | some y => decide (x.remaining ≠ y.remaining)

/-- `slurm_bf_licenses_equal` -/
def bfLicensesEqual (a b : List BfLicense) : Bool := (a.find? (differsIn b)).isNone

end Slurm.Licenses

/-!
## Backfill license lists that answer alike

Two lists are `Alike` when every search for an entry finds the same in both and their
hierarchical entries are the same.  Deducting and transferring keep lists alike
(`Alike.deduct`, `Alike.transfer`), and alike lists give the same answers
(`Alike.avail`).
-/

namespace Slurm.Licenses

open Lib.FirstMatch List

/-- The entry is of a hierarchical license. -/
def BfLicense.isHres (b : BfLicense) : Bool := decide (b.hresId ≠ noVal16)

/-- Every search finds the same, and the hierarchical entries are the same. -/
structure Alike (a b : List BfLicense) : Prop where
  first : ∀ id resv, a.find? (isBfResv id resv) = b.find? (isBfResv id resv)
  hres : a.filter BfLicense.isHres = b.filter BfLicense.isHres

theorem Alike.refl (a : List BfLicense) : Alike a a := ⟨fun _ _ => rfl, rfl⟩

variable {a b : List BfLicense}

theorem Alike.trans {c : List BfLicense} (h : Alike a b) (h' : Alike b c) : Alike a c :=
  ⟨fun id resv => (h.first id resv).trans (h'.first id resv), h.hres.trans h'.hres⟩

theorem isBfRec_eq (id : UInt16) : isBfRec id = isBfResv id none := rfl

theorem isBfResv_setRemaining (id : UInt16) (resv : Option ResvId) (f : UInt32 → UInt32)
    (b : BfLicense) : isBfResv id resv (b.setRemaining f) = isBfResv id resv b := rfl

theorem isHres_setRemaining (f : UInt32 → UInt32) (b : BfLicense) :
    (b.setRemaining f).isHres = b.isHres := rfl

theorem isBfResv_iff {id : UInt16} {resv : Option ResvId} {b : BfLicense} :
    isBfResv id resv b = true ↔ b.resv = resv ∧ b.licId = id := decide_eq_true_iff

/-! ## Changes of one entry -/

theorem Alike.modify (h : Alike a b) (id : UInt16) (resv : Option ResvId) (f : UInt32 → UInt32) :
    Alike (modifyFirst (isBfResv id resv) (·.setRemaining f) a)
      (modifyFirst (isBfResv id resv) (·.setRemaining f) b) := by
  constructor
  · intro id' resv'
    by_cases hkey : id' = id ∧ resv' = resv
    · obtain ⟨rfl, rfl⟩ := hkey
      rw [find?_modifyFirst_same (isBfResv_setRemaining _ _ f), h.first,
        find?_modifyFirst_same (isBfResv_setRemaining _ _ f)]
    · have hother : ∀ x, isBfResv id resv x = true → isBfResv id' resv' x = false := by
        intro x hx
        rw [isBfResv_iff] at hx
        refine Bool.eq_false_iff.mpr fun hx' => hkey ?_
        rw [isBfResv_iff] at hx'
        exact ⟨hx'.2.symm.trans hx.2, hx'.1.symm.trans hx.1⟩
      rw [find?_modifyFirst_other (isBfResv_setRemaining _ _ f) hother,
        find?_modifyFirst_other (isBfResv_setRemaining _ _ f) hother]
      exact h.first id' resv'
  · rw [filter_modifyFirst (isHres_setRemaining f), filter_modifyFirst (isHres_setRemaining f),
      h.first, h.hres]

theorem Alike.append (h : Alike a b) (x : BfLicense) : Alike (a ++ [x]) (b ++ [x]) := by
  constructor
  · intro id resv
    rw [find?_append, find?_append, h.first]
  · rw [filter_append, filter_append, h.hres]

theorem Alike.resvEntry (h : Alike a b) (resv : Option ResvId) (id : UInt16) :
    resvEntry resv id a = resvEntry resv id b := by
  cases resv with
  | none => rfl
  | some r => exact h.first id (some r)

theorem Alike.transfer {n : Nat} (h : Alike a b) (job : BfJob n) :
    Alike (bfLicensesTransfer job a) (bfLicensesTransfer job b) := by
  unfold bfLicensesTransfer
  cases job.licenseList with
  | none => exact h
  | some es =>
    show Alike (es.foldl _ a) (es.foldl _ b)
    induction es generalizing a b with
    | nil => exact h
    | cons e es ih =>
      rw [foldl_cons, foldl_cons]
      apply ih
      rw [transferEntry, transferEntry, isBfRec_eq, h.first]
      cases b.find? (isBfResv e.licId none) with
      | none => exact h.append _
      | some x =>
        dsimp only
        split
        · exact (h.modify _ _ _).append _
        · exact (h.modify _ _ _).append _

/-! ## Hierarchical licenses -/

section

variable {n : Nat} (nodesOf : NodesOf n) (job : BfJob n) {e : License}

/-- An entry is left alone or its counter is changed; it is left alone when it is of
another hierarchical license. -/
theorem foreachHresDeduct_cases (e : License) (x : BfLicense) :
    foreachHresDeduct nodesOf job e x = (x, false) ∨
      x.hresId = e.hresId ∧ ∃ f, (foreachHresDeduct nodesOf job e x).1 = x.setRemaining f := by
  unfold foreachHresDeduct
  split
  · exact Or.inl rfl
  · rename_i hres
    have heq : x.hresId = e.hresId := by
      by_contra hne
      exact hres (Or.inl hne)
    split
    · exact Or.inl rfl
    · split
      · exact Or.inl rfl
      · split
        · exact Or.inl rfl
        · exact Or.inr ⟨heq, fun r => if r = infinite then r else if r < e.total then 0
            else r - e.total, rfl⟩

theorem foreachHresDeduct_plain (he : e.hresId ≠ noVal16) {x : BfLicense} (hx : x.isHres = false) :
    foreachHresDeduct nodesOf job e x = (x, false) := by
  rcases foreachHresDeduct_cases nodesOf job e x with heq | ⟨hres, -⟩
  · exact heq
  · have hplain : x.hresId = noVal16 := not_not.mp (of_decide_eq_false hx)
    exact absurd (hres.symm.trans hplain) he

theorem foreachHresDeduct_isHres (e : License) (x : BfLicense) :
    (foreachHresDeduct nodesOf job e x).1.isHres = x.isHres := by
  rcases foreachHresDeduct_cases nodesOf job e x with heq | ⟨-, f, heq⟩ <;> rw [heq]
  rfl

theorem foreachHresDeduct_isBfResv (e : License) (x : BfLicense) (id : UInt16)
    (resv : Option ResvId) :
    isBfResv id resv (foreachHresDeduct nodesOf job e x).1 = isBfResv id resv x := by
  rcases foreachHresDeduct_cases nodesOf job e x with heq | ⟨-, f, heq⟩ <;> rw [heq]
  rfl

theorem filter_hresDeduct (he : e.hresId ≠ noVal16) (l : List BfLicense) :
    (hresDeduct nodesOf job e l).filter BfLicense.isHres
      = hresDeduct nodesOf job e (l.filter BfLicense.isHres) := by
  induction l with
  | nil => rfl
  | cons x l ih =>
    rw [hresDeduct, filter_cons, filter_cons, foreachHresDeduct_isHres]
    by_cases hx : x.isHres = true
    · rw [if_pos hx, if_pos hx, hresDeduct]
      split
      · rfl
      · rw [ih]
    · rw [if_neg hx, if_neg hx, foreachHresDeduct_plain nodesOf job he (Bool.eq_false_iff.mpr hx)]
      exact ih

/-- A search finds what it found, or finds it among the hierarchical entries. -/
theorem find?_hresDeduct (he : e.hresId ≠ noVal16) (id : UInt16) (resv : Option ResvId)
    (l : List BfLicense) :
    (hresDeduct nodesOf job e l).find? (isBfResv id resv) =
      if (l.find? (isBfResv id resv)).any BfLicense.isHres then
        (hresDeduct nodesOf job e (l.filter BfLicense.isHres)).find? (isBfResv id resv)
      else l.find? (isBfResv id resv) := by
  induction l with
  | nil => rfl
  | cons x l ih =>
    rw [hresDeduct, find?_cons, find?_cons, foreachHresDeduct_isBfResv, filter_cons]
    by_cases hkey : isBfResv id resv x = true
    · rw [hkey, Option.any_some]
      by_cases hx : x.isHres = true
      · rw [if_pos hx, if_pos hx, hresDeduct, find?_cons, foreachHresDeduct_isBfResv, hkey]
      · rw [if_neg hx, foreachHresDeduct_plain nodesOf job he (Bool.eq_false_iff.mpr hx)]
    · rw [Bool.eq_false_iff.mpr hkey]
      dsimp only
      by_cases hx : x.isHres = true
      · rw [if_pos hx, hresDeduct, find?_cons, foreachHresDeduct_isBfResv,
          Bool.eq_false_iff.mpr hkey]
        dsimp only
        split
        · cases hfind : l.find? (isBfResv id resv) with
          | none => rfl
          | some y =>
            rw [Option.any_some]
            split
            · rename_i hy
              exact (find?_filter_of_find? hfind hy).symm
            · rfl
        · exact ih
      · rw [if_neg hx, foreachHresDeduct_plain nodesOf job he (Bool.eq_false_iff.mpr hx)]
        exact ih

theorem Alike.hresDeduct (he : e.hresId ≠ noVal16) (h : Alike a b) :
    Alike (hresDeduct nodesOf job e a) (hresDeduct nodesOf job e b) := by
  constructor
  · intro id resv
    refine (find?_hresDeduct nodesOf job he id resv a).trans ?_
    rw [h.first, h.hres]
    exact (find?_hresDeduct nodesOf job he id resv b).symm
  · rw [filter_hresDeduct nodesOf job he, filter_hresDeduct nodesOf job he, h.hres]

/-- The nodes of the masks depend on the hierarchical entries only. -/
theorem foldl_filter_isHres (he : e.hresId ≠ noVal16) (f : BitVec n → BfLicense → BitVec n)
    (hf : ∀ mask x, x.hresId ≠ e.hresId → f mask x = mask) (mask : BitVec n) (l : List BfLicense) :
    (l.filter BfLicense.isHres).foldl f mask = l.foldl f mask := by
  induction l generalizing mask with
  | nil => rfl
  | cons x l ih =>
    rw [filter_cons, foldl_cons]
    by_cases hx : x.isHres = true
    · rw [if_pos hx, foldl_cons, ih]
    · have hplain : x.hresId = noVal16 := not_not.mp (of_decide_eq_false (Bool.eq_false_iff.mpr hx))
      rw [if_neg hx, hf mask x fun heq => he (heq.symm.trans hplain), ih]

theorem Alike.hresMask1 (he : e.hresId ≠ noVal16) (h : Alike a b) (mask : BitVec n) :
    hresMask1 nodesOf job e mask a = hresMask1 nodesOf job e mask b := by
  unfold Licenses.hresMask1
  rw [← foldl_filter_isHres he _ ?_ mask a, ← foldl_filter_isHres he _ ?_ mask b, h.hres]
  · exact fun mask x hx => if_neg fun hin => hx hin.1
  · exact fun mask x hx => if_neg fun hin => hx hin.1

theorem Alike.hresMask2 (he : e.hresId ≠ noVal16) (h : Alike a b) (mask : BitVec n) :
    hresMask2 nodesOf job e mask a = hresMask2 nodesOf job e mask b := by
  unfold Licenses.hresMask2
  rw [← foldl_filter_isHres he _ ?_ mask a, ← foldl_filter_isHres he _ ?_ mask b, h.hres]
  · exact fun mask x hx => if_neg fun hin => hx hin.1
  · exact fun mask x hx => if_neg fun hin => hx hin.1

theorem Alike.hresFilter (h : Alike a b) (es : List License) (nodes : BitVec n) :
    hresFilter nodesOf job a es nodes = hresFilter nodesOf job b es nodes := by
  unfold Licenses.hresFilter
  induction es generalizing nodes with
  | nil => rfl
  | cons e es ih =>
    rw [foldl_cons, foldl_cons, ih]
    congr 1
    by_cases he : e.hresId = noVal16
    · rw [if_pos he, if_pos he]
    · rw [if_neg he, if_neg he]
      dsimp only
      rw [h.hresMask1 nodesOf job he, h.hresMask2 nodesOf job he]

/-! ## Deduct and avail -/

theorem Alike.deductGlobal (h : Alike a b) (e : License) (needed : UInt32)
    (acquired : Option UInt32) :
    Alike (deductGlobal job e needed acquired a).1 (deductGlobal job e needed acquired b).1 ∧
      (deductGlobal job e needed acquired a).2 = (deductGlobal job e needed acquired b).2 := by
  unfold Licenses.deductGlobal
  rw [isBfRec_eq, h.first]
  cases b.find? (isBfResv e.licId none) with
  | none => exact ⟨h, rfl⟩
  | some x =>
    dsimp only
    split
    · split
      · cases acquired with
        | none => exact ⟨h, rfl⟩
        | some k => exact ⟨h.modify _ _ _, rfl⟩
      · exact ⟨h.modify _ _ _, rfl⟩
    · exact ⟨h.modify _ _ _, rfl⟩

theorem Alike.deductEntry (h : Alike a b) (e : License) :
    Alike (deductEntry job e a).1 (deductEntry job e b).1 ∧
      (deductEntry job e a).2 = (deductEntry job e b).2 := by
  unfold Licenses.deductEntry
  rw [h.resvEntry]
  cases Licenses.resvEntry job.resv e.licId b with
  | none => exact h.deductGlobal job e _ _
  | some r =>
    dsimp only
    split
    · exact ⟨h.modify _ _ _, rfl⟩
    · exact (h.modify _ _ _).deductGlobal job e _ _

/-- Deducting keeps lists alike. -/
theorem Alike.deduct (h : Alike a b) :
    Alike (bfLicensesDeduct nodesOf job a) (bfLicensesDeduct nodesOf job b) := by
  unfold bfLicensesDeduct
  cases job.licenseList with
  | none => exact h
  | some es =>
    show Alike (deductLoop nodesOf job es a) (deductLoop nodesOf job es b)
    induction es generalizing a b with
    | nil => exact h
    | cons e es ih =>
      rw [deductLoop, deductLoop]
      by_cases he : e.hresId ≠ noVal16
      · rw [if_pos he, if_pos he]
        exact ih (h.hresDeduct nodesOf job he)
      · rw [if_neg he, if_neg he]
        obtain ⟨halike, hstop⟩ := h.deductEntry job e
        dsimp only
        rw [hstop]
        split
        · exact halike
        · exact ih halike

/-- Alike lists give the same answers. -/
theorem Alike.avail (h : Alike a b) (nodes : Option (BitVec n)) :
    bfLicensesAvail nodesOf job nodes a = bfLicensesAvail nodesOf job nodes b := by
  have hloop : ∀ es avail, availLoop nodesOf job nodes a es avail
      = availLoop nodesOf job nodes b es avail := by
    intro es
    induction es with
    | nil => exact fun _ => rfl
    | cons e es ih =>
      intro avail
      unfold availLoop
      simp only [isBfRec_eq, h.first, h.resvEntry, h.hresFilter, ih]
      rfl
  unfold bfLicensesAvail
  cases job.licenseList with
  | none => rfl
  | some es => exact hloop es true

end

/-! ## Equal lists -/

theorem bfLicensesEqual_iff :
    bfLicensesEqual a b = true ↔ ∀ x ∈ a, ∃ y, b.find? (isBfResv x.licId x.resv) = some y ∧
      x.remaining = y.remaining := by
  rw [bfLicensesEqual, Option.isNone_iff_eq_none, List.find?_eq_none]
  refine forall₂_congr fun x _ => ?_
  rw [differsIn]
  cases b.find? (isBfResv x.licId x.resv) with
  | none => simp
  | some y => simp

end Slurm.Licenses
