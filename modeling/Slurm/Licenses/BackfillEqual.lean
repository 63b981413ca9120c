import Slurm.Lib.Upsert
import Slurm.Licenses.BackfillPlan

/-!
# Comparing planned licenses (`slurmctld/licenses.c`)

The backfill map starts with `bf_licenses_initial`, splits a record with
`slurm_bf_licenses_copy`, and deducts and transfers on the copies.  `EqualContract` says
that `slurm_bf_licenses_equal` of two lists made so does not depend on their order, and
that lists it calls equal answer `slurm_bf_licenses_avail` alike.

The function looks up each record of the first list in the second one.
`equalContract_iff` gives the condition under which that is enough, and
`equalContract_of_transfers` that it is met after the same transfers, whatever was
deducted and copied between them (`keys_run`).
-/

namespace Slurm.Licenses

open Lib.FirstMatch Lib.Keyed

/-! ## Lists of the backfill map -/

/-- The entry that `bf_licenses_initial` makes. -/
def License.planned (bfRunningJobReserve : Bool) (e : License) : BfLicense :=
  let remaining :=
    if bfRunningJobReserve = false ∧ e.total ≠ infinite then e.total - e.used else e.total
  { licId := e.licId, hresId := e.hresId, remaining := remaining, resv := none }

/-- `bf_licenses_initial` -/
def bfLicensesInitial (bfRunningJobReserve : Bool) (s : Cluster) : Option (List BfLicense) :=
  match s.licenses with
  | none => none
  | some [] => none
  | some (e :: es) => some ((e :: es).map (License.planned bfRunningJobReserve))

/-- `_foreach_bf_license_copy` -/
def foreachBfLicenseCopy (dest : List BfLicense) (src : BfLicense) : List BfLicense :=
  dest ++ [{ licId := src.licId, hresId := src.hresId, remaining := src.remaining,
             resv := src.resv }]

/-- `slurm_bf_licenses_copy` -/
def bfLicensesCopy (l : List BfLicense) : List BfLicense := l.foldl foreachBfLicenseCopy []

theorem bfLicensesCopy_eq (l : List BfLicense) : bfLicensesCopy l = l := by
  have hfold : ∀ dest, l.foldl foreachBfLicenseCopy dest = dest ++ l := by
    induction l with
    | nil => simp
    | cons x l ih =>
      intro dest
      rw [List.foldl_cons, ih]
      simp [foreachBfLicenseCopy]
  exact hfold []

/-! ## Runs -/

/-- An operation on a list of the backfill map. -/
inductive PlanOp (n : Nat) where
  | copy
  | deduct (job : BfJob n)
  | transfer (job : BfJob n)

section

variable {n : Nat} (nodesOf : NodesOf n)

/-- The list after an operation. -/
def PlanOp.apply (l : List BfLicense) : PlanOp n → List BfLicense
  | .copy => bfLicensesCopy l
  | .deduct job => bfLicensesDeduct nodesOf job l
  | .transfer job => bfLicensesTransfer job l

/-- The list after operations. -/
def runPlan (ops : List (PlanOp n)) (l : List BfLicense) : List BfLicense :=
  ops.foldl (PlanOp.apply nodesOf) l

/-- The licenses that an operation transfers, with the reservation. -/
def PlanOp.transfers : PlanOp n → List (UInt16 × Option ResvId)
  | .transfer job => (job.licenseList.getD []).map fun e => (e.licId, job.resv)
  | _ => []

theorem keys_transferEntry (resv : Option ResvId) (e : License) (l : List BfLicense) :
    (transferEntry resv e l).map BfLicense.key = l.map BfLicense.key ++ [(e.licId, resv)] := by
  have hmodify : ∀ f : UInt32 → UInt32,
      (modifyFirst (isBfRec e.licId) (·.setRemaining f) l).map BfLicense.key
        = l.map BfLicense.key :=
    fun f => map_modifyFirst (f := (·.setRemaining f)) (g := BfLicense.key) (fun _ _ => rfl) l
  unfold transferEntry
  dsimp only
  cases l.find? (isBfRec e.licId) with
  | none =>
    rw [List.map_append]
    rfl
  | some b =>
    dsimp only
    split
    · rw [List.map_append, hmodify]
      rfl
    · rw [List.map_append, hmodify]
      rfl

theorem keys_transfer (job : BfJob n) (l : List BfLicense) :
    (bfLicensesTransfer job l).map BfLicense.key
      = l.map BfLicense.key ++ (PlanOp.transfer job).transfers := by
  show _ = _ ++ (job.licenseList.getD []).map fun e => (e.licId, job.resv)
  unfold bfLicensesTransfer
  cases job.licenseList with
  | none => simp
  | some es =>
    show (es.foldl (fun l e => transferEntry job.resv e l) l).map BfLicense.key
      = _ ++ es.map fun e => (e.licId, job.resv)
    induction es generalizing l with
    | nil => simp
    | cons e es ih =>
      rw [List.foldl_cons, ih, keys_transferEntry, List.map_cons, List.append_assoc]
      rfl

theorem keys_hresDeduct (job : BfJob n) (e : License) (l : List BfLicense) :
    (hresDeduct nodesOf job e l).map BfLicense.key = l.map BfLicense.key := by
  have hkey : ∀ x, (foreachHresDeduct nodesOf job e x).1.key = x.key := by
    intro x
    rcases foreachHresDeduct_cases nodesOf job e x with heq | ⟨-, f, heq⟩
    · rw [heq]
    · rw [heq]
      rfl
  induction l with
  | nil => rfl
  | cons x l ih =>
    rw [hresDeduct, List.map_cons, List.map_cons, hkey]
    split
    · rfl
    · rw [ih]

theorem keys_deduct (job : BfJob n) (l : List BfLicense) :
    (bfLicensesDeduct nodesOf job l).map BfLicense.key = l.map BfLicense.key := by
  unfold bfLicensesDeduct
  cases job.licenseList with
  | none => rfl
  | some es =>
    show (deductLoop nodesOf job es l).map BfLicense.key = _
    induction es generalizing l with
    | nil => rfl
    | cons e es ih =>
      rw [deductLoop]
      have hentry := (deductEntry_confined job e l).keys
      split
      · rw [ih, keys_hresDeduct]
      · dsimp only
        split
        · exact hentry
        · rw [ih, hentry]

/-- Only transfers change which licenses and reservations a list has records for. -/
theorem keys_run (ops : List (PlanOp n)) (l : List BfLicense) :
    (runPlan nodesOf ops l).map BfLicense.key
      = l.map BfLicense.key ++ ops.flatMap PlanOp.transfers := by
  have hstep : ∀ (op : PlanOp n) (l : List BfLicense),
      (op.apply nodesOf l).map BfLicense.key = l.map BfLicense.key ++ op.transfers := by
    intro op l
    cases op with
    | copy =>
      show (bfLicensesCopy l).map BfLicense.key = _ ++ []
      rw [bfLicensesCopy_eq, List.append_nil]
    | deduct job =>
      show (bfLicensesDeduct nodesOf job l).map BfLicense.key = _ ++ []
      rw [keys_deduct, List.append_nil]
    | transfer job => exact keys_transfer job l
  unfold runPlan
  induction ops generalizing l with
  | nil => simp
  | cons op ops ih =>
    rw [List.foldl_cons, ih, hstep, List.flatMap_cons, List.append_assoc]

end

/-! ## The contract -/

/-- Two lists of the backfill map, made from one cluster state. -/
structure PlanPair (n : Nat) where
  nodesOf : NodesOf n
  cluster : Cluster
  bfRunningJobReserve : Bool
  initial : List BfLicense
  initial_eq : bfLicensesInitial bfRunningJobReserve cluster = some initial
  opsA : List (PlanOp n)
  opsB : List (PlanOp n)

namespace PlanPair

variable {n : Nat} (p : PlanPair n)

/-- The first list. -/
def a : List BfLicense := runPlan p.nodesOf p.opsA p.initial

/-- The second list. -/
def b : List BfLicense := runPlan p.nodesOf p.opsB p.initial

end PlanPair

/-- The job asks for no hierarchical license. -/
def BfJob.Plain {n : Nat} (job : BfJob n) : Prop :=
  ∀ e ∈ job.licenseList.getD [], e.hresId = noVal16

/-- The comparison does not depend on the order, and lists that are equal cannot be told
apart. -/
structure EqualContract {n : Nat} (p : PlanPair n) : Prop where
  symm : bfLicensesEqual p.a p.b = bfLicensesEqual p.b p.a
  avail : bfLicensesEqual p.a p.b = true → ∀ (job : BfJob n) (nodes : Option (BitVec n)),
    job.Plain → bfLicensesAvail p.nodesOf job nodes p.a = bfLicensesAvail p.nodesOf job nodes p.b

/-! ## The condition -/

/-- No license and reservation has a second record with another counter than the first, and
the other list has a record of each. -/
def Mirrored (a b : List BfLicense) : Prop :=
  Clear BfLicense.key BfLicense.remaining a ∧ a.map BfLicense.key ⊆ b.map BfLicense.key

/-- The first records of some license and reservation have different counters. -/
def Differ (a b : List BfLicense) : Prop := Conflict BfLicense.key BfLicense.remaining a b

/-! ## Records as searches find them -/

theorem find?_key (l : List BfLicense) (id : UInt16) (resv : Option ResvId) :
    (l.find? (isBfResv id resv)).map BfLicense.remaining
      = lookup BfLicense.key BfLicense.remaining (id, resv) l := by
  have hkey : isBfResv id resv = fun x => decide (x.key = (id, resv)) := by
    funext x
    rw [isBfResv, decide_eq_decide, BfLicense.key, Prod.mk.injEq, and_comm]
  rw [hkey, lookup]

theorem bfLicensesEqual_iff_matched {a b : List BfLicense} :
    bfLicensesEqual a b = true ↔ Held BfLicense.key BfLicense.remaining a b := by
  rw [bfLicensesEqual_iff]
  refine forall₂_congr fun x _ => ?_
  show _ ↔ lookup BfLicense.key BfLicense.remaining (x.licId, x.resv) b = some x.remaining
  rw [← find?_key, Option.map_eq_some_iff]
  exact exists_congr fun y => and_congr_right fun _ => eq_comm

/-- What a plain job is told depends on the counters that searches find. -/
theorem avail_congr {n : Nat} (nodesOf : NodesOf n) {job : BfJob n} (hplain : job.Plain)
    (nodes : Option (BitVec n)) {a b : List BfLicense}
    (h : ∀ id resv, (a.find? (isBfResv id resv)).map BfLicense.remaining
      = (b.find? (isBfResv id resv)).map BfLicense.remaining) :
    bfLicensesAvail nodesOf job nodes a = bfLicensesAvail nodesOf job nodes b := by
  have hresv : ∀ id, (resvEntry job.resv id a).map BfLicense.remaining
      = (resvEntry job.resv id b).map BfLicense.remaining := by
    intro id
    unfold resvEntry
    cases job.resv with
    | none => rfl
    | some r => exact h id (some r)
  have hany : ∀ (o : Option BfLicense) (t : UInt32),
      (o.any fun r => decide (t ≤ r.remaining))
        = (o.map BfLicense.remaining).any fun c => decide (t ≤ c) := by
    intro o t
    cases o <;> rfl
  have hall : ∀ (o : Option BfLicense) (t : UInt32),
      (o.all fun r => decide (r.remaining < t))
        = (o.map BfLicense.remaining).all fun c => decide (c < t) := by
    intro o t
    cases o <;> rfl
  unfold bfLicensesAvail
  unfold BfJob.Plain at hplain
  cases hes : job.licenseList with
  | none => rfl
  | some es =>
    rw [hes, Option.getD_some] at hplain
    show availLoop nodesOf job nodes a es true = availLoop nodesOf job nodes b es true
    generalize true = avail
    clear hes
    induction es generalizing avail with
    | nil => rfl
    | cons e es ih =>
      have he : ¬ e.hresId ≠ noVal16 := fun hne => hne (hplain e List.mem_cons_self)
      have ih' := ih fun x hx => hplain x (List.mem_cons_of_mem e hx)
      unfold availLoop
      rw [if_neg he, if_neg he]
      dsimp only
      rw [hany, hany, hall, hall, hresv, isBfRec_eq, h, ih', ih']

/-- The contract in terms of the two comparisons. -/
theorem equalContract_iff_matched {n : Nat} (p : PlanPair n) :
    EqualContract p ↔ (Held BfLicense.key BfLicense.remaining p.a p.b ↔
      Held BfLicense.key BfLicense.remaining p.b p.a) := by
  rw [← bfLicensesEqual_iff_matched, ← bfLicensesEqual_iff_matched, ← Bool.eq_iff_iff]
  constructor
  · exact EqualContract.symm
  · intro h
    refine ⟨h, fun hab job nodes hplain => avail_congr p.nodesOf hplain nodes fun id resv => ?_⟩
    rw [find?_key, find?_key]
    exact lookup_eq_of_held (bfLicensesEqual_iff_matched.mp hab)
      (bfLicensesEqual_iff_matched.mp (h ▸ hab)) (id, resv)

/-- The contract holds of lists that differ in a counter they both have, and otherwise when
the first list is mirrored in the second exactly if the second is in the first. -/
theorem equalContract_iff {n : Nat} (p : PlanPair n) :
    EqualContract p ↔ Differ p.a p.b ∨ (Mirrored p.a p.b ↔ Mirrored p.b p.a) := by
  rw [equalContract_iff_matched, held_symm_iff]
  rfl

/-! ## Runs with the same transfers -/

/-- Transfers of the same licenses to the same reservations, each once. -/
structure SameTransfers {n : Nat} (p : PlanPair n) : Prop where
  perm : (p.opsA.flatMap PlanOp.transfers).Perm (p.opsB.flatMap PlanOp.transfers)
  once : (p.initial.map BfLicense.key ++ p.opsA.flatMap PlanOp.transfers).Nodup

/-- After the same transfers the lists are mirrored in each other. -/
theorem mirrored_of_transfers {n : Nat} {p : PlanPair n} (h : SameTransfers p) :
    Mirrored p.a p.b ∧ Mirrored p.b p.a := by
  have hperm : (p.a.map BfLicense.key).Perm (p.b.map BfLicense.key) := by
    unfold PlanPair.a PlanPair.b
    rw [keys_run, keys_run]
    exact h.perm.append_left _
  have hnodup : (p.a.map BfLicense.key).Nodup := by
    unfold PlanPair.a
    rw [keys_run]
    exact h.once
  exact ⟨⟨clear_of_nodup hnodup, hperm.subset⟩,
    ⟨clear_of_nodup (hperm.nodup_iff.mp hnodup), hperm.symm.subset⟩⟩

/-- In runs with the same transfers the comparison is right. -/
theorem equalContract_of_transfers {n : Nat} {p : PlanPair n} (h : SameTransfers p) :
    EqualContract p := by
  have hmirrored := mirrored_of_transfers h
  rw [equalContract_iff_matched, held_symm_iff]
  exact Or.inr (iff_of_true hmirrored.1 hmirrored.2)

/-! ## A reservation and a job -/

/-- A request for licenses of `ansys`. -/
def ansysRequest (total : UInt32) : License where
  licId := 0
  hresId := noVal16
  name := "ansys"
  opOr := false
  total := total
  used := 0
  remote := .no
  lastDeficit := 0
  lastConsumed := 0
  lastUpdate := 0
  nodes := none
  mode := 0

/-- A job, or a reservation, that asks for licenses of `ansys`. -/
def asksAnsys (total : UInt32) (resv : Option ResvId) : BfJob 0 :=
  { licenseList := some [ansysRequest total], resv := resv, running := false, nodeBitmap := 0 }

/-- Of five licenses, two are planned for a job in the first list, and two are transferred to
reservation 7 in the second. -/
def plannedOrReserved : PlanPair 0 where
  nodesOf := fun _ => none
  cluster := { licenses := some [ansysRequest 5], nextLicId := 1 }
  bfRunningJobReserve := false
  initial := [(ansysRequest 5).planned false]
  initial_eq := rfl
  opsA := [.copy, .deduct (asksAnsys 2 none)]
  opsB := [.copy, .transfer (asksAnsys 2 (some 7))]

/-- The same transfer, before and after a job took two. -/
theorem equalContract_transferred : EqualContract { plannedOrReserved with
    opsA := [.transfer (asksAnsys 2 (some 7)), .deduct (asksAnsys 2 none)] } :=
  equalContract_of_transfers ⟨.of_eq rfl, by decide⟩

/-- The first list is equal to the second, where a job of the reservation gets four. -/
theorem not_equalContract_reserved : ¬ EqualContract plannedOrReserved := by
  intro h
  have hplain : (asksAnsys 4 (some 7)).Plain := by
    intro e he
    rw [List.mem_singleton.mp he]
    rfl
  exact absurd (h.avail (by decide) (asksAnsys 4 (some 7)) none hplain) (by decide)

end Slurm.Licenses
