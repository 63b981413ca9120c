import Slurm.Licenses.Accounting
import Slurm.Licenses.IdentityContract

/-!
# The accounting contract of licenses

`AccountingContract` says of a run of get and return calls that the used licenses of
every entry are those that the holding jobs hold (`Balanced`), that a grant stays within
the total, that a failed call leaves the used licenses as they were, and that no return
underflows.  `accountingContract_iff` gives the condition on the steps (`Fits`).

Two things break the contract.  The sufficiency test adds 32-bit counters and may wrap,
and licenses without end are not tested at all, so that `used` itself may wrap.  And a
call for one of several licenses may pass one that the cluster does not have before it
is granted another: it has charged the other one when it returns the error.

* `balanced_grant`, `granted_iff`: a grant of some entries.
* `get_step` and `ret_step`: one call.
-/

namespace Slurm.Licenses

open List

open Lib.Run (Always EachStep Guarded)

variable {s : State} {cluster : List License} {resv : Reserved} {req : Request} {e : License}

/-- The used licenses of every entry are those of the jobs that hold them. -/
def Balanced (s : State) : Prop :=
  ∀ m ∈ s.cluster, m.used.toNat = sumFor (s.holders.flatMap Prod.snd) m.licId

/-- What is reserved for others when a license is granted.  Only a call for one of several
licenses asks for it again after the test. -/
def reservedAt (req : Request) (tested got : Reserved) : Reserved :=
  if req.opOr then got else tested

/-- What `license_job_get` must do, right after a successful test. -/
structure GetContract (cluster : List License) (req : Request) (resv : Reserved) (r : GetResult) :
    Prop where
  granted : r.rc = .success → ∀ e ∈ r.entries, ∀ m ∈ r.cluster, m.licId = e.licId →
    m.used.toNat + m.lastDeficit.toNat + (resv e.licId).toNat ≤ m.total.toNat
  failed : r.rc ≠ .success → r.cluster.map License.used = cluster.map License.used

/-- What a call must do. -/
def StepContract (s : State) : JobCmd → State → Prop
  | .get _ req tested got, _ =>
    GetContract s.cluster req (reservedAt req tested got) (licenseJobGet s.cluster got req)
  | .ret job, _ =>
    ∀ entries, s.held job = some entries → (licenseJobReturn s.cluster entries).2 = false

/-- The contract of a run. -/
structure AccountingContract (s : State) (cmds : List JobCmd) : Prop where
  balanced : Always execJob Balanced s cmds
  steps : EachStep execJob StepContract s cmds

/-- The sum that is compared with the total of a license does not wrap. -/
def SumFits (cluster : List License) (resv : Reserved) (e : License) : Prop :=
  ∀ m ∈ cluster, m.licId = e.licId →
    e.total.toNat + m.used.toNat + m.lastDeficit.toNat + (resv e.licId).toNat < 2 ^ 32

/-- When the contract is met by `license_job_get`. -/
structure GetFits (cluster : List License) (req : Request) (tested got : Reserved) : Prop where
  all_of : req.opOr = false → ∀ e ∈ req.entries, SumFits cluster tested e
  one_of : req.opOr = true → ∀ before e after, req.entries = before ++ e :: after →
    (∀ x ∈ before, usable cluster got x = false) → usable cluster got e = true →
      (e.total ≠ 0 → ∀ x ∈ before, known cluster x = true) ∧
        ((∀ x ∈ before, known cluster x = true) → SumFits cluster got e)

/-- When the contract is met by a call. -/
def Fits (s : State) : JobCmd → Prop
  | .get _ req tested got => GetFits s.cluster req tested got
  | .ret _ => True

/-- The invariant of runs that meet the contract. -/
structure Accounted (s : State) : Prop where
  ids_nodup : (s.cluster.map License.licId).Nodup
  balanced : Balanced s

/-! ## Grants -/

theorem sumFor_chargedEntry (es : List License) (id : UInt16) :
    sumFor (es.map chargedEntry) id = sumFor es id := by
  rw [sumFor, map_map]
  rfl

/-- A grant keeps the balance when no counter wraps. -/
theorem balanced_grant (h : Balanced s) (job : Nat) (es : List License) :
    Balanced { cluster := s.cluster.map (chargeAll es)
               holders := (job, es.map chargedEntry) :: s.holders } ↔
      ∀ m ∈ s.cluster, m.used.toNat + sumFor es m.licId < 2 ^ 32 := by
  have hsum : ∀ id, sumFor (((job, es.map chargedEntry) :: s.holders).flatMap Prod.snd) id
      = sumFor es id + sumFor (s.holders.flatMap Prod.snd) id := fun id => by
    rw [flatMap_cons, sumFor_append, sumFor_chargedEntry]
  constructor
  · intro hbal m hm
    have hm' := hbal (chargeAll es m) (mem_map_of_mem hm)
    rw [chargeAll_used, hsum, show (chargeAll es m).licId = m.licId from rfl, ← h m hm] at hm'
    omega
  · intro hfits m' hm'
    obtain ⟨m, hm, rfl⟩ := List.mem_map.mp hm'
    rw [chargeAll_used, Nat.mod_eq_of_lt (hfits m hm), hsum,
      show (chargeAll es m).licId = m.licId from rfl, ← h m hm, Nat.add_comm]

/-- A grant of licenses that the test found sufficient. -/
theorem granted_iff {es : List License} (hids : (cluster.map License.licId).Nodup)
    (hes : (es.map License.licId).Nodup) (hsuff : ∀ e ∈ es, ∃ m, findById cluster e.licId = some m ∧
      sufficientLicenses e m (resv e.licId) = true) :
    (∀ m ∈ cluster, m.used.toNat + sumFor es m.licId < 2 ^ 32) ∧
      (∀ e ∈ es.map chargedEntry, ∀ m ∈ cluster.map (chargeAll es), m.licId = e.licId →
        m.used.toNat + m.lastDeficit.toNat + (resv e.licId).toNat ≤ m.total.toNat) ↔
      ∀ e ∈ es, SumFits cluster resv e := by
  have hsum : ∀ e ∈ es, ∀ m : License, m.licId = e.licId → sumFor es m.licId = e.total.toNat :=
    fun e he m hid => by rw [hid, sumFor_of_mem hes he]
  constructor
  · rintro ⟨hwrap, hle⟩ e he m hm hid
    have hgrant := hle (chargedEntry e) (mem_map_of_mem he) (chargeAll es m)
      (mem_map_of_mem hm) hid
    have hused := hwrap m hm
    have hlt := m.total.toNat_lt
    rw [chargeAll_used, Nat.mod_eq_of_lt hused, hsum e he m hid] at hgrant
    change _ + m.lastDeficit.toNat + (resv e.licId).toNat ≤ m.total.toNat at hgrant
    omega
  · intro hfits
    have hwrap : ∀ m ∈ cluster, m.used.toNat + sumFor es m.licId < 2 ^ 32 := by
      intro m hm
      by_cases hin : ∃ e ∈ es, e.licId = m.licId
      · obtain ⟨e, he, hid⟩ := hin
        have hlt := hfits e he m hm hid.symm
        rw [hsum e he m hid.symm]
        omega
      · rw [sumFor_eq_zero fun e he heq => hin ⟨e, he, heq⟩]
        exact m.used.toNat_lt
    refine ⟨hwrap, fun e' he' m' hm' hid => ?_⟩
    obtain ⟨e, he, rfl⟩ := List.mem_map.mp he'
    obtain ⟨m, hm, rfl⟩ := List.mem_map.mp hm'
    change m.licId = e.licId at hid
    obtain ⟨m₁, hfind, henough⟩ := hsuff e he
    rw [← hid, findById_of_mem hids hm] at hfind
    cases hfind
    have htotal := total_of_sufficient (hfits e he m hm hid) henough
    rw [chargeAll_used, Nat.mod_eq_of_lt (hwrap m hm), hsum e he m hid]
    change _ + m.lastDeficit.toNat + (resv e.licId).toNat ≤ m.total.toNat
    omega

theorem charge_eq_map (hids : (cluster.map License.licId).Nodup) (e : License) :
    charge cluster e = cluster.map (chargeAll [e]) :=
  foldl_charge [e] hids

/-- The step of a call that grants some entries. -/
theorem grant_step (h : Accounted s) (job : Nat) {es : List License} {r : GetResult}
    (hrc : r.rc = .success) (hcluster : r.cluster = s.cluster.map (chargeAll es))
    (hentries : r.entries = es.map chargedEntry) (hes : (es.map License.licId).Nodup)
    (hsuff : ∀ e ∈ es, ∃ m, findById s.cluster e.licId = some m ∧
      sufficientLicenses e m (resv e.licId) = true) :
    Balanced { cluster := r.cluster, holders := (job, r.entries) :: s.holders } ∧
        GetContract s.cluster req resv r ↔ ∀ e ∈ es, SumFits s.cluster resv e := by
  rw [← granted_iff h.ids_nodup hes hsuff, ← balanced_grant h.balanced job es, hcluster, hentries]
  refine and_congr_right fun _ => ⟨fun hget => ?_, fun hle => ⟨fun _ => ?_, fun hne => absurd hrc hne⟩⟩
  · rw [← hcluster, ← hentries]
    exact hget.granted hrc
  · rw [hcluster, hentries]
    exact hle

/-- The step of a call that fails after it charged an entry. -/
theorem failed_step (h : Accounted s) {r : GetResult} (hrc : r.rc ≠ .success)
    (hcluster : r.cluster = charge s.cluster e) (hknown : known s.cluster e = true) :
    Balanced { cluster := r.cluster, holders := s.holders } ∧ GetContract s.cluster req resv r ↔
      e.total = 0 := by
  rw [charge_eq_map h.ids_nodup] at hcluster
  constructor
  · rintro ⟨hbal, -⟩
    rw [known_iff] at hknown
    obtain ⟨m, hm, hid⟩ := List.mem_map.mp hknown
    have hm' := hbal (chargeAll [e] m) (hcluster ▸ mem_map_of_mem hm)
    rw [chargeAll_used, sumFor_cons, if_pos hid.symm, show (chargeAll [e] m).licId = m.licId from rfl,
      ← h.balanced m hm] at hm'
    change (_ + (_ + 0)) % _ = _ at hm'
    have hused := m.used.toNat_lt
    have htotal := e.total.toNat_lt
    apply UInt32.toNat.inj
    change _ = 0
    omega
  · intro hzero
    have hsame : r.cluster = s.cluster := by
      rw [hcluster]
      refine (map_congr_left fun m _ => ?_).trans s.cluster.map_id
      have hsum : sumFor [e] m.licId = 0 := by
        rw [sumFor_cons, hzero]
        exact ite_self 0
      rw [chargeAll, hsum, Nat.add_zero, UInt32.ofNat_toNat]
      rfl
    rw [hsame]
    exact ⟨h.balanced, fun hsucc => absurd hsucc hrc, fun _ => by rw [hsame]⟩

/-- The state after a call of `license_job_get`. -/
def afterGet (s : State) (job : Nat) (r : GetResult) : State :=
  if r.rc = .success then { cluster := r.cluster, holders := (job, r.entries) :: s.holders }
  else { s with cluster := r.cluster }

theorem usable_spec (h : usable cluster resv e = true) :
    ∃ m, findById cluster e.licId = some m ∧ sufficientLicenses e m (resv e.licId) = true := by
  rw [usable] at h
  cases hfind : findById cluster e.licId with
  | none =>
    rw [hfind] at h
    cases h
  | some m =>
    rw [hfind] at h
    rw [← findById_licId hfind]
    exact ⟨m, rfl, h⟩

theorem known_of_findById {m : License} (h : findById cluster e.licId = some m) :
    known cluster e = true := by
  rw [known, h]
  rfl

/-- The step of a call for all of the licenses. -/
theorem get_step_all (h : Accounted s) (job : Nat) {tested : Reserved} (got : Reserved)
    (hand : req.opOr = false) (htest : licenseJobTest s.cluster tested req = .success) :
    Balanced (afterGet s job (licenseJobGet s.cluster got req)) ∧
        GetContract s.cluster req (reservedAt req tested got) (licenseJobGet s.cluster got req) ↔
      GetFits s.cluster req tested got := by
  have hop : ∀ e ∈ req.entries, e.opOr = false := fun e he => (req.same_op e he).trans hand
  have hsuff := (sufficient_of_jobTestLoop hop htest).2
  have hget := licenseJobGet_and s.cluster got hand fun e he => by
    obtain ⟨m, hfind, -⟩ := hsuff e he
    exact known_of_findById hfind
  have hresv : reservedAt req tested got = tested := by
    rw [reservedAt, hand]
    rfl
  rw [hget, hresv, foldl_charge req.entries h.ids_nodup, afterGet, if_pos rfl,
    grant_step h job rfl rfl rfl req.ids_nodup hsuff]
  constructor
  · intro hfits
    exact ⟨fun _ => hfits, fun hor => by rw [hand] at hor; cases hor⟩
  · intro hfits
    exact hfits.all_of hand

/-- There is but one first usable alternative. -/
theorem first_usable_unique {got : Reserved} {b b' a a' : List License} {e' : License}
    (hb : ∀ x ∈ b, usable cluster got x = false) (he : usable cluster got e = true)
    (hb' : ∀ x ∈ b', usable cluster got x = false) (he' : usable cluster got e' = true)
    (heq : b ++ e :: a = b' ++ e' :: a') : b = b' ∧ e = e' := by
  induction b generalizing b' with
  | nil =>
    cases b' with
    | nil => exact ⟨rfl, (List.cons.inj heq).1⟩
    | cons x xs =>
      rw [(List.cons.inj heq).1, hb' x mem_cons_self] at he
      cases he
  | cons y ys ih =>
    cases b' with
    | nil =>
      rw [← (List.cons.inj heq).1, hb y mem_cons_self] at he'
      cases he'
    | cons x xs =>
      obtain ⟨hxy, hrest⟩ := List.cons.inj heq
      obtain ⟨hys, hee⟩ := ih (fun z hz => hb z (mem_cons_of_mem _ hz))
        (fun z hz => hb' z (mem_cons_of_mem _ hz)) hrest
      rw [hxy, hys]
      exact ⟨rfl, hee⟩

/-- The step of a call for one of the licenses. -/
theorem get_step_one (h : Accounted s) (job : Nat) (tested got : Reserved) (hor : req.opOr = true) :
    Balanced (afterGet s job (licenseJobGet s.cluster got req)) ∧
        GetContract s.cluster req (reservedAt req tested got) (licenseJobGet s.cluster got req) ↔
      GetFits s.cluster req tested got := by
  have hresv : reservedAt req tested got = got := by
    rw [reservedAt, hor]
    rfl
  have hnot : ¬ req.opOr = false := by
    rw [hor]
    exact Bool.noConfusion
  rw [hresv, afterGet]
  rcases usable_split s.cluster got req.entries with huse | ⟨before, e, after, hreq, huse, husee⟩
  · obtain ⟨hcluster, hentries⟩ := licenseJobGet_or_none hor huse
    refine iff_of_true ⟨?_, fun hrc => ?_, fun _ => by rw [hcluster]⟩
      ⟨fun hand => absurd hand hnot, fun _ before e after hreq _ husee => ?_⟩
    · split
      · rename_i hrc
        rw [hcluster, hentries hrc]
        exact h.balanced
      · rw [hcluster]
        exact h.balanced
    · rw [hentries hrc]
      exact fun e he => absurd he not_mem_nil
    · rw [huse e (hreq ▸ mem_append_right _ mem_cons_self)] at husee
      cases husee
  · obtain ⟨hcluster, hrc, hentries⟩ := licenseJobGet_or hor hreq huse husee
    obtain ⟨m, hfind, hsuff⟩ := usable_spec husee
    have hfits : GetFits s.cluster req tested got ↔
        (e.total ≠ 0 → ∀ x ∈ before, known s.cluster x = true) ∧
          ((∀ x ∈ before, known s.cluster x = true) → SumFits s.cluster got e) := by
      constructor
      · intro hget
        exact hget.one_of hor before e after hreq huse husee
      · intro hcond
        refine ⟨fun hand => absurd hand hnot, fun _ before' e' after' hreq' huse' husee' => ?_⟩
        obtain ⟨hb, he⟩ := first_usable_unique huse husee huse' husee' (hreq.symm.trans hreq')
        rw [← hb, ← he]
        exact hcond
    rw [hfits]
    by_cases hall : ∀ x ∈ before, known s.cluster x = true
    · rw [if_pos (hrc.mpr hall), grant_step h job (hrc.mpr hall)
        (hcluster.trans (charge_eq_map h.ids_nodup e)) (hentries (hrc.mpr hall)) (nodup_singleton _)
        fun x hx => by
          rw [List.mem_singleton.mp hx]
          exact ⟨m, hfind, hsuff⟩]
      constructor
      · intro hsum
        exact ⟨fun _ => hall, fun _ => hsum e (mem_singleton_self e)⟩
      · intro hcond x hx
        rw [List.mem_singleton.mp hx]
        exact hcond.2 hall
    · have hfail : (licenseJobGet s.cluster got req).rc ≠ .success := fun heq => hall (hrc.mp heq)
      rw [if_neg hfail, failed_step h hfail hcluster (known_of_findById hfind)]
      constructor
      · intro hzero
        exact ⟨fun hne => absurd hzero hne, fun hk => absurd hk hall⟩
      · intro hcond
        by_contra hne
        exact hall (hcond.1 hne)

/-! ## Returns -/

/-- The entries of a job and those of the others. -/
theorem sumFor_held {job : Nat} {entries : List License} (h : s.held job = some entries)
    (id : UInt16) :
    sumFor (s.holders.flatMap Prod.snd) id = sumFor entries id +
      sumFor ((s.holders.eraseP fun h => decide (h.1 = job)).flatMap Prod.snd) id := by
  rw [State.held, Option.map_eq_some_iff] at h
  obtain ⟨holder, hfind, rfl⟩ := h
  obtain ⟨hjob, before, after, hholders, hbefore⟩ := List.find?_eq_some_iff_append.mp hfind
  have herase : s.holders.eraseP (fun h => decide (h.1 = job)) = before ++ after := by
    rw [hholders, eraseP_append_right _ fun b hb => by simpa using hbefore b hb]
    exact congrArg _ (eraseP_cons_of_pos hjob)
  rw [herase, hholders, flatMap_append, flatMap_append, flatMap_cons,
    sumFor_append, sumFor_append, sumFor_append]
  omega

/-- The step of a return. -/
theorem ret_step {s' : State} (h : Accounted s) {job : Nat} (hs' : execJob s (.ret job) = some s') :
    Accounted s' ∧ StepContract s (.ret job) s' := by
  rw [execJob, Option.map_eq_some_iff] at hs'
  obtain ⟨entries, hheld, rfl⟩ := hs'
  have hspec : licenseJobReturn s.cluster entries = (s.cluster.map (dischargeAll entries), false) := by
    apply jobReturnLoop_spec entries h.ids_nodup
    intro m hm
    rw [h.balanced m hm, sumFor_held hheld]
    exact Nat.le_add_right _ _
  refine ⟨⟨?_, ?_⟩, fun es hes => ?_⟩
  · rw [hspec, map_map]
    exact h.ids_nodup
  · intro m' hm'
    rw [hspec] at hm'
    obtain ⟨m, hm, rfl⟩ := List.mem_map.mp hm'
    rw [dischargeAll_used, h.balanced m hm, sumFor_held hheld, Nat.add_sub_cancel_left]
    rfl
  · rw [hheld, Option.some.injEq] at hes
    rw [← hes, hspec]

/-! ## Runs -/

theorem foldl_charge_licId (es cluster : List License) :
    (es.foldl charge cluster).map License.licId = cluster.map License.licId := by
  induction es generalizing cluster with
  | nil => rfl
  | cons e es ih => rw [foldl_cons, ih, charge_licId]

/-- No call changes which entries the cluster list has. -/
theorem licenseJobGet_licId {tested : Reserved} (got : Reserved)
    (htest : licenseJobTest cluster tested req = .success) :
    (licenseJobGet cluster got req).cluster.map License.licId = cluster.map License.licId := by
  cases hop : req.opOr with
  | false =>
    have hsuff := (sufficient_of_jobTestLoop (fun e he => (req.same_op e he).trans hop) htest).2
    rw [licenseJobGet_and cluster got hop fun e he => ?_]
    · exact foldl_charge_licId req.entries cluster
    · obtain ⟨m, hfind, -⟩ := hsuff e he
      exact known_of_findById hfind
  | true =>
    rcases usable_split cluster got req.entries with huse | ⟨before, e, after, hreq, huse, husee⟩
    · rw [(licenseJobGet_or_none hop huse).1]
    · rw [(licenseJobGet_or hop hreq huse husee).1, charge_licId]

/-- One call keeps the accounts when it meets the condition, and only then. -/
theorem execJob_step {s' : State} {c : JobCmd} (h : Accounted s) (hs' : execJob s c = some s') :
    (Fits s c → Accounted s') ∧ (Balanced s' ∧ StepContract s c s' ↔ Fits s c) := by
  cases c with
  | get job req tested got =>
    simp only [execJob] at hs'
    split at hs'
    · rename_i hguard
      have hafter : s' = afterGet s job (licenseJobGet s.cluster got req) := by
        rw [afterGet]
        split at hs' <;> rename_i hrc
        · rw [if_pos hrc]
          exact (Option.some.inj hs').symm
        · rw [if_neg hrc]
          exact (Option.some.inj hs').symm
      have hiff : Balanced s' ∧ StepContract s (.get job req tested got) s' ↔
          Fits s (.get job req tested got) := by
        rw [hafter]
        cases hop : req.opOr with
        | false => exact get_step_all h job got hop hguard.2
        | true => exact get_step_one h job tested got hop
      refine ⟨fun hfits => ⟨?_, (hiff.mpr hfits).1⟩, hiff⟩
      have hids := h.ids_nodup
      rw [← licenseJobGet_licId got hguard.2] at hids
      rw [hafter, afterGet]
      split <;> exact hids
    · cases hs'
  | ret job =>
    obtain ⟨hacc, hcontract⟩ := ret_step h hs'
    exact ⟨fun _ => hacc, iff_of_true ⟨hacc.balanced, hcontract⟩ trivial⟩

/-- A cluster list with no licenses in use. -/
structure Fresh (s : State) : Prop where
  ids_nodup : (s.cluster.map License.licId).Nodup
  unused : ∀ m ∈ s.cluster, m.used = 0
  holders : s.holders = []

theorem Fresh.accounted (h : Fresh s) : Accounted s := by
  refine ⟨h.ids_nodup, fun m hm => ?_⟩
  rw [h.unused m hm, h.holders]
  rfl

/-- A run from a fresh state meets the contract exactly when every call of it meets the
condition. -/
theorem accountingContract_iff {s : State} (h : Fresh s) (cmds : List JobCmd) :
    AccountingContract s cmds ↔ Guarded execJob Fits s cmds := by
  have hrule : Always execJob Balanced s cmds ∧ EachStep execJob StepContract s cmds ↔
      Guarded execJob Fits s cmds := by
    apply Lib.Run.always_eachStep_iff (I := Accounted) _ _ h.accounted
    · exact fun _ hacc => hacc.balanced
    · exact fun _ _ _ hacc hs' => execJob_step hacc hs'
  rw [← hrule]
  exact ⟨fun hc => ⟨hc.balanced, hc.steps⟩, fun hc => ⟨hc.1, hc.2⟩⟩

/-- A license of which there are 4000000000. -/
def ansys (used : UInt32) : License where
  licId := 0
  hresId := noVal16
  name := "ansys"
  opOr := false
  total := 4000000000
  used := used
  remote := .no
  lastDeficit := 0
  lastConsumed := 0
  lastUpdate := 0
  nodes := none
  mode := 0

/-- A job that asks for some of them. -/
def askAnsys (count : UInt32) : Request where
  entries := [{ ansys 0 with total := count }]
  opOr := false
  same_op := by simp [ansys]
  ids_nodup := List.nodup_singleton _
  plain := by simp [ansys]

/-- All of them are used by one job, and another one asks for more. -/
def twoJobs : List JobCmd :=
  [.get 1 (askAnsys 4000000000) (fun _ => 0) (fun _ => 0),
    .get 2 (askAnsys 300000000) (fun _ => 0) (fun _ => 0)]

/-- No licenses are in use. -/
def idle : State := { cluster := [ansys 0], holders := [] }

/-- The second job gets its licenses too, and `used` wraps. -/
theorem accountingContract_fails : ¬ AccountingContract idle twoJobs := by
  intro h
  have hlast : Lib.Run.run execJob idle twoJobs = some
      { cluster := [ansys 5032704]
        holders := [(2, (askAnsys 300000000).entries.map chargedEntry),
          (1, (askAnsys 4000000000).entries.map chargedEntry)] } := rfl
  have hbal := h.balanced.run hlast (ansys 5032704) List.mem_cons_self
  revert hbal
  decide

theorem accountingContract_iff_witness :
    Fresh idle ∧ (AccountingContract idle twoJobs ↔ Guarded execJob Fits idle twoJobs) := by
  have hfresh : Fresh idle :=
    { ids_nodup := List.nodup_singleton _
      unused := fun m hm => by
        rw [List.mem_singleton.mp hm]
        rfl
      holders := rfl }
  exact ⟨hfresh, accountingContract_iff hfresh twoJobs⟩

end Slurm.Licenses
