import Slurm.Lib.LockTable

/-!
# The lock of a federated job (`slurmctld/fed_mgr.c`)

Each cluster has a list of the federated jobs, and the entry of a job says which cluster has
locked it.  `jobLockSet` and `jobLockUnset` answer the requests at the cluster whose entry they
are about: `fed_mgr_job_lock_set` and `fed_mgr_job_lock_unset`.

`jobLock` and `jobUnlock` are `fed_mgr_job_lock` and `fed_mgr_job_unlock`, as programs of such
requests.  Clusters are numbered from 1 and stand for their entries; the variable of a program is
`fed_details->cluster_lock` of its cluster.  In answers `true` is `SLURM_SUCCESS`.

`exec` is a step of a federation whose clusters run them over and over for one job.
-/

namespace Slurm.FedMgr

open Lib.LockTable

/-! ## Entries -/

/-- `MAX_FED_CLUSTERS` -/
def maxFedClusters : Nat := 63

/-- `fed_job_info_t` -/
structure FedJobInfo where
  /-- 0 if the job is not locked. -/
  clusterLock : Nat
  updatingSibs : Nat → Nat
  updatingTime : Nat → Int

/-- The loop of `_job_has_pending_updates`, with the entry after it. -/
def pendingLoop (now : Int) : List Nat → FedJobInfo → Bool × FedJobInfo
  | [], info => (false, info)
  | i :: is, info =>
    if info.updatingSibs i ≠ 0 then
      if info.updatingTime i > now - 60 then (true, info)
      else pendingLoop now is { info with updatingSibs := Function.update info.updatingSibs i 0 }
    else pendingLoop now is info

/-- `_job_has_pending_updates` -/
def jobHasPendingUpdates (now : Int) (info : FedJobInfo) : Bool × FedJobInfo :=
  pendingLoop now (List.range' 1 maxFedClusters) info

/-- `fed_mgr_job_lock_set`, for the entry that `_find_fed_job_info` finds. -/
def jobLockSet (now : Int) (clusterId : Nat) : Option FedJobInfo → Bool × Option FedJobInfo
  | none => (false, none)
  | some info =>
    let (pending, info) := jobHasPendingUpdates now info
    if pending then (false, some info)
    else if info.clusterLock ≠ 0 ∧ info.clusterLock ≠ clusterId then (false, some info)
    else (true, some { info with clusterLock := clusterId })

/-- `fed_mgr_job_lock_unset` -/
def jobLockUnset (clusterId : Nat) : Option FedJobInfo → Bool × Option FedJobInfo
  | none => (false, none)
  | some info =>
    if info.clusterLock ≠ 0 ∧ info.clusterLock ≠ clusterId then (false, some info)
    else (true, some { info with clusterLock := 0 })

/-! ## The federation -/

/-- `persist_conn_t` -/
structure PersistConn where
  tlsConn : Bool

/-- `slurmdb_cluster_rec_t` -/
structure ClusterRec where
  send : Option PersistConn

/-- There is a connection to the cluster. -/
def ClusterRec.connected (cluster : ClusterRec) : Bool := cluster.send.any PersistConn.tlsConn

/-- `FED_SIBLING_BIT` -/
def fedSiblingBit (x : Nat) : BitVec 64 := 1#64 <<< (x - 1)

/-- `fed_mgr_get_cluster_id` -/
def getClusterId (id : BitVec 32) : Nat := (id >>> 26).toNat

/-- A federation and a federated job of it. -/
structure Fed where
  jobId : BitVec 32
  siblingsViable : BitVec 64
  /-- `fed_mgr_get_cluster_by_id` at a cluster. -/
  getClusterById : Nat → Nat → Option ClusterRec
  /-- The clusters that have the job and are up. -/
  runs : Nat → Bool
  /-- `_is_fed_job` -/
  isFedJob : getClusterId jobId ≠ 0
  runs_id : ∀ c, runs c → 1 ≤ c ∧ c ≤ maxFedClusters
  /-- Without viable siblings only the origin has the job. -/
  runs_job : ∀ c, runs c → siblingsViable ≠ 0 ∨ c = getClusterId jobId

/-- The origin of the job. -/
def Fed.origin (fed : Fed) : Nat := getClusterId fed.jobId

/-- A cluster sees another one up. -/
def Fed.sees (fed : Fed) (c t : Nat) : Prop := ∃ sibling, fed.getClusterById c t = some sibling ∧
  sibling.connected = true

/-- Every cluster sees the origin up. -/
def OriginUp (fed : Fed) : Prop := ∀ c, fed.runs c → c ≠ fed.origin → fed.sees c fed.origin

/-- Cluster `t` is a viable sibling. -/
def Fed.viable (fed : Fed) (t : Nat) : Prop := 1 ≤ t ∧ fed.siblingsViable.getLsbD (t - 1) = true

/-- Every cluster sees the origin down, and all other viable siblings up. -/
structure OriginDown (fed : Fed) : Prop where
  origin : fed.runs fed.origin = false
  down : ∀ c, fed.runs c → ¬ fed.sees c fed.origin
  siblings : ∀ c t, fed.runs c → fed.viable t → t ≠ fed.origin → t ≠ c → fed.sees c t

/-! ## Requests -/

/-- `_persist_fed_job_lock` -/
def persistFedJobLock (sibling : ClusterRec) (t : Nat) : Prog Nat Nat Bool :=
  if sibling.connected then askSet t else pure false

/-- `_persist_fed_job_unlock` -/
def persistFedJobUnlock (sibling : ClusterRec) (t : Nat) : Prog Nat Nat Bool :=
  if sibling.connected then askUnset t else pure false

/-- The loop of `_job_unlock_spec_sibs` for one sibling. -/
def unlockSib (fed : Fed) (clusterId sibId : Nat) : Prog Nat Nat Bool :=
  if clusterId = sibId then askUnset sibId
  else
    match fed.getClusterById clusterId sibId with
    | some sibling => persistFedJobUnlock sibling sibId
    | none => pure false

theorem toNat_shift_lt {b : BitVec 64} (h : b ≠ 0) : (b >>> 1).toNat < b.toNat := by
  have hpos : 0 < b.toNat := Nat.pos_of_ne_zero fun h0 => h (BitVec.eq_of_toNat_eq h0)
  rw [BitVec.toNat_ushiftRight, Nat.shiftRight_one]
  omega

/-- `_job_unlock_spec_sibs`, where `specSibs` was shifted up to `sibId`. -/
def jobUnlockSpecSibs (fed : Fed) (clusterId : Nat) (specSibs : BitVec 64) (sibId : Nat) :
    Prog Nat Nat Bool :=
  if h : specSibs = 0 then pure true
  else if specSibs.getLsbD 0 then
    unlockSib fed clusterId sibId >>= fun _ =>
      jobUnlockSpecSibs fed clusterId (specSibs >>> 1) (sibId + 1)
  else jobUnlockSpecSibs fed clusterId (specSibs >>> 1) (sibId + 1)
termination_by specSibs.toNat
decreasing_by all_goals exact toNat_shift_lt h

/-- The loop of `_job_lock_all_sibs` for one sibling: `none` if it is passed over. -/
def lockSib (fed : Fed) (clusterId sibId : Nat) : Prog Nat Nat (Option Bool) :=
  if clusterId = sibId then askSet sibId >>= fun ok => pure (some ok)
  else
    match fed.getClusterById clusterId sibId with
    | none => pure none
    | some sibling =>
      if sibling.send.isNone then pure none
      else persistFedJobLock sibling sibId >>= fun ok => pure (some ok)

/-- The loop of `_job_lock_all_sibs`: `all_said_yes` and `replied_sibs`. -/
def lockLoop (fed : Fed) (clusterId : Nat) (tmpSibs : BitVec 64) (sibId : Nat)
    (repliedSibs : BitVec 64) : Prog Nat Nat (Bool × BitVec 64) :=
  if h : tmpSibs = 0 then pure (true, repliedSibs)
  else if tmpSibs.getLsbD 0 then
    lockSib fed clusterId sibId >>= fun reply =>
      match reply with
      | none => lockLoop fed clusterId (tmpSibs >>> 1) (sibId + 1) repliedSibs
      | some true =>
        lockLoop fed clusterId (tmpSibs >>> 1) (sibId + 1) (repliedSibs ||| fedSiblingBit sibId)
      | some false => pure (false, repliedSibs)
  else lockLoop fed clusterId (tmpSibs >>> 1) (sibId + 1) repliedSibs
termination_by tmpSibs.toNat
decreasing_by all_goals exact toNat_shift_lt h

/-- `_job_lock_all_sibs` -/
def jobLockAllSibs (fed : Fed) (clusterId : Nat) : Prog Nat Nat Bool :=
  lockLoop fed clusterId (fed.siblingsViable &&& ~~~ fedSiblingBit fed.origin) 1 0 >>= fun replies =>
    if replies.1 ∧ (fed.siblingsViable &&& ~~~ fedSiblingBit clusterId = 0 ∨
        replies.2 &&& ~~~ fedSiblingBit clusterId ≠ 0) then
      pure true
    else jobUnlockSpecSibs fed clusterId replies.2 1 >>= fun _ => pure false

/-- `fed_mgr_job_lock`, where `dbdActive` is `acct_db_conn && _slurmdbd_conn_active()`. -/
def jobLock (fed : Fed) (clusterId : Nat) (dbdActive : Bool) : Prog Nat Nat Bool :=
  if fed.origin ≠ clusterId then
    let originCluster := fed.getClusterById clusterId fed.origin
    let request :=
      if dbdActive ∧ ¬ originCluster.any ClusterRec.connected then jobLockAllSibs fed clusterId
      else
        match originCluster with
        | some cluster => persistFedJobLock cluster fed.origin
        | none => pure false
    request >>= fun ok =>
      if ok then .store (fun _ => clusterId) (askSet clusterId >>= fun _ => pure true)
      else pure false
  else askSet clusterId

/-- `fed_mgr_job_unlock` -/
def jobUnlock (fed : Fed) (clusterId : Nat) : Prog Nat Nat Bool :=
  if fed.origin ≠ clusterId then
    let request :=
      match fed.getClusterById clusterId fed.origin with
      | some cluster =>
        if cluster.connected then persistFedJobUnlock cluster fed.origin
        else jobUnlockSpecSibs fed clusterId (fed.siblingsViable &&& ~~~ fedSiblingBit fed.origin) 1
      | none =>
        jobUnlockSpecSibs fed clusterId (fed.siblingsViable &&& ~~~ fedSiblingBit fed.origin) 1
    request >>= fun ok =>
      if ok then .store (fun _ => 0) (askUnset clusterId >>= fun _ => pure true)
      else pure false
  else askUnset clusterId

/-! ## Steps -/

/-- The clusters' entries for the job, `fed_details->cluster_lock`, and where each cluster is. -/
structure World where
  jobInfo : Nat → Option FedJobInfo
  clusterLock : Nat → Nat
  phase : Nat → Phase Nat Nat

inductive Event where
  /-- A cluster starts an attempt. -/
  | lock (c : Nat) (dbdActive : Bool)
  /-- The next request of a cluster is made and answered, at the time `now`. -/
  | request (c : Nat) (now : Int)
  /-- The attempt returns. -/
  | locked (c : Nat)
  /-- A cluster starts to release the lock. -/
  | unlock (c : Nat)
  | unlocked (c : Nat)

def World.setPhase (w : World) (c : Nat) (phase : Phase Nat Nat) : World :=
  { w with phase := Function.update w.phase c phase }

/-- The next request of a program. -/
def request (w : World) (c : Nat) (now : Int) :
    Prog Nat Nat Bool → Option (World × Prog Nat Nat Bool)
  | .ret _ => none
  | .set t k =>
    let (ok, info) := jobLockSet now c (w.jobInfo t)
    some ({ w with jobInfo := Function.update w.jobInfo t info }, k ok)
  | .unset t k =>
    let (ok, info) := jobLockUnset c (w.jobInfo t)
    some ({ w with jobInfo := Function.update w.jobInfo t info }, k ok)
  | .store f k =>
    some ({ w with clusterLock := Function.update w.clusterLock c (f (w.clusterLock c)) }, k)

/-- A step of the federation. -/
def exec (fed : Fed) (w : World) : Event → Option World
  | .lock c dbdActive =>
    match w.phase c with
    | .idle => if fed.runs c then some (w.setPhase c (.locking (jobLock fed c dbdActive))) else none
    | _ => none
  | .request c now =>
    match w.phase c with
    | .locking p => (request w c now p).map fun next => next.1.setPhase c (.locking next.2)
    | .unlocking p => (request w c now p).map fun next => next.1.setPhase c (.unlocking next.2)
    | _ => none
  | .locked c =>
    match w.phase c with
    | .locking (.ret ok) => some (w.setPhase c (if ok then .held else .idle))
    | _ => none
  | .unlock c =>
    match w.phase c with
    | .held => some (w.setPhase c (.unlocking (jobUnlock fed c)))
    | _ => none
  | .unlocked c =>
    match w.phase c with
    | .unlocking (.ret _) => some (w.setPhase c .idle)
    | _ => none

end Slurm.FedMgr

/-!
## What the programs make sure of

`sibs` are the clusters in a set of bits.  `unlockSpecSibs_spec` and `lockLoop_spec` are the rules
for the two loops over siblings.  To hold the lock is to own a set of entries and at
most one's own entry besides (`Held`): the origin's entry, if the origin is up, and the entries of
all viable siblings, if it is down.

* `jobLock_up`, `jobUnlock_up`: the origin is up.
* `jobLock_down`, `jobUnlock_down`: the origin is down.
-/

namespace Slurm.FedMgr

open Lib.LockTable

variable {fed : Fed} {c t : Nat} {H : Set Nat}
variable {b : BitVec 64} {sibId : Nat}

/-! ## Sets of siblings -/

/-- The clusters in a set of bits that was shifted up to `sibId`. -/
def sibs (b : BitVec 64) (sibId : Nat) : Set Nat := {t | sibId ≤ t ∧ b.getLsbD (t - sibId) = true}

theorem sibs_zero (sibId : Nat) : sibs 0 sibId = ∅ := by
  ext t
  simp [sibs]

theorem nonempty_sibs (h : b ≠ 0) : (sibs b 1).Nonempty := by
  by_contra hempty
  refine h (BitVec.eq_of_getLsbD_eq fun i _ => ?_)
  rw [show (0 : BitVec 64).getLsbD i = false from BitVec.getLsbD_zero, ← Bool.not_eq_true]
  intro hi
  exact hempty ⟨i + 1, Nat.le_add_left 1 i, hi⟩

/-- The first bit, and the others. -/
theorem mem_sibs_shift :
    t ∈ sibs b sibId ↔ (t = sibId ∧ b.getLsbD 0 = true) ∨ t ∈ sibs (b >>> 1) (sibId + 1) := by
  simp only [sibs, Set.mem_ofPred_eq, BitVec.getLsbD_ushiftRight]
  rcases Nat.lt_trichotomy t sibId with hlt | heq | hgt
  · exact iff_of_false (by omega) (by omega)
  · rw [heq, Nat.sub_self]
    simp
  · rw [show 1 + (t - (sibId + 1)) = t - sibId by omega]
    simp only [Nat.le_of_lt hgt, Nat.succ_le_of_lt hgt, true_and]
    exact (or_iff_right fun h => absurd h.1 (Nat.ne_of_gt hgt)).symm

theorem sibs_cons (h : b.getLsbD 0 = true) :
    sibs b sibId = insert sibId (sibs (b >>> 1) (sibId + 1)) := by
  ext t
  rw [mem_sibs_shift, Set.mem_insert_iff, h]
  simp

theorem sibs_skip (h : b.getLsbD 0 ≠ true) : sibs b sibId = sibs (b >>> 1) (sibId + 1) := by
  ext t
  rw [mem_sibs_shift]
  exact or_iff_right fun ht => h ht.2

theorem le_of_mem_sibs (h : t ∈ sibs b 1) : t ≤ 64 := by
  have hlt := BitVec.lt_of_getLsbD h.2
  omega

theorem getLsbD_fedSiblingBit {s i : Nat} (hs : 1 ≤ s) (hi : i < 64) :
    (fedSiblingBit s).getLsbD i = decide (i + 1 = s) := by
  unfold fedSiblingBit
  rw [BitVec.getLsbD_shiftLeft, BitVec.getLsbD_one]
  simp only [hi, decide_true, Bool.true_and]
  rw [← Bool.coe_iff_coe]
  simp
  omega

theorem not_mem_sibs (ht : ¬ (1 ≤ t ∧ t ≤ 64)) : t ∉ sibs b 1 := fun h =>
  ht ⟨h.1, le_of_mem_sibs h⟩

theorem sibs_or_bit {b : BitVec 64} {s : Nat} (hs : 1 ≤ s) (hle : s ≤ 64) :
    sibs (b ||| fedSiblingBit s) 1 = insert s (sibs b 1) := by
  ext t
  by_cases ht : 1 ≤ t ∧ t ≤ 64
  · simp only [sibs, Set.mem_ofPred_eq, Set.mem_insert_iff, BitVec.getLsbD_or]
    rw [getLsbD_fedSiblingBit hs (by omega), show t - 1 + 1 = t by omega]
    simp [ht.1, or_comm]
  · refine iff_of_false (not_mem_sibs ht) fun h => ?_
    rcases Set.mem_insert_iff.mp h with rfl | h
    · exact ht ⟨hs, hle⟩
    · exact not_mem_sibs ht h

theorem mem_sibs_and_not {b : BitVec 64} {s : Nat} (hs : 1 ≤ s) :
    t ∈ sibs (b &&& ~~~ fedSiblingBit s) 1 ↔ t ∈ sibs b 1 ∧ t ≠ s := by
  by_cases ht : 1 ≤ t ∧ t ≤ 64
  · simp only [sibs, Set.mem_ofPred_eq, BitVec.getLsbD_and, BitVec.getLsbD_not]
    rw [getLsbD_fedSiblingBit hs (by omega), show t - 1 + 1 = t by omega]
    simp [ht.1, show t - 1 < 64 by omega]
  · exact iff_of_false (not_mem_sibs ht) fun h => not_mem_sibs ht h.1

/-! ## The loops over siblings -/

/-- A request can be made of a cluster. -/
def Reachable (fed : Fed) (c t : Nat) : Prop := t = c ∨ fed.sees c t

theorem askUnset_spec : Spec (fun _ H' => H' = H \ {t}) (askUnset t : Prog Nat Nat Bool) H :=
  (spec_askUnset t).mpr ⟨rfl, fun ht => (Set.sdiff_singleton_eq_self ht).symm⟩

theorem unlockSib_spec (h : Reachable fed c t) :
    Spec (fun _ H' => H' = H \ {t}) (unlockSib fed c t) H := by
  unfold unlockSib
  split
  · exact askUnset_spec
  · rename_i hct
    obtain ⟨sibling, hsibling, hconn⟩ := h.resolve_left (Ne.symm hct)
    rw [hsibling]
    simp only [persistFedJobUnlock, hconn, if_true]
    exact askUnset_spec

theorem unlockSpecSibs_spec (b : BitVec 64) (sibId : Nat) (H : Set Nat)
    (h : ∀ t ∈ sibs b sibId, Reachable fed c t) :
    Spec (fun ok H' => ok = true ∧ H' = H \ sibs b sibId) (jobUnlockSpecSibs fed c b sibId) H := by
  induction b, sibId using jobUnlockSpecSibs.induct generalizing H with
  | case1 sibId =>
    rw [jobUnlockSpecSibs, dif_pos rfl, spec_pure, sibs_zero, Set.sdiff_empty]
    exact ⟨rfl, rfl⟩
  | case2 b sibId hb hbit ih =>
    rw [sibs_cons hbit] at h ⊢
    rw [jobUnlockSpecSibs, dif_neg hb, if_pos hbit, spec_bind]
    refine (unlockSib_spec (h sibId (Set.mem_insert _ _))).mono fun _ H' hH' => ?_
    refine (ih H' fun t ht => h t (Set.mem_insert_of_mem _ ht)).mono fun ok H'' hH'' => ?_
    rw [hH''.2, hH', Set.sdiff_sdiff, Set.singleton_union]
    exact ⟨hH''.1, rfl⟩
  | case3 b sibId hb hbit ih =>
    rw [sibs_skip hbit] at h ⊢
    rw [jobUnlockSpecSibs, dif_neg hb, if_neg hbit]
    exact ih H h

theorem lockSib_spec (h : Reachable fed c t) :
    Spec (fun reply H' => (reply = some true ∧ H' = insert t H) ∨ (reply = some false ∧ H' = H))
      (lockSib fed c t) H := by
  have hask : Spec
      (fun reply H' => (reply = some true ∧ H' = insert t H) ∨ (reply = some false ∧ H' = H))
      ((askSet t : Prog Nat Nat Bool) >>= fun ok => pure (some ok)) H := by
    rw [spec_bind, spec_askSet, spec_pure, spec_pure]
    exact ⟨Or.inl ⟨rfl, rfl⟩, Or.inr ⟨rfl, rfl⟩⟩
  unfold lockSib
  split
  · exact hask
  · rename_i hct
    obtain ⟨sibling, hsibling, hconn⟩ := h.resolve_left (Ne.symm hct)
    have hsend : sibling.send.isNone = false := by
      cases hnone : sibling.send with
      | none =>
        unfold ClusterRec.connected at hconn
        rw [hnone] at hconn
        cases hconn
      | some send => rfl
    rw [hsibling]
    simp only [hsend, persistFedJobLock, hconn, if_true]
    exact hask

/-- What is owned is what replied, and all siblings did if all said yes. -/
theorem lockLoop_spec (b : BitVec 64) (sibId : Nat) (replied : BitVec 64)
    (h : ∀ t ∈ sibs b sibId, Reachable fed c t) (hle : ∀ t ∈ sibs b sibId, t ≤ 64)
    (hpos : 1 ≤ sibId) :
    Spec (fun replies H' => H' = sibs replies.2 1 ∧ sibs replies.2 1 ⊆ sibs replied 1 ∪ sibs b sibId ∧
        (replies.1 = true → sibs replied 1 ∪ sibs b sibId ⊆ sibs replies.2 1))
      (lockLoop fed c b sibId replied) (sibs replied 1) := by
  induction b, sibId, replied using lockLoop.induct with
  | case1 sibId replied =>
    rw [lockLoop, dif_pos rfl, spec_pure, sibs_zero, Set.union_empty]
    exact ⟨rfl, subset_rfl, fun _ => subset_rfl⟩
  | case2 b sibId replied hb hbit ihSkip ihReplied =>
    rw [sibs_cons hbit] at h hle ⊢
    have h' := fun t ht => h t (Set.mem_insert_of_mem _ ht)
    have hle' := fun t ht => hle t (Set.mem_insert_of_mem _ ht)
    rw [lockLoop, dif_neg hb, if_pos hbit, spec_bind]
    refine (lockSib_spec (h sibId (Set.mem_insert _ _))).mono fun reply H' hreply => ?_
    rcases hreply with ⟨rfl, rfl⟩ | ⟨rfl, rfl⟩
    · have hor := @sibs_or_bit replied sibId hpos (hle sibId (Set.mem_insert _ _))
      rw [← hor]
      refine (ihReplied h' hle' (Nat.le_add_left 1 sibId)).mono fun replies H' hH' => ?_
      rw [hor, Set.insert_union, ← Set.union_insert] at hH'
      exact hH'
    · rw [spec_pure]
      exact ⟨rfl, Set.subset_union_left, nofun⟩
  | case3 b sibId replied hb hbit ih =>
    rw [sibs_skip hbit] at h hle ⊢
    rw [lockLoop, dif_neg hb, if_neg hbit]
    exact ih h hle (Nat.le_add_left 1 sibId)

/-! ## Holding the lock -/

/-- A cluster that holds the lock owns the entries `A`, and at most its own besides. -/
def Held (A : Set Nat) (c : Nat) (H : Set Nat) : Prop := A.Nonempty ∧ A ⊆ H ∧ H ⊆ insert c A

/-- What an attempt makes sure of. -/
def Attempt (A : Set Nat) (c : Nat) (ok : Bool) (H : Set Nat) : Prop :=
  if ok then Held A c H else H = ∅

/-- The viable siblings but the origin. -/
def Fed.siblings (fed : Fed) : Set Nat :=
  sibs (fed.siblingsViable &&& ~~~ fedSiblingBit fed.origin) 1

theorem Fed.origin_pos (fed : Fed) : 1 ≤ fed.origin := Nat.pos_of_ne_zero fed.isFedJob

theorem mem_siblings : t ∈ fed.siblings ↔ fed.viable t ∧ t ≠ fed.origin :=
  mem_sibs_and_not fed.origin_pos

/-- The second, unchecked request of an attempt that was granted. -/
theorem lockOwn_spec {A : Set Nat} {p : Prog Nat Nat Bool}
    (h : Spec (fun ok H => if ok then A.Nonempty ∧ H = A else H = ∅) p ∅) :
    Spec (Attempt A c) (p >>= fun ok =>
      if ok then .store (fun _ => c) (askSet c >>= fun _ => pure true) else pure false) ∅ := by
  rw [spec_bind]
  refine h.mono fun ok H hH => ?_
  cases ok with
  | false => exact hH
  | true =>
    obtain ⟨hne, rfl⟩ := hH
    rw [if_pos rfl]
    show Spec _ (askSet c >>= fun _ => pure true) H
    rw [spec_bind, spec_askSet]
    exact ⟨⟨hne, Set.subset_insert c H, subset_rfl⟩, ⟨hne, subset_rfl, Set.subset_insert c H⟩⟩

/-- The second request of a release. -/
theorem unlockOwn_spec {A : Set Nat} {p : Prog Nat Nat Bool} (hheld : Held A c H)
    (h : Spec (fun ok H' => ok = true ∧ H' = H \ A) p H) :
    Spec (fun _ H' => H' = ∅) (p >>= fun ok =>
      if ok then .store (fun _ => 0) (askUnset c >>= fun _ => pure true) else pure false) H := by
  rw [spec_bind]
  refine h.mono fun ok H' hH' => ?_
  obtain ⟨rfl, rfl⟩ := hH'
  rw [if_pos rfl]
  show Spec _ (askUnset c >>= fun _ => pure true) (H \ A)
  rw [spec_bind]
  refine askUnset_spec.mono fun _ H' hH' => ?_
  rw [spec_pure, hH', Set.sdiff_sdiff, Set.union_singleton]
  exact Set.sdiff_eq_empty.mpr hheld.2.2

/-! ## The origin is up -/

theorem jobLock_up (h : OriginUp fed) (hc : fed.runs c = true) (dbdActive : Bool) :
    Spec (Attempt {fed.origin} c) (jobLock fed c dbdActive) ∅ := by
  unfold jobLock
  split
  · rename_i hne
    obtain ⟨cluster, hcluster, hconn⟩ := h c hc (Ne.symm hne)
    rw [hcluster]
    refine lockOwn_spec ?_
    simp only [Option.any_some, hconn, not_true, and_false, if_false, persistFedJobLock, if_true]
    rw [spec_askSet]
    exact ⟨⟨Set.singleton_nonempty _, insert_empty_eq _⟩, rfl⟩
  · rename_i heq
    rw [spec_askSet, ← not_not.mp heq]
    refine ⟨⟨Set.singleton_nonempty _, ?_, ?_⟩, rfl⟩
    · rw [insert_empty_eq]
    · rw [insert_empty_eq]
      exact Set.subset_insert _ _

theorem jobUnlock_up (h : OriginUp fed) (hc : fed.runs c = true) (hheld : Held {fed.origin} c H) :
    Spec (fun _ H' => H' = ∅) (jobUnlock fed c) H := by
  have horigin : fed.origin ∈ H := hheld.2.1 rfl
  unfold jobUnlock
  split
  · rename_i hne
    obtain ⟨cluster, hcluster, hconn⟩ := h c hc (Ne.symm hne)
    rw [hcluster]
    refine unlockOwn_spec hheld ?_
    simp only [hconn, if_true, persistFedJobUnlock]
    rw [spec_askUnset]
    exact ⟨⟨rfl, rfl⟩, fun hnot => absurd horigin hnot⟩
  · rename_i heq
    refine askUnset_spec.mono fun _ H' hH' => ?_
    have hsub := hheld.2.2
    rw [not_not.mp heq, Set.pair_eq_singleton] at hsub
    rw [hH']
    exact Set.sdiff_eq_empty.mpr hsub

/-! ## The origin is down -/

theorem reachable_siblings (h : OriginDown fed) (hc : fed.runs c = true) (ht : t ∈ fed.siblings) :
    Reachable fed c t := by
  obtain ⟨hviable, hne⟩ := mem_siblings.mp ht
  by_cases htc : t = c
  · exact Or.inl htc
  · exact Or.inr (h.siblings c t hc hviable hne htc)

/-- A cluster that talked to all siblings, or is the only one, has a viable sibling. -/
theorem siblings_nonempty (hc : fed.runs c = true) (hne : fed.origin ≠ c)
    (h : fed.siblingsViable &&& ~~~ fedSiblingBit c = 0 ∨ fed.siblings.Nonempty) :
    fed.siblings.Nonempty := by
  rcases h with h | h
  · have hviable := (fed.runs_job c hc).resolve_right (Ne.symm hne)
    obtain ⟨t, ht⟩ := nonempty_sibs hviable
    refine ⟨t, mem_siblings.mpr ⟨ht, ?_⟩⟩
    rintro rfl
    have hmem := (@mem_sibs_and_not fed.origin fed.siblingsViable c (fed.runs_id c hc).1).mpr
      ⟨ht, hne⟩
    rw [h, sibs_zero] at hmem
    exact hmem
  · exact h

theorem jobLockAllSibs_spec (h : OriginDown fed) (hc : fed.runs c = true) (hne : fed.origin ≠ c) :
    Spec (fun ok H => if ok then fed.siblings.Nonempty ∧ H = fed.siblings else H = ∅)
      (jobLockAllSibs fed c) ∅ := by
  unfold jobLockAllSibs
  rw [spec_bind]
  have hreach : ∀ t ∈ fed.siblings, Reachable fed c t := fun t ht => reachable_siblings h hc ht
  have hloop := lockLoop_spec _ 1 0 hreach (fun t ht => le_of_mem_sibs ht) le_rfl
  rw [sibs_zero, Set.empty_union] at hloop
  refine hloop.mono fun replies H hH => ?_
  obtain ⟨rfl, hsub, hall⟩ := hH
  split
  · rename_i hok
    have hsibs : sibs replies.2 1 = fed.siblings := subset_antisymm hsub (hall hok.1)
    rw [spec_pure, if_pos rfl]
    refine ⟨siblings_nonempty hc hne (hok.2.imp_right fun hreplied => ?_), hsibs⟩
    rw [← hsibs]
    refine nonempty_sibs fun hzero => hreplied ?_
    rw [hzero]
    exact BitVec.zero_and
  · rw [spec_bind]
    refine (unlockSpecSibs_spec replies.2 1 _ fun t ht => hreach t (hsub ht)).mono
      fun ok H' hH' => ?_
    rw [spec_pure, hH'.2]
    exact sdiff_self

theorem jobLock_down (h : OriginDown fed) (hc : fed.runs c = true) (dbdActive : Bool) :
    Spec (Attempt fed.siblings c) (jobLock fed c dbdActive) ∅ := by
  have hne : fed.origin ≠ c := by
    rintro rfl
    rw [h.origin] at hc
    cases hc
  have hdown : ∀ cluster, fed.getClusterById c fed.origin = some cluster →
      cluster.connected = false := fun cluster hcluster =>
    Bool.eq_false_iff.mpr fun hconn => h.down c hc ⟨cluster, hcluster, hconn⟩
  unfold jobLock
  rw [if_pos hne]
  refine lockOwn_spec ?_
  split
  · exact jobLockAllSibs_spec h hc hne
  · split
    · rename_i cluster hcluster
      rw [persistFedJobLock, hdown cluster hcluster]
      exact rfl
    · exact rfl

theorem jobUnlock_down (h : OriginDown fed) (hc : fed.runs c = true)
    (hheld : Held fed.siblings c H) : Spec (fun _ H' => H' = ∅) (jobUnlock fed c) H := by
  have hne : fed.origin ≠ c := by
    rintro rfl
    rw [h.origin] at hc
    cases hc
  have hunlock : Spec (fun ok H' => ok = true ∧ H' = H \ fed.siblings)
      (jobUnlockSpecSibs fed c (fed.siblingsViable &&& ~~~ fedSiblingBit fed.origin) 1) H :=
    unlockSpecSibs_spec _ 1 H fun t ht => reachable_siblings h hc ht
  unfold jobUnlock
  rw [if_pos hne]
  refine unlockOwn_spec hheld ?_
  split
  · rename_i cluster hcluster
    rw [if_neg fun hconn => h.down c hc ⟨cluster, hcluster, hconn⟩]
    exact hunlock
  · exact hunlock

end Slurm.FedMgr
