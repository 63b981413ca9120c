import Slurm.FedMgr.Model
import Slurm.Lib.Run

/-!
# The lock of a federated job is exclusive

`lockContract` is about the runs of a federation: no two clusters hold the lock of a job, an
attempt that fails leaves no entry locked by its cluster, and neither does a release.

* `jobLockSet_answers`, `jobLockUnset_answers`: the answers are those of a lock table.
* `exec_step`: a step of the federation is a step of the clients of a lock table.
-/

namespace Slurm.FedMgr

open Lib.LockTable Lib.Run Option Function

variable {fed : Fed} {w w' : World} {c t : Nat} {now : Int}
variable {p' : Prog Nat Nat Bool} {A : Set Nat} {e : Event}

/-! ## Entries -/

/-- Who has locked an entry. -/
def lockedBy (info : Option FedJobInfo) : Option Nat :=
  info.bind fun info => if info.clusterLock = 0 then none else some info.clusterLock

theorem pendingLoop_clusterLock (is : List Nat) (info : FedJobInfo) :
    (pendingLoop now is info).2.clusterLock = info.clusterLock := by
  induction is generalizing info with
  | nil => rfl
  | cons i is ih =>
    rw [pendingLoop]
    split
    · split
      · rfl
      · exact ih _
    · exact ih _

theorem lockedBy_of_free {info : FedJobInfo}
    (h : ¬ (info.clusterLock ≠ 0 ∧ info.clusterLock ≠ c)) :
    lockedBy (some info) = none ∨ lockedBy (some info) = some c := by
  by_cases h0 : info.clusterLock = 0
  · exact Or.inl (if_pos h0)
  · refine Or.inr ((if_neg h0).trans ?_)
    rw [not_not.mp fun hne => h ⟨h0, hne⟩]

/-- The table of who has locked which entry. -/
def lockTable (jobInfo : Nat → Option FedJobInfo) : Nat → Option Nat := fun t => lockedBy (jobInfo t)

theorem lockTable_update (jobInfo : Nat → Option FedJobInfo) (t : Nat) (info : Option FedJobInfo) :
    lockTable (Function.update jobInfo t info) =
      Function.update (lockTable jobInfo) t (lockedBy info) := by
  ext u
  unfold lockTable
  by_cases hu : u = t
  · rw [hu, update_self, update_self]
  · rw [update_of_ne hu, update_of_ne hu]

theorem setTo_refused {T : Nat → Option Nat} {o : Option Nat} (h : o = T t) :
    SetTo T c t false (Function.update T t o) := by
  rw [h, update_eq_self]
  exact .refused

theorem jobLockSet_answers (hc : c ≠ 0) (jobInfo : Nat → Option FedJobInfo) :
    SetTo (lockTable jobInfo) c t (jobLockSet now c (jobInfo t)).1
      (lockTable (Function.update jobInfo t (jobLockSet now c (jobInfo t)).2)) := by
  rw [lockTable_update]
  cases hinfo : jobInfo t with
  | none => exact setTo_refused (congrArg lockedBy hinfo).symm
  | some info =>
    have hlock := @pendingLoop_clusterLock now (List.range' 1 maxFedClusters) info
    have hsame : lockedBy (some (jobHasPendingUpdates now info).2) = lockTable jobInfo t := by
      rw [lockTable, hinfo, lockedBy, lockedBy, bind_some, bind_some,
        jobHasPendingUpdates, hlock]
    rw [jobLockSet]
    simp only
    split
    · exact setTo_refused hsame
    split
    · exact setTo_refused hsame
    · rename_i hfree
      rw [show lockedBy (some { (jobHasPendingUpdates now info).2 with clusterLock := c }) = some c
        from if_neg hc]
      refine .granted ?_
      rw [← hsame]
      exact lockedBy_of_free hfree

theorem jobLockUnset_answers (jobInfo : Nat → Option FedJobInfo) :
    UnsetTo (lockTable jobInfo) c t (jobLockUnset c (jobInfo t)).1
      (lockTable (Function.update jobInfo t (jobLockUnset c (jobInfo t)).2)) := by
  rw [lockTable_update]
  have hrefused : ∀ o, o = lockTable jobInfo t → lockTable jobInfo t ≠ some c →
      UnsetTo (lockTable jobInfo) c t false (Function.update (lockTable jobInfo) t o) := by
    intro o ho hne
    rw [ho, update_eq_self]
    exact .refused hne
  cases hinfo : jobInfo t with
  | none =>
    refine hrefused _ (congrArg lockedBy hinfo).symm ?_
    rw [lockTable, hinfo]
    exact nofun
  | some info =>
    have hsame : lockTable jobInfo t = lockedBy (some info) := congrArg lockedBy hinfo
    rw [jobLockUnset]
    split
    · rename_i hlocked
      refine hrefused _ hsame.symm ?_
      rw [hsame, show lockedBy (some info) = some info.clusterLock from if_neg hlocked.1]
      exact fun h => hlocked.2 (Option.some.inj h)
    · rename_i hfree
      refine .released ?_
      rw [hsame]
      exact lockedBy_of_free hfree

/-! ## The federation as clients of a lock table -/

/-- The entries that a cluster locks before it holds the lock. -/
def Arbiters (fed : Fed) (A : Set Nat) : Prop :=
  (OriginUp fed ∧ A = {fed.origin}) ∨ (OriginDown fed ∧ A = fed.siblings)

/-- The clients are the clusters. -/
def protocol (fed : Fed) {A : Set Nat} (h : Arbiters fed A) : Protocol Nat Nat Nat Bool where
  Runs c := fed.runs c = true
  lock := jobLock fed
  unlock := jobUnlock fed
  Held := Held A
  lock_spec c dbdActive hc := by
    rcases h with ⟨hup, rfl⟩ | ⟨hdown, rfl⟩
    · exact jobLock_up hup hc dbdActive
    · exact jobLock_down hdown hc dbdActive
  unlock_spec c H hc hheld := by
    rcases h with ⟨hup, rfl⟩ | ⟨hdown, rfl⟩
    · exact jobUnlock_up hup hc hheld
    · exact jobUnlock_down hdown hc hheld
  conflict c d H H' _ _ hH hH' := hH.1.imp fun t ht => ⟨hH.2.1 ht, hH'.2.1 ht⟩

/-- What the clients of a lock table see of the federation. -/
def World.clients (w : World) : State Nat Nat Nat :=
  { table := lockTable w.jobInfo, phase := w.phase }

theorem request_answers (hc : c ≠ 0) {p : Prog Nat Nat Bool}
    (h : request w c now p = some (w', p')) :
    Request c (lockTable w.jobInfo) p (lockTable w'.jobInfo) p' ∧ w'.phase = w.phase := by
  cases p with
  | ret ok => cases h
  | set t k =>
    obtain ⟨rfl, rfl⟩ := Prod.mk.inj (Option.some.inj h)
    exact ⟨.set (jobLockSet_answers hc w.jobInfo), rfl⟩
  | unset t k =>
    obtain ⟨rfl, rfl⟩ := Prod.mk.inj (Option.some.inj h)
    exact ⟨.unset (jobLockUnset_answers w.jobInfo), rfl⟩
  | store f k =>
    obtain ⟨rfl, rfl⟩ := Prod.mk.inj (Option.some.inj h)
    exact ⟨.store, rfl⟩

theorem clients_setPhase (w : World) (c : Nat) (phase : Phase Nat Nat) :
    (w.setPhase c phase).clients = w.clients.setPhase c phase := rfl

/-- A request is made for a cluster, and its place moves. -/
theorem clients_request (hphase : w'.phase = w.phase) (phase : Prog Nat Nat Bool → Phase Nat Nat) :
    (w'.setPhase c (phase p')).clients =
      State.setPhase { w.clients with table := lockTable w'.jobInfo } c (phase p') := by
  rw [clients_setPhase]
  unfold World.clients
  rw [hphase]

/-- A cluster that does something has an id. -/
theorem id_ne_zero {h : Arbiters fed A} (hinv : Inv (protocol fed h) w.clients)
    (hc : w.phase c ≠ .idle) : c ≠ 0 :=
  Nat.ne_of_gt (fed.runs_id c (hinv.runs hc)).1

/-- A step of the federation is a step of a client. -/
theorem exec_step (h : Arbiters fed A) (hinv : Inv (protocol fed h) w.clients)
    (hexec : exec fed w e = some w') : ∃ c, Step (protocol fed h) w.clients c w'.clients := by
  cases e with
  | lock c dbdActive =>
    rw [exec] at hexec
    split at hexec
    · rename_i hidle
      split at hexec
      · rename_i hc
        cases hexec
        exact ⟨c, .beginLock dbdActive hc hidle⟩
      · cases hexec
    · cases hexec
  | request c now =>
    rw [exec] at hexec
    split at hexec
    · rename_i p hlocking
      obtain ⟨next, hnext, rfl⟩ := Option.map_eq_some_iff.mp hexec
      have hc : w.phase c ≠ .idle := by simp [hlocking]
      obtain ⟨hreq, hphase⟩ := request_answers (id_ne_zero hinv hc) hnext
      rw [clients_request hphase]
      exact ⟨c, .locking hlocking hreq⟩
    · rename_i p hunlocking
      obtain ⟨next, hnext, rfl⟩ := Option.map_eq_some_iff.mp hexec
      have hc : w.phase c ≠ .idle := by simp [hunlocking]
      obtain ⟨hreq, hphase⟩ := request_answers (id_ne_zero hinv hc) hnext
      rw [clients_request hphase]
      exact ⟨c, .unlocking hunlocking hreq⟩
    · cases hexec
  | locked c =>
    rw [exec] at hexec
    split at hexec
    · rename_i ok hlocking
      cases hexec
      exact ⟨c, .endLock hlocking⟩
    · cases hexec
  | unlock c =>
    rw [exec] at hexec
    split at hexec
    · rename_i hheld
      cases hexec
      exact ⟨c, .beginUnlock hheld⟩
    · cases hexec
  | unlocked c =>
    rw [exec] at hexec
    split at hexec
    · rename_i ok hunlocking
      cases hexec
      exact ⟨c, .endUnlock hunlocking⟩
    · cases hexec

/-! ## The contract -/

/-- No two clusters hold the lock: an attempt has succeeded, and its cluster has not started to
release the lock. -/
def Exclusive (w : World) : Prop := ∀ c d, w.phase c = .held → w.phase d = .held → c = d

/-- No entry holds the cluster's id. -/
def HoldsNone (w : World) (c : Nat) : Prop := ∀ t info, w.jobInfo t = some info → info.clusterLock ≠ c

/-- What the end of an attempt or a release leaves. -/
structure EndHolds (e : Event) (w' : World) : Prop where
  /-- An attempt that fails leaves no entry to its cluster. -/
  failed : ∀ c, e = .locked c → w'.phase c = .idle → HoldsNone w' c
  released : ∀ c, e = .unlocked c → HoldsNone w' c

def LockContract (fed : Fed) (w : World) (es : List Event) : Prop :=
  Always (exec fed) Exclusive w es ∧ EachStep (exec fed) (fun _ e w' => EndHolds e w') w es

/-- No cluster has locked the job or tries to. -/
def start (jobInfo : Nat → Option FedJobInfo) (clusterLock : Nat → Nat) : World :=
  { jobInfo := jobInfo, clusterLock := clusterLock, phase := fun _ => .idle }

theorem exec_inv (h : Arbiters fed A) (hinv : Inv (protocol fed h) w.clients)
    (hexec : exec fed w e = some w') : Inv (protocol fed h) w'.clients := by
  obtain ⟨c, hstep⟩ := exec_step h hinv hexec
  exact hstep.inv hinv

/-- An idle cluster has locked no entry. -/
theorem holdsNone_of_idle {h : Arbiters fed A} (hinv : Inv (protocol fed h) w.clients) (hc : c ≠ 0)
    (hidle : w.phase c = .idle) : HoldsNone w c := by
  intro t info hinfo hlock
  refine hinv.idle hidle t ?_
  show lockedBy (w.jobInfo t) = some c
  rw [hinfo, lockedBy, bind_some, if_neg (by rw [hlock]; exact hc), hlock]

theorem unlocked_idle (hexec : exec fed w (.unlocked c) = some w') : w'.phase c = .idle := by
  rw [exec] at hexec
  split at hexec
  · cases hexec
    exact update_self _ _ _
  · cases hexec

/-- The end of an attempt or of a release is one of a cluster that does something. -/
theorem end_phase (hexec : exec fed w e = some w') (he : e = .locked c ∨ e = .unlocked c) :
    w.phase c ≠ .idle := by
  intro hidle
  rcases he with rfl | rfl
  · rw [exec, hidle] at hexec
    cases hexec
  · rw [exec, hidle] at hexec
    cases hexec

theorem exec_endHolds (h : Arbiters fed A) (hinv : Inv (protocol fed h) w.clients)
    (hexec : exec fed w e = some w') : EndHolds e w' := by
  have hinv' := exec_inv h hinv hexec
  constructor
  · rintro c rfl hidle
    exact holdsNone_of_idle hinv' (id_ne_zero hinv (end_phase hexec (Or.inl rfl))) hidle
  · rintro c rfl
    exact holdsNone_of_idle hinv' (id_ne_zero hinv (end_phase hexec (Or.inr rfl)))
      (unlocked_idle hexec)

theorem inv_clients_start (h : Arbiters fed A) {jobInfo : Nat → Option FedJobInfo}
    (hfree : ∀ t info, jobInfo t = some info → info.clusterLock = 0) (clusterLock : Nat → Nat) :
    Inv (protocol fed h) (start jobInfo clusterLock).clients := by
  have hstart : (start jobInfo clusterLock).clients = State.start := by
    unfold World.clients start State.start
    congr
    funext t
    show lockedBy (jobInfo t) = none
    cases hinfo : jobInfo t with
    | none => rfl
    | some info => exact if_pos (hfree t info hinfo)
  rw [hstart]
  exact inv_start _

/-- In every run of a federation that sees the origin up, or sees it down and all other viable
siblings up, the lock of a job that nobody has locked yet is exclusive. -/
theorem lockContract (fed : Fed) (h : OriginUp fed ∨ OriginDown fed)
    (jobInfo : Nat → Option FedJobInfo)
    (hfree : ∀ t info, jobInfo t = some info → info.clusterLock = 0) (clusterLock : Nat → Nat)
    (es : List Event) : LockContract fed (start jobInfo clusterLock) es := by
  obtain ⟨A, hA⟩ : ∃ A, Arbiters fed A := by
    rcases h with hup | hdown
    · exact ⟨_, Or.inl ⟨hup, rfl⟩⟩
    · exact ⟨_, Or.inr ⟨hdown, rfl⟩⟩
  refine always_eachStep_of_inv (I := fun w => Inv (protocol fed hA) w.clients)
    (fun w hinv c d hc hd => ?_) (fun w e w' hinv hexec => ?_) (inv_clients_start hA hfree _) es
  · exact hinv.exclusive hc hd
  · exact ⟨exec_inv hA hinv hexec, exec_endHolds hA hinv hexec⟩

/-- Clusters 2 and 3 are the viable siblings of a job of cluster 1, which is down. -/
def twoSiblings : Fed where
  jobId := 1#32 <<< 26
  siblingsViable := 6
  getClusterById _ t := if t = 1 then none else some { send := some { tlsConn := true } }
  runs c := c == 2 || c == 3
  isFedJob := by decide
  runs_id c hc := by
    simp at hc
    unfold maxFedClusters
    omega
  runs_job _ _ := Or.inl (by decide)

theorem twoSiblings_down : OriginDown twoSiblings where
  origin := by decide
  down c _ := by
    rintro ⟨sibling, hsibling, -⟩
    cases hsibling
  siblings c t _ _ ht _ := ⟨_, if_neg ht, rfl⟩

theorem lockContract_witness :
    LockContract twoSiblings (start (fun _ => some ⟨0, fun _ => 0, fun _ => 0⟩) fun _ => 0)
      [.lock 2 true, .lock 3 true, .request 2 0, .request 3 0, .locked 3, .request 2 0, .request 2 0,
        .request 2 0, .locked 2] :=
  lockContract twoSiblings (Or.inr twoSiblings_down) _
    (fun _ _ h => by rw [← Option.some.inj h]) _ _

end Slurm.FedMgr
