import Mathlib

/-!
# The first cluster that will run a job (`common/slurmdb_defs.c`, `api/allocate.c`)

A client asks each of several clusters when a job would start there, and goes to the one
with the first answer in the order of `slurm_sort_will_run_resp`.

* `chooseCluster` is what `slurmdb_get_first_avail_cluster` and
  `slurmdb_get_first_het_job_cluster` share.  Every caller passes its `working_cluster_rec`
  for `cluster_rec`, so that one variable stands for both.
* `head_le`: the first answer after sorting comes before all others.
* `chooseCluster_many`, `chooseCluster_first`: when a cluster is found, and which.
* `availCluster_first`: where a plain job goes.

`slurm_job_will_run2`, which asks the working cluster, is a parameter.
-/

namespace Slurm.Clusters

open List

/-- `will_run_response_msg_t`, with what is read of it. -/
structure WillRunResponse where
  clusterName : String
  preempteeJobId : List Nat
  startTime : Int

/-- `slurmdb_cluster_rec_t` -/
structure ClusterRec where
  name : String
deriving DecidableEq

/-- `job_desc_msg_t`: the node that the request comes from, and the rest of the request. -/
structure JobDesc (ρ : Type) where
  allocNode : Option String
  rest : ρ

/-- What the client has besides its request. -/
structure Client (ρ : Type) where
  /-- `slurm_conf.cluster_name` -/
  clusterName : String
  /-- What `gethostname_short` finds. -/
  hostname : Option String
  /-- `slurm_job_will_run2`, with the cluster as the `working_cluster_rec`. -/
  willRun2 : ClusterRec → JobDesc ρ → Option WillRunResponse

variable {ρ : Type}

/-! ## One request -/

/-- `_job_will_run` -/
def jobWillRun (w : Client ρ) (c : ClusterRec) (req : JobDesc ρ) : Option WillRunResponse :=
  (w.willRun2 c req).map fun resp => { resp with clusterName := c.name }

/-- `slurm_sort_will_run_resp` -/
def sortWillRunResp (w : Client ρ) (a b : WillRunResponse) : Int :=
  if a.startTime < b.startTime then -1
  else if a.startTime > b.startTime then 1
  else if a.preempteeJobId.length < b.preempteeJobId.length then -1
  else if a.preempteeJobId.length > b.preempteeJobId.length then 1
  else if w.clusterName = a.clusterName then -1
  else if w.clusterName = b.clusterName then 1
  else 0

/-- `list_sort` of the answers. -/
def sortResps (w : Client ρ) (resps : List WillRunResponse) : List WillRunResponse :=
  resps.mergeSort fun a b => decide (sortWillRunResp w a b ≤ 0)

/-! ## Several clusters -/

/-- `rc`, and `*cluster_rec`. -/
structure Outcome where
  rc : Int
  clusterRec : Option ClusterRec

/-- No cluster is found. -/
def Outcome.error : Outcome := { rc := -1, clusterRec := none }

theorem Outcome.error_rc : Outcome.error.rc ≠ 0 := by decide

/-- The first cluster by the answers of `willRun`.  A single candidate is not asked. -/
def chooseCluster (w : Client ρ) (willRun : ClusterRec → Option WillRunResponse) :
    Option (List ClusterRec) → Outcome
  | none => .error
  | some [] => .error
  | some [c] => { rc := 0, clusterRec := some c }
  | some clusterList =>
    match sortResps w (clusterList.filterMap willRun) with
    | [] => .error
    | resp :: _ =>
      { rc := 0, clusterRec := clusterList.find? fun c => decide (c.name = resp.clusterName) }

/-- The request of a plain job while the clusters are asked. -/
def availReq (w : Client ρ) (req : JobDesc ρ) : JobDesc ρ :=
  if req.allocNode.isNone ∧ w.hostname.isSome then { req with allocNode := w.hostname } else req

/-- `slurmdb_get_first_avail_cluster`, with the clusters of `slurm_get_cluster_info`. -/
def getFirstAvailCluster (w : Client ρ) (req : JobDesc ρ) (clusterInfo : Option (List ClusterRec)) :
    Outcome :=
  chooseCluster w (fun c => jobWillRun w c (availReq w req)) clusterInfo

/-! ## The order of the answers -/

/-- The earlier start comes first, then the fewer preempted jobs, then the own cluster. -/
theorem sortWillRunResp_le (w : Client ρ) (a b : WillRunResponse) :
    sortWillRunResp w a b ≤ 0 ↔
      a.startTime < b.startTime ∨ a.startTime = b.startTime ∧
        (a.preempteeJobId.length < b.preempteeJobId.length ∨
          a.preempteeJobId.length = b.preempteeJobId.length ∧
            (w.clusterName = a.clusterName ∨ w.clusterName ≠ b.clusterName)) := by
  unfold sortWillRunResp
  grind

theorem sortWillRunResp_total (w : Client ρ) (a b : WillRunResponse) :
    sortWillRunResp w a b ≤ 0 ∨ sortWillRunResp w b a ≤ 0 := by
  rw [sortWillRunResp_le, sortWillRunResp_le]
  grind

theorem sortWillRunResp_trans (w : Client ρ) {a b c : WillRunResponse}
    (hab : sortWillRunResp w a b ≤ 0) (hbc : sortWillRunResp w b c ≤ 0) :
    sortWillRunResp w a c ≤ 0 := by
  rw [sortWillRunResp_le] at hab hbc ⊢
  grind

/-- The answer that comes first starts first. -/
theorem startTime_le {w : Client ρ} {a b : WillRunResponse} (h : sortWillRunResp w a b ≤ 0) :
    a.startTime ≤ b.startTime := by
  rw [sortWillRunResp_le] at h
  omega

/-- The first answer after sorting comes before all others. -/
theorem head_le (w : Client ρ) {resps rest : List WillRunResponse} {first : WillRunResponse}
    (h : sortResps w resps = first :: rest) :
    first ∈ resps ∧ ∀ r ∈ resps, sortWillRunResp w first r ≤ 0 := by
  have hperm : (first :: rest).Perm resps := by
    rw [← h]
    exact mergeSort_perm _ _
  have hsorted : (sortResps w resps).Pairwise
      fun a b => decide (sortWillRunResp w a b ≤ 0) = true := by
    refine pairwise_mergeSort (fun a b c hab hbc => ?_) (fun a b => ?_) resps
    · simp only [decide_eq_true_eq] at hab hbc ⊢
      exact sortWillRunResp_trans w hab hbc
    · simp only [Bool.or_eq_true, decide_eq_true_eq]
      exact sortWillRunResp_total w a b
  rw [h, pairwise_cons] at hsorted
  refine ⟨hperm.mem_iff.mp mem_cons_self, fun r hr => ?_⟩
  rcases List.mem_cons.mp (hperm.mem_iff.mpr hr) with rfl | hr
  · rcases sortWillRunResp_total w r r with h | h <;> exact h
  · exact of_decide_eq_true (hsorted.1 r hr)

/-! ## The choice -/

variable {w : Client ρ} {willRun : ClusterRec → Option WillRunResponse} {cs : List ClusterRec}

/-- With two clusters or more, the answers decide. -/
theorem chooseCluster_eq (hcs : 2 ≤ cs.length) :
    chooseCluster w willRun (some cs) =
      match sortResps w (cs.filterMap willRun) with
      | [] => .error
      | resp :: _ =>
        { rc := 0, clusterRec := cs.find? fun c => decide (c.name = resp.clusterName) } := by
  match cs, hcs with
  | _ :: _ :: _, _ => rfl

theorem chooseCluster_many (hcs : 2 ≤ cs.length) :
    (chooseCluster w willRun (some cs)).rc = 0 ↔ ∃ c ∈ cs, (willRun c).isSome := by
  have hperm : (sortResps w (cs.filterMap willRun)).Perm (cs.filterMap willRun) :=
    mergeSort_perm _ _
  rw [chooseCluster_eq hcs]
  cases hsort : sortResps w (cs.filterMap willRun) with
  | nil =>
    have hnil : cs.filterMap willRun = [] := by
      rw [hsort] at hperm
      exact hperm.nil_eq.symm
    have hnone : ∀ c ∈ cs, willRun c = none := List.filterMap_eq_nil_iff.mp hnil
    constructor
    · intro h
      exact absurd h Outcome.error_rc
    · intro ⟨c, hc, hsome⟩
      rw [hnone c hc] at hsome
      cases hsome
  | cons resp rest =>
    have hresp : resp ∈ cs.filterMap willRun := (head_le w hsort).1
    obtain ⟨c, hc, heq⟩ := List.mem_filterMap.mp hresp
    simp only [true_iff]
    exact ⟨c, hc, by rw [heq]; rfl⟩

/-- The cluster that is chosen answers first. -/
theorem chooseCluster_first (hcs : 2 ≤ cs.length) (hnames : (cs.map ClusterRec.name).Nodup)
    (hname : ∀ c r, willRun c = some r → r.clusterName = c.name)
    (hrc : (chooseCluster w willRun (some cs)).rc = 0) :
    ∃ c ∈ cs, ∃ r, (chooseCluster w willRun (some cs)).clusterRec = some c ∧
      willRun c = some r ∧
      ∀ c' ∈ cs, ∀ r', willRun c' = some r' → sortWillRunResp w r r' ≤ 0 := by
  rw [chooseCluster_eq hcs] at hrc ⊢
  cases hsort : sortResps w (cs.filterMap willRun) with
  | nil =>
    rw [hsort] at hrc
    exact absurd hrc Outcome.error_rc
  | cons resp rest =>
    obtain ⟨hmem, hle⟩ := head_le w hsort
    obtain ⟨c, hc, heq⟩ := List.mem_filterMap.mp hmem
    have hfind : cs.find? (fun d => decide (d.name = resp.clusterName)) = some c := by
      have hinj := inj_on_of_nodup_map hnames
      rw [find?_eq_some_iff_append]
      refine ⟨by simp [hname c resp heq], ?_⟩
      obtain ⟨before, after, rfl⟩ := append_of_mem hc
      refine ⟨before, after, rfl, fun d hd => ?_⟩
      have hne : d.name ≠ c.name := by
        rw [map_append, map_cons] at hnames
        intro h
        exact (List.nodup_append.mp hnames).2.2 _ (mem_map_of_mem hd) _
          mem_cons_self h
      simp [hname c resp heq, hne]
    refine ⟨c, hc, resp, hfind, heq, fun c' hc' r' hr' => ?_⟩
    exact hle r' (List.mem_filterMap.mpr ⟨c', hc', hr'⟩)

/-- A plain job goes to a cluster where it starts first, if it can run on any of several. -/
theorem availCluster_first (req : JobDesc ρ) (hcs : 2 ≤ cs.length)
    (hnames : (cs.map ClusterRec.name).Nodup) :
    ((getFirstAvailCluster w req (some cs)).rc = 0 ↔
        ∃ c ∈ cs, (jobWillRun w c (availReq w req)).isSome) ∧
      ((getFirstAvailCluster w req (some cs)).rc = 0 →
        ∃ c ∈ cs, ∃ r, (getFirstAvailCluster w req (some cs)).clusterRec = some c ∧
          jobWillRun w c (availReq w req) = some r ∧
          ∀ c' ∈ cs, ∀ r', jobWillRun w c' (availReq w req) = some r' →
            r.startTime ≤ r'.startTime) := by
  refine ⟨chooseCluster_many hcs, fun hrc => ?_⟩
  have hname : ∀ c r, jobWillRun w c (availReq w req) = some r → r.clusterName = c.name := by
    intro c r hr
    obtain ⟨r', -, rfl⟩ := Option.map_eq_some_iff.mp hr
    rfl
  obtain ⟨c, hc, r, hchosen, hr, hfirst⟩ := chooseCluster_first hcs hnames hname hrc
  exact ⟨c, hc, r, hchosen, hr, fun c' hc' r' hr' => startTime_le (hfirst c' hc' r' hr')⟩

end Slurm.Clusters

/-!
## The first cluster that will run a heterogeneous job (`common/slurmdb_defs.c`)

`hetContract_iff` says when `slurmdb_get_first_het_job_cluster` and `_het_job_will_run` do
what they are for.  The first answer that `_het_job_will_run` wants to keep is lost:
`ret_resp = tmp_resp` is followed by `ret_resp = NULL`, and `xfree` ends every turn.  So no
answer is ever returned, and no cluster is found among several, whatever they answer.

* `hetJobWillRun_eq_none`: the answer that is never returned.
* `HetStart`: when the components start on a cluster, which is when the last of them starts.
-/

namespace Slurm.Clusters

open List

variable {ρ : Type}

/-! ## The source's functions -/

/-- `ret_resp` after an answer was compared to it. -/
def keepResp (retResp : Option WillRunResponse) (tmpResp : WillRunResponse) :
    Option WillRunResponse :=
  match retResp with
  | none =>
    -- `ret_resp = tmp_resp`, and then `ret_resp = NULL`
    none
  | some resp =>
    if resp.startTime < tmpResp.startTime then some { resp with startTime := tmpResp.startTime }
    else some resp

/-- `xfree`, which leaves `NULL` behind. -/
def xfree (_resp : Option WillRunResponse) : Option WillRunResponse := none

/-- The loop of `_het_job_will_run`. -/
def hetJobWillRunLoop (w : Client ρ) (c : ClusterRec) :
    Option WillRunResponse → List (JobDesc ρ) → Option WillRunResponse
  | retResp, [] => retResp
  | retResp, req :: reqs =>
    match jobWillRun w c req with
    | none => none
    | some tmpResp => hetJobWillRunLoop w c (xfree (keepResp retResp tmpResp)) reqs

/-- `_het_job_will_run` -/
def hetJobWillRun (w : Client ρ) (c : ClusterRec) (jobReqList : List (JobDesc ρ)) :
    Option WillRunResponse :=
  hetJobWillRunLoop w c none jobReqList

/-- The request of a component while the clusters are asked. -/
def hetReq (w : Client ρ) (req : JobDesc ρ) : JobDesc ρ :=
  if req.allocNode.isNone ∧ w.hostname.getD "" ≠ "" then { req with allocNode := w.hostname }
  else req

/-- `slurmdb_get_first_het_job_cluster`, with the clusters of `slurm_get_cluster_info`. -/
def getFirstHetJobCluster (w : Client ρ) (jobReqList : List (JobDesc ρ))
    (clusterInfo : Option (List ClusterRec)) : Outcome :=
  chooseCluster w (fun c => hetJobWillRun w c (jobReqList.map (hetReq w))) clusterInfo

/-! ## The contract -/

/-- `t` is when the last of the components starts on the cluster, where all can run. -/
def HetStart (w : Client ρ) (c : ClusterRec) (reqs : List (JobDesc ρ)) (t : Int) : Prop :=
  (∀ req ∈ reqs, (jobWillRun w c req).isSome) ∧
    IsGreatest {s | ∃ req ∈ reqs, ∃ resp, jobWillRun w c req = some resp ∧ resp.startTime = s} t

/-- Every component can run on the cluster. -/
def CanRun (w : Client ρ) (c : ClusterRec) (reqs : List (JobDesc ρ)) : Prop :=
  reqs ≠ [] ∧ ∀ req ∈ reqs, (jobWillRun w c req).isSome

/-- What the two functions must do with candidates `cs`, and with any cluster `asked`. -/
structure HetContract (w : Client ρ) (reqs : List (JobDesc ρ)) (cs : List ClusterRec)
    (asked : ClusterRec) : Prop where
  succeeds : (getFirstHetJobCluster w reqs (some cs)).rc = 0 ↔
    ∃ c ∈ cs, ∃ t, HetStart w c (reqs.map (hetReq w)) t
  minimises : (getFirstHetJobCluster w reqs (some cs)).rc = 0 →
    ∃ c ∈ cs, ∃ t, (getFirstHetJobCluster w reqs (some cs)).clusterRec = some c ∧
      HetStart w c (reqs.map (hetReq w)) t ∧
      ∀ c' ∈ cs, ∀ t', HetStart w c' (reqs.map (hetReq w)) t' → t ≤ t'
  answers : ∀ t, (∃ resp, hetJobWillRun w asked reqs = some resp ∧ resp.startTime = t) ↔
    HetStart w asked reqs t

/-! ## What they do -/

/-- No answer is returned. -/
theorem hetJobWillRunLoop_eq_none (w : Client ρ) (c : ClusterRec) (reqs : List (JobDesc ρ)) :
    hetJobWillRunLoop w c none reqs = none := by
  induction reqs with
  | nil => rfl
  | cons req reqs ih =>
    rw [hetJobWillRunLoop]
    split
    · rfl
    · exact ih

theorem hetJobWillRun_eq_none (w : Client ρ) (c : ClusterRec) (reqs : List (JobDesc ρ)) :
    hetJobWillRun w c reqs = none :=
  hetJobWillRunLoop_eq_none w c reqs

/-- The components have a start where all can run. -/
theorem exists_hetStart_iff (w : Client ρ) (c : ClusterRec) (reqs : List (JobDesc ρ)) :
    (∃ t, HetStart w c reqs t) ↔ CanRun w c reqs := by
  constructor
  · intro ⟨t, hall, ⟨req, hreq, _⟩, _⟩
    exact ⟨ne_nil_of_mem hreq, hall⟩
  · intro ⟨hne, hall⟩
    let starts : List Int := reqs.filterMap fun req => (jobWillRun w c req).map (·.startTime)
    have hmem : ∀ s, s ∈ starts ↔
        ∃ req ∈ reqs, ∃ resp, jobWillRun w c req = some resp ∧ resp.startTime = s := by
      intro s
      simp [starts, mem_filterMap]
    have hstarts : starts ≠ [] := by
      obtain ⟨req, hreq⟩ := List.exists_mem_of_ne_nil reqs hne
      obtain ⟨resp, hresp⟩ := Option.isSome_iff_exists.mp (hall req hreq)
      exact ne_nil_of_mem ((hmem _).mpr ⟨req, hreq, resp, hresp, rfl⟩)
    refine ⟨starts.max hstarts, hall, ?_, ?_⟩
    · exact (hmem _).mp (max_mem hstarts)
    · intro s hs
      exact le_max_of_mem ((hmem s).mpr hs)

/-- No cluster is found among several. -/
theorem hetCluster_many (w : Client ρ) (reqs : List (JobDesc ρ)) {cs : List ClusterRec}
    (hcs : 2 ≤ cs.length) : (getFirstHetJobCluster w reqs (some cs)).rc ≠ 0 := by
  intro hrc
  obtain ⟨c, -, hsome⟩ := (chooseCluster_many hcs).mp hrc
  rw [hetJobWillRun_eq_none] at hsome
  cases hsome

/-- They do what they must exactly when the only candidate can run all components, or no
candidate can, and when the cluster that is asked cannot. -/
theorem hetContract_iff (w : Client ρ) (reqs : List (JobDesc ρ)) (cs : List ClusterRec)
    (asked : ClusterRec) :
    HetContract w reqs cs asked ↔
      (∀ c ∈ cs, CanRun w c (reqs.map (hetReq w)) ↔ cs.length = 1) ∧ ¬ CanRun w asked reqs := by
  have hasked : (∀ t, (∃ resp, hetJobWillRun w asked reqs = some resp ∧ resp.startTime = t) ↔
      HetStart w asked reqs t) ↔ ¬ CanRun w asked reqs := by
    rw [← exists_hetStart_iff, not_exists, hetJobWillRun_eq_none]
    simp
  have hchoice : ((getFirstHetJobCluster w reqs (some cs)).rc = 0 ↔
      ∃ c ∈ cs, ∃ t, HetStart w c (reqs.map (hetReq w)) t) ↔
        ∀ c ∈ cs, CanRun w c (reqs.map (hetReq w)) ↔ cs.length = 1 := by
    simp only [exists_hetStart_iff]
    match cs with
    | [] => simp [getFirstHetJobCluster, chooseCluster, Outcome.error]
    | [c] => simp [getFirstHetJobCluster, chooseCluster]
    | c₁ :: c₂ :: cs =>
      have hmany := hetCluster_many w reqs
        (show 2 ≤ (c₁ :: c₂ :: cs).length by simp)
      simp [hmany]
  constructor
  · intro h
    exact ⟨hchoice.mp h.succeeds, hasked.mp h.answers⟩
  · intro ⟨hcs, hcan⟩
    refine ⟨hchoice.mpr hcs, fun hrc => ?_, hasked.mpr hcan⟩
    match cs with
    | [] => exact absurd hrc Outcome.error_rc
    | [c] =>
      obtain ⟨t, ht⟩ := (exists_hetStart_iff w c _).mpr
        ((hcs c List.mem_cons_self).mpr rfl)
      refine ⟨c, List.mem_cons_self, t, rfl, ht, fun c' hc' t' ht' => ?_⟩
      rw [List.mem_singleton.mp hc'] at ht'
      exact (ht.2.unique ht'.2).le
    | c₁ :: c₂ :: cs =>
      exact absurd hrc (hetCluster_many w reqs (show 2 ≤ (c₁ :: c₂ :: cs).length by simp))

/-- A client of two clusters, both of which can run anything at time 100. -/
def readyClient : Client Unit where
  clusterName := "east"
  hostname := some "login1"
  willRun2 := fun _ _ => some { clusterName := "", preempteeJobId := [], startTime := 100 }

/-- A job that both clusters can run goes to one of them. -/
theorem availCluster_ready : (getFirstAvailCluster readyClient { allocNode := none, rest := () }
    (some [{ name := "east" }, { name := "west" }])).rc = 0 :=
  (availCluster_first _ (by decide) (by decide)).1.mpr ⟨_, mem_cons_self, rfl⟩

/-- Two components of a job. -/
def twoReqs : List (JobDesc Unit) :=
  [{ allocNode := none, rest := () }, { allocNode := none, rest := () }]

/-- No cluster is found for two components, though both clusters can run them. -/
theorem hetContract_fails :
    ¬ HetContract readyClient twoReqs [{ name := "east" }, { name := "west" }]
      { name := "east" } := by
  intro h
  have hstart : HetStart readyClient { name := "east" } (twoReqs.map (hetReq readyClient)) 100 := by
    refine ⟨fun req _ => rfl, ⟨_, List.mem_cons_self, _, rfl, rfl⟩, ?_⟩
    intro s ⟨req, _, resp, hresp, hs⟩
    rw [← hs, ← Option.some_inj.mp hresp]
  have htwo : 2 ≤ [ClusterRec.mk "east", ClusterRec.mk "west"].length := Nat.le_refl 2
  exact hetCluster_many readyClient twoReqs htwo
    (h.succeeds.mpr ⟨_, List.mem_cons_self, 100, hstart⟩)

end Slurm.Clusters
