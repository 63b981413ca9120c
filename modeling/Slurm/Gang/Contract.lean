import Slurm.Gang.Rows
import Slurm.Lib.Slicing

/-!
# The contract of the time slicer

`sliceContract` says that time slicing starves nobody.  Each call of `_cycle_job_list` puts the
jobs that were active behind the others, which keep their order, activates jobs that do not
conflict and that no other job could join, and resumes just these.  The first job of the list is
always activated, so every job is active after one of as many calls as there are jobs.

A partition by sockets needs a node table without blank entries up to the nodes of its jobs;
`slice_fails` is a job on the second entry of a table whose first one is blank.

* `reorder_eq`: the loop that moves the active jobs to the back is a stable partition.
* `activate_spec`: the row is filled greedily.
* `cycleJobList_spec`: one call.
-/

namespace Slurm.Gang

open Slurm.Bitstring List
open Slurm.ClusterCores
open Lib.Slicing (requeue requeue_perm Rotates Greedy running)

variable {S : Slurmctld} {type : EntityType}
variable {first : Option NodeRecord}

/-! ## Moving jobs to the back -/

/-- `row_state` is `GS_ACTIVE`. -/
def GsJob.isActive (g : GsJob) : Bool := g.rowState = .active

def GsJob.deactivate (g : GsJob) : GsJob := { g with rowState := .noActive }

/-- The gap at a place is closed, and a job is put in the last place. -/
theorem shiftDown_spec (pre rest : List GsJob) (x z : GsJob) {fuel : Nat}
    (hfuel : rest.length < fuel) :
    (shiftDown fuel pre.length (pre ++ x :: rest)).2.set
      (shiftDown fuel pre.length (pre ++ x :: rest)).1 z = pre ++ (rest ++ [z]) := by
  induction rest generalizing pre x fuel with
  | nil =>
    cases fuel with
    | zero => omega
    | succ fuel =>
      rw [shiftDown]
      simp
  | cons y rest ih =>
    cases fuel with
    | zero => omega
    | succ fuel =>
      have hnext := ih (pre ++ [y]) y (show rest.length < fuel by simpa using hfuel)
      rw [shiftDown]
      simpa using hnext

/-- The jobs from a place on that are active, up to the first one that is not, go to the back. -/
theorem moveActive_spec (pre rest moved : List GsJob) {fuel : Nat} (hfuel : rest.length < fuel)
    (hmoved : ∀ g ∈ moved, g.rowState = .noActive) :
    moveActive fuel pre.length (pre ++ (rest ++ moved)) =
      pre ++ (rest.dropWhile GsJob.isActive ++
        (moved ++ (rest.takeWhile GsJob.isActive).map GsJob.deactivate)) := by
  induction rest generalizing moved fuel with
  | nil =>
    cases fuel with
    | zero => omega
    | succ fuel =>
      rw [moveActive]
      cases moved with
      | nil => simp
      | cons g moved => simp [hmoved g mem_cons_self]
  | cons x rest ih =>
    cases fuel with
    | zero => omega
    | succ fuel =>
      rw [moveActive]
      simp only [length_cons] at hfuel
      by_cases hx : x.rowState = .active
      · have hactive : x.isActive = true := decide_eq_true hx
        have hroom : (rest ++ moved).length < (pre ++ (x :: rest ++ moved)).length := by
          simp
          omega
        have hshift := shiftDown_spec pre (rest ++ moved) x x.deactivate hroom
        have hmoved' : ∀ g ∈ moved ++ [x.deactivate], g.rowState = .noActive := by
          intro g hg
          rcases List.mem_append.mp hg with hg | hg
          · exact hmoved g hg
          · rw [List.mem_singleton.mp hg]
            rfl
        have hnext := ih (moved ++ [x.deactivate]) (show rest.length < fuel by omega) hmoved'
        simp only [cons_append, getElem?_append_right (le_refl _), Nat.sub_self,
          getElem?_cons_zero, hx, if_true] at hshift ⊢
        show moveActive fuel pre.length (List.set _ _ x.deactivate) = _
        rw [hshift, append_assoc, hnext, dropWhile_cons_of_pos hactive,
          takeWhile_cons_of_pos hactive]
        simp
      · have hactive : ¬ x.isActive = true := by
          unfold GsJob.isActive
          simpa using hx
        rw [dropWhile_cons_of_neg hactive, takeWhile_cons_of_neg hactive]
        simp [hx]

/-- A job that is not active, or a filler, is not active afterwards. -/
theorem clearFiller_spec {pre rest : List GsJob} {g : GsJob} (hg : g.isActive = false) :
    clearFiller pre.length (pre ++ g :: rest) = pre ++ g.deactivate :: rest := by
  unfold GsJob.isActive at hg
  unfold clearFiller GsJob.deactivate
  simp only [getElem?_append_right (le_refl _), Nat.sub_self, getElem?_cons_zero]
  cases g with
  | mk jobId jobPtr sigState rowState =>
    cases rowState with
    | active => simp at hg
    | noActive => simp
    | filler => simp

/-- The places from the end of `pre` on. -/
theorem reorder_loop (pre rest moved : List GsJob) {k n : Nat}
    (hk : rest.length + moved.length = k) (hn : k < n)
    (hmoved : ∀ g ∈ moved, g.rowState = .noActive) :
    (List.range' pre.length k).foldl (fun jobs i => clearFiller i (moveActive n i jobs))
        (pre ++ (rest ++ moved)) =
      pre ++ ((rest.filter fun g => !g.isActive).map GsJob.deactivate ++
        (moved ++ (rest.filter GsJob.isActive).map GsJob.deactivate)) := by
  induction k generalizing pre rest moved with
  | zero =>
    have hrest : rest = [] := List.length_eq_zero_iff.mp (by omega)
    have hnone : moved = [] := List.length_eq_zero_iff.mp (by omega)
    subst hrest hnone
    simp
  | succ k ih =>
    rw [range'_succ, foldl_cons, moveActive_spec pre rest moved (by omega) hmoved]
    have hsplit := takeWhile_append_dropWhile (p := GsJob.isActive) (l := rest)
    have hall : ∀ g ∈ rest.takeWhile GsJob.isActive, g.isActive = true :=
      fun g hg => mem_takeWhile_imp hg
    have hmoved' : ∀ g ∈ moved ++ (rest.takeWhile GsJob.isActive).map GsJob.deactivate,
        g.rowState = .noActive := by
      intro g hg
      rcases List.mem_append.mp hg with hg | hg
      · exact hmoved g hg
      · obtain ⟨g', -, rfl⟩ := List.mem_map.mp hg
        rfl
    generalize hfront : rest.takeWhile GsJob.isActive = front at *
    cases hback : rest.dropWhile GsJob.isActive with
    | nil =>
      -- all that is left was moved, and stays where it is
      rw [hback, append_nil] at hsplit
      subst hsplit
      have hnone : (front.filter fun g => !g.isActive) = [] := by
        rw [filter_eq_nil_iff]
        intro g hg
        simp [hall g hg]
      rw [List.filter_eq_self.mpr hall, hnone]
      cases hrest : moved ++ front.map GsJob.deactivate with
      | nil =>
        have hlen := congrArg List.length hrest
        simp only [length_append, length_map, length_nil] at hlen
        omega
      | cons g back =>
        have hg : g.rowState = .noActive := hmoved' g (by simp [hrest])
        have hsame : g.deactivate = g := by
          unfold GsJob.deactivate
          rw [← hg]
        have hlen := congrArg List.length hrest
        simp only [length_append, length_map, length_cons] at hlen
        have hnext := ih (pre ++ [g]) [] back (by simp; omega) (by omega)
          fun g' hg' => hmoved' g' (by simp [hrest, hg'])
        rw [nil_append, clearFiller_spec (by simp [GsJob.isActive, hg]), hsame]
        simpa using hnext
    | cons y ys =>
      have hy : y.isActive = false := by
        have hhead := head?_dropWhile_not GsJob.isActive rest
        rw [hback] at hhead
        simpa using hhead
      rw [hback] at hsplit
      subst hsplit
      have hnext := ih (pre ++ [y.deactivate]) ys (moved ++ front.map GsJob.deactivate)
        (by simp at hk ⊢; omega) (by omega) hmoved'
      have hnone : (front.filter fun g => !g.isActive) = [] := by
        rw [filter_eq_nil_iff]
        intro g hg
        simp [hall g hg]
      rw [cons_append, clearFiller_spec hy, filter_append, filter_append, hnone,
        List.filter_eq_self.mpr hall, filter_cons_of_pos (by simp [hy]),
        filter_cons_of_neg (by simp [hy])]
      simpa using hnext

/-- The jobs that were active are behind the others, and no job is active. -/
theorem reorder_eq (jobs : List GsJob) :
    reorder jobs = (requeue GsJob.isActive jobs).map GsJob.deactivate := by
  have h := reorder_loop [] jobs [] rfl
    (show jobs.length + 0 < jobs.length + 1 by omega) nofun
  unfold reorder requeue
  rw [range_eq_range', map_append]
  simpa using h

/-! ## Filling the row -/

/-- A partition without shadows whose jobs have allocations and are not held back, all in one
group type. -/
structure Sliceable (S : Slurmctld) (type : EntityType) (part : GsPart) : Prop
    extends Sized S type part.toActiveRow where
  no_shadow : part.shadow = []
  types : ∀ g ∈ part.jobList, getPartGrType S g.jobPtr.partPtr = type
  priorities : ∀ g ∈ part.jobList, g.jobPtr.priority ≠ 0
  allocated : ∀ g ∈ part.jobList, Allocated S g.jobPtr

/-- The jobs of the list that are active. -/
def activeJobs (jobs : List GsJob) : List JobRecord := running (·.jobPtr) GsJob.isActive jobs

/-- From the front on, a job is activated when it can join those in the row. -/
theorem activate_spec (hS : Configured S) {jobs : List GsJob} {row : ActiveRow}
    {held : List JobRecord} (hjobs : ∀ g ∈ jobs, getPartGrType S g.jobPtr.partPtr = type ∧
      g.jobPtr.priority ≠ 0 ∧ Allocated S g.jobPtr ∧ SocketsReadable S type g.jobPtr)
    (hrow : Holds S type row held) (hwait : ∀ g ∈ jobs, g.rowState = .noActive) :
    ∃ row' jobs', activate S row jobs = some (row', jobs') ∧ Sized S type row' ∧
      jobs'.map GsJob.deactivate = jobs ∧ (∀ g ∈ jobs', g.rowState ≠ .filler) ∧
      Greedy (Joins S type) (·.jobPtr) GsJob.isActive held jobs' := by
  induction jobs generalizing row held with
  | nil => exact ⟨row, [], rfl, hrow.toSized, rfl, nofun, Greedy.nil held⟩
  | cons g jobs ih =>
    obtain ⟨htype, hpriority, hallocated, hread⟩ := hjobs g mem_cons_self
    have hg := hwait g mem_cons_self
    have hsame : g.deactivate = g := by
      unfold GsJob.deactivate
      rw [← hg]
    have hjobs' := fun g' hg' => hjobs g' (mem_cons_of_mem g hg')
    have hwait' := fun g' hg' => hwait g' (mem_cons_of_mem g hg')
    obtain ⟨fits, hfits, hiff⟩ := jobFitsInActiveRow_spec hS hallocated htype hrow
    rw [activate]
    simp only [hpriority, if_false, hfits, Option.bind_eq_bind, Option.bind_some, Option.pure_def]
    by_cases hjoins : Joins S type held g.jobPtr
    · obtain ⟨row₁, hadd, hrow₁⟩ := addJobToActive_spec hS hallocated htype hread hrow hjoins
      obtain ⟨row', jobs', hrun, hsized, hmap, hstates, hgreedy⟩ := ih hjobs' hrow₁ hwait'
      refine ⟨row', { g with rowState := .active } :: jobs', ?_, hsized, ?_, ?_, ?_⟩
      · rw [if_pos (hiff.mpr hjoins), hadd]
        simp [hrun]
      · rw [map_cons, hmap]
        congr 1
      · intro g' hg'
        rcases List.mem_cons.mp hg' with heq | hg'
        · rw [heq]
          exact nofun
        · exact hstates g' hg'
      · exact Greedy.join hjoins rfl hgreedy
    · obtain ⟨row', jobs', hrun, hsized, hmap, hstates, hgreedy⟩ := ih hjobs' hrow hwait'
      refine ⟨row', g :: jobs', ?_, hsized, ?_, ?_, ?_⟩
      · rw [if_neg (fun h => hjoins (hiff.mp h))]
        simp [hrun]
      · rw [map_cons, hmap, hsame]
      · intro g' hg'
        rcases List.mem_cons.mp hg' with heq | hg'
        · rw [heq, hg]
          exact nofun
        · exact hstates g' hg'
      · refine Greedy.wait hjoins ?_ hgreedy
        unfold GsJob.isActive
        simp [hg]

/-! ## One call -/

/-- The job with the signal that goes with its row state. -/
def GsJob.signal (g : GsJob) : GsJob :=
  { g with sigState := if g.rowState = .active then .resume else .suspend }

theorem resumeOne_suspendOne (numShadows priority : Nat) {g : GsJob} (hstate : g.rowState ≠ .filler)
    (hpriority : g.jobPtr.priority ≠ 0) :
    (resumeOne priority (suspendOne S numShadows g).1).1 = g.signal := by
  unfold resumeOne suspendOne GsJob.signal
  cases g with
  | mk jobId jobPtr sigState rowState =>
    cases rowState <;> cases sigState <;> simp_all

/-- What a call leaves as it is in a job. -/
def GsJob.ident (g : GsJob) : Nat × JobRecord := (g.jobId, g.jobPtr)

/-- The job list after a call. -/
structure Sliced (S : Slurmctld) (type : EntityType) (before after : List GsJob) : Prop where
  permuted : (after.map GsJob.ident).Perm (before.map GsJob.ident)
  compatible : (activeJobs after).Pairwise fun j k => ¬ Conflict S type j k
  maximal : ∀ g ∈ after, g.rowState ≠ .active → ¬ Joins S type (activeJobs after) g.jobPtr
  signals : ∀ g ∈ after, g.sigState = .resume ↔ g.rowState = .active

/-- The node table can be read for all jobs of the list. -/
def AllReadable (S : Slurmctld) (type : EntityType) (jobs : List GsJob) : Prop :=
  ∀ g ∈ jobs, SocketsReadable S type g.jobPtr

/-- One call of `_cycle_job_list`. -/
theorem cycleJobList_spec (hS : Configured S) {part : GsPart} (h : Sliceable S type part)
    (hread : AllReadable S type part.jobList) :
    ∃ part' actions, cycleJobList S part = some (part', actions) ∧ Sliceable S type part' ∧
      part'.jobList.map GsJob.ident = (requeue GsJob.isActive part.jobList).map GsJob.ident ∧
      Greedy (Joins S type) (·.jobPtr) GsJob.isActive [] part'.jobList ∧
      ∀ g ∈ part'.jobList, g.sigState = .resume ↔ g.rowState = .active := by
  have hmem : ∀ g ∈ reorder part.jobList, ∃ g₀ ∈ part.jobList, g = g₀.deactivate := by
    intro g hg
    rw [reorder_eq] at hg
    obtain ⟨g₀, hg₀, rfl⟩ := List.mem_map.mp hg
    exact ⟨g₀, (requeue_perm GsJob.isActive part.jobList).mem_iff.mp hg₀, rfl⟩
  have hjobs : ∀ g ∈ reorder part.jobList, getPartGrType S g.jobPtr.partPtr = type ∧
      g.jobPtr.priority ≠ 0 ∧ Allocated S g.jobPtr ∧ SocketsReadable S type g.jobPtr := by
    intro g hg
    obtain ⟨g₀, hg₀, rfl⟩ := hmem g hg
    exact ⟨h.types g₀ hg₀, h.priorities g₀ hg₀, h.allocated g₀ hg₀, hread g₀ hg₀⟩
  have hwait : ∀ g ∈ reorder part.jobList, g.rowState = .noActive := by
    intro g hg
    obtain ⟨g₀, -, rfl⟩ := hmem g hg
    rfl
  have hempty : Holds S type { part.toActiveRow with jobsActive := 0 } [] :=
    ⟨⟨h.resmap, h.cpus⟩, rfl, fun hne => absurd rfl hne, fun hne => absurd rfl hne⟩
  obtain ⟨row, jobs, hrun, hsized, hmap, hstates, hgreedy⟩ := activate_spec hS hjobs hempty hwait
  have hident : ∀ f : GsJob → GsJob, (∀ g, (f g).ident = g.ident) → ∀ xs : List GsJob,
      (xs.map f).map GsJob.ident = xs.map GsJob.ident := by
    intro f hf xs
    simp [hf]
  have hback : jobs.map GsJob.ident = (requeue GsJob.isActive part.jobList).map GsJob.ident := by
    rw [← hident GsJob.deactivate (fun _ => rfl) jobs, hmap, reorder_eq,
      hident GsJob.deactivate fun _ => rfl]
  have hprops : ∀ g ∈ jobs, getPartGrType S g.jobPtr.partPtr = type ∧ g.jobPtr.priority ≠ 0 ∧
      Allocated S g.jobPtr ∧ SocketsReadable S type g.jobPtr := by
    intro g hg
    exact hjobs g.deactivate (hmap ▸ mem_map_of_mem hg)
  have hbuild : buildActiveRow S { part with jobList := reorder part.jobList } =
      some { part with toActiveRow := row, jobList := jobs } := by
    unfold buildActiveRow
    dsimp only
    by_cases hnil : (reorder part.jobList).length = 0
    · rw [if_pos hnil]
      rw [List.length_eq_zero_iff.mp hnil] at hrun ⊢
      cases hrun
      rfl
    · rw [if_neg hnil, h.no_shadow]
      simp [hrun]
  have hsignals : (((jobs.map (suspendOne S part.shadow.length)).map (·.1)).map
      (resumeOne part.priority)).map (·.1) = jobs.map GsJob.signal := by
    simp only [map_map]
    apply map_congr_left
    intro g hg
    exact resumeOne_suspendOne _ _ (hstates g hg) (hprops g hg).2.1
  have hcycle : ∃ actions, cycleJobList S part =
      some ({ part with toActiveRow := row, jobList := jobs.map GsJob.signal }, actions) := by
    unfold cycleJobList
    rw [hbuild]
    exact ⟨_, congrArg some (Prod.ext (by simp [← hsignals]) rfl)⟩
  obtain ⟨actions, hcycle⟩ := hcycle
  refine ⟨_, actions, hcycle, ⟨⟨hsized.resmap, hsized.cpus⟩, h.no_shadow, ?_, ?_, ?_⟩, ?_, ?_, ?_⟩
  · intro g hg
    obtain ⟨g₀, hg₀, rfl⟩ := List.mem_map.mp hg
    exact (hprops g₀ hg₀).1
  · intro g hg
    obtain ⟨g₀, hg₀, rfl⟩ := List.mem_map.mp hg
    exact (hprops g₀ hg₀).2.1
  · intro g hg
    obtain ⟨g₀, hg₀, rfl⟩ := List.mem_map.mp hg
    exact (hprops g₀ hg₀).2.2.1
  · rw [← hback]
    exact hident GsJob.signal (fun _ => rfl) jobs
  · exact hgreedy.map (fun _ => rfl) fun _ _ => rfl
  · intro g hg
    obtain ⟨g₀, -, rfl⟩ := List.mem_map.mp hg
    unfold GsJob.signal
    by_cases hactive : g₀.rowState = .active <;> simp [hactive]

/-- The jobs after a call: those that are active do not conflict, and no other can join them. -/
theorem sliced_of_greedy {before : List GsJob} {part : GsPart} (h : Sliceable S type part)
    (hback : part.jobList.map GsJob.ident = (requeue GsJob.isActive before).map GsJob.ident)
    (hgreedy : Greedy (Joins S type) (·.jobPtr) GsJob.isActive [] part.jobList)
    (hsignals : ∀ g ∈ part.jobList, g.sigState = .resume ↔ g.rowState = .active) :
    Sliced S type before part.jobList := by
  have hallocated : ∀ j ∈ activeJobs part.jobList, Allocated S j := by
    intro j hj
    obtain ⟨g, hg, rfl⟩ := List.mem_map.mp hj
    exact h.allocated g (List.mem_filter.mp hg).1
  have hpairwise : (activeJobs part.jobList).Pairwise fun j k => Joins S type [j] k :=
    hgreedy.pairwise (fun _ _ hjoins _ hk => hjoins.single hk) List.Pairwise.nil
  refine ⟨?_, ?_, ?_, hsignals⟩
  · rw [hback]
    exact (requeue_perm GsJob.isActive before).map GsJob.ident
  · apply hpairwise.imp_of_mem
    intro j k hj _ hjoins
    exact not_not_intro ⟨hjoins, hjoins.symm (hallocated j hj)⟩
  · intro g hg hstate
    have hactive : g.isActive = false := by
      unfold GsJob.isActive
      simp [hstate]
    exact hgreedy.maximal (fun _ _ _ hjoins => hjoins.fewer) g hg hactive

/-! ## The contract -/

/-- A partition without shadows, with its jobs in any row states. -/
structure Partition where
  S : Slurmctld
  type : EntityType
  part : GsPart
  configured : Configured S
  sliceable : Sliceable S type part

/-- A run of calls on the partition, none of which fails.  After each call the active jobs do
not conflict, no other job could join them, and just they are resumed.  Every job is active
after one of any calls as many as there are jobs. -/
structure SlicedRun (S : Slurmctld) (type : EntityType) (run : Nat → GsPart) : Prop where
  steps : ∀ k, ∃ actions, cycleJobList S (run k) = some (run (k + 1), actions)
  sliced : ∀ k, Sliced S type (run k).jobList (run (k + 1)).jobList
  fair : ∀ s, ∀ g ∈ (run s).jobList, ∃ k, s < k ∧ k ≤ s + (run s).jobList.length ∧
    ∃ g' ∈ (run k).jobList, g'.ident = g.ident ∧ g'.rowState = .active

/-- The contract. -/
def SliceContract (P : Partition) : Prop :=
  ∃ run, run 0 = P.part ∧ SlicedRun P.S P.type run

/-- The partition after `k` calls. -/
def cycled (S : Slurmctld) (part : GsPart) (k : Nat) : GsPart :=
  (fun part => ((cycleJobList S part).map (·.1)).getD part)^[k] part

theorem cycled_succ (S : Slurmctld) (part : GsPart) (k : Nat) :
    cycled S part (k + 1) = ((cycleJobList S (cycled S part k)).map (·.1)).getD (cycled S part k) :=
  Function.iterate_succ_apply' _ _ _

/-- A call leaves the jobs as they are, so the node table can still be read for them. -/
theorem allReadable_of_ident {jobs jobs' : List GsJob}
    (h : jobs'.map GsJob.ident = (requeue GsJob.isActive jobs).map GsJob.ident)
    (hread : AllReadable S type jobs) : AllReadable S type jobs' := by
  intro g hg
  have hmem : g.ident ∈ jobs'.map GsJob.ident := mem_map_of_mem hg
  rw [h] at hmem
  obtain ⟨g₀, hg₀, hident⟩ := List.mem_map.mp hmem
  have hjob : g₀.jobPtr = g.jobPtr := congrArg Prod.snd hident
  rw [← hjob]
  exact hread g₀ ((requeue_perm GsJob.isActive jobs).mem_iff.mp hg₀)

/-- Calls on a partition never fail, and keep it in shape. -/
theorem cycled_spec (P : Partition) (hread : AllReadable P.S P.type P.part.jobList) (k : Nat) :
    Sliceable P.S P.type (cycled P.S P.part k) ∧
      AllReadable P.S P.type (cycled P.S P.part k).jobList := by
  induction k with
  | zero => exact ⟨P.sliceable, hread⟩
  | succ k ih =>
    obtain ⟨part', actions, hcycle, hsliceable, hback, -⟩ :=
      cycleJobList_spec P.configured ih.1 ih.2
    rw [cycled_succ, hcycle]
    exact ⟨hsliceable, allReadable_of_ident hback ih.2⟩

/-- Time slicing starves nobody, when the node table can be read for partitions by sockets. -/
theorem sliceContract (P : Partition) (hread : AllReadable P.S P.type P.part.jobList) :
    SliceContract P := by
  have hcall : ∀ k, ∃ actions,
      cycleJobList P.S (cycled P.S P.part k) = some (cycled P.S P.part (k + 1), actions) ∧
      (cycled P.S P.part (k + 1)).jobList.map GsJob.ident =
        (requeue GsJob.isActive (cycled P.S P.part k).jobList).map GsJob.ident ∧
      Greedy (Joins P.S P.type) (·.jobPtr) GsJob.isActive [] (cycled P.S P.part (k + 1)).jobList ∧
      ∀ g ∈ (cycled P.S P.part (k + 1)).jobList, g.sigState = .resume ↔ g.rowState = .active := by
    intro k
    obtain ⟨hsliceable, hreadable⟩ := cycled_spec P hread k
    obtain ⟨part', actions, hcycle, -, hrest⟩ :=
      cycleJobList_spec P.configured hsliceable hreadable
    have hnext : cycled P.S P.part (k + 1) = part' := by
      rw [cycled_succ, hcycle]
      rfl
    rw [hnext]
    exact ⟨actions, hcycle, hrest⟩
  have hrotates : Rotates GsJob.ident GsJob.isActive fun k => (cycled P.S P.part k).jobList := by
    constructor
    · intro k
      obtain ⟨_, _, hback, -⟩ := hcall k
      exact hback
    · intro k g jobs hjobs
      obtain ⟨_, _, _, hgreedy, -⟩ := hcall k
      rw [hjobs] at hgreedy
      exact hgreedy.first_runs (joins_nil P.type)
  refine ⟨cycled P.S P.part, rfl, ?_, ?_, ?_⟩
  · intro k
    obtain ⟨actions, hcycle, -⟩ := hcall k
    exact ⟨actions, hcycle⟩
  · intro k
    obtain ⟨_, _, hback, hgreedy, hsignals⟩ := hcall k
    exact sliced_of_greedy (cycled_spec P hread (k + 1)).1 hback hgreedy hsignals
  · intro s g hg
    obtain ⟨k, hs, hk, g', hg', hident, hactive⟩ := hrotates.fair s hg
    rw [← hrotates.length s] at hk
    exact ⟨k, hs, hk, g', hg', hident, of_decide_eq_true hactive⟩

/-! ## A blank entry -/

theorem validSize_pair : ValidSize 2 := ⟨by decide, by decide⟩

/-- A node table of two entries, of which the first one is as given. -/
def secondNode (first : Option NodeRecord) : Slurmctld where
  selectTypeParam := 0x0002#16
  taskPlugin := some "task/affinity"
  nodeRecordTable := [first, some ⟨2, 2, 1⟩]
  slurmJobPreemptMode := fun _ => 0x0000#16

/-- A job with both cores of the second node. -/
def onSecond : JobRecord where
  jobId := 1
  priority := 1
  partPtr := none
  jobResrcs :=
    { nodeBitmap := bitSet (bitAlloc 2 validSize_pair) 1
      coreBitmap := some (bitNset (bitAlloc 2 validSize_pair) 0 1)
      wholeNode := 0x00#8
      cpus := some [2] }

/-- The job is suspended, and waits in a partition by sockets. -/
def bySockets : GsPart where
  jobsActive := 0
  activeResmap := none
  activeCpus := none
  priority := 1
  jobList := [⟨1, onSecond, .suspend, .noActive⟩]
  shadow := []

theorem nodeRecord_secondNode {i : Nat} {n : NodeRecord}
    (hfirst : first = none ∨ first = some ⟨2, 2, 1⟩)
    (h : nodeRecord (secondNode first) i = some n) : n = ⟨2, 2, 1⟩ := by
  match i with
  | 0 =>
    rcases hfirst with hfirst | hfirst <;> subst hfirst <;> cases h
    rfl
  | 1 =>
    cases h
    rfl
  | i + 2 => cases h

theorem configured_secondNode (hfirst : first = none ∨ first = some ⟨2, 2, 1⟩) :
    Configured (secondNode first) where
  small := by
    rcases hfirst with hfirst | hfirst <;> subst hfirst <;> decide
  sockets := by
    intro i n hn
    rw [nodeRecord_secondNode hfirst hn]
    decide
  words := by
    intro i n hn
    rw [nodeRecord_secondNode hfirst hn]
    decide

theorem allocated_onSecond (hfirst : first = none ∨ first = some ⟨2, 2, 1⟩) :
    Allocated (secondNode first) onSecond where
  nodes_size := rfl
  nodes := by
    intro i hi hbit
    match i with
    | 0 =>
      have hclear : onSecond.jobResrcs.nodeBitmap.bit 0 = false := by decide
      rw [hclear] at hbit
      cases hbit
    | 1 => exact ⟨_, rfl⟩
    | i + 2 => exact absurd hi (by simp [secondNode, Slurmctld.table])
  some_node := ⟨1, by decide, by decide⟩
  cores := by
    refine ⟨_, rfl, ?_⟩
    rcases hfirst with hfirst | hfirst <;> subst hfirst <;> decide
  cpus := ⟨[2], rfl, by decide⟩
  cpus_le := by
    intro i n hn
    have hi := lt_of_nodeRecord hn
    rw [nodeRecord_secondNode hfirst hn]
    match i with
    | 0 => decide
    | 1 => decide
    | i + 2 => exact absurd hi (by simp [secondNode, Slurmctld.table])

/-- The partition, with the first entry of the node table. -/
def socketPartition (first : Option NodeRecord) (hfirst : first = none ∨ first = some ⟨2, 2, 1⟩) :
    Partition where
  S := secondNode first
  type := .socket
  part := bySockets
  configured := configured_secondNode hfirst
  sliceable :=
    { resmap := nofun
      cpus := nofun
      no_shadow := rfl
      types := by
        intro g hg
        rw [List.mem_singleton.mp hg]
        simp [getPartGrType, getGrType, grTypeOf, secondNode, onSecond]
      priorities := by
        intro g hg
        rw [List.mem_singleton.mp hg]
        decide
      allocated := by
        intro g hg
        rw [List.mem_singleton.mp hg]
        exact allocated_onSecond hfirst }

theorem sliceContract_twoNodes : SliceContract (socketPartition (some ⟨2, 2, 1⟩) (Or.inr rfl)) := by
  apply sliceContract
  intro g _ _ i hi _ k hk
  have hlt : k < 2 := lt_of_lt_of_le hk hi
  match k with
  | 0 => rfl
  | 1 => rfl
  | k + 2 => omega

/-- With a blank entry before the node of the job, the call fails. -/
theorem slice_fails : ¬ SliceContract (socketPartition none (Or.inl rfl)) := by
  intro ⟨run, hstart, hrun⟩
  obtain ⟨actions, hcycle⟩ := hrun.steps 0
  rw [hstart] at hcycle
  have hnone : cycleJobList (socketPartition none (Or.inl rfl)).S
      (socketPartition none (Or.inl rfl)).part = none := rfl
  rw [hnone] at hcycle
  cases hcycle

end Slurm.Gang
