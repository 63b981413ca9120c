import Slurm.Depend.Model

/-!
# The search for circular dependencies

`Reaches` says that a job is found in a list of dependencies, or in the lists of the
unfinished jobs that come from there.

* `scan_sound`: the search finds the job only when it is reached.
* `scan_complete`: it finds it, if the counter stays below its limit.
* `reaches_iff`: what that means in the graph of the dependencies.
* `dependsOn_setDetails`: the graph after the job has another list.
-/

namespace Slurm.Depend

open Relation Lib.Cycles Option Function

variable {conf : Conf} {jobs : Jobs} {job : Nat}
variable {deps : List DependSpec} {scan : List DependSpec → Nat → Bool × Nat} {rec : Job}

/-! ## The graph -/

/-- There is such a job, and it is not finished. -/
def Unfinished (jobs : Jobs) (j : Nat) : Prop := ∃ rec, jobs j = some rec ∧ rec.state ≠ .finished

/-- `depend_list` of a job, if it has one. -/
def dependListOf (jobs : Jobs) (j : Nat) : List DependSpec :=
  (((jobs j).bind Job.details).bind Details.dependList).getD []

/-- A job is in a list of dependencies. -/
def Lists (dependList : List DependSpec) (j : Nat) : Prop :=
  ∃ dep ∈ dependList, dep.jobId ≠ 0 ∧ dep.jobPtr = some j

/-- An unfinished job depends on another one. -/
def DependsOn (jobs : Jobs) (j k : Nat) : Prop :=
  Unfinished jobs j ∧ Unfinished jobs k ∧ Lists (dependListOf jobs j) k

/-- The job is in the list, or is reached from an unfinished job in the list. -/
inductive Reaches (jobs : Jobs) (job : Nat) : List DependSpec → Prop where
  | here {l : List DependSpec} (h : Lists l job) : Reaches jobs job l
  | through {l : List DependSpec} {p : Nat} (h : Lists l p) (hp : p ≠ job)
      (hu : Unfinished jobs p) (hr : Reaches jobs job (dependListOf jobs p)) : Reaches jobs job l

theorem lists_cons {dep : DependSpec} {j : Nat} :
    Lists (dep :: deps) j ↔ (dep.jobId ≠ 0 ∧ dep.jobPtr = some j) ∨ Lists deps j := by
  simp only [Lists, List.mem_cons, exists_eq_or_imp]

theorem Reaches.cons {dep : DependSpec} {deps : List DependSpec} (h : Reaches jobs job deps) :
    Reaches jobs job (dep :: deps) := by
  cases h with
  | here h => exact .here (lists_cons.mpr (Or.inr h))
  | through h hp hu hr => exact .through (lists_cons.mpr (Or.inr h)) hp hu hr

/-- What a dependency at the head of a list adds. -/
theorem reaches_cons_iff {dep : DependSpec} :
    Reaches jobs job (dep :: deps) ↔
      (dep.jobId ≠ 0 ∧ (dep.jobPtr = some job ∨ ∃ p, dep.jobPtr = some p ∧ p ≠ job ∧
        Unfinished jobs p ∧ Reaches jobs job (dependListOf jobs p))) ∨ Reaches jobs job deps := by
  constructor
  · intro h
    cases h with
    | here h =>
      rcases lists_cons.mp h with ⟨hid, hptr⟩ | h
      · exact Or.inl ⟨hid, Or.inl hptr⟩
      · exact Or.inr (.here h)
    | through h hp hu hr =>
      rcases lists_cons.mp h with ⟨hid, hptr⟩ | h
      · exact Or.inl ⟨hid, Or.inr ⟨_, hptr, hp, hu, hr⟩⟩
      · exact Or.inr (.through h hp hu hr)
  · rintro (⟨hid, hptr | ⟨p, hptr, hp, hu, hr⟩⟩ | h)
    · exact .here (lists_cons.mpr (Or.inl ⟨hid, hptr⟩))
    · exact .through (lists_cons.mpr (Or.inl ⟨hid, hptr⟩)) hp hu hr
    · exact h.cons

theorem not_reaches_nil : ¬ Reaches jobs job [] := by
  intro h
  cases h with
  | here h => obtain ⟨dep, hmem, -⟩ := h; cases hmem
  | through h => obtain ⟨dep, hmem, -⟩ := h; cases hmem

/-! ## The search -/

/-- The call for the list of a dependency, if there is one, and the rest of the loop. -/
theorem scanList_cons (scan : List DependSpec → Nat → Bool × Nat) (dep : DependSpec)
    (deps : List DependSpec) (c : Nat) :
    (scanList jobs job scan (dep :: deps) c = (true, c) ∧ dep.jobId ≠ 0 ∧ dep.jobPtr = some job) ∨
    (∃ p, dep.jobId ≠ 0 ∧ dep.jobPtr = some p ∧ p ≠ job ∧ Unfinished jobs p ∧
      scanList jobs job scan (dep :: deps) c =
        if (scan (dependListOf jobs p) c).1 then (true, (scan (dependListOf jobs p) c).2)
        else scanList jobs job scan deps (scan (dependListOf jobs p) c).2) ∨
    (scanList jobs job scan (dep :: deps) c = scanList jobs job scan deps c ∧
      (Reaches jobs job (dep :: deps) ↔ Reaches jobs job deps)) := by
  have hskip : (dep.jobId = 0 ∨ ∀ p, dep.jobPtr = some p → p ≠ job ∧
      (Unfinished jobs p → dependListOf jobs p = [])) →
      (Reaches jobs job (dep :: deps) ↔ Reaches jobs job deps) := by
    intro h
    rw [reaches_cons_iff]
    refine or_iff_right ?_
    rintro ⟨hid, hptr⟩
    rcases h with h | h
    · exact hid h
    · rcases hptr with hptr | ⟨p, hptr, -, hu, hr⟩
      · exact (h job hptr).1 rfl
      · rw [(h p hptr).2 hu] at hr
        exact not_reaches_nil hr
  rw [scanList]
  split
  · rename_i hid
    exact Or.inr (Or.inr ⟨rfl, hskip (Or.inl hid)⟩)
  rename_i hid
  cases hptr : dep.jobPtr with
  | none =>
    rw [if_pos rfl]
    refine Or.inr (Or.inr ⟨rfl, hskip (Or.inr fun p hp => ?_)⟩)
    rw [hptr] at hp
    cases hp
  | some p =>
    rw [if_neg (some_ne_none p)]
    by_cases hsame : p = job
    · subst hsame
      left
      rw [dependsOnSameJob, if_pos (beq_self_eq_true _)]
      exact ⟨rfl, hid, rfl⟩
    · have hne : ¬ dependsOnSameJob job (some p) = true := by
        rw [dependsOnSameJob, beq_iff_eq]
        exact fun h => hsame (Option.some.inj h)
      have hptr' : ∀ q, dep.jobPtr = some q → p = q := fun q hq =>
        Option.some.inj (hptr.symm.trans hq)
      rw [if_neg hne, bind_some]
      cases hrec : jobs p with
      | none =>
        refine Or.inr (Or.inr ⟨rfl, hskip (Or.inr fun q hq => ?_)⟩)
        obtain rfl := hptr' q hq
        refine ⟨hsame, fun ⟨rec, hr, _⟩ => ?_⟩
        rw [hrec] at hr
        cases hr
      | some rec =>
        have hlist : dependListOf jobs p = (rec.details.bind Details.dependList).getD [] := by
          rw [dependListOf, hrec, bind_some]
        cases hdeps : rec.details.bind Details.dependList with
        | none =>
          refine Or.inr (Or.inr ⟨by simp only [hdeps], hskip (Or.inr fun q hq => ?_)⟩)
          obtain rfl := hptr' q hq
          refine ⟨hsame, fun _ => ?_⟩
          rw [hlist, hdeps]
          rfl
        | some list =>
          rw [hdeps, getD_some] at hlist
          simp only [hdeps]
          by_cases hfinished : rec.state = .finished
          · rw [if_pos hfinished]
            refine Or.inr (Or.inr ⟨rfl, hskip (Or.inr fun q hq => ?_)⟩)
            obtain rfl := hptr' q hq
            refine ⟨hsame, fun ⟨rec', hr, hu⟩ => ?_⟩
            rw [hrec] at hr
            obtain rfl := Option.some.inj hr
            exact absurd hfinished hu
          · rw [if_neg hfinished]
            refine Or.inr (Or.inl ⟨p, hid, rfl, hsame, ⟨rec, hrec, hfinished⟩, ?_⟩)
            rw [hlist]
            generalize scan list c = r
            obtain ⟨found, c'⟩ := r
            cases found <;> rfl

/-- The loop finds the job only when it is reached. -/
theorem scanList_sound (hscan : ∀ l c, (scan l c).1 = true → Reaches jobs job l)
    (l : List DependSpec) (c : Nat) (h : (scanList jobs job scan l c).1 = true) :
    Reaches jobs job l := by
  induction l generalizing c with
  | nil => cases h
  | cons dep deps ih =>
    rw [reaches_cons_iff]
    rcases scanList_cons scan dep deps c with ⟨-, hid, hptr⟩ | ⟨p, hid, hptr, hp, hu, heq⟩ | ⟨heq, hiff⟩
    · exact Or.inl ⟨hid, Or.inl hptr⟩
    · rw [heq] at h
      split at h
      · rename_i hfound
        exact Or.inl ⟨hid, Or.inr ⟨p, hptr, hp, hu, hscan _ _ hfound⟩⟩
      · exact Or.inr (ih _ h)
    · rw [heq] at h
      exact Or.inr (ih _ h)

theorem scan_sound (fuel : Nat) (l : List DependSpec) (c : Nat)
    (h : (scanDepend conf jobs job fuel l c).1 = true) : Reaches jobs job l := by
  induction fuel generalizing l c with
  | zero => cases h
  | succ fuel ih =>
    rw [scanDepend] at h
    split at h
    · cases h
    · exact scanList_sound ih l _ h

/-- The counter does not go back, in the loop. -/
theorem le_scanList (hscan : ∀ l c, c ≤ (scan l c).2) (l : List DependSpec) (c : Nat) :
    c ≤ (scanList jobs job scan l c).2 := by
  induction l generalizing c with
  | nil => exact le_rfl
  | cons dep deps ih =>
    rcases scanList_cons scan dep deps c with ⟨heq, -⟩ | ⟨p, -, -, -, -, heq⟩ | ⟨heq, -⟩
    · rw [heq]
    · rw [heq]
      split
      · exact hscan _ _
      · exact (hscan _ _).trans (ih _)
    · rw [heq]
      exact ih c

theorem lt_scanDepend (fuel : Nat) (l : List DependSpec) (c : Nat) :
    c < (scanDepend conf jobs job fuel l c).2 := by
  induction fuel generalizing l c with
  | zero => exact Nat.lt_succ_self c
  | succ fuel ih =>
    rw [scanDepend]
    split
    · exact Nat.lt_succ_self c
    · exact Nat.lt_of_succ_le (le_scanList (fun l c => (ih l c).le) l (c + 1))

/-- The loop finds the job when it is reached, if the calls do. -/
theorem scanList_complete {limit low : Nat} (hle : ∀ l c, c ≤ (scan l c).2)
    (hscan : ∀ l c, low ≤ c → (scan l c).2 ≤ limit → (scan l c).1 = false → ¬ Reaches jobs job l)
    (l : List DependSpec) (c : Nat) (hc : low ≤ c) (hlimit : (scanList jobs job scan l c).2 ≤ limit)
    (h : (scanList jobs job scan l c).1 = false) : ¬ Reaches jobs job l := by
  induction l generalizing c with
  | nil => exact not_reaches_nil
  | cons dep deps ih =>
    rcases scanList_cons scan dep deps c with ⟨heq, -⟩ | ⟨p, hid, hptr, hp, hu, heq⟩ | ⟨heq, hiff⟩
    · rw [heq] at h
      cases h
    · rw [heq] at h hlimit
      split at h
      · cases h
      · rename_i hfound
        rw [if_neg hfound] at hlimit
        have hafter := hle (dependListOf jobs p) c
        have hcall := hscan _ c hc ((le_scanList hle deps _).trans hlimit) (Bool.not_eq_true _ ▸ hfound)
        have hrest := ih _ (hc.trans hafter) hlimit h
        rw [reaches_cons_iff]
        rintro (⟨-, hptr' | ⟨q, hptr', -, -, hr⟩⟩ | hr)
        · exact hp (Option.some.inj (hptr.symm.trans hptr'))
        · obtain rfl := Option.some.inj (hptr.symm.trans hptr')
          exact hcall hr
        · exact hrest hr
    · rw [heq] at h hlimit
      rw [hiff]
      exact ih c hc hlimit h

/-- The search finds the job when it is reached and no call was stopped by the counter. -/
theorem scan_complete (fuel : Nat) (l : List DependSpec) (c : Nat)
    (hfuel : conf.maxDependDepth < fuel + c)
    (hlimit : (scanDepend conf jobs job fuel l c).2 ≤ conf.maxDependDepth)
    (h : (scanDepend conf jobs job fuel l c).1 = false) : ¬ Reaches jobs job l := by
  induction fuel generalizing l c with
  | zero =>
    have hlt := @lt_scanDepend conf jobs job 0 l c
    omega
  | succ fuel ih =>
    have hlt := @lt_scanDepend conf jobs job (fuel + 1) l c
    have hgo : ¬ conf.maxDependDepth ≤ c := by omega
    rw [scanDepend, if_neg hgo] at h hlimit
    refine scanList_complete (fun l c => (lt_scanDepend fuel l c).le) (fun l' c' hc hl h => ?_) l (c + 1)
      le_rfl hlimit h
    exact ih l' c' (by omega) hl h

/-- The search for circular dependencies is exact, if it comes to fewer lists than the limit. -/
theorem circular_iff {l : List DependSpec} (h : (circular conf jobs job l).2 < conf.maxDependDepth) :
    (circular conf jobs job l).1 = true ↔ Reaches jobs job l := by
  constructor
  · exact scan_sound _ l 0
  · intro hr
    by_contra hfound
    exact scan_complete _ l 0 (by omega) h.le (Bool.not_eq_true _ ▸ hfound) hr

/-! ## Acyclic graphs -/

/-- In the graph: an unfinished job in the list leads to the job, and not by way of the job's own
list. -/
theorem reaches_iff (hjob : Unfinished jobs job) (l : List DependSpec) :
    Reaches jobs job l ↔
      ∃ y, (Lists l y ∧ Unfinished jobs y) ∧ ReflTransGen (off (DependsOn jobs) job) y job := by
  constructor
  · intro h
    induction h with
    | here h => exact ⟨job, ⟨h, hjob⟩, .refl⟩
    | through h hp hu _ ih =>
      obtain ⟨y, ⟨hy, hyu⟩, hreach⟩ := ih
      exact ⟨_, ⟨h, hu⟩, .head ⟨hp, hu, hyu, hy⟩ hreach⟩
  · rintro ⟨y, ⟨hy, hyu⟩, hreach⟩
    induction hreach using ReflTransGen.head_induction_on generalizing l with
    | refl => exact .here hy
    | head hstep _ ih =>
      obtain ⟨hne, -, hu, hlists⟩ := hstep
      exact .through hy hne hyu (ih _ hlists hu)

/-- The job gets another list. -/
theorem dependsOn_setDetails (hrec : jobs job = some rec) (hjob : Unfinished jobs job)
    (details : Details) (l : List DependSpec) (hlist : details.dependList = some l) :
    DependsOn (setDetails jobs job (some details)) =
      setOut (DependsOn jobs) job fun y => Lists l y ∧ Unfinished jobs y := by
  have hat : setDetails jobs job (some details) job = some { rec with details := some details } := by
    rw [setDetails, update_self, hrec, map_some]
  have hother : ∀ j, j ≠ job → setDetails jobs job (some details) j = jobs j := fun j hj =>
    update_of_ne hj _ _
  have hunfinished : ∀ j, Unfinished (setDetails jobs job (some details)) j ↔ Unfinished jobs j := by
    intro j
    by_cases hj : j = job
    · subst hj
      rw [Unfinished, hat, Unfinished, hrec]
      constructor
      · rintro ⟨_, heq, hne⟩
        obtain rfl := Option.some.inj heq
        exact ⟨rec, rfl, hne⟩
      · rintro ⟨_, heq, hne⟩
        obtain rfl := Option.some.inj heq
        exact ⟨_, rfl, hne⟩
    · rw [Unfinished, hother j hj, Unfinished]
  funext j k
  rw [DependsOn, hunfinished, hunfinished, setOut, off, eq_iff_iff]
  by_cases hj : j = job
  · subst hj
    have hl : dependListOf (setDetails jobs j (some details)) j = l := by
      rw [dependListOf, hat, bind_some, bind_some, hlist, getD_some]
    rw [hl]
    constructor
    · rintro ⟨-, hk, hlists⟩
      exact Or.inl ⟨rfl, hlists, hk⟩
    · rintro (⟨-, hlists, hk⟩ | ⟨hne, -⟩)
      · exact ⟨hjob, hk, hlists⟩
      · exact absurd rfl hne
  · rw [dependListOf, hother j hj]
    constructor
    · intro h
      exact Or.inr ⟨hj, h⟩
    · rintro (⟨heq, -⟩ | ⟨-, h⟩)
      · exact absurd heq hj
      · exact h

/-- A list closes a circle exactly when the job is reached from it. -/
theorem acyclic_setDetails_iff (hrec : jobs job = some rec) (hjob : Unfinished jobs job)
    (hacyclic : Acyclic (DependsOn jobs)) (details : Details) (l : List DependSpec)
    (hlist : details.dependList = some l) :
    Acyclic (DependsOn (setDetails jobs job (some details))) ↔ ¬ Reaches jobs job l := by
  rw [dependsOn_setDetails hrec hjob details l hlist, acyclic_setOut_iff hacyclic, reaches_iff hjob,
    not_exists]
  simp only [not_and]

/-- Nothing is closed when the list stays, or goes. -/
theorem acyclic_of_dependList {details : Details} (hrec : jobs job = some rec)
    (hacyclic : Acyclic (DependsOn jobs)) {details' : Details}
    (hdetails : rec.details = some details)
    (hlist : details'.dependList = details.dependList ∨ details'.dependList = none) :
    Acyclic (DependsOn (setDetails jobs job (some details'))) := by
  have hle : DependsOn (setDetails jobs job (some details')) ≤ DependsOn jobs := by
    have hstate : ∀ j, Unfinished (setDetails jobs job (some details')) j → Unfinished jobs j := by
      rintro j ⟨rec', hrec', hne⟩
      by_cases hj : j = job
      · subst hj
        rw [setDetails, update_self, hrec, map_some] at hrec'
        obtain rfl := Option.some.inj hrec'
        exact ⟨rec, hrec, hne⟩
      · rw [setDetails, update_of_ne hj] at hrec'
        exact ⟨rec', hrec', hne⟩
    rintro j k ⟨hj, hk, hlists⟩
    refine ⟨hstate j hj, hstate k hk, ?_⟩
    by_cases heq : j = job
    · subst heq
      rw [dependListOf, setDetails, update_self, hrec, map_some, bind_some,
        bind_some] at hlists
      rw [dependListOf, hrec, bind_some, hdetails, bind_some]
      rcases hlist with h | h
      · rwa [h] at hlists
      · rw [h] at hlists
        obtain ⟨dep, hmem, -⟩ := hlists
        cases hmem
    · rwa [dependListOf, setDetails, update_of_ne heq] at hlists
  exact fun x hx => hacyclic x (TransGen.mono hle _ _ hx)

end Slurm.Depend
