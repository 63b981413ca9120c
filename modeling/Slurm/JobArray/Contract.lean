import Slurm.JobArray.Split
import Slurm.Lib.Run

/-!
# No task is lost or doubled

* `ArrayContract`: where the tasks of an array are, and what the searches return.
* `ArrayAt`: the invariant; `ArrayAt.splits` and `ArrayAt.exec` are its steps.
* `arrayContract_always`: every state of every run from a new array.
-/

namespace Slurm.JobArray

open Slurm.Bitstring Lib.Run Finset

variable {a : BitVec 32} {tasks rest : Finset Nat} {m m' : JobMgr} {arrays : Set Nat} {p : Nat}
variable {r : JobRecord} {q : Nat} {t newId cnt : BitVec 32} {b : Bitstr}

/-! ## The contract -/

/-- The tasks in the bitmap of the record that is found under the id of an array. -/
def pendingTasks (m : JobMgr) (a : BitVec 32) : Finset Nat :=
  match (m.records (findJobRecord m a)).arrayRecs.bind ArrayStruct.taskIdBitmap with
  | none => ∅
  | some bitmap => (denote bitmap).elems

/-- A separate record of a task. -/
structure Separate (m : JobMgr) (a : BitVec 32) (t p : Nat) : Prop where
  live : p ∈ live m
  arrayJobId : (m.records p).arrayJobId = a
  arrayTaskId : (m.records p).arrayTaskId = BitVec.ofNat 32 t

/-- What is promised of the tasks `tasks` of the array `a`, where records are asked for by the numbers
`asked`. -/
structure ArrayContract (asked : BitVec 32 → Prop) (a : BitVec 32) (tasks : Finset Nat) (m : JobMgr) :
    Prop where
  once : ∀ t ∈ tasks, t ∈ pendingTasks m a ∧ (∀ p, ¬ Separate m a t p) ∨
    t ∉ pendingTasks m a ∧ ∃! p, Separate m a t p
  taskCnt : ∀ recs bitmap, (m.records (findJobRecord m a)).arrayRecs = some recs →
    recs.taskIdBitmap = some bitmap → recs.taskCnt.toNat = (denote bitmap).elems.card
  found : ∀ p ∈ live m, findJobRecord m (m.records p).jobId = p
  holder : ∀ p, p ∈ live m ∧ (m.records p).arrayJobId = a ∧ (m.records p).arrayRecs.isSome = true ↔
    p = findJobRecord m a
  pending : ∀ t, asked t → t.toNat ∈ tasks → t.toNat ∈ pendingTasks m a →
    findJobArrayRec m a t = findJobRecord m a
  split : ∀ t, asked t → t.toNat ∈ tasks → t.toNat ∉ pendingTasks m a →
    Separate m a t.toNat (findJobArrayRec m a t)
  other : ∀ t, asked t → t.toNat ∉ tasks → findJobArrayRec m a t = 0

/-- The numbers that stand for a task: all but `NO_VAL`, which asks for the record of the job, and
`INFINITE`, which asks for any task. -/
def TaskNumber (t : BitVec 32) : Prop := t ≠ noVal ∧ t ≠ infinite

/-! ## The invariant -/

/-- The record `p` is that of the array `a` and stands for the tasks `rest`; all the others have a
record of their own. -/
structure ArrayAt (a : BitVec 32) (tasks : Finset Nat) (m : JobMgr) (arrays : Set Nat) (p : Nat)
    (rest : Finset Nat) : Prop where
  tables : Tables m (live m) arrays
  unique : ∀ q ∈ live m, ∀ q' ∈ live m, (m.records q).jobId = (m.records q').jobId → q = q'
  inside : ∀ t ∈ tasks, t < 0x40000000
  rest_sub : rest ⊆ tasks
  live : p ∈ live m
  jobId : (m.records p).jobId = a
  arrayJobId : (m.records p).arrayJobId = a
  holder : ∃ recs, (m.records p).arrayRecs = some recs ∧ Holder rest recs (m.records p).arrayTaskId
  hashed : ∀ q ∈ JobArray.live m, (m.records q).arrayJobId = a →
    (q ∈ arrays ↔ (m.records q).arrayTaskId ≠ noVal)
  others : ∀ q ∈ JobArray.live m, q ≠ p → (m.records q).arrayJobId = a →
    (m.records q).arrayRecs = none ∧ ∃ t ∈ tasks \ rest, (m.records q).arrayTaskId = BitVec.ofNat 32 t
  split : ∀ t ∈ tasks \ rest, ∃ q, q ≠ p ∧ Separate m a t q
  once : ∀ q ∈ JobArray.live m, ∀ q' ∈ JobArray.live m, q ≠ p → q' ≠ p →
    (m.records q).arrayJobId = a → (m.records q').arrayJobId = a →
    (m.records q).arrayTaskId = (m.records q').arrayTaskId → q = q'

/-- Only the record of the array is written. -/
theorem ArrayAt.of_record (h : ArrayAt a tasks m arrays p rest) (hsame : SameJobs (m.put p r) m')
    {arrays' : Set Nat} (htables : Tables m' (JobArray.live m') arrays') (hid : r.jobId = a)
    (hjob : r.arrayJobId = a)
    (hholder : ∃ recs, r.arrayRecs = some recs ∧ Holder rest recs r.arrayTaskId)
    (harrays : ∀ q, q ≠ p → (q ∈ arrays' ↔ q ∈ arrays)) (hp : p ∈ arrays' ↔ r.arrayTaskId ≠ noVal) :
    ArrayAt a tasks m' arrays' p rest := by
  have hlive : JobArray.live m' = JobArray.live m := by
    rw [JobArray.live, hsame.count]
    rfl
  have hself : SameRecord r (m'.records p) := by
    have hrecord := hsame.record p
    rwa [put_records_self] at hrecord
  have hother : ∀ q, q ≠ p → SameRecord (m.records q) (m'.records q) := by
    intro q hq
    rw [← put_records_of_ne (r := r) hq]
    exact hsame.record q
  have hids : ∀ q, (m'.records q).jobId = (m.records q).jobId := by
    intro q
    by_cases hq : q = p
    · rw [hq, hself.jobId, hid, h.jobId]
    · exact (hother q hq).jobId
  refine ⟨htables, ?_, h.inside, h.rest_sub, hlive ▸ h.live, hself.jobId.trans hid,
    hself.arrayJobId.trans hjob, ?_, ?_, ?_, ?_, ?_⟩
  · simpa only [hlive, hids] using h.unique
  · rw [hself.arrayRecs, hself.arrayTaskId]
    exact hholder
  · intro q hq hqjob
    by_cases hqp : q = p
    · rw [hqp, hself.arrayTaskId]
      exact hp
    · rw [harrays q hqp, (hother q hqp).arrayTaskId]
      exact h.hashed q (hlive ▸ hq) ((hother q hqp).arrayJobId.symm.trans hqjob)
  · intro q hq hqp hqjob
    rw [(hother q hqp).arrayRecs, (hother q hqp).arrayTaskId]
    exact h.others q (hlive ▸ hq) hqp ((hother q hqp).arrayJobId.symm.trans hqjob)
  · intro t ht
    obtain ⟨q, hq, hsep⟩ := h.split t ht
    exact ⟨q, hq, hlive ▸ hsep.live, (hother q hq).arrayJobId.trans hsep.arrayJobId,
      (hother q hq).arrayTaskId.trans hsep.arrayTaskId⟩
  · intro q hq q' hq' hqp hqp' hqjob hqjob' heq
    rw [(hother q hqp).arrayTaskId, (hother q' hqp').arrayTaskId] at heq
    exact h.once q (hlive ▸ hq) q' (hlive ▸ hq') hqp hqp'
      ((hother q hqp).arrayJobId.symm.trans hqjob) ((hother q' hqp').arrayJobId.symm.trans hqjob') heq

/-! ## What the searches return -/

theorem ArrayAt.find (h : ArrayAt a tasks m arrays p rest) : findJobRecord m a = p := by
  have hfind := h.tables.findJobRecord_eq h.live fun q hq => h.unique q hq p h.live
  rwa [h.jobId] at hfind

/-- The record of an array is in the tables of arrays where it stands for its last task. -/
theorem ArrayAt.pendingTasks_eq (h : ArrayAt a tasks m arrays p rest) :
    pendingTasks m a = rest ∧ (m.records p).arrayTaskId = noVal ∨
      pendingTasks m a = ∅ ∧ ∃ t, rest = {t} ∧ (m.records p).arrayTaskId = BitVec.ofNat 32 t := by
  obtain ⟨recs, hrecs, hholder⟩ := h.holder
  rw [pendingTasks, h.find, hrecs]
  generalize (m.records p).arrayTaskId = task at hholder
  cases hholder with
  | pending b cnt htasks hcnt => exact Or.inl ⟨htasks, rfl⟩
  | last t cnt htasks => exact Or.inr ⟨rfl, t, htasks, rfl⟩
  | done cnt htasks => exact Or.inl ⟨htasks.symm, rfl⟩

/-- Records of an array have different tasks. -/
theorem ArrayAt.separate_unique (h : ArrayAt a tasks m arrays p rest) {t : Nat}
    (ht : t < 0x40000000) {q' : Nat} (hq : Separate m a t q) (hq' : Separate m a t q') :
    q = q' := by
  have hother : ∀ {q : Nat}, Separate m a t q → q ≠ p → Separate m a t p → False := by
    intro q hq hne hp
    obtain ⟨-, t', ht', htask⟩ := h.others q hq.live hne hq.arrayJobId
    rw [hq.arrayTaskId] at htask
    have hmem := Finset.mem_sdiff.mp ht'
    have heq := task_inj ht (h.inside t' hmem.1) htask
    rcases h.pendingTasks_eq with ⟨-, hno⟩ | ⟨-, u, hu, htask'⟩
    · exact task_ne_noVal ht (hp.arrayTaskId.symm.trans hno)
    · have hut : u ∈ tasks := h.rest_sub (hu ▸ Finset.mem_singleton_self u)
      have heq' := task_inj ht (h.inside u hut) (hp.arrayTaskId.symm.trans htask')
      apply hmem.2
      rw [hu, ← heq, heq']
      exact Finset.mem_singleton_self u
  by_cases hqp : q = p
  · by_cases hqp' : q' = p
    · rw [hqp, hqp']
    · exact (hother hq' hqp' (hqp ▸ hq)).elim
  · by_cases hqp' : q' = p
    · exact (hother hq hqp (hqp' ▸ hq')).elim
    · exact h.once q hq.live q' hq'.live hqp hqp' hq.arrayJobId hq'.arrayJobId
        (hq.arrayTaskId.trans hq'.arrayTaskId.symm)

theorem ArrayAt.pendingTasks_sub (h : ArrayAt a tasks m arrays p rest) : pendingTasks m a ⊆ rest := by
  rcases h.pendingTasks_eq with ⟨heq, -⟩ | ⟨heq, -⟩
  · rw [heq]
  · rw [heq]
    exact empty_subset rest

/-- A record of the array that is for a task is for one of its tasks that is not pending. -/
theorem ArrayAt.task_of (h : ArrayAt a tasks m arrays p rest) (hq : q ∈ JobArray.live m)
    (hjob : (m.records q).arrayJobId = a) (hno : (m.records q).arrayTaskId ≠ noVal) :
    ∃ t ∈ tasks, t ∉ pendingTasks m a ∧ (m.records q).arrayTaskId = BitVec.ofNat 32 t := by
  by_cases hqp : q = p
  · rw [hqp] at hno ⊢
    rcases h.pendingTasks_eq with ⟨-, heq⟩ | ⟨hempty, t, ht, htask⟩
    · exact absurd heq hno
    · refine ⟨t, h.rest_sub (ht ▸ Finset.mem_singleton_self t), ?_, htask⟩
      rw [hempty]
      exact notMem_empty t
  · obtain ⟨-, t, ht, htask⟩ := h.others q hq hqp hjob
    have hmem := Finset.mem_sdiff.mp ht
    exact ⟨t, hmem.1, fun hpending => hmem.2 (h.pendingTasks_sub hpending), htask⟩

/-- The tasks that have a record. -/
theorem ArrayAt.separate_iff (h : ArrayAt a tasks m arrays p rest) {t : Nat} (ht : t < 0x40000000) :
    (∃ q, Separate m a t q) ↔ t ∈ tasks ∧ t ∉ pendingTasks m a := by
  constructor
  · rintro ⟨q, hq⟩
    obtain ⟨t', hmem, hnot, htask⟩ := h.task_of hq.live hq.arrayJobId
      (hq.arrayTaskId ▸ task_ne_noVal ht)
    rw [task_inj ht (h.inside t' hmem) (hq.arrayTaskId.symm.trans htask)]
    exact ⟨hmem, hnot⟩
  · rintro ⟨hmem, hnot⟩
    by_cases hrest : t ∈ rest
    · rcases h.pendingTasks_eq with ⟨heq, -⟩ | ⟨-, u, hu, htask⟩
      · exact absurd (heq ▸ hrest) hnot
      · rw [hu, Finset.mem_singleton] at hrest
        exact ⟨p, h.live, h.arrayJobId, hrest ▸ htask⟩
    · obtain ⟨q, -, hq⟩ := h.split t (Finset.mem_sdiff.mpr ⟨hmem, hrest⟩)
      exact ⟨q, hq⟩

theorem findPendingTask_eq (hfind : findJobRecord m a ≠ 0) :
    findPendingTask m a t = if t.toNat ∈ pendingTasks m a then findJobRecord m a else 0 := by
  rw [findPendingTask, if_neg hfind, pendingTasks]
  cases (m.records (findJobRecord m a)).arrayRecs.bind ArrayStruct.taskIdBitmap with
  | none => exact (if_neg (notMem_empty _)).symm
  | some bitmap =>
    dsimp only
    simp only [mem_denote, bitTest_eq]

theorem ofNat_toNat (t : BitVec 32) : BitVec.ofNat 32 t.toNat = t := BitVec.ofNat_toNat 32 t

/-- A task that has a record is found there. -/
theorem ArrayAt.find_separate (h : ArrayAt a tasks m arrays p rest) (ht : TaskNumber t)
    (hq : Separate m a t.toNat q) : findJobArrayRec m a t = q := by
  have htask : (m.records q).arrayTaskId = t := hq.arrayTaskId.trans (ofNat_toNat t)
  have hmem : q ∈ arrays := (h.hashed q hq.live hq.arrayJobId).mpr (htask ▸ ht.1)
  obtain ⟨u, hu, -, hut⟩ := h.task_of hq.live hq.arrayJobId (htask ▸ ht.1)
  have hlt : t.toNat < 0x40000000 := by
    rw [← htask, hut, toNat_task (h.inside u hu)]
    exact h.inside u hu
  have hfind : findSplitTask m a t = q := by
    have hsearch := h.tables.findSplitTask_eq hmem fun k hk hjob hsame => by
      refine h.separate_unique hlt ⟨?_, hjob.trans hq.arrayJobId, hsame.trans hq.arrayTaskId⟩ hq
      exact h.tables.arrayT.bound k hk
    rwa [hq.arrayJobId, htask] at hsearch
  have hpos : q ≠ 0 := Nat.ne_of_gt hq.live.1
  rw [findJobArrayRec, if_neg ht.1, if_neg ht.2]
  dsimp only
  rw [hfind, if_pos hpos]

/-- A number without a record is looked for in the bitmap. -/
theorem ArrayAt.find_pending (h : ArrayAt a tasks m arrays p rest) (ht : TaskNumber t)
    (hnone : ∀ q, ¬ Separate m a t.toNat q) :
    findJobArrayRec m a t = if t.toNat ∈ pendingTasks m a then findJobRecord m a else 0 := by
  have hfind : findSplitTask m a t = 0 := by
    apply h.tables.findSplitTask_eq_zero
    intro q hq hjob htask
    exact hnone q ⟨h.tables.arrayT.bound q hq, hjob, htask.trans (ofNat_toNat t).symm⟩
  have hpos : findJobRecord m a ≠ 0 := by
    rw [h.find]
    exact Nat.ne_of_gt h.live.1
  rw [findJobArrayRec, if_neg ht.1, if_neg ht.2]
  dsimp only
  rw [hfind, if_neg (not_not.mpr rfl), findPendingTask_eq hpos]

/-- What the invariant promises. -/
theorem ArrayAt.contract (h : ArrayAt a tasks m arrays p rest) :
    ArrayContract TaskNumber a tasks m where
  once t ht := by
    by_cases hpending : t ∈ pendingTasks m a
    · refine Or.inl ⟨hpending, fun q hq => ?_⟩
      exact ((h.separate_iff (h.inside t ht)).mp ⟨q, hq⟩).2 hpending
    · obtain ⟨q, hq⟩ := (h.separate_iff (h.inside t ht)).mpr ⟨ht, hpending⟩
      exact Or.inr ⟨hpending, q, hq, fun k hk => h.separate_unique (h.inside t ht) hk hq⟩
  taskCnt recs bitmap hrecs hbitmap := by
    obtain ⟨recs', hrecs', hholder⟩ := h.holder
    rw [h.find, hrecs'] at hrecs
    obtain rfl := Option.some.inj hrecs
    generalize (m.records p).arrayTaskId = task at hholder
    cases hholder with
    | pending b cnt htasks hcnt =>
      obtain rfl := Option.some.inj hbitmap
      rw [htasks]
      exact hcnt
    | last t cnt htasks => cases hbitmap
    | done cnt htasks => cases hbitmap
  found q hq := h.tables.findJobRecord_eq hq fun k hk => h.unique k hk q hq
  holder q := by
    rw [h.find]
    constructor
    · rintro ⟨hq, hjob, hsome⟩
      by_contra hqp
      rw [(h.others q hq hqp hjob).1] at hsome
      cases hsome
    · intro hqp
      obtain ⟨recs, hrecs, -⟩ := h.holder
      rw [hqp, hrecs]
      exact ⟨h.live, h.arrayJobId, rfl⟩
  pending t ht hmem hpending := by
    rw [h.find_pending ht, if_pos hpending]
    intro q hq
    exact ((h.separate_iff (h.inside _ hmem)).mp ⟨q, hq⟩).2 hpending
  split t ht hmem hnot := by
    obtain ⟨q, hq⟩ := (h.separate_iff (h.inside _ hmem)).mpr ⟨hmem, hnot⟩
    rw [h.find_separate ht hq]
    exact hq
  other t ht hnot := by
    rw [h.find_pending ht, if_neg]
    · exact fun hpending => hnot (h.rest_sub (h.pendingTasks_sub hpending))
    · intro q hq
      have htask := hq.arrayTaskId.trans (ofNat_toNat t)
      obtain ⟨u, hu, -, hut⟩ := h.task_of hq.live hq.arrayJobId (htask ▸ ht.1)
      apply hnot
      rw [← htask, hut, toNat_task (h.inside u hu)]
      exact hu

/-! ## Steps -/

/-- The tasks are in the bitmap of the record. -/
structure Pending (m : JobMgr) (p : Nat) (rest : Finset Nat) (b : Bitstr) (cnt : BitVec 32) : Prop where
  recs : (m.records p).arrayRecs = some ⟨some b, cnt⟩
  elems : (denote b).elems = rest
  cnt : cnt.toNat = rest.card
  task : (m.records p).arrayTaskId = noVal

theorem ArrayAt.notMem_arrays (h : ArrayAt a tasks m arrays p rest)
    (htask : (m.records p).arrayTaskId = noVal) : p ∉ arrays :=
  fun hmem => (h.hashed p h.live h.arrayJobId).mp hmem htask

/-- The invariant after a split. -/
theorem ArrayAt.of_splits (h : ArrayAt a tasks m arrays p rest) {t : Nat} (ht : t ∈ rest)
    (hr : SameRecord { m.records p with arrayTaskId := BitVec.ofNat 32 t } r)
    (hunused : ∀ q ∈ JobArray.live m, (m.records q).jobId ≠ newId) {recs : ArrayStruct}
    {task : BitVec 32} (hsplits : Splits (m.put p r) arrays p newId (rest.erase t) m' recs task) :
    ArrayAt a tasks m' (insert p (if task = noVal then arrays else insert (m.count + 1) arrays))
      (m.count + 1) (rest.erase t) := by
  have htlt := h.inside t (h.rest_sub ht)
  have hsplit := hsplits.split
  have hpend : SameRecord _ (m'.records (m.count + 1)) := hsplits.pend
  rw [put_records_self] at hsplit hpend
  have hother : ∀ q, q ≠ p → q ≠ m.count + 1 → SameRecord (m.records q) (m'.records q) := by
    intro q hq hq'
    rw [← put_records_of_ne (r := r) hq]
    exact hsplits.other q hq hq'
  have hjobId := hpend.jobId.trans (hr.jobId.trans h.jobId)
  have harray := hpend.arrayJobId.trans (hr.arrayJobId.trans h.arrayJobId)
  have hjobId' : (m'.records p).jobId = newId := hsplit.jobId
  have harray' := hsplit.arrayJobId.trans (hr.arrayJobId.trans h.arrayJobId)
  have htask' : (m'.records p).arrayTaskId = BitVec.ofNat 32 t := hsplit.arrayTaskId.trans hr.arrayTaskId
  have hne : p ≠ m.count + 1 := fun heq => Nat.lt_irrefl _ (Nat.lt_of_lt_of_le (Nat.lt_succ_self _)
    (heq ▸ h.live.2))
  have hcount : m'.count = m.count + 1 := hsplits.count
  have hlive : ∀ q, q ∈ JobArray.live m' ↔ q = m.count + 1 ∨ q ∈ JobArray.live m := by
    intro q
    simp only [JobArray.live, hcount, Set.mem_ofPred_eq]
    omega
  have hnew : m.count + 1 ∉ JobArray.live m := fun hmem => Nat.lt_irrefl _ hmem.2
  have hmem_erase : ∀ {k}, k ∈ tasks \ rest.erase t ↔ k = t ∨ k ∈ tasks \ rest := by
    intro k
    simp only [mem_sdiff, mem_erase]
    have htm := h.rest_sub ht
    by_cases hk : k = t
    · simp [hk, htm]
    · simp [hk]
  -- The task of a record that is not the new one.
  have htaskOf : ∀ q ∈ JobArray.live m, (m'.records q).arrayJobId = a →
      (m'.records q).arrayRecs = none ∧ ∃ k ∈ tasks \ rest.erase t,
        (m'.records q).arrayTaskId = BitVec.ofNat 32 k ∧ (k = t ↔ q = p) := by
    intro q hq hjob
    by_cases hqp : q = p
    · rw [hqp]
      exact ⟨hsplit.arrayRecs, t, hmem_erase.mpr (Or.inl rfl), htask', by simp⟩
    · have hsame := hother q hqp fun heq => hnew (heq ▸ hq)
      rw [hsame.arrayJobId] at hjob
      obtain ⟨hrecs, k, hk, htask⟩ := h.others q hq hqp hjob
      refine ⟨hsame.arrayRecs.trans hrecs, k, hmem_erase.mpr (Or.inr hk), hsame.arrayTaskId.trans htask,
        iff_of_false (fun heq => ?_) hqp⟩
      exact (Finset.mem_sdiff.mp hk).2 (heq ▸ ht)
  refine ⟨hsplits.tables, ?_, h.inside, (erase_subset t rest).trans h.rest_sub,
    (hlive _).mpr (Or.inl rfl), hjobId, harray, ⟨recs, hpend.arrayRecs, ?_⟩, ?_, ?_, ?_, ?_⟩
  · -- The new record has the id of the array, and the split one an unused id.
    have hidOf : ∀ q ∈ JobArray.live m, (m'.records q).jobId = a → False := by
      intro q hq hqa
      by_cases hqp : q = p
      · rw [hqp, hjobId'] at hqa
        exact hunused p h.live (h.jobId.trans hqa.symm)
      · rw [(hother q hqp fun heq => hnew (heq ▸ hq)).jobId] at hqa
        exact hqp (h.unique q hq p h.live (hqa.trans h.jobId.symm))
    have hinj : ∀ q ∈ JobArray.live m, q ≠ p → (m'.records q).jobId ≠ newId := by
      intro q hq hqp
      rw [(hother q hqp fun heq => hnew (heq ▸ hq)).jobId]
      exact hunused q hq
    intro q hq q' hq' hid
    rcases (hlive q).mp hq with rfl | hq
    · rcases (hlive q').mp hq' with rfl | hq'
      · rfl
      · exact (hidOf q' hq' (hid.symm.trans hjobId)).elim
    · rcases (hlive q').mp hq' with rfl | hq'
      · exact (hidOf q hq (hid.trans hjobId)).elim
      · by_cases hqp : q = p
        · by_cases hqp' : q' = p
          · rw [hqp, hqp']
          · rw [hqp, hjobId'] at hid
            exact absurd hid.symm (hinj q' hq' hqp')
        · by_cases hqp' : q' = p
          · rw [hqp', hjobId'] at hid
            exact absurd hid (hinj q hq hqp)
          · rw [(hother q hqp fun heq => hnew (heq ▸ hq)).jobId,
              (hother q' hqp' fun heq => hnew (heq ▸ hq')).jobId] at hid
            exact h.unique q hq q' hq' hid
  · rw [hpend.arrayTaskId]
    exact hsplits.holder
  · intro q hq hjob
    rcases (hlive q).mp hq with rfl | hq
    · rw [hpend.arrayTaskId, Set.mem_insert_iff]
      split
      · rename_i hno
        refine iff_of_false (fun hmem => hmem.elim hne.symm fun hmem => ?_) (not_not.mpr hno)
        exact hnew (h.tables.arrayT.bound _ hmem)
      · rename_i hno
        exact iff_of_true (Or.inr (Set.mem_insert _ _)) hno
    · have hqnew : q ≠ m.count + 1 := fun heq => hnew (heq ▸ hq)
      by_cases hqp : q = p
      · rw [hqp, htask']
        exact iff_of_true (Set.mem_insert _ _) (task_ne_noVal htlt)
      · have hsame := hother q hqp hqnew
        rw [hsame.arrayTaskId, ← h.hashed q hq (hsame.arrayJobId.symm.trans hjob), Set.mem_insert_iff,
          or_iff_right hqp]
        split
        · rfl
        · rw [Set.mem_insert_iff, or_iff_right hqnew]
  · intro q hq hqp hjob
    obtain ⟨hrecs, k, hk, htask, -⟩ := htaskOf q (((hlive q).mp hq).resolve_left hqp) hjob
    exact ⟨hrecs, k, hk, htask⟩
  · intro k hk
    rcases hmem_erase.mp hk with rfl | hk
    · exact ⟨p, hne, (hlive p).mpr (Or.inr h.live), harray', htask'⟩
    · obtain ⟨q, hqp, hq⟩ := h.split k hk
      have hqne : q ≠ m.count + 1 := fun heq => hnew (heq ▸ hq.live)
      have hsame := hother q hqp hqne
      exact ⟨q, hqne, (hlive q).mpr (Or.inr hq.live), hsame.arrayJobId.trans hq.arrayJobId,
        hsame.arrayTaskId.trans hq.arrayTaskId⟩
  · intro q hq q' hq' hqp hqp' hjob hjob' heq
    have hq := ((hlive q).mp hq).resolve_left hqp
    have hq' := ((hlive q').mp hq').resolve_left hqp'
    obtain ⟨-, k, hk, htask, hkt⟩ := htaskOf q hq hjob
    obtain ⟨-, k', hk', htask'', hkt'⟩ := htaskOf q' hq' hjob'
    have hkk : k = k' := task_inj (h.inside k (Finset.mem_sdiff.mp hk).1)
      (h.inside k' (Finset.mem_sdiff.mp hk').1) (htask.symm.trans (heq.trans htask''))
    rw [hkk] at hkt
    by_cases hone : q = p
    · rw [hone, hkt'.mp (hkt.mpr hone)]
    · have hone' : q' ≠ p := fun heq' => hone (hkt.mp (hkt'.mpr heq'))
      have hsame := hother q hone hqp
      have hsame' := hother q' hone' hqp'
      exact h.once q hq q' hq' hone hone' (hsame.arrayJobId.symm.trans hjob)
        (hsame'.arrayJobId.symm.trans hjob')
        (hsame.arrayTaskId.symm.trans (heq.trans hsame'.arrayTaskId))

/-- A record that was given a task of the bitmap is split. -/
theorem ArrayAt.splits (h : ArrayAt a tasks m arrays p rest) (hpending : Pending m p rest b cnt)
    {t : Nat} (ht : t ∈ rest)
    (hr : SameRecord { m.records p with arrayTaskId := BitVec.ofNat 32 t } r)
    (hnext : r.jobNext = (m.records p).jobNext) (hunused : findJobRecord m newId = 0) :
    ∃ m' arrays', jobArraySplit (m.put p r) p newId = some (m', m.count + 1) ∧
      ArrayAt a tasks m' arrays' (m.count + 1) (rest.erase t) := by
  have hp := h.notMem_arrays hpending.task
  have hother : ∀ q, q ≠ p → (m.put p r).records q = m.records q := fun q hq => put_records_of_ne hq
  have htables : Tables (m.put p r) (JobArray.live (m.put p r)) arrays :=
    h.tables.put (fun _ => ⟨hnext, hr.jobId⟩) fun hmem => absurd hmem hp
  have hid : ∀ q, ((m.put p r).records q).jobId = (m.records q).jobId := field_put hr.jobId
  have helems := hpending.elems
  obtain ⟨m', recs, task, hsplit, hsplits⟩ := jobArraySplit_spec htables h.live hp
    (b := b) (helems ▸ ht) (by rw [put_records_self, hr.arrayRecs]; exact hpending.recs)
    (helems ▸ hpending.cnt) (by rw [put_records_self]; exact hr.arrayTaskId) (by
      intro q hq hjob
      rw [hid, put_records_self, hr.arrayJobId] at hjob
      exact h.unique q hq p h.live (hjob.trans (h.arrayJobId.trans h.jobId.symm))) (by
      intro q hq hjob i hi htask
      have hqp : q ≠ p := fun heq => hp (heq ▸ hq)
      rw [hother q hqp, put_records_self, hr.arrayJobId] at hjob
      rw [hother q hqp] at htask
      obtain ⟨-, k, hk, htask'⟩ := h.others q (h.tables.arrayT.bound q hq) hqp
        (hjob.trans h.arrayJobId)
      have hmem := Finset.mem_sdiff.mp hk
      have hki := task_inj (mem_lt hi) (h.inside k hmem.1) (htask.symm.trans htask')
      exact hmem.2 (hki ▸ helems ▸ hi)) newId
  rw [helems] at hsplits
  refine ⟨m', _, hsplit, h.of_splits ht hr (fun q hq => ?_) hsplits⟩
  intro hqid
  have hfound := h.tables.findJobRecord_eq hq fun k hk => h.unique k hk q hq
  rw [hqid, hunused] at hfound
  have hpos := hq.1
  omega

/-- A record gets another state. -/
theorem ArrayAt.setState (h : ArrayAt a tasks m arrays p rest) (state : BitVec 32) :
    ArrayAt a tasks (m.put p { m.records p with jobState := state }) arrays p rest :=
  h.of_record ⟨rfl, rfl, fun _ => SameRecord.refl _⟩
    (h.tables.put (fun _ => ⟨rfl, rfl⟩) fun _ => ⟨rfl, rfl, rfl, rfl⟩) h.jobId h.arrayJobId h.holder
    (fun _ _ => Iff.rfl) (h.hashed p h.live h.arrayJobId)

theorem ArrayAt.pending_or_freed (h : ArrayAt a tasks m arrays p rest) :
    (∃ b cnt, Pending m p rest b cnt) ∨ ∃ cnt, (m.records p).arrayRecs = some ⟨none, cnt⟩ := by
  obtain ⟨recs, hrecs, hholder⟩ := h.holder
  generalize htask : (m.records p).arrayTaskId = task at hholder
  cases hholder with
  | pending b cnt htasks hcnt => exact Or.inl ⟨b, cnt, hrecs, htasks, hcnt, htask⟩
  | last t cnt htasks => exact Or.inr ⟨cnt, hrecs⟩
  | done cnt htasks => exact Or.inr ⟨cnt, hrecs⟩

/-- The last task is scheduled. -/
theorem ArrayAt.last (h : ArrayAt a tasks m arrays p rest) {b : Bitstr} {cnt : BitVec 32}
    (hpending : Pending m p rest b cnt) {t : Nat} (ht : rest = {t}) {r : JobRecord}
    (hr : SameRecord { m.records p with arrayTaskId := BitVec.ofNat 32 t } r)
    (hnext : r.jobNext = (m.records p).jobNext) :
    ArrayAt a tasks (postSchedLast (m.put p r) p ⟨some b, 1⟩) (insert p arrays) p rest := by
  have hp := h.notMem_arrays hpending.task
  have hmem : t ∈ rest := ht ▸ Finset.mem_singleton_self t
  have htlt := h.inside t (h.rest_sub hmem)
  have htables : Tables (m.put p r) (JobArray.live m) arrays :=
    h.tables.put (fun _ => ⟨hnext, hr.jobId⟩) fun hmem => absurd hmem hp
  have hjob : r.arrayJobId = a := hr.arrayJobId.trans h.arrayJobId
  have hother : ∀ q, q ≠ p → (m.put p r).records q = m.records q := fun q hq => put_records_of_ne hq
  obtain ⟨hlast, hsame⟩ := postSchedLast_spec htables hp h.live.1 h.live.2 htlt
    (by rw [put_records_self]; exact hr.arrayTaskId) (b := b) (by
      intro q hq hid
      rw [field_put hr.jobId, put_records_self, hjob] at hid
      exact h.unique q hq p h.live (hid.trans h.jobId.symm)) (by
      intro q hq hqjob htask
      have hqp : q ≠ p := fun heq => hp (heq ▸ hq)
      rw [hother q hqp, put_records_self, hjob] at hqjob
      rw [hother q hqp] at htask
      obtain ⟨-, k, hk, htask'⟩ := h.others q (h.tables.arrayT.bound q hq) hqp hqjob
      have hk' := Finset.mem_sdiff.mp hk
      exact hk'.2 (task_inj htlt (h.inside k hk'.1) (htask.symm.trans htask') ▸ hmem))
  rw [put_put, put_records_self] at hsame
  have hlive : JobArray.live (postSchedLast (m.put p r) p ⟨some b, 1⟩) = JobArray.live m := by
    rw [JobArray.live, hsame.count]
    rfl
  refine h.of_record hsame (hlive ▸ hlast) (hr.jobId.trans h.jobId) hjob
    ⟨_, rfl, hr.arrayTaskId ▸ Holder.last t _ ht⟩ (fun q hq => ?_) ?_
  · rw [Set.mem_insert_iff, or_iff_right hq]
  · exact iff_of_true (Set.mem_insert p arrays) (hr.arrayTaskId ▸ task_ne_noVal htlt)

/-! ## Runs -/

/-- A task is split off while it is in the bitmap, and `_set_job_id` gives an unused number where it
is called. -/
def Allowed (a : BitVec 32) (m : JobMgr) : Step → Prop
  | .sched newId => 1 < (pendingTasks m a).card → findJobRecord m newId = 0
  | .split task newId => task ∈ pendingTasks m a ∧ findJobRecord m newId = 0

theorem Pending.pendingTasks_eq (h : ArrayAt a tasks m arrays p rest)
    (hpending : Pending m p rest b cnt) : pendingTasks m a = rest := by
  rw [pendingTasks, h.find, hpending.recs]
  exact hpending.elems

/-- The record of an array gets the first of its tasks. -/
theorem ArrayAt.preSched (h : ArrayAt a tasks m arrays p rest) {i : Nat}
    (hrecs : (m.records p).arrayRecs = some ⟨some b, cnt⟩) (hffs : bitFfs b = some i) :
    ∃ r, jobArrayPreSched m p = m.put p r ∧ r.jobNext = (m.records p).jobNext ∧
      SameRecord { m.records p with arrayTaskId := BitVec.ofNat 32 i } r := by
  refine ⟨{ m.records p with
    arrayJobId := (m.records p).jobId
    arrayTaskId := BitVec.ofNat 32 i }, ?_, rfl, rfl, h.jobId.trans h.arrayJobId.symm, rfl, rfl⟩
  simp only [jobArrayPreSched, hrecs, hffs]

theorem jobArrayPreSched_none (hrecs : (m.records p).arrayRecs = some ⟨some b, cnt⟩)
    (hffs : bitFfs b = none) :
    jobArrayPreSched m p = m.put p { m.records p with arrayRecs := some ⟨none, cnt⟩ } := by
  simp only [jobArrayPreSched, hrecs, hffs]

theorem jobArrayPostSched_freed (hrecs : (m.records p).arrayRecs = some ⟨none, cnt⟩) :
    jobArrayPostSched m p newId = some (m, p) := by
  simp [jobArrayPostSched, hrecs]

theorem jobArrayPostSched_last (hrecs : (m.records p).arrayRecs = some ⟨some b, cnt⟩)
    (hcnt : cnt.toNat ≤ 1) :
    jobArrayPostSched m p newId = some (postSchedLast m p ⟨some b, cnt⟩, p) := by
  simp [jobArrayPostSched, hrecs, hcnt]

theorem jobArrayPostSched_more {new : Nat} (hrecs : (m.records p).arrayRecs = some ⟨some b, cnt⟩)
    (hcnt : ¬ cnt.toNat ≤ 1) (hsplit : jobArraySplit m p newId = some (m', new)) :
    jobArrayPostSched m p newId =
      some (m'.put new { m'.records new with jobState := 0 }, new) := by
  simp [jobArrayPostSched, hrecs, hcnt, hsplit]

/-- A record with a bitmap is scheduled. -/
theorem ArrayAt.sched (h : ArrayAt a tasks m arrays p rest) (hpending : Pending m p rest b cnt)
    (hunused : 1 < rest.card → findJobRecord m newId = 0) :
    ∃ m' arrays' p' rest',
      (jobArrayPostSched (jobArrayPreSched m p) p newId).map Prod.fst = some m' ∧
        ArrayAt a tasks m' arrays' p' rest' := by
  cases hffs : bitFfs b with
  | none =>
    have hempty := (bitFfs_eq_none.mp hffs).symm.trans hpending.elems
    rw [jobArrayPreSched_none hpending.recs hffs, jobArrayPostSched_freed (by rw [put_records_self])]
    refine ⟨_, arrays, p, rest, rfl, ?_⟩
    refine h.of_record ⟨rfl, rfl, fun _ => SameRecord.refl _⟩ ?_ h.jobId h.arrayJobId
      ⟨_, rfl, ?_⟩ (fun _ _ => Iff.rfl) (h.hashed p h.live h.arrayJobId)
    · exact h.tables.put (fun _ => ⟨rfl, rfl⟩) fun _ => ⟨rfl, rfl, rfl, rfl⟩
    · dsimp only
      rw [hpending.task]
      exact Holder.done cnt hempty.symm
  | some i =>
    have hi : i ∈ rest := hpending.elems ▸ mem_of_bitFfs hffs
    obtain ⟨r, hpre, hnext, hr⟩ := h.preSched hpending.recs hffs
    rw [hpre]
    have hrecs : ((m.put p r).records p).arrayRecs = some ⟨some b, cnt⟩ := by
      rw [put_records_self, hr.arrayRecs]
      exact hpending.recs
    have hcnt := hpending.cnt
    by_cases hfew : cnt.toNat ≤ 1
    · have hpos := Finset.card_pos.mpr ⟨i, hi⟩
      have hsingle : rest = {i} := Finset.eq_singleton_iff_unique_mem.mpr
        ⟨hi, fun k hk => Finset.card_le_one.mp (by omega) k hk i hi⟩
      have hone : cnt = 1 := by
        rw [BitVec.toNat_eq, show (1 : BitVec 32).toNat = 1 from rfl]
        omega
      rw [jobArrayPostSched_last hrecs hfew, hone]
      exact ⟨_, _, p, rest, rfl, h.last hpending hsingle hr hnext⟩
    · obtain ⟨m', arrays', hsplit, hafter⟩ := h.splits hpending hi hr hnext (hunused (by omega))
      rw [jobArrayPostSched_more hrecs hfew hsplit]
      exact ⟨_, arrays', _, _, rfl, hafter.setState 0⟩

/-- Every step that is allowed is done, and keeps the invariant. -/
theorem ArrayAt.exec (h : ArrayAt a tasks m arrays p rest) {step : Step} (hallowed : Allowed a m step) :
    ∃ m' arrays' p' rest', JobArray.exec a m step = some m' ∧ ArrayAt a tasks m' arrays' p' rest' := by
  cases step with
  | split task newId =>
    obtain ⟨htask, hunused⟩ := hallowed
    rcases h.pending_or_freed with ⟨b, cnt, hpending⟩ | ⟨cnt, hrecs⟩
    · rw [hpending.pendingTasks_eq h] at htask
      obtain ⟨m', arrays', hsplit, hafter⟩ := h.splits hpending htask (SameRecord.refl _) rfl hunused
      refine ⟨m', arrays', _, _, ?_, hafter⟩
      rw [JobArray.exec, h.find, hsplit]
      rfl
    · rw [pendingTasks, h.find, hrecs] at htask
      exact absurd htask (notMem_empty task)
  | sched newId =>
    rw [JobArray.exec, h.find]
    rcases h.pending_or_freed with ⟨b, cnt, hpending⟩ | ⟨cnt, hrecs⟩
    · exact h.sched hpending fun hcard => hallowed (by rwa [hpending.pendingTasks_eq h])
    · have hpre : jobArrayPreSched m p = m := by simp only [jobArrayPreSched, hrecs]
      rw [hpre, jobArrayPostSched_freed hrecs]
      exact ⟨m, arrays, p, rest, rfl, h⟩

/-! ## New arrays -/

/-- The record `p` of a new job, which is not yet of an array. -/
structure NewJob (a : BitVec 32) (m : JobMgr) (arrays : Set Nat) (p : Nat) : Prop where
  tables : Tables m (live m) arrays
  unique : ∀ q ∈ live m, ∀ q' ∈ live m, (m.records q).jobId = (m.records q').jobId → q = q'
  live : p ∈ live m
  jobId : (m.records p).jobId = a
  arrayTaskId : (m.records p).arrayTaskId = noVal
  hashed : p ∉ arrays
  fresh : ∀ q ∈ JobArray.live m, q ≠ p → (m.records q).arrayJobId ≠ a

/-- A bitmap keeps its bits when it is cut after the last one. -/
theorem elems_bitRealloc {maxTaskId : Nat} (hfls : bitFls b = some maxTaskId)
    (h : ValidSize (maxTaskId + 1)) :
    (denote (bitRealloc b (maxTaskId + 1) h)).elems = (denote b).elems := by
  have hlast := bitFls_isLast b
  rw [hfls] at hlast
  have hrealloc := (denote_bitRealloc_iff b (maxTaskId + 1) h).mpr fun i hi hlt => by
    have hmax := hlast.1.1
    omega
  rw [hrealloc]
  apply Finset.inter_eq_left.mpr
  intro i hi
  have hle : ¬ maxTaskId < i := fun hlt => hlast.2 i hlt (mem_denote.mp hi)
  rw [Finset.mem_range]
  omega

theorem createJobArray_eq (hb : (denote b).elems.Nonempty) : ∃ bitmap : Bitstr,
    (denote bitmap).elems = (denote b).elems ∧ createJobArray m p b = m.put p { m.records p with
      arrayJobId := (m.records p).jobId
      arrayRecs := some ⟨some bitmap, BitVec.ofNat 32 (bitSetCount bitmap)⟩ } := by
  have hlast := bitFls_isLast b
  cases hfls : bitFls b with
  | none =>
    rw [hfls] at hlast
    obtain ⟨i, hi⟩ := hb
    exact absurd (mem_denote.mp hi) (hlast i)
  | some maxTaskId =>
    rw [hfls] at hlast
    have hvalid : ValidSize (maxTaskId + 1) :=
      ⟨Nat.succ_pos _, Nat.le_trans hlast.1.1 b.valid.2⟩
    refine ⟨bitRealloc b (maxTaskId + 1) hvalid, elems_bitRealloc hfls hvalid, ?_⟩
    simp only [createJobArray, hfls, dif_pos hvalid]

/-- The record of a new array. -/
theorem NewJob.arrayAt (h : NewJob a m arrays p) (hb : (denote b).elems.Nonempty) :
    ArrayAt a (denote b).elems (createJobArray m p b) arrays p (denote b).elems := by
  obtain ⟨bitmap, helems, hcreate⟩ := createJobArray_eq (m := m) (p := p) hb
  rw [hcreate]
  have hother : ∀ r q, q ≠ p → (m.put p r).records q = m.records q := fun r q hq => put_records_of_ne hq
  have hcnt : (BitVec.ofNat 32 (bitSetCount bitmap)).toNat = (denote b).elems.card := by
    have hle : (denote bitmap).elems.card ≤ (Finset.range bitmap.nbits).card :=
      card_le_card (denote bitmap).inside
    have hvalid := bitmap.valid.2
    rw [card_range] at hle
    rw [bitSetCount_eq_card, BitVec.toNat_ofNat, ← helems]
    omega
  have hnone : ∀ t, t ∉ (denote b).elems \ (denote b).elems := by simp
  refine ⟨h.tables.put (fun _ => ⟨rfl, rfl⟩) fun hmem => absurd hmem h.hashed, ?_,
    fun t ht => mem_lt ht, Finset.Subset.refl _, h.live, ?_, ?_, ⟨_, by rw [put_records_self], ?_⟩,
    ?_, ?_, fun t ht => absurd ht (hnone t), ?_⟩
  · intro q hq q' hq' hid
    rw [field_put (f := JobRecord.jobId) (by rfl), field_put (f := JobRecord.jobId) (by rfl)] at hid
    exact h.unique q hq q' hq' hid
  · rw [put_records_self]
    exact h.jobId
  · rw [put_records_self]
    exact h.jobId
  · rw [put_records_self]
    dsimp only
    rw [h.arrayTaskId]
    exact Holder.pending _ _ helems hcnt
  · intro q hq hjob
    by_cases hqp : q = p
    · rw [hqp, put_records_self]
      exact iff_of_false h.hashed (not_not.mpr h.arrayTaskId)
    · rw [hother _ q hqp] at hjob
      exact absurd hjob (h.fresh q hq hqp)
  · intro q hq hqp hjob
    rw [hother _ q hqp] at hjob
    exact absurd hjob (h.fresh q hq hqp)
  · intro q hq q' hq' hqp hqp' hjob
    rw [hother _ q hqp] at hjob
    exact absurd hjob (h.fresh q hq hqp)

/-- In every state of every run from a new array no task is lost or doubled, and every step that is
allowed is done. -/
theorem arrayContract_always (h : NewJob a m arrays p) {b : Bitstr} (hb : (denote b).elems.Nonempty)
    {steps : List Step} (hsteps : Guarded (exec a) (Allowed a) (createJobArray m p b) steps) :
    Always (exec a) (fun s => ArrayContract TaskNumber a (denote b).elems s ∧
      ∀ step, Allowed a s step → (exec a s step).isSome = true) (createJobArray m p b) steps := by
  have hinv : Always (exec a) (fun s => ∃ arrays p rest, ArrayAt a (denote b).elems s arrays p rest)
      (createJobArray m p b) steps := by
    apply always_of_guarded _ ⟨arrays, p, _, h.arrayAt hb⟩ hsteps
    rintro s step s' ⟨arrays, p, rest, hs⟩ hallowed hexec
    obtain ⟨s'', arrays', p', rest', hexec', hs'⟩ := hs.exec hallowed
    rw [hexec] at hexec'
    obtain rfl := Option.some.inj hexec'
    exact ⟨arrays', p', rest', hs'⟩
  apply hinv.imp
  rintro s ⟨arrays, p, rest, hs⟩
  refine ⟨hs.contract, fun step hallowed => ?_⟩
  obtain ⟨s', -, -, -, hexec, -⟩ := hs.exec hallowed
  rw [hexec]
  rfl

/-- A job with the id `7`. -/
def oneJob : JobMgr where
  count := 1
  records := fun _ => { jobRecordCreate with jobId := 7 }
  hashTableSize := 10
  jobHash := fun inx => if inx = 7 then 1 else 0
  jobArrayHashJ := fun _ => 0
  jobArrayHashT := fun _ => 0

/-- The tasks `0` and `1`. -/
def twoTasks : Bitstr := bitSet (bitSet (bitAlloc 2 (by decide)) 0) 1

theorem mem_live_oneJob : q ∈ live oneJob ↔ q = 1 := by
  show 0 < q ∧ q ≤ 1 ↔ q = 1
  omega

theorem oneJob_new : NewJob 7 oneJob ∅ 1 where
  tables := by
    refine ⟨⟨fun i hi => hi, fun b => ?_⟩, ⟨fun i hi => hi.elim, fun b => ?_⟩,
      ⟨fun i hi => hi.elim, fun b => ?_⟩⟩
    · by_cases hb : b = 7
      · refine ⟨[1], by rw [hb]; rfl, ⟨rfl, trivial⟩, List.nodup_singleton 1, fun i => ?_⟩
        rw [List.mem_singleton, mem_live_oneJob]
        exact ⟨fun hi => ⟨hi, hb.symm⟩, fun hi => hi.1⟩
      · refine ⟨[], if_neg hb, trivial, List.nodup_nil, fun i => ?_⟩
        exact iff_of_false List.not_mem_nil fun hi => hb hi.2.symm
    · exact ⟨[], rfl, trivial, List.nodup_nil, fun i => by simp⟩
    · exact ⟨[], rfl, trivial, List.nodup_nil, fun i => by simp⟩
  unique := by
    intro q hq q' hq' _
    rw [mem_live_oneJob.mp hq, mem_live_oneJob.mp hq']
  live := mem_live_oneJob.mpr rfl
  jobId := rfl
  arrayTaskId := rfl
  hashed := Set.notMem_empty 1
  fresh := fun q hq hne => absurd (mem_live_oneJob.mp hq) hne

theorem twoTasks_nonempty : (denote twoTasks).elems.Nonempty :=
  ⟨0, mem_denote.mpr (by decide)⟩

theorem arrayContract_oneJob : Always (exec 7) (fun s =>
    ArrayContract TaskNumber 7 (denote twoTasks).elems s ∧
      ∀ step, Allowed 7 s step → (exec 7 s step).isSome = true)
    (createJobArray oneJob 1 twoTasks) [.sched 8] :=
  arrayContract_always oneJob_new twoTasks_nonempty
    fun _ _ => ⟨fun _ => by decide, trivial⟩

/-- The number `NO_VAL` is of no task, but is answered with the record of the job. -/
theorem arrayContract_noVal : NewJob 7 oneJob ∅ 1 ∧ (denote twoTasks).elems.Nonempty ∧
    ¬ ArrayContract (fun _ => True) 7 (denote twoTasks).elems (createJobArray oneJob 1 twoTasks) := by
  refine ⟨oneJob_new, twoTasks_nonempty, fun h => ?_⟩
  have hother := h.other noVal trivial fun hmem => by
    have hlt := mem_lt hmem
    have hval : noVal.toNat = 0xfffffffe := rfl
    omega
  revert hother
  decide

end Slurm.JobArray
