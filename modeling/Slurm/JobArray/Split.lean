import Slurm.JobArray.Model

/-!
# A task gets a record

* `Holder`: the tasks that the record of an array still stands for.
* `postSchedLast_spec`: `job_array_post_sched` for the last task.
* `splitTask_spec`: a task is taken out of the array.
* `jobArraySplit_spec`: the two records after `job_array_split`.
-/

namespace Slurm.JobArray

open Slurm.Bitstring Lib.Chains Lib.Search Option Finset Nat

variable {m : JobMgr} {jobs arrays : Set Nat} {p pend : Nat} {tasks : Finset Nat}
variable {t : Nat} {b : Bitstr}

/-! ## Task numbers -/

theorem toNat_task (ht : t < 0x40000000) : (BitVec.ofNat 32 t).toNat = t := by
  rw [BitVec.toNat_ofNat]
  omega

theorem task_ne_noVal (ht : t < 0x40000000) : BitVec.ofNat 32 t ≠ noVal := by
  intro h
  have h' := congrArg BitVec.toNat h
  rw [toNat_task ht] at h'
  have hval : noVal.toNat = 0xfffffffe := rfl
  omega

theorem task_ne_infinite (ht : t < 0x40000000) : BitVec.ofNat 32 t ≠ infinite := by
  intro h
  have h' := congrArg BitVec.toNat h
  rw [toNat_task ht] at h'
  have hval : infinite.toNat = 0xffffffff := rfl
  omega

theorem task_inj {t' : Nat} (ht : t < 0x40000000) (ht' : t' < 0x40000000)
    (h : BitVec.ofNat 32 t = BitVec.ofNat 32 t') : t = t' := by
  rw [← toNat_task ht, ← toNat_task ht', h]

theorem mem_lt (h : t ∈ (denote b).elems) : t < 0x40000000 :=
  Nat.lt_of_lt_of_le (mem_denote.mp h).1 b.valid.2

/-- The first task of a bitmap. -/
theorem bitFfs_eq_none : bitFfs b = none ↔ (denote b).elems = ∅ := by
  have hfirst := bitFfs_isFirst b
  cases h : bitFfs b with
  | none =>
    rw [h] at hfirst
    refine iff_of_true rfl (eq_empty_of_forall_notMem fun i hi => hfirst i (mem_denote.mp hi))
  | some i =>
    rw [h] at hfirst
    refine iff_of_false (some_ne_none i) (ne_empty_of_mem (mem_denote.mpr hfirst.1))

theorem mem_of_bitFfs {i : Nat} (h : bitFfs b = some i) : i ∈ (denote b).elems := by
  have hfirst := bitFfs_isFirst b
  rw [h] at hfirst
  exact mem_denote.mpr hfirst.1

theorem elems_bitClear (h : t ∈ (denote b).elems) :
    (denote (bitClear b t)).elems = (denote b).elems.erase t := by
  have ht := (mem_denote.mp h).1
  ext i
  rw [mem_denote, bitClear_nbits, bit_bitClear ht, mem_erase, mem_denote]
  by_cases hi : i = t <;> simp [hi]

/-! ## The record of an array -/

/-- The tasks that the record of an array stands for: those of its bitmap, or one that it was given
when the bitmap was freed. -/
inductive Holder (tasks : Finset Nat) : ArrayStruct → BitVec 32 → Prop
  | pending (b : Bitstr) (cnt : BitVec 32) (htasks : (denote b).elems = tasks)
      (hcnt : cnt.toNat = tasks.card) : Holder tasks ⟨some b, cnt⟩ noVal
  | last (t : Nat) (cnt : BitVec 32) (htasks : tasks = {t}) : Holder tasks ⟨none, cnt⟩ (BitVec.ofNat 32 t)
  | done (cnt : BitVec 32) (htasks : tasks = ∅) : Holder tasks ⟨none, cnt⟩ noVal

/-- No record that is found under the id of an array holds tasks. -/
theorem findPendingTask_eq_zero {arrayJobId arrayTaskId : BitVec 32}
    (h : Tables m jobs arrays) (hnone : ∀ q ∈ jobs, (m.records q).jobId = arrayJobId →
      (m.records q).arrayRecs.bind ArrayStruct.taskIdBitmap = none) :
    findPendingTask m arrayJobId arrayTaskId = 0 := by
  rw [findPendingTask]
  by_cases hzero : findJobRecord m arrayJobId = 0
  · rw [if_pos hzero]
  · obtain ⟨hmem, hid⟩ := h.findJobRecord_found hzero
    rw [if_neg hzero, hnone _ hmem hid]

/-- The record of an array becomes that of its last task. -/
theorem postSchedLast_spec (h : Tables m jobs arrays) (hp : p ∉ arrays) (hpos : 0 < p)
    (hle : p ≤ m.count) (ht : t < 0x40000000)
    (htask : (m.records p).arrayTaskId = BitVec.ofNat 32 t)
    (hjobs : ∀ q ∈ jobs, (m.records q).jobId = (m.records p).arrayJobId → q = p)
    (harrays : ∀ q ∈ arrays, (m.records q).arrayJobId = (m.records p).arrayJobId →
      (m.records q).arrayTaskId ≠ BitVec.ofNat 32 t) :
    Tables (postSchedLast m p ⟨some b, 1⟩) jobs (insert p arrays) ∧
      SameJobs (m.put p { m.records p with arrayRecs := some ⟨none, 0⟩ })
        (postSchedLast m p ⟨some b, 1⟩) := by
  have hput : Tables (m.put p { m.records p with arrayRecs := some ⟨none, 0⟩ }) jobs arrays :=
    h.put (fun _ => ⟨rfl, rfl⟩) fun hmem => absurd hmem hp
  have hother : ∀ q ∈ arrays, (m.put p { m.records p with arrayRecs := some ⟨none, 0⟩ }).records q =
      m.records q := fun q hq => put_records_of_ne fun heq => hp (heq ▸ hq)
  have hfind : findJobArrayRec (m.put p { m.records p with arrayRecs := some ⟨none, 0⟩ })
      (m.records p).arrayJobId (m.records p).arrayTaskId = 0 := by
    rw [findJobArrayRec, htask, if_neg (task_ne_noVal ht), if_neg (task_ne_infinite ht)]
    have hsplit : findSplitTask (m.put p { m.records p with arrayRecs := some ⟨none, 0⟩ })
        (m.records p).arrayJobId (BitVec.ofNat 32 t) = 0 := by
      apply hput.findSplitTask_eq_zero
      intro q hq
      rw [hother q hq]
      exact harrays q hq
    rw [hsplit]
    apply findPendingTask_eq_zero hput
    intro q hq hid
    have hqp : q = p := by
      by_contra hne
      rw [put_records_of_ne hne] at hid
      exact hne (hjobs q hq hid)
    rw [hqp, put_records_self]
    rfl
  have hlast : postSchedLast m p ⟨some b, 1⟩ =
      addJobArrayHash (m.put p { m.records p with arrayRecs := some ⟨none, 0⟩ }) p := by
    have hcnt : (if (1 : BitVec 32) ≠ 0 then (1 : BitVec 32) - 1 else 1) = 0 := by decide
    rw [postSchedLast]
    dsimp only
    rw [hcnt, if_pos rfl, if_pos hfind]
  rw [hlast]
  apply hput.addArray hp hpos hle
  rw [put_records_self]
  exact htask ▸ task_ne_noVal ht

/-- The record `pend` holds the tasks that are left after one is taken out of the array. -/
theorem splitTask_spec (h : Tables m jobs arrays) (hpend : pend ∉ arrays) (hpos : 0 < pend)
    (hle : pend ≤ m.count) {cnt : BitVec 32} (ht : t ∈ (denote b).elems)
    (hcnt : cnt.toNat = (denote b).elems.card)
    (htask : (m.records pend).arrayTaskId = BitVec.ofNat 32 t)
    (hjobs : ∀ q ∈ jobs, (m.records q).jobId ≠ (m.records pend).arrayJobId)
    (harrays : ∀ q ∈ arrays, (m.records q).arrayJobId = (m.records pend).arrayJobId →
      ∀ i ∈ (denote b).elems, (m.records q).arrayTaskId ≠ BitVec.ofNat 32 i) :
    ∃ recs task, Holder ((denote b).elems.erase t) recs task ∧
      Tables (splitTask m pend ⟨some b, cnt⟩) jobs
        (if task = noVal then arrays else insert pend arrays) ∧
      SameJobs (m.put pend { m.records pend with arrayRecs := some recs, arrayTaskId := task })
        (splitTask m pend ⟨some b, cnt⟩) := by
  have hput : ∀ recs task,
      Tables (m.put pend { m.records pend with arrayRecs := some recs, arrayTaskId := task }) jobs arrays :=
    fun recs task => h.put (fun _ => ⟨rfl, rfl⟩) fun hmem => absurd hmem hpend
  have hself : ∀ m : JobMgr, SameJobs m m := fun m => ⟨rfl, rfl, fun q => SameRecord.refl _⟩
  have hclear := elems_bitClear ht
  have hpositive := Finset.card_pos.mpr ⟨t, ht⟩
  have hne : cnt ≠ 0 := by
    rintro rfl
    simp at hcnt
    omega
  have hone : (1 : BitVec 32).toNat = 1 := rfl
  have hdec : (cnt - 1).toNat = ((denote b).elems.erase t).card := by
    have hlt := cnt.isLt
    rw [card_erase_of_mem ht, BitVec.toNat_sub, hone]
    omega
  rw [splitTask]
  simp only [map_some, bind_some, htask, toNat_task (mem_lt ht), if_pos hne]
  by_cases hfew : (cnt - 1).toNat ≤ 1
  · rw [if_pos hfew]
    cases hffs : bitFfs (bitClear b t) with
    | none =>
      have hempty := bitFfs_eq_none.mp hffs
      rw [hclear] at hempty
      refine ⟨⟨some (bitClear b t), cnt - 1⟩, noVal, Holder.pending _ _ hclear hdec, ?_, hself _⟩
      rw [if_pos rfl]
      exact hput _ _
    | some i =>
      have hi := mem_of_bitFfs hffs
      have hlt := mem_lt hi
      rw [hclear] at hi
      have hcard := Finset.card_pos.mpr ⟨i, hi⟩
      have hsingle : (denote b).elems.erase t = {i} := by
        apply Finset.eq_singleton_iff_unique_mem.mpr ⟨hi, fun k hk => ?_⟩
        exact Finset.card_le_one.mp (by omega) k hk i hi
      have hdec' : cnt - 1 = 1 := by
        rw [BitVec.toNat_eq, hone]
        omega
      have hlast := postSchedLast_spec (hput ⟨some (bitClear b t), 1⟩ (BitVec.ofNat 32 i)) hpend hpos
        hle hlt (by rw [put_records_self]) (b := bitClear b t) ?_ ?_
      · refine ⟨⟨none, 0⟩, BitVec.ofNat 32 i, Holder.last i _ hsingle, ?_, ?_⟩
        · rw [if_neg (task_ne_noVal hlt)]
          dsimp only
          rw [hdec']
          exact hlast.1
        · have hsame := hlast.2
          rw [put_put, put_records_self] at hsame
          dsimp only
          rw [hdec']
          exact hsame
      · intro q hq hid
        by_contra hqp
        rw [put_records_of_ne hqp, put_records_self] at hid
        exact hjobs q hq hid
      · intro q hq hid
        have hqp : q ≠ pend := fun heq => hpend (heq ▸ hq)
        rw [put_records_of_ne hqp] at hid ⊢
        rw [put_records_self] at hid
        exact harrays q hq hid i (mem_of_mem_erase hi)
  · rw [if_neg hfew]
    refine ⟨⟨some (bitClear b t), cnt - 1⟩, noVal, Holder.pending _ _ hclear hdec, ?_, hself _⟩
    rw [if_pos rfl]
    exact hput _ _

/-- The numbers of the records. -/
def live (m : JobMgr) : Set Nat := { q | 0 < q ∧ q ≤ m.count }

/-- The records after the task of the record `p` was split off: `p` is now that of the task, and a new
one holds the array. -/
structure Splits (m : JobMgr) (arrays : Set Nat) (p : Nat) (newId : BitVec 32) (tasks : Finset Nat)
    (m' : JobMgr) (recs : ArrayStruct) (task : BitVec 32) : Prop where
  holder : Holder tasks recs task
  count : m'.count = m.count + 1
  tables : Tables m' (live m')
    (insert p (if task = noVal then arrays else insert (m.count + 1) arrays))
  other : ∀ q, q ≠ p → q ≠ m.count + 1 → SameRecord (m.records q) (m'.records q)
  split : SameRecord { m.records p with jobId := newId, arrayRecs := none } (m'.records p)
  pend : SameRecord { m.records p with arrayRecs := some recs, arrayTaskId := task }
    (m'.records (m.count + 1))

/-- `job_array_split` -/
theorem jobArraySplit_spec (h : Tables m (live m) arrays) (hlive : p ∈ live m) (hp : p ∉ arrays)
    {cnt : BitVec 32} (ht : t ∈ (denote b).elems)
    (hrecs : (m.records p).arrayRecs = some ⟨some b, cnt⟩)
    (hcnt : cnt.toNat = (denote b).elems.card)
    (htask : (m.records p).arrayTaskId = BitVec.ofNat 32 t)
    (hjobs : ∀ q ∈ live m, (m.records q).jobId = (m.records p).arrayJobId → q = p)
    (harrays : ∀ q ∈ arrays, (m.records q).arrayJobId = (m.records p).arrayJobId →
      ∀ i ∈ (denote b).elems, (m.records q).arrayTaskId ≠ BitVec.ofNat 32 i) (newId : BitVec 32) :
    ∃ m' recs task, jobArraySplit m p newId = some (m', m.count + 1) ∧
      Splits m arrays p newId ((denote b).elems.erase t) m' recs task := by
  have hpend : m.count + 1 ∉ live m := fun hmem => Nat.lt_irrefl _ hmem.2
  have hpend' : m.count + 1 ∉ arrays := fun hmem => hpend (h.arrayT.bound _ hmem)
  have hne : p ≠ m.count + 1 := fun heq => hpend (heq ▸ hlive)
  have hold : ∀ q, q ≠ m.count + 1 → (createJobRecord m).records q = m.records q :=
    fun q hq => Function.update_of_ne hq _ _
  rw [jobArraySplit]
  dsimp only
  obtain ⟨h2, hsame2⟩ := h.create.removeJob hlive
  rw [hold p hne]
  generalize removeJobHash (createJobRecord m) p = m2 at h2 hsame2 ⊢
  have hother2 : ∀ q, q ≠ m.count + 1 → SameRecord (m.records q) (m2.records q) := by
    intro q hq
    have hq2 := hsame2.record q
    rwa [hold q hq] at hq2
  have hcount2 : m2.count = m.count + 1 := hsame2.count
  -- The record of the task gets its number, and the new record is a copy of it.
  have hp2 := hother2 p hne
  have hnot : p ∉ live m \ {p} := fun hmem => hmem.2 rfl
  have hnot' : m.count + 1 ∉ live m \ {p} := fun hmem => hpend hmem.1
  rw [put_records_self]
  dsimp only
  rw [hp2.arrayRecs, hrecs]
  dsimp only
  rw [put_records_of_ne hne, put_records_self]
  have h3 := h2.put (p := p)
    (r := { m2.records p with jobId := newId, arrayRecs := some ⟨some b, cnt⟩ })
    (fun hmem => absurd hmem hnot) fun hmem => absurd hmem hp
  have h4 := h3.put (p := m.count + 1)
    (r := { m2.records p with jobId := (m.records p).jobId, arrayRecs := some ⟨some b, cnt⟩ })
    (fun hmem => absurd hmem hnot') fun hmem => absurd hmem hpend'
  have h5 := h4.put (p := p) (r := { m2.records p with jobId := newId, arrayRecs := none })
    (fun hmem => absurd hmem hnot) fun hmem => absurd hmem hp
  dsimp only
  generalize hm5 : ((m2.put p _).put (m.count + 1) _).put p _ = m5 at h5 ⊢
  have hp5 : SameRecord { m.records p with jobId := newId, arrayRecs := none } (m5.records p) := by
    rw [← hm5, put_records_self]
    exact ⟨rfl, hp2.arrayJobId, hp2.arrayTaskId, rfl⟩
  have hpend5 : SameRecord (m.records p) (m5.records (m.count + 1)) := by
    rw [← hm5, put_records_of_ne hne.symm, put_records_self]
    exact ⟨rfl, hp2.arrayJobId, hp2.arrayTaskId, hrecs.symm⟩
  have hother5 : ∀ q, q ≠ p → q ≠ m.count + 1 → SameRecord (m.records q) (m5.records q) := by
    intro q hq hq'
    rw [← hm5, put_records_of_ne hq, put_records_of_ne hq', put_records_of_ne hq]
    exact hother2 q hq'
  have hcount5 : m5.count = m.count + 1 := by
    rw [← hm5]
    exact hcount2
  have hotherArrays : ∀ q ∈ arrays, SameRecord (m.records q) (m5.records q) :=
    fun q hq => hother5 q (fun heq => hp (heq ▸ hq)) fun heq => hpend' (heq ▸ hq)
  -- The task is taken out of the array.
  obtain ⟨recs, task, hholder, h6, hsame6⟩ := splitTask_spec h5 hpend' (succ_pos _)
    (le_of_eq hcount5.symm) ht hcnt (hpend5.arrayTaskId.trans htask) (by
      intro q hq hid
      rw [(hother5 q hq.2 fun heq => hnot' (heq ▸ hq)).jobId, hpend5.arrayJobId] at hid
      exact hq.2 (hjobs q hq.1 hid)) (by
      intro q hq hid
      rw [(hotherArrays q hq).arrayJobId, hpend5.arrayJobId] at hid
      rw [(hotherArrays q hq).arrayTaskId]
      exact harrays q hq hid)
  generalize splitTask m5 (m.count + 1) ⟨some b, cnt⟩ = m6 at h6 hsame6 ⊢
  have hcount6 : m6.count = m.count + 1 := hsame6.count.trans hcount5
  have hp6 := hsame6.record p
  rw [put_records_of_ne hne] at hp6
  have hpend6 := hsame6.record (m.count + 1)
  rw [put_records_self] at hpend6
  -- Both records are hashed.
  obtain ⟨h7, hsame7⟩ := h6.addJob hnot hlive.1 (hcount6 ▸ le_succ_of_le hlive.2)
  obtain ⟨h8, hsame8⟩ := h7.addJob (p := m.count + 1)
    (fun hmem => hmem.elim (fun heq => hne heq.symm) hnot') (succ_pos _)
    (le_of_eq (hsame7.count.trans hcount6).symm)
  have hsame := hsame7.trans hsame8
  have hp8 := hp6.trans (hsame.record p)
  obtain ⟨h9, hsame9⟩ := h8.addArray (p := p) (by
      split
      · exact hp
      · exact fun hmem => hmem.elim hne hp) hlive.1
    (by rw [hsame.count, hcount6]; exact le_succ_of_le hlive.2) (by
      rw [hp8.arrayTaskId, hp5.arrayTaskId, htask]
      exact task_ne_noVal (mem_lt ht))
  have hall := hsame.trans hsame9
  refine ⟨_, recs, task, rfl, hholder, hall.count.trans hcount6, ?_, fun q hq hq' => ?_, ?_, ?_⟩
  · have hlive' : live (addJobArrayHash (addJobHash (addJobHash m6 p) (m.count + 1)) p) =
        insert (m.count + 1) (insert p (live m \ {p})) := by
      have hset : live (addJobArrayHash (addJobHash (addJobHash m6 p) (m.count + 1)) p) =
          { q | 0 < q ∧ q ≤ m.count + 1 } := by
        rw [live, hall.count, hcount6]
      rw [hset, Set.insert_sdiff_singleton, Set.insert_eq_of_mem hlive]
      ext q
      simp only [live, Set.mem_insert_iff, Set.mem_ofPred_eq]
      omega
    rw [hlive']
    exact h9
  · have hq6 := hsame6.record q
    rw [put_records_of_ne hq'] at hq6
    exact (hother5 q hq hq').trans (hq6.trans (hall.record q))
  · exact hp5.trans (hp6.trans (hall.record p))
  · refine SameRecord.trans ?_ (hpend6.trans (hall.record _))
    exact ⟨hpend5.jobId, hpend5.arrayJobId, rfl, rfl⟩

end Slurm.JobArray
