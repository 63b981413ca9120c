import Slurm.PortMgr.Model
import Slurm.Lib.Run

/-!
# Reserved ports are exclusive

`Exclusive` says that a bit of the table is set exactly when a step holds the port on that
node, that no two steps hold one port on one node, and that steps hold different ports of
the table.  `AllocContract` says when an allocation succeeds and that it changes nothing
when it fails.  `portContract_iff` gives the condition on the calls of a run (`Fits`).

`_resv_port_free` skips a port when the entry of its *position in the array* is `NULL`,
which only a table with such entries shows: the bits of the port stay set.  And
`resv_port_step_alloc` drops the ports that a step still has.

* `alloc_spec`: all that an allocation does.
* `alloc_step`, `free_step`: one call.
-/

namespace Slurm.PortMgr

open List Function

open Lib.Run (Always EachStep Guarded)

variable {n : Nat} (steps : Nat → StepRec n)
variable {i step port : Nat} {s : State n} {array : List Nat}

/-- The bounds of the table. -/
structure Ports.Wf (s : Ports n) : Prop where
  length : s.table.length = s.resvCnt
  max : 0 < s.resvCnt → s.resvMax + 1 = s.resvMin + s.resvCnt

/-- The step holds a port. -/
def Holds (s : State n) (step port : Nat) : Prop :=
  ∃ array, s.arrays step = some array ∧ port ∈ array

/-- The reservations of the steps are those of the table. -/
structure Exclusive (s : State n) : Prop where
  inUse_iff : ∀ i k, inUse s.ports.table i k = true ↔
    ∃ step, (steps step).nodes.getLsbD k = true ∧ Holds s step (s.ports.resvMin + i)
  disjoint : ∀ step step' k port, (steps step).nodes.getLsbD k = true →
    (steps step').nodes.getLsbD k = true → Holds s step port → Holds s step' port → step = step'
  reserved : ∀ step array, s.arrays step = some array →
    array.length = (steps step).resvPortCnt ∧ array.Nodup ∧
      ∀ port ∈ array, ∃ i, port = s.ports.resvMin + i ∧ owned s.ports.table i = true
  emptied : (∀ step, s.arrays step = none) → ∀ i k, inUse s.ports.table i k = false

/-- How many of the ports are free on some nodes. -/
def freeCount (s : Ports n) (nodes : BitVec n) : Nat :=
  (List.range s.resvCnt).countP (isFree s.table nodes)

/-- What `resv_port_step_alloc` must do. -/
structure AllocContract (s : State n) (step : Nat) (r : State n × Rc) : Prop where
  success_iff : r.2 = .success ↔ (steps step).resvPortCnt ≤ freeCount s.ports (steps step).nodes
  unchanged : r.2 ≠ .success → r.1.ports.table = s.ports.table ∧ r.1.arrays = s.arrays

/-- What a call must do. -/
def StepContract (s : State n) : Cmd → State n → Prop
  | .alloc step, _ => AllocContract steps s step (resvPortStepAlloc steps s step)
  | .free _, _ => True

/-- The contract of a run. -/
structure PortContract (s : State n) (cmds : List Cmd) : Prop where
  exclusive : Always (exec steps) (Exclusive steps) s cmds
  allocs : EachStep (exec steps) (StepContract steps) s cmds

/-- When the contract is met by a call: the step has no ports yet, and the entries of the
first positions of the table are there.  It is also met where the step has no nodes. -/
def Fits (s : State n) : Cmd → Prop
  | .alloc step => s.arrays step = none ∨
      (steps step).nodes = 0 ∧ (steps step).resvPortCnt ≤ freeCount s.ports (steps step).nodes
  | .free step => (steps step).nodes = 0 ∨ ∀ array, s.arrays step = some array →
      ∀ i < array.length, owned s.ports.table i = true

/-- The invariant of runs that meet the contract. -/
structure Inv (s : State n) : Prop where
  wf : s.ports.Wf
  exclusive : Exclusive steps s

variable {steps}

/-! ## Allocation -/

/-- The ports that an allocation takes, by position. -/
def taken (s : Ports n) (cnt : Nat) (nodes : BitVec n) : List Nat :=
  ((positions s).filter (isFree s.table nodes)).take cnt

theorem length_taken (s : Ports n) (cnt : Nat) (nodes : BitVec n) :
    (taken s cnt nodes).length = min cnt (freeCount s nodes) := by
  rw [taken, length_take, ← countP_eq_length_filter, freeCount, (positions_perm s).countP_eq]

theorem taken_nodup (s : Ports n) (cnt : Nat) (nodes : BitVec n) : (taken s cnt nodes).Nodup := by
  have hpositions : (positions s).Nodup := (positions_perm s).nodup_iff.mpr nodup_range
  exact (hpositions.filter _).sublist (take_sublist _ _)

theorem isFree_of_mem_taken {s : Ports n} {cnt : Nat} {nodes : BitVec n}
    (h : i ∈ taken s cnt nodes) : isFree s.table nodes i = true :=
  (List.mem_filter.mp (mem_of_mem_take h)).2

theorem freeCount_le (s : Ports n) (nodes : BitVec n) : freeCount s nodes ≤ s.resvCnt := by
  have hle := @countP_le_length _ (isFree s.table nodes) (List.range s.resvCnt)
  rwa [length_range] at hle

/-- All that an allocation does. -/
theorem alloc_spec (s : Ports n) {cnt : Nat} (hcnt : 0 < cnt) (nodes : BitVec n) :
    ∃ last, resvPortAlloc s cnt nodes =
      if cnt ≤ freeCount s nodes then
        ({ s with
            table := (taken s cnt nodes).foldl (setNodes nodes) s.table
            lastPortAlloc := last }, .success, some ((taken s cnt nodes).map (· + s.resvMin)))
      else
        ({ s with lastPortAlloc := last },
          if s.resvCnt < cnt then .portsInvalid else .portsBusy, none) := by
  have harray : (findPorts s.table nodes s.resvCnt cnt s.resvCnt s.lastPortAlloc []).2
      = taken s cnt nodes := findPorts_array s.table nodes s.resvCnt cnt s.resvCnt s.lastPortAlloc hcnt
  have hlen := length_taken s cnt nodes
  have hle := freeCount_le s nodes
  unfold resvPortAlloc
  by_cases hinvalid : s.resvCnt < cnt
  · refine ⟨s.lastPortAlloc, ?_⟩
    rw [if_pos hinvalid, if_neg (by omega), if_pos hinvalid]
  · refine ⟨(findPorts s.table nodes s.resvCnt cnt s.resvCnt s.lastPortAlloc []).1, ?_⟩
    rw [if_neg hinvalid]
    dsimp only
    rw [harray]
    by_cases hfree : cnt ≤ freeCount s nodes
    · rw [if_neg (by omega), if_pos hfree]
    · rw [if_pos (by omega), if_neg hfree, if_neg hinvalid]

theorem exists_node {nodes : BitVec n} (h : nodes ≠ 0) : ∃ k, nodes.getLsbD k = true := by
  by_contra hnone
  refine h (BitVec.eq_of_getLsbD_eq fun k _ => ?_)
  have hk : nodes.getLsbD k = false := Bool.eq_false_iff.mpr fun hk => hnone ⟨k, hk⟩
  exact hk.trans BitVec.getLsbD_zero.symm

/-- Nothing is held when no step has an array. -/
theorem emptied_of_inUse_iff (h : ∀ i k, inUse s.ports.table i k = true ↔
      ∃ step, (steps step).nodes.getLsbD k = true ∧ Holds s step (s.ports.resvMin + i))
    (hnone : ∀ step, s.arrays step = none) (i k : Nat) : inUse s.ports.table i k = false := by
  refine Bool.eq_false_iff.mpr fun hbit => ?_
  obtain ⟨step, -, array, harray, -⟩ := (h i k).mp hbit
  rw [hnone step] at harray
  cases harray

theorem holds_update {ports : Ports n} {step' : Nat} {v : Option (List Nat)} (hne : step' ≠ step) :
    Holds { ports := ports, arrays := Function.update s.arrays step v } step' port ↔
      Holds s step' port := by
  rw [Holds, Holds]
  dsimp only
  rw [update_of_ne hne]

theorem holds_update_self {ports : Ports n} {v : Option (List Nat)} :
    Holds { ports := ports, arrays := Function.update s.arrays step v } step port ↔
      ∃ array, v = some array ∧ port ∈ array := by
  rw [Holds]
  dsimp only
  rw [update_self]

/-- A held port is in use. -/
theorem Exclusive.inUse_of_holds (h : Exclusive steps s) {k : Nat}
    (hk : (steps step).nodes.getLsbD k = true) (hholds : Holds s step (s.ports.resvMin + i)) :
    inUse s.ports.table i k = true := (h.inUse_iff i k).mpr ⟨step, hk, hholds⟩

/-- The state after a successful allocation. -/
def grant (steps : Nat → StepRec n) (s : State n) (step last : Nat) : State n :=
  let l := taken s.ports (steps step).resvPortCnt (steps step).nodes
  { ports :=
      { s.ports with
        table := l.foldl (setNodes (steps step).nodes) s.ports.table
        lastPortAlloc := last }
    arrays := Function.update s.arrays step (some (l.map (· + s.ports.resvMin))) }

/-- A step holds the ports that it was granted. -/
theorem holds_grant {last : Nat} :
    Holds (grant steps s step last) step (s.ports.resvMin + i) ↔
      i ∈ taken s.ports (steps step).resvPortCnt (steps step).nodes := by
  rw [grant, holds_update_self]
  constructor
  · rintro ⟨array, harray, hmem⟩
    rw [← Option.some.inj harray, mem_map] at hmem
    obtain ⟨x, hx, heq⟩ := hmem
    rwa [show i = x by omega]
  · intro hmem
    exact ⟨_, rfl, List.mem_map.mpr ⟨i, hmem, Nat.add_comm _ _⟩⟩

/-- A grant keeps the table exclusive when the step had no ports, or has no nodes. -/
theorem exclusive_grant (h : Exclusive steps s) (last : Nat)
    (hfree : (steps step).resvPortCnt ≤ freeCount s.ports (steps step).nodes)
    (hnew : s.arrays step = none ∨ (steps step).nodes = 0) :
    Exclusive steps (grant steps s step last) := by
  have hiff : ∀ i k, inUse (grant steps s step last).ports.table i k = true ↔
      ∃ step', (steps step').nodes.getLsbD k = true ∧
        Holds (grant steps s step last) step' (s.ports.resvMin + i) := by
    intro i k
    rw [grant]
    dsimp only
    rw [inUse_setAll, h.inUse_iff]
    constructor
    · rintro (⟨step', hk, hholds⟩ | ⟨hmem, howned, hk⟩)
      · have hne : step' ≠ step := by
          rintro rfl
          rcases hnew with hnone | hzero
          · obtain ⟨array, harray, -⟩ := hholds
            rw [hnone] at harray
            cases harray
          · rw [hzero] at hk
            exact absurd (hk.symm.trans BitVec.getLsbD_zero) Bool.noConfusion
        exact ⟨step', hk, (holds_update hne).mpr hholds⟩
      · exact ⟨step, hk, holds_grant.mpr hmem⟩
    · rintro ⟨step', hk, hholds⟩
      by_cases heq : step' = step
      · subst heq
        have hmem := holds_grant.mp hholds
        exact Or.inr ⟨hmem, (isFree_iff.mp (isFree_of_mem_taken hmem)).1, hk⟩
      · exact Or.inl ⟨step', hk, (holds_update heq).mp hholds⟩
  -- A port that was granted was not in use on the nodes of the step.
  have hapart : ∀ step' k port, step' ≠ step → (steps step).nodes.getLsbD k = true →
      (steps step').nodes.getLsbD k = true → Holds (grant steps s step last) step port →
        ¬ Holds s step' port := by
    intro step' k port _ hk hk' hholds hholds'
    obtain ⟨array', harray', hmem'⟩ := hholds'
    obtain ⟨i, rfl, -⟩ := (h.reserved step' array' harray').2.2 port hmem'
    have hfree := (isFree_iff.mp (isFree_of_mem_taken (holds_grant.mp hholds))).2 k hk
    rw [h.inUse_of_holds hk' ⟨array', harray', hmem'⟩] at hfree
    cases hfree
  refine ⟨hiff, ?_, ?_, emptied_of_inUse_iff hiff⟩
  · intro step₁ step₂ k port hk₁ hk₂ hholds₁ hholds₂
    by_cases h₁ : step₁ = step
    · by_cases h₂ : step₂ = step
      · rw [h₁, h₂]
      · subst h₁
        exact absurd ((holds_update h₂).mp hholds₂) (hapart step₂ k port h₂ hk₁ hk₂ hholds₁)
    · by_cases h₂ : step₂ = step
      · subst h₂
        exact absurd ((holds_update h₁).mp hholds₁) (hapart step₁ k port h₁ hk₂ hk₁ hholds₂)
      · exact h.disjoint step₁ step₂ k port hk₁ hk₂ ((holds_update h₁).mp hholds₁)
          ((holds_update h₂).mp hholds₂)
  · intro step' array harray
    rw [grant] at harray ⊢
    dsimp only at harray ⊢
    simp only [owned_setAll]
    by_cases heq : step' = step
    · subst heq
      rw [update_self, Option.some.injEq] at harray
      subst harray
      refine ⟨?_, ?_, fun port hport => ?_⟩
      · rw [length_map, length_taken, min_eq_left hfree]
      · exact (taken_nodup _ _ _).map fun a b hab => Nat.add_right_cancel hab
      · obtain ⟨i, hi, rfl⟩ := List.mem_map.mp hport
        exact ⟨i, Nat.add_comm _ _, (isFree_iff.mp (isFree_of_mem_taken hi)).1⟩
    · rw [update_of_ne heq] at harray
      exact h.reserved step' array harray

/-- A grant to a step that holds ports loses them. -/
theorem Exclusive.of_grant (h : Exclusive steps s) {last : Nat}
    (h' : Exclusive steps (grant steps s step last)) :
    s.arrays step = none ∨ (steps step).nodes = 0 := by
  by_contra hboth
  rw [not_or] at hboth
  obtain ⟨hsome, hzero⟩ := hboth
  obtain ⟨array, harray⟩ := Option.ne_none_iff_exists'.mp hsome
  obtain ⟨hlen, -, hports⟩ := h.reserved step array harray
  have hpos := (steps step).cnt_pos
  obtain ⟨port, hport⟩ := exists_mem_of_length_pos (by omega : 0 < array.length)
  obtain ⟨i, rfl, -⟩ := hports port hport
  obtain ⟨k, hk⟩ := exists_node hzero
  have hbit := h.inUse_of_holds hk ⟨array, harray, hport⟩
  have hbit' : inUse (grant steps s step last).ports.table i k = true :=
    (inUse_setAll _ _ _ _ _).mpr (Or.inl hbit)
  obtain ⟨step', hk', hholds⟩ := (h'.inUse_iff i k).mp hbit'
  by_cases heq : step' = step
  · subst heq
    have hfree := (isFree_iff.mp (isFree_of_mem_taken (holds_grant.mp hholds))).2 k hk
    rw [hbit] at hfree
    cases hfree
  · exact heq (h.disjoint step' step k _ hk' hk ((holds_update heq).mp hholds)
      ⟨array, harray, hport⟩)

theorem Exclusive.congr {s' : State n} (h : Exclusive steps s)
    (htable : s'.ports.table = s.ports.table) (hmin : s'.ports.resvMin = s.ports.resvMin)
    (harrays : s'.arrays = s.arrays) : Exclusive steps s' := by
  have hholds : ∀ step port, Holds s' step port ↔ Holds s step port := fun step port => by
    rw [Holds, Holds, harrays]
  refine ⟨fun i k => ?_, fun step step' k port hk hk' hp hp' => ?_, fun step array harray => ?_,
    fun hnone => ?_⟩
  · simp only [htable, hmin, hholds]
    exact h.inUse_iff i k
  · exact h.disjoint step step' k port hk hk' ((hholds _ _).mp hp) ((hholds _ _).mp hp')
  · rw [harrays] at harray
    rw [htable, hmin]
    exact h.reserved step array harray
  · rw [harrays] at hnone
    rw [htable]
    exact h.emptied hnone

/-- One allocation. -/
theorem alloc_step (h : Inv steps s) (step : Nat) :
    (Fits steps s (.alloc step) → Inv steps (resvPortStepAlloc steps s step).1) ∧
      (Exclusive steps (resvPortStepAlloc steps s step).1 ∧
        AllocContract steps s step (resvPortStepAlloc steps s step) ↔ Fits steps s (.alloc step)) := by
  obtain ⟨last, halloc⟩ := alloc_spec s.ports (steps step).cnt_pos (steps step).nodes
  by_cases hfree : (steps step).resvPortCnt ≤ freeCount s.ports (steps step).nodes
  · rw [if_pos hfree] at halloc
    have hstep : resvPortStepAlloc steps s step = (grant steps s step last, .success) := by
      rw [resvPortStepAlloc, halloc]
      rfl
    have hfits : Fits steps s (.alloc step) ↔ s.arrays step = none ∨ (steps step).nodes = 0 :=
      or_congr Iff.rfl (and_iff_left hfree)
    have hwf : (grant steps s step last).ports.Wf :=
      ⟨(length_setAll _ _ _).trans h.wf.length, h.wf.max⟩
    have hcontract : AllocContract steps s step (grant steps s step last, .success) :=
      ⟨iff_of_true rfl hfree, fun hne => absurd rfl hne⟩
    rw [hstep, hfits]
    exact ⟨fun hnew => ⟨hwf, exclusive_grant h.exclusive last hfree hnew⟩,
      fun hboth => h.exclusive.of_grant hboth.1,
      fun hnew => ⟨exclusive_grant h.exclusive last hfree hnew, hcontract⟩⟩
  · rw [if_neg hfree] at halloc
    have hstep : resvPortStepAlloc steps s step =
        ({ ports := { s.ports with lastPortAlloc := last }
           arrays := Function.update s.arrays step none },
          if s.ports.resvCnt < (steps step).resvPortCnt then .portsInvalid else .portsBusy) := by
      rw [resvPortStepAlloc, halloc]
    have hfail : (if s.ports.resvCnt < (steps step).resvPortCnt then Rc.portsInvalid
        else Rc.portsBusy) ≠ .success := by
      split <;> exact Rc.noConfusion
    have hfits : Fits steps s (.alloc step) ↔ s.arrays step = none := by
      constructor
      · rintro (hnone | ⟨-, hle⟩)
        · exact hnone
        · exact absurd hle hfree
      · exact Or.inl
    have hsame : s.arrays step = none → Function.update s.arrays step none = s.arrays := fun hnone => by
      rw [← hnone, update_eq_self]
    rw [hstep, hfits]
    refine ⟨fun hnone => ⟨⟨h.wf.length, h.wf.max⟩, h.exclusive.congr rfl rfl (hsame hnone)⟩, ?_, ?_⟩
    · rintro ⟨-, hcontract⟩
      have harrays := (hcontract.unchanged hfail).2
      rw [← harrays]
      exact update_self _ _ _
    · intro hnone
      exact ⟨h.exclusive.congr rfl rfl (hsame hnone),
        ⟨iff_of_false hfail hfree, fun _ => ⟨rfl, hsame hnone⟩⟩⟩

/-! ## Release -/

/-- The state after the ports of a step were released. -/
def released (steps : Nat → StepRec n) (s : State n) (step : Nat) (array : List Nat) : State n :=
  { ports := resvPortFree s.ports array (steps step).nodes
    arrays := Function.update s.arrays step none }

theorem not_holds_released : ¬ Holds (released steps s step array) step port := by
  rw [released, holds_update_self]
  rintro ⟨_, hnone, -⟩
  cases hnone

/-- The bits after a release. -/
theorem inUse_released (h : Inv steps s) (harray : s.arrays step = some array) (i k : Nat) :
    inUse (released steps s step array).ports.table i k = true ↔
      inUse s.ports.table i k = true ∧ ¬ ((steps step).nodes.getLsbD k = true ∧
        ∃ m, array[m]? = some (s.ports.resvMin + i) ∧ owned s.ports.table m = true) := by
  have hports : ∀ port ∈ array, s.ports.resvMin ≤ port ∧ port ≤ s.ports.resvMax := by
    intro port hport
    obtain ⟨x, rfl, howned⟩ := (h.exclusive.reserved step array harray).2.2 port hport
    have hx : x < s.ports.resvCnt := by
      rw [← h.wf.length]
      by_contra hge
      rw [owned, nodesAt, getElem?_eq_none (not_lt.mp hge)] at howned
      cases howned
    have hmax := h.wf.max (by omega)
    omega
  have hfree := inUse_freeLoop s.ports (steps step).nodes 0 hports s.ports.table i k
  simp only [Nat.zero_add] at hfree
  exact hfree

/-- One release of the ports of a step that holds some. -/
theorem released_step (h : Inv steps s) (harray : s.arrays step = some array) :
    Exclusive steps (released steps s step array) ↔
      (steps step).nodes = 0 ∨ ∀ m < array.length, owned s.ports.table m = true := by
  obtain ⟨-, hnodup, hports⟩ := h.exclusive.reserved step array harray
  constructor
  · intro h'
    by_contra hboth
    rw [not_or] at hboth
    obtain ⟨hzero, hskipped⟩ := hboth
    push Not at hskipped
    obtain ⟨m, hm, hnull⟩ := hskipped
    obtain ⟨k, hk⟩ := exists_node hzero
    obtain ⟨i, hi, -⟩ := hports array[m] (getElem_mem hm)
    have hholds : Holds s step (s.ports.resvMin + i) := ⟨array, harray, hi ▸ getElem_mem hm⟩
    have hkept : inUse (released steps s step array).ports.table i k = true := by
      refine (inUse_released h harray i k).mpr ⟨h.exclusive.inUse_of_holds hk hholds, ?_⟩
      rintro ⟨-, m', hm', howned⟩
      rw [← hi, ← getElem?_eq_getElem hm] at hm'
      have hlt : m' < array.length := by
        by_contra hge
        rw [getElem?_eq_none (not_lt.mp hge), getElem?_eq_getElem hm] at hm'
        cases hm'
      rw [getElem?_eq_getElem hlt, getElem?_eq_getElem hm, Option.some.injEq] at hm'
      rw [(hnodup.getElem_inj_iff).mp hm'] at howned
      exact hnull howned
    obtain ⟨step', hk', hholds'⟩ := (h'.inUse_iff i k).mp hkept
    by_cases heq : step' = step
    · subst heq
      exact not_holds_released hholds'
    · exact heq (h.exclusive.disjoint step' step k _ hk' hk ((holds_update heq).mp hholds') hholds)
  · intro hfits
    have hiff : ∀ i k, inUse (released steps s step array).ports.table i k = true ↔
        ∃ step', (steps step').nodes.getLsbD k = true ∧
          Holds (released steps s step array) step' (s.ports.resvMin + i) := by
      intro i k
      rw [inUse_released h harray, h.exclusive.inUse_iff]
      constructor
      · rintro ⟨⟨step', hk', hholds⟩, hkeep⟩
        have hne : step' ≠ step := by
          rintro rfl
          rcases hfits with hzero | hall
          · rw [hzero] at hk'
            exact absurd (hk'.symm.trans BitVec.getLsbD_zero) Bool.noConfusion
          · obtain ⟨array', harray', hmem⟩ := hholds
            rw [harray, Option.some.injEq] at harray'
            subst harray'
            obtain ⟨m, hm, hget⟩ := List.mem_iff_getElem.mp hmem
            refine hkeep ⟨hk', m, ?_, hall m hm⟩
            rw [getElem?_eq_getElem hm, hget]
        exact ⟨step', hk', (holds_update hne).mpr hholds⟩
      · rintro ⟨step', hk', hholds⟩
        have hne : step' ≠ step := fun heq => not_holds_released (heq ▸ hholds)
        have hholds' : Holds s step' (s.ports.resvMin + i) := (holds_update hne).mp hholds
        refine ⟨⟨step', hk', hholds'⟩, ?_⟩
        rintro ⟨hk, m, hm, -⟩
        exact hne (h.exclusive.disjoint step' step k _ hk' hk hholds'
          ⟨array, harray, mem_of_getElem? hm⟩)
    have hback : ∀ step' port, Holds (released steps s step array) step' port → Holds s step' port := by
      intro step' port hholds
      have hne : step' ≠ step := fun heq => not_holds_released (heq ▸ hholds)
      exact (holds_update hne).mp hholds
    refine ⟨hiff, ?_, ?_, emptied_of_inUse_iff hiff⟩
    · intro step₁ step₂ k port hk₁ hk₂ hholds₁ hholds₂
      exact h.exclusive.disjoint step₁ step₂ k port hk₁ hk₂ (hback _ _ hholds₁) (hback _ _ hholds₂)
    · intro step' array' harray'
      have hne : step' ≠ step := by
        rintro rfl
        unfold released at harray'
        dsimp only at harray'
        rw [update_self] at harray'
        cases harray'
      unfold released at harray'
      dsimp only at harray'
      rw [update_of_ne hne] at harray'
      have hkeep : ∀ i, owned (released steps s step array).ports.table i = owned s.ports.table i :=
        fun i => owned_freeLoop _ _ _ _ _ i
      obtain ⟨hlen', hnodup', hports'⟩ := h.exclusive.reserved step' array' harray'
      refine ⟨hlen', hnodup', fun port hport => ?_⟩
      obtain ⟨i, hi, howned⟩ := hports' port hport
      exact ⟨i, hi, (hkeep i).trans howned⟩

theorem free_step (h : Inv steps s) (step : Nat) :
    (Fits steps s (.free step) → Inv steps (resvPortStepFree steps s step)) ∧
      (Exclusive steps (resvPortStepFree steps s step) ↔ Fits steps s (.free step)) := by
  cases harray : s.arrays step with
  | none =>
    have hsame : resvPortStepFree steps s step = s := by
      rw [resvPortStepFree, harray]
    have hfits : Fits steps s (.free step) := Or.inr fun array hsome => by
      rw [harray] at hsome
      cases hsome
    rw [hsame]
    exact ⟨fun _ => h, iff_of_true h.exclusive hfits⟩
  | some array =>
    have hstep : resvPortStepFree steps s step = released steps s step array := by
      rw [resvPortStepFree, harray]
      rfl
    have hfits : Fits steps s (.free step) ↔
        (steps step).nodes = 0 ∨ ∀ m < array.length, owned s.ports.table m = true := by
      refine or_congr Iff.rfl ⟨fun hall => hall array harray, fun hall array' harray' => ?_⟩
      rw [harray, Option.some.injEq] at harray'
      exact harray' ▸ hall
    have hwf : (released steps s step array).ports.Wf :=
      ⟨(length_freeLoop _ _ _ _ _).trans h.wf.length, h.wf.max⟩
    rw [hstep, hfits]
    exact ⟨fun hcond => ⟨hwf, (released_step h harray).mpr hcond⟩, released_step h harray⟩

/-! ## Runs -/

/-- A table of which nothing is reserved. -/
structure Fresh (s : State n) : Prop where
  wf : s.ports.Wf
  unused : ∀ i k, inUse s.ports.table i k = false
  arrays : ∀ step, s.arrays step = none

theorem Fresh.inv (h : Fresh s) : Inv steps s := by
  have hholds : ∀ step port, ¬ Holds s step port := by
    rintro step port ⟨array, harray, -⟩
    rw [h.arrays step] at harray
    cases harray
  refine ⟨h.wf, ⟨fun i k => ?_, fun step step' k port _ _ hp _ => ?_, fun step array harray => ?_,
    fun _ => h.unused⟩⟩
  · rw [h.unused]
    exact iff_of_false Bool.noConfusion fun ⟨step, _, hp⟩ => hholds step _ hp
  · exact absurd hp (hholds step port)
  · rw [h.arrays step] at harray
    cases harray

/-- A run meets the contract exactly when every call of it meets the condition. -/
theorem portContract_iff {s : State n} (h : Fresh s) (cmds : List Cmd) :
    PortContract steps s cmds ↔ Guarded (exec steps) (Fits steps) s cmds := by
  have hrule : Always (exec steps) (Exclusive steps) s cmds ∧
      EachStep (exec steps) (StepContract steps) s cmds ↔
        Guarded (exec steps) (Fits steps) s cmds := by
    apply Lib.Run.always_eachStep_iff (I := Inv steps) _ _ h.inv
    · exact fun _ hinv => hinv.exclusive
    · intro s c s' hinv hs'
      cases c with
      | alloc step =>
        obtain rfl := Option.some.inj hs'
        exact alloc_step hinv step
      | free step =>
        obtain rfl := Option.some.inj hs'
        obtain ⟨hkeep, hiff⟩ := free_step hinv step
        exact ⟨hkeep, (and_iff_left trivial).trans hiff⟩
  rw [← hrule]
  exact ⟨fun hc => ⟨hc.exclusive, hc.allocs⟩, fun hc => ⟨hc.1, hc.2⟩⟩

/-- Every step asks for two ports on the one node. -/
def twoPorts (_ : Nat) : StepRec 1 where
  resvPortCnt := 2
  nodes := 1
  cnt_pos := Nat.two_pos

/-- Ports 5000 and 5002 of a job, as `reserve_port_stepmgr_init` makes the table. -/
def sparse : State 1 where
  ports :=
    { table := [some 0, none, some 0]
      resvCnt := 3
      resvMin := 5000
      resvMax := 5002
      lastPortAlloc := 0 }
  arrays := fun _ => none

theorem fresh_sparse : Fresh sparse := by
  refine ⟨⟨rfl, fun _ => rfl⟩, fun i k => ?_, fun _ => rfl⟩
  rcases i with _ | _ | _ | i
  · exact BitVec.getLsbD_zero
  · rfl
  · exact BitVec.getLsbD_zero
  · rfl

/-- The second port of the array is not released, for entry 1 is `NULL`. -/
theorem portContract_fails : ¬ PortContract twoPorts sparse [.alloc 0, .free 0] := by
  intro h
  obtain ⟨s, hs⟩ : ∃ s, Lib.Run.run (exec twoPorts) sparse [.alloc 0, .free 0] = some s := ⟨_, rfl⟩
  have hbit : (Lib.Run.run (exec twoPorts) sparse [.alloc 0, .free 0]).map
      (fun s => inUse s.ports.table 0 0) = some true := by decide
  have hnone : ∀ step, s.arrays step = none := by
    obtain rfl := Option.some.inj hs
    intro step
    by_cases hstep : step = 0
    · subst hstep
      rfl
    · exact (Function.update_of_ne hstep _ _).trans (Function.update_of_ne hstep _ _)
  rw [hs, Option.map_some, Option.some.injEq] at hbit
  have hempty := (h.exclusive.run hs).emptied hnone 0 0
  rw [hbit] at hempty
  cases hempty

theorem portContract_iff_witness :
    PortContract twoPorts sparse [.alloc 0, .free 0] ↔
      Guarded (exec twoPorts) (Fits twoPorts) sparse [.alloc 0, .free 0] :=
  portContract_iff fresh_sparse [.alloc 0, .free 0]

end Slurm.PortMgr
