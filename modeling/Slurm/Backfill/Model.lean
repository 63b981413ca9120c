import Slurm.Licenses.Backfill
import Slurm.Lib.Linked
import Slurm.Lib.Timeline

/-!
# The node-space map of the backfill scheduler (`plugins/sched/backfill/backfill.c`)

`addReservation` is `_add_reservation`.  The map is an array of records that are linked
by their indices from record 0; a `next` of 0 ends it.  The array is a function here: the
callers stop adding before it is full.  Records that are no longer reached keep what was
in them.  `fragmentation`, the planned nodes and the reuse of freed bitmaps are left out.

Each loop follows `next`, with as much fuel as there are records.
-/

namespace Slurm.Backfill

open Slurm.Licenses

/-- `node_space_map_t` -/
structure NodeRec (n : Nat) where
  beginTime : Int
  endTime : Int
  availBitmap : BitVec n
  licenses : Option (List BfLicense)
  next : Nat

/-- `node_space` and `node_space_recs`. -/
structure NodeSpace (n : Nat) where
  recs : Nat → NodeRec n
  recCount : Nat

/-- `backfill_resolution`, `topology_g_whole_topo` and the cluster list of licenses. -/
structure Params (n : Nat) where
  resolution : Nat
  wholeTopo : BitVec n → BitVec n
  nodesOf : NodesOf n

/-- The arguments of a call. -/
structure Call (n : Nat) where
  startTime : Int
  endReserve : Int
  /-- `NULL` where a reservation's licenses are set up. -/
  resBitmap : Option (BitVec n)
  job : BfJob n
  /-- `IS_JOB_WHOLE_TOPO` -/
  wholeTopo : Bool

/-- What a record says is available. -/
structure Resources (n : Nat) where
  nodes : BitVec n
  licenses : Option (List BfLicense)

def NodeRec.resources {n : Nat} (r : NodeRec n) : Resources n := ⟨r.availBitmap, r.licenses⟩

variable {n : Nat} (p : Params n)

/-! ## Resources -/

/-- What a call takes: nodes and licenses for a job, or licenses for a reservation. -/
def Call.take (c : Call n) (r : Resources n) : Resources n :=
  match c.resBitmap with
  | some bitmap =>
    let efctv := if c.wholeTopo then p.wholeTopo bitmap else bitmap
    let job := if c.job.running then c.job else { c.job with nodeBitmap := bitmap }
    { nodes := r.nodes &&& ~~~efctv
      licenses := r.licenses.map (bfLicensesDeduct p.nodesOf job) }
  | none => { r with licenses := r.licenses.map (bfLicensesTransfer c.job) }

/-- `bf_licenses_avail` -/
def Resources.licensesAvail (r : Resources n) (job : BfJob n) (nodes : Option (BitVec n)) : Bool :=
  match r.licenses with
  | none => true
  | some l => bfLicensesAvail p.nodesOf job nodes l

/-- `bf_licenses_equal` -/
def licensesEqual (a b : Option (List BfLicense)) : Bool :=
  match a with
  | none => true
  | some l => bfLicensesEqual l (b.getD [])

/-! ## Changes of the map -/

/-- A record for the time from `time` on is inserted after record `j`. -/
def NodeSpace.insertAfter (s : NodeSpace n) (j : Nat) (time : Int) : NodeSpace n :=
  let i := s.recCount
  let recs := Function.update s.recs i { s.recs j with beginTime := time }
  { recs := Function.update recs j { s.recs j with endTime := time, next := i }
    recCount := i + 1 }

/-- The new usage is merged with record `j`. -/
def NodeSpace.takeAt (s : NodeSpace n) (c : Call n) (j : Nat) : NodeSpace n :=
  let r := c.take p (s.recs j).resources
  let used := { s.recs j with availBitmap := r.nodes, licenses := r.licenses }
  { s with recs := Function.update s.recs j used }

/-- Where the start of the reservation is: in record `j`, at its end, or after the map. -/
inductive Start where
  | split (j : Nat)
  | found (j : Nat)
  | missing
  deriving DecidableEq

/-- The loop for the start record, with `one_before`. -/
def findStart (s : NodeSpace n) (startTime : Int) : Nat → Nat → Nat → Option (Start × Nat)
  | 0, _, _ => none
  | fuel + 1, j, oneBefore =>
    if startTime < (s.recs j).endTime then some (.split j, oneBefore)
    else if (s.recs j).endTime = startTime then some (.found j, oneBefore)
    else if (s.recs j).next = 0 then some (.missing, j)
    else findStart s startTime fuel (s.recs j).next j

/-- The loop over the records of the reservation.  The second result is `one_after`. -/
def takeLoop (c : Call n) (endReserve : Int) :
    Nat → NodeSpace n → Nat → Option (NodeSpace n × Option Nat)
  | 0, _, _ => none
  | fuel + 1, s, j₀ =>
    let j := (s.recs j₀).next
    if j = 0 then some (s, none)
    else
      let s₁ := if endReserve < (s.recs j).endTime then s.insertAfter j endReserve else s
      let s₂ := s₁.takeAt p c j
      if endReserve = (s₂.recs j).endTime then
        some (s₂, if (s₂.recs j).next = 0 then none else some (s₂.recs j).next)
      else takeLoop c endReserve fuel s₂ j

/-- The loop for two records with the same resources, of which it gives the first. -/
def findIdentical (s : NodeSpace n) (oneAfter : Option Nat) : Nat → Nat → Option (Option Nat)
  | 0, _ => none
  | fuel + 1, i =>
    if oneAfter = some i then some none
    else
      let j := (s.recs i).next
      if j = 0 then some none
      else if licensesEqual (s.recs i).licenses (s.recs j).licenses = false then
        findIdentical s oneAfter fuel j
      else if (s.recs i).availBitmap ≠ (s.recs j).availBitmap then findIdentical s oneAfter fuel j
      else some (some i)

/-! ## The call -/

/-- The start of the reservation in a map that begins at `t₀`. -/
def Call.from (c : Call n) (t₀ : Int) : Int := max c.startTime t₀

/-- The end of the reservation, which lasts at least one slot. -/
def Call.until (c : Call n) (t₀ : Int) : Int :=
  if c.endReserve < c.from t₀ + p.resolution then c.from t₀ + p.resolution else c.endReserve

/-- The map with the new usage, and the first of two records that are merged then. -/
def place (s : NodeSpace n) (c : Call n) : Option (NodeSpace n × Option Nat) := do
  let startTime := c.from (s.recs 0).beginTime
  let endReserve := c.until p (s.recs 0).beginTime
  let (start, oneBefore) ← findStart s startTime s.recCount 0 0
  let (s₁, oneAfter) ← match start with
    | .split j =>
      let s₁ := s.insertAfter j startTime
      takeLoop p c endReserve s₁.recCount s₁ j
    | .found j => takeLoop p c endReserve s.recCount s j
    | .missing => some (s, none)
  let merged ← findIdentical s₁ oneAfter s₁.recCount oneBefore
  some (s₁, merged)

/-- The map before the first call. -/
def initial (t₀ horizon : Int) (r : Resources n) : NodeSpace n :=
  { recs := fun _ =>
      { beginTime := t₀
        endTime := horizon
        availBitmap := r.nodes
        licenses := r.licenses
        next := 0 }
    recCount := 1 }

end Slurm.Backfill

/-!
## The node-space map as a timeline

`IsPath s path` says that the records of the map are those of `path`, from record 0 on,
each visited once.  `spans s path` is the timeline of these records.

* `IsPath.insertAfter`, `IsPath.takeAt` and `IsPath.mergeAt`: what a change of the map
  does to its path, each with a lemma about the spans.
* `findStart_spec`, `takeLoop_spec` and `findIdentical_spec`: the loops end, and where.
-/

namespace Slurm.Backfill

open Slurm.Licenses List Function Nat
open Lib.Linked
open Lib.Timeline

variable {n : Nat} {p : Params n} {s : NodeSpace n}
variable {i fuel : Nat} {a : Int}

/-- `next`, by index. -/
def NodeSpace.next (s : NodeSpace n) (i : Nat) : Nat := (s.recs i).next

/-- The time and resources of a record. -/
def NodeSpace.span (s : NodeSpace n) (i : Nat) : Span Int (Resources n) where
  first := (s.recs i).beginTime
  last := (s.recs i).endTime
  value := (s.recs i).resources

/-- The timeline of some records. -/
def NodeSpace.spans (s : NodeSpace n) (path : List Nat) : List (Span Int (Resources n)) :=
  path.map s.span

/-- The records of the map, in order. -/
structure IsPath (s : NodeSpace n) (path : List Nat) : Prop where
  head : path.head? = some 0
  nodup : path.Nodup
  linked : LinkedTo s.next path 0
  lt : ∀ i ∈ path, i < s.recCount

/-! ## Paths -/

theorem IsPath.eq_cons {path : List Nat} (h : IsPath s path) : ∃ rest, path = 0 :: rest := by
  cases path with
  | nil => cases h.head
  | cons i rest => exact ⟨rest, by rw [Option.some.inj h.head]⟩

theorem IsPath.length_le {path : List Nat} (h : IsPath s path) : path.length ≤ s.recCount := by
  have hsub : path ⊆ List.range s.recCount := fun i hi => List.mem_range.mpr (h.lt i hi)
  calc path.length ≤ (List.range s.recCount).length := (h.nodup.subperm hsub).length_le
    _ = s.recCount := length_range

/-- Only the first record has index 0. -/
theorem IsPath.zero_notMem {pre post : List Nat} {j : Nat} (h : IsPath s (pre ++ j :: post)) :
    0 ∉ post := by
  intro hmem
  have hnodup := h.nodup
  cases pre with
  | nil =>
    rw [Option.some.inj h.head] at hnodup
    exact (List.nodup_cons.mp hnodup).1 hmem
  | cons i pre =>
    rw [Option.some.inj h.head] at hnodup
    exact (List.nodup_cons.mp hnodup).1 (mem_append_right _ (mem_cons_of_mem _ hmem))

theorem IsPath.next_eq {pre post : List Nat} {j : Nat} (h : IsPath s (pre ++ j :: post)) :
    (s.recs j).next = post.headD 0 := h.linked.next_eq

theorem IsPath.next_eq_zero {pre post : List Nat} {j : Nat} (h : IsPath s (pre ++ j :: post)) :
    (s.recs j).next = 0 ↔ post = [] := h.linked.next_eq_target h.zero_notMem

/-- A path through a record splits in one way. -/
theorem nodup_split {pre post : List Nat} {j : Nat} (h : (pre ++ j :: post).Nodup) :
    j ∉ pre ∧ j ∉ post ∧ ∀ i ∈ pre, i ∉ post := by
  rw [nodup_append, nodup_cons] at h
  obtain ⟨-, ⟨hpost, -⟩, hdisj⟩ := h
  refine ⟨fun hj => hdisj j hj j mem_cons_self rfl, hpost, fun i hi hi' => ?_⟩
  exact hdisj i hi i (mem_cons_of_mem _ hi') rfl

/-- Records that are not changed keep their spans. -/
theorem spans_congr {s' : NodeSpace n} {l : List Nat} (h : ∀ i ∈ l, s'.recs i = s.recs i) :
    s'.spans l = s.spans l := by
  refine map_congr_left fun i hi => ?_
  rw [NodeSpace.span, NodeSpace.span, h i hi]

theorem next_congr {s' : NodeSpace n} {l : List Nat} (h : ∀ i ∈ l, s'.recs i = s.recs i) :
    ∀ i ∈ l, s'.next i = s.next i := fun i hi => by
  rw [NodeSpace.next, NodeSpace.next, h i hi]

/-! ## Insertion -/

section

variable {pre post : List Nat} {j : Nat}

theorem insertAfter_recs_new (h : j < s.recCount) (time : Int) :
    (s.insertAfter j time).recs s.recCount = { s.recs j with beginTime := time } := by
  rw [NodeSpace.insertAfter]
  dsimp only
  rw [update_of_ne h.ne', update_self]

theorem insertAfter_recs_self (time : Int) : (s.insertAfter j time).recs j =
    { s.recs j with endTime := time, next := s.recCount } := by
  rw [NodeSpace.insertAfter]
  dsimp only
  rw [update_self]

theorem insertAfter_recs_of_ne (hi : i ≠ j) (hlt : i < s.recCount) (time : Int) :
    (s.insertAfter j time).recs i = s.recs i := by
  rw [NodeSpace.insertAfter]
  dsimp only
  rw [update_of_ne hi, update_of_ne hlt.ne]

theorem insertAfter_span_self (time : Int) :
    (s.insertAfter j time).span j = { s.span j with last := time } := by
  rw [NodeSpace.span, insertAfter_recs_self]
  rfl

theorem insertAfter_span_new (h : j < s.recCount) (time : Int) :
    (s.insertAfter j time).span s.recCount = { s.span j with first := time } := by
  rw [NodeSpace.span, insertAfter_recs_new h]
  rfl

theorem IsPath.insertAfter_recs (h : IsPath s (pre ++ j :: post)) (time : Int) :
    (∀ i ∈ pre, (s.insertAfter j time).recs i = s.recs i) ∧
      ∀ i ∈ post, (s.insertAfter j time).recs i = s.recs i := by
  obtain ⟨hpre, hpost, -⟩ := nodup_split h.nodup
  constructor
  · intro i hi
    have hne : i ≠ j := fun heq => hpre (heq ▸ hi)
    exact insertAfter_recs_of_ne hne (h.lt i (mem_append_left _ hi)) time
  · intro i hi
    have hne : i ≠ j := fun heq => hpost (heq ▸ hi)
    exact insertAfter_recs_of_ne hne
      (h.lt i (mem_append_right _ (mem_cons_of_mem _ hi))) time

theorem IsPath.insertAfter (h : IsPath s (pre ++ j :: post)) (time : Int) :
    IsPath (s.insertAfter j time) (pre ++ j :: s.recCount :: post) := by
  have hj : j < s.recCount := h.lt j (mem_append_right _ mem_cons_self)
  obtain ⟨hrecs, hrecs'⟩ := h.insertAfter_recs time
  have hperm : (pre ++ j :: s.recCount :: post).Perm (s.recCount :: (pre ++ j :: post)) := by
    have hpost : (j :: s.recCount :: post).Perm (s.recCount :: j :: post) := List.Perm.swap _ _ _
    exact (hpost.append_left pre).trans perm_middle
  constructor
  · cases pre with
    | nil => exact h.head
    | cons i pre => exact h.head
  · rw [hperm.nodup_iff, nodup_cons]
    exact ⟨fun hmem => lt_irrefl _ (h.lt _ hmem), h.nodup⟩
  · apply linkedTo_insert h.linked
    · rw [NodeSpace.next, insertAfter_recs_self]
    · rw [NodeSpace.next, insertAfter_recs_new hj]
      rfl
    · exact next_congr hrecs
    · exact next_congr hrecs'
  · intro i hi
    rcases List.mem_cons.mp (hperm.mem_iff.mp hi) with rfl | hi
    · exact lt_succ_self _
    · exact lt_succ_of_lt (h.lt i hi)

/-- An insertion splits a span. -/
theorem IsPath.spans_insertAfter (h : IsPath s (pre ++ j :: post)) (time : Int) :
    (s.insertAfter j time).spans (pre ++ j :: s.recCount :: post) =
      s.spans pre ++ { s.span j with last := time } :: { s.span j with first := time } ::
        s.spans post := by
  have hj : j < s.recCount := h.lt j (mem_append_right _ mem_cons_self)
  obtain ⟨hrecs, hrecs'⟩ := h.insertAfter_recs time
  rw [← spans_congr hrecs, ← spans_congr hrecs', NodeSpace.spans, map_append, map_cons,
    map_cons, insertAfter_span_self, insertAfter_span_new hj]
  rfl

end

/-! ## Changes of one record -/

section

variable {pre post : List Nat} {j : Nat}

/-- A change of record `j` that keeps its link keeps the path. -/
theorem IsPath.update (h : IsPath s (pre ++ j :: post)) {r : NodeRec n}
    (hnext : r.next = (s.recs j).next) :
    IsPath { s with recs := Function.update s.recs j r } (pre ++ j :: post) := by
  refine ⟨h.head, h.nodup, ?_, h.lt⟩
  apply (linkedTo_congr _ 0).mpr h.linked
  intro i _
  rw [NodeSpace.next, NodeSpace.next]
  by_cases hi : i = j
  · rw [hi]
    dsimp only
    rw [update_self, hnext]
  · dsimp only
    rw [update_of_ne hi]

theorem spans_update (hnodup : (pre ++ j :: post).Nodup) (r : NodeRec n) :
    ({ s with recs := Function.update s.recs j r } : NodeSpace n).spans (pre ++ j :: post) =
      s.spans pre ++ { first := r.beginTime, last := r.endTime, value := r.resources } ::
        s.spans post := by
  obtain ⟨hpre, hpost, -⟩ := nodup_split hnodup
  have hkeep : ∀ i, i ≠ j →
      ({ s with recs := Function.update s.recs j r } : NodeSpace n).recs i = s.recs i :=
    fun i hi => update_of_ne hi _ _
  rw [NodeSpace.spans, map_append, map_cons]
  congr 1
  · refine map_congr_left fun i hi => ?_
    have hne : i ≠ j := fun heq => hpre (heq ▸ hi)
    rw [NodeSpace.span, NodeSpace.span, hkeep i hne]
  · congr 1
    · rw [NodeSpace.span]
      dsimp only
      rw [update_self]
    · refine map_congr_left fun i hi => ?_
      have hne : i ≠ j := fun heq => hpost (heq ▸ hi)
      rw [NodeSpace.span, NodeSpace.span, hkeep i hne]

theorem IsPath.takeAt (h : IsPath s (pre ++ j :: post)) (c : Call n) :
    IsPath (s.takeAt p c j) (pre ++ j :: post) := by
  apply h.update
  rfl

theorem takeAt_recs_of_ne {c : Call n} (hi : i ≠ j) :
    (s.takeAt p c j).recs i = s.recs i := update_of_ne hi _ _

/-- The new usage changes a value. -/
theorem spans_takeAt (hnodup : (pre ++ j :: post).Nodup) (c : Call n) :
    (s.takeAt p c j).spans (pre ++ j :: post) =
      s.spans pre ++ { s.span j with value := c.take p (s.span j).value } :: s.spans post :=
  spans_update hnodup _

end

/-! ## The loops -/

/-- Neighbours meet. -/
theorem begin_eq_of_covers {b : Int} {pre post : List Nat} {j k : Nat}
    (h : Covers a b (s.spans (pre ++ j :: k :: post))) :
    (s.recs k).beginTime = (s.recs j).endTime := by
  rw [NodeSpace.spans, map_append, covers_append] at h
  obtain ⟨_, -, -, -, hk, -⟩ := h
  exact hk

/-- The last record ends at the end of the map. -/
theorem end_eq_of_covers {b : Int} {pre : List Nat} {j : Nat}
    (h : Covers a b (s.spans (pre ++ [j]))) : (s.recs j).endTime = b := by
  rw [NodeSpace.spans, map_append, covers_append] at h
  obtain ⟨_, -, -, -, hj⟩ := h
  exact hj

/-- Where the search for the start record ends, with a record `oneBefore` that is not
after it. -/
inductive StartsAt (s : NodeSpace n) (startTime horizon : Int) (path : List Nat) : Start → Nat → Prop
  | split {pre post : List Nat} {j oneBefore : Nat} (hpath : path = pre ++ j :: post)
      (hbefore : oneBefore ∈ pre ++ [j]) (hbegin : (s.recs j).beginTime ≤ startTime)
      (hend : startTime < (s.recs j).endTime) : StartsAt s startTime horizon path (.split j) oneBefore
  | found {pre post : List Nat} {j oneBefore : Nat} (hpath : path = pre ++ j :: post)
      (hbefore : oneBefore ∈ pre ++ [j]) (hend : (s.recs j).endTime = startTime) :
      StartsAt s startTime horizon path (.found j) oneBefore
  | missing {oneBefore : Nat} (hbefore : oneBefore ∈ path) (hend : horizon < startTime) :
      StartsAt s startTime horizon path .missing oneBefore

theorem findStart_spec {horizon startTime : Int} {pre post : List Nat} {j oneBefore : Nat}
    (h : IsPath s (pre ++ j :: post)) (hcovers : Covers a horizon (s.spans (pre ++ j :: post)))
    (hfuel : post.length < fuel) (hbefore : oneBefore ∈ pre ++ [j])
    (hbegin : (s.recs j).beginTime ≤ startTime) :
    ∃ r, findStart s startTime fuel j oneBefore = some r ∧
      StartsAt s startTime horizon (pre ++ j :: post) r.1 r.2 := by
  induction fuel generalizing pre j post oneBefore with
  | zero => exact absurd hfuel (Nat.not_lt_zero _)
  | succ fuel ih =>
    rw [findStart]
    split
    · rename_i hend
      exact ⟨_, rfl, .split rfl hbefore hbegin hend⟩
    · rename_i hge
      split
      · rename_i hend
        exact ⟨_, rfl, .found rfl hbefore hend⟩
      · rename_i hne
        have hlt : (s.recs j).endTime < startTime := lt_of_le_of_ne (not_lt.mp hge) hne
        split
        · rename_i hzero
          rw [h.next_eq_zero] at hzero
          subst hzero
          rw [end_eq_of_covers hcovers] at hlt
          exact ⟨_, rfl, .missing (mem_append_right _ (mem_singleton_self j)) hlt⟩
        · rename_i hnz
          cases post with
          | nil => exact absurd (h.next_eq_zero.mpr rfl) hnz
          | cons k post =>
            have hk : (s.recs j).next = k := h.next_eq
            have hbegin' := begin_eq_of_covers hcovers
            rw [append_cons] at h hcovers ⊢
            rw [hk]
            apply ih h hcovers (lt_of_succ_lt_succ hfuel)
            · exact mem_append_left _ (mem_append_right _ (mem_singleton_self j))
            · rw [hbegin']
              exact hlt.le

/-- The records of the reservation get the new usage. -/
theorem takeLoop_spec (c : Call n) (endReserve : Int) {pre post : List Nat} {j₀ : Nat}
    (h : IsPath s (pre ++ j₀ :: post)) (hfuel : post.length < fuel) :
    ∃ s' oneAfter post', takeLoop p c endReserve fuel s j₀ = some (s', oneAfter) ∧
      IsPath s' (pre ++ j₀ :: post') ∧
        s'.spans (pre ++ j₀ :: post') =
          s.spans (pre ++ [j₀]) ++ useUntil (c.take p) endReserve (s.spans post) := by
  induction fuel generalizing s pre j₀ post with
  | zero => exact absurd hfuel (Nat.not_lt_zero _)
  | succ fuel ih =>
    rw [takeLoop]
    dsimp only
    cases post with
    | nil =>
      rw [if_pos (h.next_eq_zero.mpr rfl)]
      exact ⟨s, none, [], rfl, h, (append_nil _).symm⟩
    | cons j post =>
      have hj : (s.recs j₀).next = j := h.next_eq
      have hnz : ¬ (s.recs j₀).next = 0 := fun hz => cons_ne_nil _ _ (h.next_eq_zero.mp hz)
      rw [if_neg hnz, hj]
      rw [append_cons] at h
      have hspans : s.spans (j :: post) = s.span j :: s.spans post := rfl
      rw [hspans, useUntil]
      by_cases hlt : endReserve < (s.recs j).endTime
      · -- The reservation ends in this record.
        have hins := h.insertAfter endReserve
        have htake := hins.takeAt (p := p) c
        have hend : endReserve = (((s.insertAfter j endReserve).takeAt p c j).recs j).endTime := by
          rw [NodeSpace.takeAt]
          dsimp only
          rw [update_self, insertAfter_recs_self]
        rw [if_pos hlt, if_pos hend]
        refine ⟨_, _, j :: s.recCount :: post, rfl, ?_, ?_⟩
        · rw [append_cons pre j₀]
          exact htake
        · obtain ⟨hrecs, hrecs'⟩ := h.insertAfter_recs endReserve
          have hjlt : j < s.recCount := h.lt j (mem_append_right _ mem_cons_self)
          have hnew : (s.insertAfter j endReserve).spans (s.recCount :: post)
              = { s.span j with first := endReserve } :: s.spans post := by
            rw [← spans_congr hrecs', ← insertAfter_span_new hjlt]
            rfl
          have hif : endReserve < (s.span j).last := hlt
          rw [append_cons pre j₀ (j :: _), spans_takeAt hins.nodup, hnew, insertAfter_span_self,
            spans_congr hrecs, if_pos hif]
      · have htake := h.takeAt (p := p) c
        have hend : ((s.takeAt p c j).recs j).endTime = (s.recs j).endTime := by
          rw [NodeSpace.takeAt]
          dsimp only
          rw [update_self]
        have hif : ¬ endReserve < (s.span j).last := hlt
        rw [if_neg hlt, hend, if_neg hif]
        split
        · rename_i heq
          have hif' : endReserve = (s.span j).last := heq
          refine ⟨_, _, j :: post, rfl, ?_, ?_⟩
          · rw [append_cons pre j₀]
            exact htake
          · rw [append_cons pre j₀ (j :: _), spans_takeAt h.nodup, if_pos hif']
        · rename_i hne
          have hif' : ¬ endReserve = (s.span j).last := hne
          obtain ⟨s', oneAfter, post', hloop, hpath, hspans'⟩ := ih htake
            (lt_of_succ_lt_succ hfuel)
          refine ⟨s', oneAfter, j :: post', hloop, ?_, ?_⟩
          · rw [append_cons pre j₀]
            exact hpath
          · have hnodup : (pre ++ [j₀] ++ [j]).Nodup :=
              h.nodup.sublist ((nil_sublist post).cons_cons j |>.append_left _)
            have hpost : (s.takeAt p c j).spans post = s.spans post :=
              spans_congr fun i hi => takeAt_recs_of_ne fun heq =>
                (nodup_split h.nodup).2.1 (heq ▸ hi)
            rw [append_cons pre j₀ (j :: _), hspans', spans_takeAt hnodup, hpost, if_neg hif',
              append_assoc]
            rfl

/-- The two records that are merged are neighbours with the same resources, as far as the
comparison goes. -/
theorem findIdentical_spec (oneAfter : Option Nat) {pre post : List Nat}
    (h : IsPath s (pre ++ i :: post)) (hfuel : post.length < fuel) :
    ∃ r, findIdentical s oneAfter fuel i = some r ∧ ∀ k, r = some k →
      ∃ pre' m post', pre ++ i :: post = pre' ++ k :: m :: post' ∧
        licensesEqual (s.recs k).licenses (s.recs m).licenses = true ∧
          (s.recs k).availBitmap = (s.recs m).availBitmap := by
  induction fuel generalizing pre i post with
  | zero => exact absurd hfuel (Nat.not_lt_zero _)
  | succ fuel ih =>
    rw [findIdentical]
    dsimp only
    split
    · exact ⟨none, rfl, fun k hk => (by cases hk)⟩
    · cases post with
      | nil =>
        rw [if_pos (h.next_eq_zero.mpr rfl)]
        exact ⟨none, rfl, fun k hk => (by cases hk)⟩
      | cons j post =>
        have hj : (s.recs i).next = j := h.next_eq
        have hnz : ¬ (s.recs i).next = 0 := fun hz => cons_ne_nil _ _ (h.next_eq_zero.mp hz)
        have hrest : ∃ r, findIdentical s oneAfter fuel j = some r ∧ ∀ k, r = some k →
            ∃ pre' m post', pre ++ i :: j :: post = pre' ++ k :: m :: post' ∧
              licensesEqual (s.recs k).licenses (s.recs m).licenses = true ∧
                (s.recs k).availBitmap = (s.recs m).availBitmap := by
          rw [append_cons] at h ⊢
          exact ih h (lt_of_succ_lt_succ hfuel)
        rw [if_neg hnz, hj]
        split
        · exact hrest
        · rename_i hequal
          split
          · exact hrest
          · rename_i hbits
            refine ⟨some i, rfl, fun k hk => ?_⟩
            obtain rfl := Option.some.inj hk
            exact ⟨pre, j, post, rfl, Bool.eq_true_of_not_eq_false hequal, not_not.mp hbits⟩

end Slurm.Backfill
