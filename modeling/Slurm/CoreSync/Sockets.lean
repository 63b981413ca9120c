import Slurm.CoreSync.Rounds

/-!
# The sockets of a node

* `avoided_left`, `avoided_limit`: what the sockets that are not avoided can give is enough.
* `kept_block`, `kept_node`: the cores that are set afterwards are those that starts have passed.
-/

namespace Slurm.CoreSync

open List

variable {job : SyncJob} {m m' : List Bool} {vpus k c limit cpus : Nat}
variable {socks : List Sock}

/-! ## Sockets to avoid -/

/-- The entries of a list without those that are marked. -/
def unmarked (f : Nat → Nat) (cnts : List Nat) (marks : List Bool) : Nat :=
  (List.zipWith (fun cnt avoid => if avoid = true then 0 else f cnt) cnts marks).sum

theorem unmarked_cons (f : Nat → Nat) (cnt : Nat) (cnts : List Nat) (avoid : Bool) (marks : List Bool) :
    unmarked f (cnt :: cnts) (avoid :: marks) =
      (if avoid = true then 0 else f cnt) + unmarked f cnts marks := rfl

theorem unmarked_none (f : Nat → Nat) (cnts : List Nat) :
    unmarked f cnts (cnts.map fun _ => false) = (cnts.map f).sum := by
  induction cnts with
  | nil => rfl
  | cons cnt rest ih =>
    rw [map_cons, unmarked_cons, ih]
    rfl

/-- What the first loop leaves: it cuts no entry below the limit, and stops only when there are
not too many. -/
theorem clip_spec {total : Nat} {cnts : List Nat} (hle : cnts.sum ≤ total) :
    List.Forall₂ (fun cnt cut => cut ≤ cnt) cnts (clipSockets limit cpus total cnts).2 ∧
      (clipSockets limit cpus total cnts).1 + cnts.sum =
        total + (clipSockets limit cpus total cnts).2.sum ∧
      (cpus < (clipSockets limit cpus total cnts).1 →
        (clipSockets limit cpus total cnts).2 = cnts.map (min limit)) := by
  induction cnts generalizing total with
  | nil => exact ⟨.nil, rfl, fun _ => rfl⟩
  | cons cnt rest ih =>
    rw [sum_cons] at hle
    rw [clipSockets]
    split
    · rename_i hfew
      exact ⟨List.forall₂_same.mpr fun _ _ => le_refl _, rfl, fun hmany => by simp only at hmany; omega⟩
    · split
      · rename_i habove
        obtain ⟨hcut, hsum, hall⟩ := @ih (total - (cnt - limit)) (by omega)
        refine ⟨.cons habove.le hcut, ?_, fun hmany => ?_⟩
        · simp only [sum_cons]
          omega
        · rw [map_cons, Nat.min_eq_left habove.le, hall hmany]
      · rename_i hbelow
        obtain ⟨hcut, hsum, hall⟩ := @ih total (by omega)
        refine ⟨.cons (le_refl _) hcut, ?_, fun hmany => ?_⟩
        · simp only [sum_cons]
          omega
        · rw [map_cons, Nat.min_eq_right (Nat.le_of_not_lt hbelow), hall hmany]

theorem length_avoidSockets (total : Nat) (cnts : List Nat) :
    (avoidSockets limit cpus total cnts).length = cnts.length := by
  induction cnts generalizing total with
  | nil => rfl
  | cons cnt rest ih =>
    rw [avoidSockets]
    split
    · simp
    · split <;> simp [ih]

theorem avoid_few {total : Nat} {cnts : List Nat} (h : total ≤ cpus) :
    avoidSockets limit cpus total cnts = cnts.map fun _ => false := by
  cases cnts with
  | nil => rfl
  | cons cnt rest => rw [avoidSockets, if_pos h]

/-- What is not avoided is enough. -/
theorem avoid_spec {total : Nat} {cnts : List Nat} (hle : cnts.sum ≤ total) (hcpus : cpus ≤ total) :
    cpus + cnts.sum ≤ total + unmarked id cnts (avoidSockets limit cpus total cnts) := by
  induction cnts generalizing total with
  | nil => simpa [unmarked] using hcpus
  | cons cnt rest ih =>
    rw [sum_cons] at hle ⊢
    by_cases hfew : total ≤ cpus
    · rw [avoid_few hfew, unmarked_none]
      simp
      omega
    · rw [avoidSockets, if_neg hfew]
      split
      · rename_i havoid
        have hrest := @ih (total - cnt) (by omega) havoid.2
        rw [unmarked_cons, if_pos rfl]
        omega
      · have hrest := @ih total (by omega) hcpus
        rw [unmarked_cons, if_neg (by decide), id_eq]
        omega

theorem unmarked_mono {f g : Nat → Nat} {cnts cuts : List Nat} {marks : List Bool}
    (h : List.Forall₂ (fun cnt cut => g cut ≤ f cnt) cnts cuts) :
    unmarked g cuts marks ≤ unmarked f cnts marks := by
  induction h generalizing marks with
  | nil => exact le_refl _
  | cons hhead _ ih =>
    cases marks with
    | nil => exact le_refl _
    | cons mark marks =>
      have hrest := @ih marks
      rw [unmarked_cons, unmarked_cons]
      split <;> omega

/-- The marks of the sockets of a node. -/
def marksOf (limit cpus : Nat) (cnts : List Nat) : List Bool :=
  avoidSockets limit cpus (clipSockets limit cpus cnts.sum cnts).1
    (clipSockets limit cpus cnts.sum cnts).2

/-- The CPUs of the sockets that are not avoided are enough. -/
theorem marks_left {cnts : List Nat} (h : cpus ≤ cnts.sum) :
    cpus ≤ unmarked id cnts (marksOf limit cpus cnts) := by
  obtain ⟨hcut, hsum, -⟩ := @clip_spec limit cpus cnts.sum cnts (le_refl _)
  unfold marksOf
  by_cases hfew : (clipSockets limit cpus cnts.sum cnts).1 ≤ cpus
  · rw [avoid_few hfew]
    have hlen : (clipSockets limit cpus cnts.sum cnts).2.map (fun _ => false) = cnts.map fun _ => false := by
      rw [map_const', map_const', hcut.length_eq]
    rw [hlen, unmarked_none]
    simpa using h
  · have hspec := @avoid_spec limit cpus (clipSockets limit cpus cnts.sum cnts).1
      (clipSockets limit cpus cnts.sum cnts).2 (by omega) (by omega)
    have hmono := @unmarked_mono id id cnts (clipSockets limit cpus cnts.sum cnts).2
      (marksOf limit cpus cnts) hcut
    rw [marksOf] at hmono
    omega

/-- Where the limits leave enough CPUs, those of the sockets that are not avoided do. -/
theorem marks_limit {cnts : List Nat} (h : cpus ≤ (cnts.map (min limit)).sum) :
    cpus ≤ unmarked (min limit) cnts (marksOf limit cpus cnts) := by
  obtain ⟨hcut, hsum, hall⟩ := @clip_spec limit cpus cnts.sum cnts (le_refl _)
  unfold marksOf
  by_cases hfew : (clipSockets limit cpus cnts.sum cnts).1 ≤ cpus
  · rw [avoid_few hfew]
    have hlen : (clipSockets limit cpus cnts.sum cnts).2.map (fun _ => false) = cnts.map fun _ => false := by
      rw [map_const', map_const', hcut.length_eq]
    rw [hlen, unmarked_none]
    exact h
  · have hspec := @avoid_spec limit cpus (clipSockets limit cpus cnts.sum cnts).1
      (clipSockets limit cpus cnts.sum cnts).2 (by omega) (by omega)
    have hsame : unmarked id (clipSockets limit cpus cnts.sum cnts).2 (marksOf limit cpus cnts) =
        unmarked (min limit) cnts (marksOf limit cpus cnts) := by
      rw [hall (by omega), unmarked, unmarked, zipWith_map_left]
      rfl
    rw [marksOf] at hsame
    omega

/-! ## Places -/

/-- The sockets of `k` cores follow one another from `c` on, and their starts lie within them. -/
def InPlace (k c : Nat) (socks : List Sock) : Prop :=
  ∀ i s, socks[i]? = some s →
    s.stop = c + i * k + k ∧ c + i * k ≤ s.start ∧ s.start ≤ s.stop

theorem InPlace.inRange (h : InPlace k c socks) : ∀ s ∈ socks, InRange k s := by
  intro s hs
  obtain ⟨i, hi⟩ := getElem?_of_mem hs
  obtain ⟨hstop, hbase, hle⟩ := h i s hi
  exact ⟨by omega, hle⟩

theorem InPlace.moved {socks' : List Sock} (h : InPlace k c socks)
    (hmoved : List.Forall₂ (Moved k) socks socks') : InPlace k c socks' := by
  intro i s' hs'
  have hlen := hmoved.length_eq
  obtain ⟨hi, -⟩ := List.getElem?_eq_some_iff.mp hs'
  have hs : socks[i]? = some socks[i] := getElem?_eq_getElem (by omega)
  have hone : Moved k socks[i] s' := by
    have hget := (List.forall₂_iff_get.mp hmoved).2 i (by omega) hi
    rw [get_eq_getElem, get_eq_getElem] at hget
    rw [getElem?_eq_getElem hi, Option.some.injEq] at hs'
    rwa [hs'] at hget
  obtain ⟨hstop, hbase, hle⟩ := h i _ hs
  have hrange := hone.inRange ⟨by omega, hle⟩
  have hbase' := hrange.base_le
  rw [hone.stop_eq, hstop] at hbase'
  exact ⟨hone.stop_eq.trans hstop, by omega, hrange.le_stop⟩

theorem firstSocks_inPlace (c : Nat) (node : SyncNode) : InPlace node.cores c (firstSocks c node) := by
  intro i s hs
  simp only [firstSocks, getElem?_map, Option.map_eq_some_iff] at hs
  obtain ⟨j, hj, rfl⟩ := hs
  obtain ⟨hlt, rfl⟩ := List.getElem?_eq_some_iff.mp hj
  simp

/-- The sockets at the start, of which none has given a core. -/
theorem firstSocks_fresh {node : SyncNode} {s : Sock} (hs : s ∈ firstSocks c node) :
    s.start = s.stop - node.cores ∧ s.avoid = false := by
  simp only [firstSocks, mem_map] at hs
  obtain ⟨i, -, rfl⟩ := hs
  exact ⟨by simp, rfl⟩

/-! ## The cores that are left -/

/-- Whether the loop at the end clears a core. -/
def Cleared (socks : List Sock) (j : Nat) : Prop := ∃ s ∈ socks, s.start ≤ j ∧ j < s.stop

instance (socks : List Sock) (j : Nat) : Decidable (Cleared socks j) := by
  unfold Cleared
  infer_instance

theorem index_unique {i i' x : Nat} (h : i * k ≤ x) (h' : x < i * k + k) (hi : i' * k ≤ x)
    (hi' : x < i' * k + k) : i = i' := by
  rcases Nat.lt_trichotomy i i' with hlt | heq | hgt
  · have hle := Nat.mul_le_mul_right k hlt
    rw [Nat.succ_mul] at hle
    omega
  · exact heq
  · have hle := Nat.mul_le_mul_right k hgt
    rw [Nat.succ_mul] at hle
    omega

/-- Of each socket the cores are left that its start has passed. -/
theorem kept_block (h : InPlace k c socks)
    (hbits : ∀ j, bitTest m' j = (bitTest m j && !decide (Cleared socks j))) {i : Nat} {s : Sock}
    (hs : socks[i]? = some s) : ones m' (c + i * k) (c + i * k + k) = kept m k s := by
  obtain ⟨hstop, hbase, hle⟩ := h i s hs
  have hbefore : ones m' (c + i * k) s.start = ones m (c + i * k) s.start := by
    refine ones_congr fun j hj hlt => ?_
    have hnot : ¬ Cleared socks j := by
      intro hcleared
      obtain ⟨t, ht, hstart, hend⟩ := hcleared
      obtain ⟨i', hi'⟩ := getElem?_of_mem ht
      obtain ⟨hstop', hbase', -⟩ := h i' t hi'
      have heq : i = i' := @index_unique k i i' (j - c) (by omega) (by omega) (by omega) (by omega)
      rw [← heq, hs, Option.some.injEq] at hi'
      rw [← hi'] at hstart
      omega
    simp [hbits, hnot]
  have hafter : ones m' s.start (c + i * k + k) = 0 := by
    refine ones_eq_zero fun j hj hlt => ?_
    have hcleared : Cleared socks j := ⟨s, mem_of_getElem? hs, hj, by omega⟩
    simp [hbits, hcleared]
  have hsplit := ones_append m' hbase (show s.start ≤ c + i * k + k by omega)
  rw [kept, show s.stop - k = c + i * k by omega]
  omega

/-- The set bits of blocks that follow one another. -/
theorem ones_blocks (m : List Bool) (c k n : Nat) :
    ((List.range n).map fun i => ones m (c + i * k) (c + i * k + k)).sum = ones m c (c + n * k) := by
  induction n with
  | zero => simp [ones_self]
  | succ n ih =>
    rw [range_succ, map_append, sum_append, ih, map_singleton, sum_singleton,
      ones_append m (Nat.le_add_right _ _) (Nat.le_add_right _ _), Nat.succ_mul, Nat.add_assoc]

/-- The cores of a node that are left are those that the starts have passed. -/
theorem kept_node (h : InPlace k c socks)
    (hbits : ∀ j, bitTest m' j = (bitTest m j && !decide (Cleared socks j))) :
    ones m' c (c + socks.length * k) = (socks.map (kept m k)).sum := by
  rw [← ones_blocks]
  congr 1
  refine ext_getElem (by simp) fun i hi hi' => ?_
  rw [length_map] at hi'
  simp only [getElem_map, getElem_range]
  exact kept_block h hbits (getElem?_eq_getElem hi')

/-- Blocks of cores that no socket has given yet. -/
theorem left_node (h : InPlace k c socks) (hfresh : ∀ s ∈ socks,
    s.start = s.stop - k ∧ s.avoid = false) :
    (socks.map (left m)).sum = ones m c (c + socks.length * k) := by
  rw [← ones_blocks]
  congr 1
  refine ext_getElem (by simp) fun i hi hi' => ?_
  rw [length_map] at hi
  obtain ⟨hstop, -, -⟩ := h i _ (getElem?_eq_getElem hi)
  obtain ⟨hstart, havoid⟩ := hfresh _ (getElem_mem hi)
  simp only [getElem_map, getElem_range]
  rw [left, if_neg (by simp [havoid]), hstart, hstop, Nat.add_sub_cancel]

/-! ## The end -/

/-- Where cores are allocated, the loop at the end clears the cores that are not taken, and counts
none. -/
theorem finish_spec (hsock : job.allocSockets = false) (socks : List Sock) (r : List Bool × Nat) :
    (∀ j, bitTest (socks.foldl (finishSock job) r).1 j =
        (bitTest r.1 j && !decide (Cleared socks j))) ∧
      (socks.foldl (finishSock job) r).1.length = r.1.length ∧
      (socks.foldl (finishSock job) r).2 = r.2 := by
  induction socks generalizing r with
  | nil => simp [Cleared]
  | cons s rest ih =>
    have hone : (∀ j, bitTest (finishSock job r s).1 j =
          (bitTest r.1 j && !decide (s.start ≤ j ∧ j < s.stop))) ∧
        (finishSock job r s).1.length = r.1.length ∧ (finishSock job r s).2 = r.2 := by
      unfold finishSock
      split
      · rename_i heq
        refine ⟨fun j => ?_, rfl, rfl⟩
        have hnone : ¬ (s.start ≤ j ∧ j < s.stop) := by omega
        simp [hnone]
      · have hzero : ones (bitFill r.1 s.start s.stop false) s.start s.stop = 0 :=
          ones_eq_zero fun j hj hlt => by simp [bitTest_clear, hj, hlt]
        simp only [hsock, true_or, if_true, Bool.false_eq_true, if_false, false_or]
        split
        · exact ⟨bitTest_clear r.1 s.start s.stop, length_bitFill _ _ _ _, by rw [hzero]; rfl⟩
        · exact ⟨bitTest_clear r.1 s.start s.stop, length_bitFill _ _ _ _, rfl⟩
    obtain ⟨hbits, hlen, hcnt⟩ := ih (finishSock job r s)
    rw [foldl_cons]
    refine ⟨fun j => ?_, hlen.trans hone.2.1, hcnt.trans hone.2.2⟩
    have hcleared : Cleared (s :: rest) j ↔ (s.start ≤ j ∧ j < s.stop) ∨ Cleared rest j := by
      simp [Cleared]
    rw [hbits, hone.1, Bool.and_assoc]
    by_cases hhere : s.start ≤ j ∧ j < s.stop <;> by_cases hrest : Cleared rest j <;>
      simp [hcleared, hhere, hrest]

end Slurm.CoreSync
