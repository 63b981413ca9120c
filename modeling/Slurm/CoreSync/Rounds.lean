import Slurm.CoreSync.Model

/-!
# What the rounds take

All loops over the sockets of a node do the same: they move the starts of sockets, and count a core
for each available core that a start moves past.

* `pass_advance`, `packSockets_advance`: the loops do nothing else.
* `rounds_spec`: the rounds end with all that is needed, where there are enough cores.
* `rounds_level`: no socket gives more than a limit, where the limit leaves enough cores.
-/

namespace Slurm.CoreSync

open List Nat

variable {job : SyncJob} {m : List Bool} {vpus k : Nat}
variable {s : Sock} {h h' : Count} {socks socks' : List Sock}

/-- The cores that some CPUs need. -/
def coresFor (vpus cpus : Nat) : Nat := (cpus + vpus - 1) / vpus

/-- The cores of a socket that its start has passed. -/
def kept (m : List Bool) (k : Nat) (s : Sock) : Nat := ones m (s.stop - k) s.start

/-- The cores that a socket can still give. -/
def left (m : List Bool) (s : Sock) : Nat := if s.avoid = true then 0 else ones m s.start s.stop

/-- The start of a socket of `k` cores lies within it. -/
structure InRange (k : Nat) (s : Sock) : Prop where
  base_le : s.stop - k ≤ s.start
  le_stop : s.start ≤ s.stop

/-- The sockets that a loop makes of some sockets. -/
structure Moved (k : Nat) (s s' : Sock) : Prop where
  stop_eq : s'.stop = s.stop
  avoid_eq : s'.avoid = s.avoid
  inRange : InRange k s → InRange k s'

/-- The loops take cores: as many as they count, and fewer are needed and left afterwards. -/
structure Advance (m : List Bool) (vpus k : Nat) (h : Count) (socks : List Sock) (h' : Count)
    (socks' : List Sock) : Prop where
  moved : List.Forall₂ (Moved k) socks socks'
  kept : (socks'.map (kept m k)).sum + h.coreCnt = (socks.map (kept m k)).sum + h'.coreCnt
  left : (socks'.map (left m)).sum + h'.coreCnt = (socks.map (left m)).sum + h.coreCnt
  need : h'.coreCnt + coresFor vpus h'.cpus = h.coreCnt + coresFor vpus h.cpus
  cpus_le : h'.cpus ≤ h.cpus

theorem Moved.refl (k : Nat) (s : Sock) : Moved k s s := ⟨rfl, rfl, id⟩

theorem Moved.trans {s' s'' : Sock} (h : Moved k s s') (h' : Moved k s' s'') : Moved k s s'' :=
  ⟨h'.stop_eq.trans h.stop_eq, h'.avoid_eq.trans h.avoid_eq, fun hs => h'.inRange (h.inRange hs)⟩

theorem forall₂_trans {α : Type} {R : α → α → Prop} (hR : ∀ x y z, R x y → R y z → R x z)
    {xs ys zs : List α} (h : List.Forall₂ R xs ys) (h' : List.Forall₂ R ys zs) :
    List.Forall₂ R xs zs := by
  induction h generalizing zs with
  | nil => exact h'
  | cons hxy _ ih =>
    cases h' with
    | cons hyz hrest => exact .cons (hR _ _ _ hxy hyz) (ih hrest)

theorem Advance.refl (h : Count) (socks : List Sock) : Advance m vpus k h socks h socks :=
  ⟨List.forall₂_same.mpr fun s _ => Moved.refl k s, rfl, rfl, rfl, le_refl _⟩

theorem Advance.trans {h'' : Count} {socks'' : List Sock} (h₁ : Advance m vpus k h socks h' socks')
    (h₂ : Advance m vpus k h' socks' h'' socks'') : Advance m vpus k h socks h'' socks'' := by
  refine ⟨?_, ?_, ?_, h₂.need.trans h₁.need, h₂.cpus_le.trans h₁.cpus_le⟩
  · exact forall₂_trans (R := Moved k) (fun _ _ _ => Moved.trans) h₁.moved h₂.moved
  · have hkept := h₁.kept
    have hkept' := h₂.kept
    omega
  · have hleft := h₁.left
    have hleft' := h₂.left
    omega

/-- The first socket, and then the others. -/
theorem Advance.cons {h h' h'' : Count} {s s' : Sock} {rest rest' : List Sock}
    (hhead : Advance m vpus k h [s] h' [s']) (hrest : Advance m vpus k h' rest h'' rest') :
    Advance m vpus k h (s :: rest) h'' (s' :: rest') := by
  refine ⟨.cons ?_ hrest.moved, ?_, ?_, hrest.need.trans hhead.need,
    hrest.cpus_le.trans hhead.cpus_le⟩
  · cases hhead.moved
    assumption
  · have hkept := hhead.kept
    have hkept' := hrest.kept
    simp only [map_cons, sum_cons, map_nil, sum_nil] at hkept ⊢
    omega
  · have hleft := hhead.left
    have hleft' := hrest.left
    simp only [map_cons, sum_cons, map_nil, sum_nil] at hleft ⊢
    omega

theorem coresFor_pos {cpus : Nat} (hv : 0 < vpus) (hc : 0 < cpus) : 0 < coresFor vpus cpus :=
  Nat.div_pos (by omega) hv

theorem coresFor_zero (hv : 0 < vpus) : coresFor vpus 0 = 0 :=
  div_eq_of_lt (by omega)

/-- A core serves `vpus` of the CPUs. -/
theorem coresFor_sub {cpus : Nat} (hv : 0 < vpus) (hc : 0 < cpus) :
    coresFor vpus (if cpus < vpus then 0 else cpus - vpus) + 1 = coresFor vpus cpus := by
  split
  · rename_i hlt
    rw [coresFor_zero hv, coresFor, show cpus + vpus - 1 = (cpus - 1) + 1 * vpus by omega,
      add_mul_div_right _ _ hv, div_eq_of_lt (by omega)]
  · rename_i hge
    rw [coresFor, coresFor, ← add_div_right _ hv]
    congr 1
    omega

theorem coresFor_mono {a b : Nat} (h : a ≤ b) : coresFor vpus a ≤ coresFor vpus b :=
  Nat.div_le_div_right (by omega)

/-! ## One core -/

/-- The next core is the first one that is available. -/
theorem seek_spec (m : List Bool) (n start : Nat) :
    start ≤ seek m n start ∧ seek m n start ≤ start + n ∧
      (∀ j, start ≤ j → j < seek m n start → bitTest m j = false) ∧
      (seek m n start < start + n → bitTest m (seek m n start) = true) := by
  induction n generalizing start with
  | zero => exact ⟨le_refl _, le_refl _, fun j hj hlt => absurd hlt (by rw [seek]; omega),
      fun h => absurd h (lt_irrefl _)⟩
  | succ n ih =>
    rw [seek]
    split
    · rename_i hset
      exact ⟨le_refl _, by omega, fun j hj hlt => by omega, fun _ => hset⟩
    · rename_i hclear
      obtain ⟨hle, hlt, hnone, hset⟩ := ih (start + 1)
      refine ⟨by omega, by omega, fun j hj hlt => ?_, fun h => hset (by omega)⟩
      rcases Nat.eq_or_lt_of_le hj with rfl | hj
      · exact Bool.eq_false_iff.mpr hclear
      · exact hnone j hj hlt

/-- A start that moves past cores that are not available. -/
theorem advance_skip (hs : InRange k s) (h : Count) {j : Nat} (hle : s.start ≤ j)
    (hstop : j ≤ s.stop) (hnone : ∀ i, s.start ≤ i → i < j → bitTest m i = false) :
    Advance m vpus k h [s] h [{ s with start := j }] := by
  have hzero : ones m s.start j = 0 := ones_eq_zero hnone
  have hkept := ones_append m hs.base_le hle
  have hleft := ones_append m hle hstop
  have hbase := hs.base_le
  refine ⟨.cons ⟨rfl, rfl, fun _ => ⟨by simp only; omega, hstop⟩⟩ .nil, ?_, ?_, rfl, le_refl _⟩
  · simp [kept]
    omega
  · cases hs : s.avoid <;> simp [left, hs]
    omega

/-- A core that is taken. -/
theorem advance_take (hs : InRange k s) (hv : 0 < vpus) (hc : 0 < h.cpus) (havoid : s.avoid = false)
    {j : Nat} (hle : s.start ≤ j) (hstop : j < s.stop)
    (hnone : ∀ i, s.start ≤ i → i < j → bitTest m i = false) (hset : bitTest m j = true) :
    Advance m vpus k h [s]
      ⟨if h.cpus < vpus then 0 else h.cpus - vpus, h.coreCnt + 1⟩ [{ s with start := j + 1, used := true }] := by
  have hzero : ones m s.start j = 0 := ones_eq_zero hnone
  have hone : ones m j (j + 1) = 1 := by rw [ones_one, hset]; rfl
  have hnext : j ≤ j + 1 := le_succ j
  have hend : j + 1 ≤ s.stop := hstop
  have hkept := ones_append m hs.base_le hle
  have hkept' := ones_append m (hs.base_le.trans hle) hnext
  have hleft := ones_append m hle hstop.le
  have hleft' := ones_append m hnext hend
  have hbase := hs.base_le
  refine ⟨.cons ⟨rfl, rfl, fun _ => ⟨by simp only; omega, hstop⟩⟩ .nil, ?_, ?_, ?_, ?_⟩
  · simp [kept]
    omega
  · simp [left, havoid]
    omega
  · have hneed := coresFor_sub hv hc
    simp only
    omega
  · simp only
    split <;> omega

/-! ## The loops -/

theorem turn_advance (hs : InRange k s) (hv : 0 < vpus) (hc : 0 < h.cpus) :
    Advance m vpus k h [s] (turn m vpus h s).1 [(turn m vpus h s).2] := by
  obtain ⟨hle, hend, hnone, hset⟩ := seek_spec m (s.stop - s.start) s.start
  have hstop := hs.le_stop
  unfold turn
  split
  · exact .refl h [s]
  · rename_i havoid
    split
    · rename_i hnothing
      exact advance_skip hs h hstop (le_refl _) (by rw [← hnothing]; exact hnone)
    · rename_i hfound
      exact advance_take hs hv hc (Bool.eq_false_iff.mpr havoid) hle (by omega) hnone (hset (by omega))

/-- A turn takes a core where one is left. -/
theorem turn_takes {h : Count} {s : Sock} (hleft : 0 < left m s) :
    h.coreCnt < (turn m vpus h s).1.coreCnt := by
  have havoid : s.avoid ≠ true := by
    intro havoid
    simp [left, havoid] at hleft
  unfold turn
  rw [if_neg havoid]
  split
  · rename_i hnothing
    obtain ⟨-, -, hnone, -⟩ := seek_spec m (s.stop - s.start) s.start
    rw [hnothing] at hnone
    rw [left, if_neg havoid, ones_eq_zero hnone] at hleft
    omega
  · simp

theorem turn_coreCnt_le (m : List Bool) (vpus : Nat) (h : Count) (s : Sock) :
    (turn m vpus h s).1.coreCnt ≤ h.coreCnt + 1 := by
  unfold turn
  split
  · exact le_succ _
  · split
    · exact le_succ _
    · exact le_refl _

theorem turn_idle {h : Count} {s : Sock} (hc : 0 < h.cpus) :
    h.coreCnt ≤ (turn m vpus h s).1.coreCnt ∧
      ((turn m vpus h s).1.cpus = 0 → h.coreCnt < (turn m vpus h s).1.coreCnt) := by
  unfold turn
  split
  · exact ⟨le_refl _, fun h' => by simp only at h'; omega⟩
  · split
    · exact ⟨le_refl _, fun h' => by simp only at h'; omega⟩
    · exact ⟨le_succ _, fun _ => lt_succ_self _⟩

theorem pass_advance (hs : ∀ s ∈ socks, InRange k s) (hv : 0 < vpus) :
    Advance m vpus k h socks (pass m vpus h socks).1 (pass m vpus h socks).2 := by
  induction socks generalizing h with
  | nil => exact .refl h []
  | cons s rest ih =>
    rw [pass]
    split
    · exact .refl h (s :: rest)
    · rename_i hc
      exact (turn_advance (hs s mem_cons_self) hv (Nat.pos_of_ne_zero hc)).cons
        (ih fun t ht => hs t (mem_cons_of_mem s ht))

theorem pass_coreCnt {h : Count} {socks : List Sock} :
    h.coreCnt ≤ (pass m vpus h socks).1.coreCnt := by
  induction socks generalizing h with
  | nil => exact le_refl _
  | cons s rest ih =>
    rw [pass]
    split
    · exact le_refl _
    · rename_i hc
      exact (turn_idle (Nat.pos_of_ne_zero hc)).1.trans ih

/-- A round takes a core where one is left. -/
theorem pass_takes {h : Count} {socks : List Sock} (hc : 0 < h.cpus)
    (hleft : 0 < (socks.map (left m)).sum) : h.coreCnt < (pass m vpus h socks).1.coreCnt := by
  induction socks generalizing h with
  | nil => simp at hleft
  | cons s rest ih =>
    rw [pass, if_neg (Nat.pos_iff_ne_zero.mp hc)]
    obtain ⟨hle, hend⟩ := turn_idle (m := m) (s := s) hc
    have hrest := @pass_coreCnt m vpus (turn m vpus h s).1 rest
    rw [map_cons, sum_cons] at hleft
    by_cases hhead : 0 < left m s
    · exact (turn_takes hhead).trans_le hrest
    · by_cases hdone : (turn m vpus h s).1.cpus = 0
      · exact (hend hdone).trans_le hrest
      · exact hle.trans_lt (ih (Nat.pos_of_ne_zero hdone) (by omega))

/-! ## Packing -/

theorem packStep_advance (hcore : job.ntasksPerCore = infinite16) {p : Pack} (hs : InRange k p.sock)
    (hlt : p.sock.start < p.sock.stop) (havoid : p.sock.avoid = false) (hv : 0 < vpus)
    (hc : 0 < p.count.cpus) :
    Advance m vpus k p.count [p.sock] (packStep job m vpus p).count [(packStep job m vpus p).sock] ∧
      (packStep job m vpus p).sock.start = p.sock.start + 1 := by
  have hused : usedCpus job vpus p.tmpCpt = vpus := by
    rw [usedCpus, if_neg (by rw [hcore]; exact fun h => absurd h.1 (by decide))]
  unfold packStep
  split
  · rename_i hset
    rw [hused]
    exact ⟨advance_take hs hv hc havoid (le_refl _) hlt (fun i hi hlt' => by omega) hset, rfl⟩
  · rename_i hclear
    refine ⟨advance_skip hs p.count (le_succ _) hlt fun i hi hlt' => ?_, rfl⟩
    rw [show i = p.sock.start by omega]
    exact Bool.eq_false_iff.mpr hclear

theorem packSocket_advance (hcore : job.ntasksPerCore = infinite16) (hv : 0 < vpus) {n : Nat}
    {p : Pack} (hs : InRange k p.sock) (hn : p.sock.start + n ≤ p.sock.stop)
    (havoid : p.sock.avoid = false) :
    Advance m vpus k p.count [p.sock] (packSocket job m vpus n p).count
      [(packSocket job m vpus n p).sock] := by
  induction n generalizing p with
  | zero => exact .refl _ _
  | succ n ih =>
    rw [packSocket]
    split
    · rename_i hmore
      obtain ⟨hstep, hstart⟩ := packStep_advance (m := m) hcore hs (by omega) havoid hv hmore.2
      have hmoved : Moved k p.sock (packStep job m vpus p).sock := by
        cases hstep.moved
        assumption
      have hstop := hmoved.stop_eq
      exact hstep.trans (ih (hmoved.inRange hs) (by omega) (hmoved.avoid_eq.trans havoid))
    · exact .refl _ _

theorem packSockets_advance (hcore : job.ntasksPerCore = infinite16) (hv : 0 < vpus) {tmpCpt : Nat}
    (hs : ∀ s ∈ socks, InRange k s) (havoid : ∀ s ∈ socks, s.avoid = false) :
    Advance m vpus k h socks (packSockets job m vpus h tmpCpt socks).1
      (packSockets job m vpus h tmpCpt socks).2 := by
  induction socks generalizing h tmpCpt with
  | nil => exact .refl h []
  | cons s rest ih =>
    rw [packSockets]
    split
    · exact .refl h (s :: rest)
    · have hrange := hs s mem_cons_self
      have hstop := hrange.le_stop
      exact (packSocket_advance (m := m) hcore hv (n := s.stop - s.start)
        (p := ⟨h, _, tmpCpt, s⟩) hrange (by simp only; omega) (havoid s mem_cons_self)).cons
          (ih (fun t ht => hs t (mem_cons_of_mem s ht))
            fun t ht => havoid t (mem_cons_of_mem s ht))

/-! ## All rounds -/

theorem Advance.inRange (hadv : Advance m vpus k h socks h' socks')
    (hs : ∀ s ∈ socks, InRange k s) : ∀ s ∈ socks', InRange k s := by
  have hmoved := hadv.moved
  clear hadv
  induction hmoved with
  | nil => exact fun s hs' => absurd hs' not_mem_nil
  | cons hhead _ ih =>
    rw [forall_mem_cons] at hs ⊢
    exact ⟨hhead.inRange hs.1, ih hs.2⟩

theorem Advance.cpus_lt (hadv : Advance m vpus k h socks h' socks')
    (hmore : h.coreCnt < h'.coreCnt) : h'.cpus < h.cpus := by
  by_contra hnot
  have hmono := @coresFor_mono vpus _ _ (Nat.le_of_not_lt hnot)
  have hneed := hadv.need
  omega

theorem rounds_advance (hv : 0 < vpus) {fuel : Nat} (hs : ∀ s ∈ socks, InRange k s)
    (hend : cyclicRounds job m vpus fuel h socks = .ended h' socks') :
    Advance m vpus k h socks h' socks' := by
  induction fuel generalizing h socks with
  | zero =>
    rw [cyclicRounds] at hend
    split at hend
    · cases hend
      exact .refl _ _
    · cases hend
  | succ fuel ih =>
    have hpass := pass_advance (m := m) (h := h) hs hv
    rw [cyclicRounds] at hend
    split at hend
    · cases hend
      exact .refl _ _
    · split at hend
      · exact hpass.trans (ih (hpass.inRange hs) hend)
      · split at hend
        · cases hend
          exact hpass
        · cases hend

/-- The rounds end with all that is needed, where there are enough cores. -/
theorem rounds_spec (hv : 0 < vpus) {fuel : Nat} {h : Count} {socks : List Sock}
    (hs : ∀ s ∈ socks, InRange k s) (hfuel : h.cpus ≤ fuel)
    (henough : coresFor vpus h.cpus ≤ (socks.map (left m)).sum) :
    ∃ h' socks', cyclicRounds job m vpus fuel h socks = .ended h' socks' ∧ h'.cpus = 0 ∧
      Advance m vpus k h socks h' socks' := by
  induction fuel generalizing h socks with
  | zero =>
    have hzero : h.cpus = 0 := Nat.le_zero.mp hfuel
    exact ⟨h, socks, by rw [cyclicRounds, if_pos hzero], hzero, .refl h socks⟩
  | succ fuel ih =>
    by_cases hzero : h.cpus = 0
    · exact ⟨h, socks, by rw [cyclicRounds, if_pos hzero], hzero, .refl h socks⟩
    · have hc := Nat.pos_of_ne_zero hzero
      have hpass := pass_advance (m := m) (h := h) hs hv
      have hmore := @pass_takes m vpus h socks hc
        ((coresFor_pos hv hc).trans_le henough)
      have hless := hpass.cpus_lt hmore
      have hleft := hpass.left
      have hneed := hpass.need
      obtain ⟨h', socks', heq, hdone, hadv⟩ := @ih (pass m vpus h socks).1
        (pass m vpus h socks).2 (hpass.inRange hs) (by omega) (by omega)
      refine ⟨h', socks', ?_, hdone, hpass.trans hadv⟩
      rw [cyclicRounds, if_neg hzero, if_pos (Nat.ne_of_lt hless)]
      exact heq

/-! ## Levels -/

/-- All that a socket can give from its first core on. -/
def cap (m : List Bool) (k : Nat) (s : Sock) : Nat :=
  if s.avoid = true then 0 else ones m (s.stop - k) s.stop

theorem cap_eq (hs : InRange k s) (havoid : s.avoid = false) :
    cap m k s = kept m k s + left m s := by
  rw [cap, kept, left, if_neg (by simp [havoid]), if_neg (by simp [havoid])]
  exact (ones_append m hs.base_le hs.le_stop).symm

theorem cap_moved {s' : Sock} (h : Moved k s s') : cap m k s' = cap m k s := by
  rw [cap, cap, h.stop_eq, h.avoid_eq]

/-- The turn of a socket at a level. -/
theorem turn_level (hs : InRange k s) (hv : 0 < vpus) (hc : 0 < h.cpus) {r : Nat}
    (hlevel : kept m k s = min r (cap m k s)) :
    kept m k (turn m vpus h s).2 = min (r + 1) (cap m k (turn m vpus h s).2) := by
  have hadv := turn_advance (m := m) (h := h) hs hv hc
  have hmoved : Moved k s (turn m vpus h s).2 := by
    cases hadv.moved
    assumption
  have hrange := hmoved.inRange hs
  have hcap := cap_moved (m := m) hmoved
  have hkept := hadv.kept
  simp only [map_cons, map_nil, sum_cons, sum_nil] at hkept
  cases havoid : s.avoid with
  | true =>
    have hsame : turn m vpus h s = (h, s) := by
      unfold turn
      rw [if_pos havoid]
    have hzero : cap m k s = 0 := by
      rw [cap, if_pos havoid]
    rw [hsame]
    simp only
    omega
  | false =>
    have hcap_eq := cap_eq (m := m) hs havoid
    have hcap_eq' := cap_eq (m := m) hrange (hmoved.avoid_eq.trans havoid)
    by_cases hleft : 0 < left m s
    · have hmore := @turn_takes m vpus h s hleft
      have hle := turn_coreCnt_le m vpus h s
      omega
    · have hmono := (@turn_idle m vpus h s hc).1
      have hleft' := hadv.left
      simp only [map_cons, map_nil, sum_cons, sum_nil] at hleft'
      omega

/-- A round at a level: the next level, or less where it ends early. -/
theorem pass_level {h : Count} {socks : List Sock} (hs : ∀ s ∈ socks, InRange k s) (hv : 0 < vpus)
    {r : Nat} (hlevel : ∀ s ∈ socks, kept m k s = min r (cap m k s)) :
    (∀ s ∈ (pass m vpus h socks).2, kept m k s ≤ min (r + 1) (cap m k s)) ∧
      ((pass m vpus h socks).1.cpus ≠ 0 →
        ∀ s ∈ (pass m vpus h socks).2, kept m k s = min (r + 1) (cap m k s)) := by
  induction socks generalizing h with
  | nil => simp [pass]
  | cons s rest ih =>
    have hall := hlevel
    rw [forall_mem_cons] at hs hlevel
    rw [pass]
    split
    · rename_i hzero
      refine ⟨fun t ht => ?_, fun hmore => absurd hzero hmore⟩
      have hat := hall t ht
      omega
    · rename_i hc
      have hhead := turn_level (m := m) (h := h) hs.1 hv (Nat.pos_of_ne_zero hc) hlevel.1
      obtain ⟨hle, heq⟩ := @ih (turn m vpus h s).1 hs.2 hlevel.2
      exact ⟨List.forall_mem_cons.mpr ⟨hhead.le, hle⟩,
        fun hmore => List.forall_mem_cons.mpr ⟨hhead, heq hmore⟩⟩

theorem Advance.sum_cap (hadv : Advance m vpus k h socks h' socks') (f : Nat → Nat) :
    (socks'.map fun s => f (cap m k s)).sum = (socks.map fun s => f (cap m k s)).sum := by
  have hmoved := hadv.moved
  clear hadv
  induction hmoved with
  | nil => rfl
  | cons hhead _ ih =>
    simp only [map_cons, sum_cons]
    rw [ih, cap_moved hhead]

/-- Where a limit for each socket leaves enough cores, no socket gives more: before a round above
the limit everything has been taken. -/
theorem rounds_level (hv : 0 < vpus) {limit fuel r : Nat} {h : Count} {socks : List Sock}
    (hs : ∀ s ∈ socks, InRange k s) (hr : r ≤ limit)
    (hlevel : ∀ s ∈ socks, kept m k s = min r (cap m k s))
    (hcount : (socks.map (kept m k)).sum = h.coreCnt)
    (henough : h.coreCnt + coresFor vpus h.cpus ≤ (socks.map fun s => min limit (cap m k s)).sum)
    {h' : Count} {socks' : List Sock}
    (hend : cyclicRounds job m vpus fuel h socks = .ended h' socks') (hdone : h'.cpus = 0) :
    ∀ s ∈ socks', kept m k s ≤ limit := by
  have hbelow : ∀ s ∈ socks, kept m k s ≤ limit := fun s hs' => by
    have hat := hlevel s hs'
    omega
  induction fuel generalizing r h socks with
  | zero =>
    rw [cyclicRounds] at hend
    split at hend
    · cases hend
      exact hbelow
    · cases hend
  | succ fuel ih =>
    rw [cyclicRounds] at hend
    split at hend
    · cases hend
      exact hbelow
    · rename_i hc
      have hneed := coresFor_pos hv (Nat.pos_of_ne_zero hc)
      have hrl : r < limit := by
        refine Nat.lt_of_le_of_ne hr fun heq => ?_
        have hsame : (socks.map fun s => min limit (cap m k s)).sum = (socks.map (kept m k)).sum :=
          congrArg List.sum (map_congr_left fun s hs' => by rw [hlevel s hs', heq])
        omega
      have hpass := pass_advance (m := m) (h := h) hs hv
      obtain ⟨hle, heq⟩ := pass_level (m := m) (h := h) hs hv hlevel
      have hunder : ∀ s ∈ (pass m vpus h socks).2, kept m k s ≤ limit := fun s hs' => by
        have hat := hle s hs'
        omega
      split at hend
      · by_cases hzero : (pass m vpus h socks).1.cpus = 0
        · have hdone' : cyclicRounds job m vpus fuel (pass m vpus h socks).1 (pass m vpus h socks).2 =
              .ended (pass m vpus h socks).1 (pass m vpus h socks).2 := by
            cases fuel <;> rw [cyclicRounds, if_pos hzero]
          rw [hdone'] at hend
          cases hend
          exact hunder
        · have hkept := hpass.kept
          have hneed' := hpass.need
          have hsum := hpass.sum_cap (min limit)
          exact @ih (r + 1) (pass m vpus h socks).1 (pass m vpus h socks).2 (hpass.inRange hs) hrl
            (heq hzero) (by omega) (by omega) hend hunder
      · split at hend
        · cases hend
          exact hunder
        · cases hend

end Slurm.CoreSync
