import Slurm.RateLimit.Model

/-!
# The rate limiter's contract

`RateLimitContract` says what a run of the limiter keeps: one slot for each user,
a full bucket at most, a bound on the requests admitted in a window of time,
answers that depend on the user's own requests only, and exact token arithmetic.

Everything is derived from `run_refines`: while the word is wide enough, every
user's bucket and answers are those of the exact machine run on that user's own
ticks.  `NoOverflow` states "wide enough" on the request times alone.

* `rateLimitContract_iff`: the contract holds exactly when no user idles for so
  long that the refill leaves 32 bits.
* `rateLimitContract_fails`: it does not hold in general.
-/

namespace Slurm.RateLimit

open List

open Lib.TokenBucket (Bucket)

variable {cfg : Config}

/-- The limiter counts this message. -/
def limited (cfg : Config) (msg : Msg) : Bool :=
  !msg.rlExempt && !validateSlurmUser cfg msg.authUid

/-- The limiter counts this message for this user. -/
def ofUser (cfg : Config) (uid : Nat) (msg : Msg) : Bool :=
  limited cfg msg && msg.authUid == uid

/-- The refill periods of a user's counted messages. -/
def ticksOf (cfg : Config) (uid : Nat) (msgs : List Msg) : List Nat :=
  (msgs.filter (ofUser cfg uid)).map fun msg => msg.now / cfg.refillPeriod

/-- The users of the counted messages. -/
def users (cfg : Config) (msgs : List Msg) : Finset Nat :=
  ((msgs.filter (limited cfg)).map Msg.authUid).toFinset

/-- A clock that never goes back. -/
def ClockMonotone (msgs : List Msg) : Prop := msgs.Pairwise fun m m' => m.now ≤ m'.now

instance (msgs : List Msg) : Decidable (ClockMonotone msgs) :=
  inferInstanceAs (Decidable (msgs.Pairwise fun m m' => m.now ≤ m'.now))

/-- The answers to the messages of one user. -/
def answersOf (cfg : Config) (uid : Nat) (msgs : List Msg) : List (Msg × Bool) :=
  (answers cfg msgs).filter fun a => ofUser cfg uid a.1

/-- An admitted message of the window from `t₁` to `t₂`. -/
def admittedBetween (t₁ t₂ : Nat) (a : Msg × Bool) : Bool :=
  !a.2 && (decide (t₁ ≤ a.1.now) && decide (a.1.now ≤ t₂))

/-- What the limiter promises over a run. -/
structure RateLimitContract (cfg : Config) (msgs : List Msg) : Prop where
  /-- From the first counted message on, a user has the same slot and no other. -/
  one_slot : ∀ uid, (∃ msg ∈ msgs, ofUser cfg uid msg = true) →
    ∃ i, ∀ before after, before ++ after = msgs →
      (∃ msg ∈ before, ofUser cfg uid msg = true) →
        ∀ j, ((run cfg before).slot j).uid = uid ↔ j = i
  /-- No slot ever holds more than a full bucket. -/
  tokens_le : ∀ before after, before ++ after = msgs →
    ∀ i, ((run cfg before).slot i).tokens ≤ cfg.bucketSize
  /-- A window over `k` period boundaries admits `bucket_size + k * refill_rate`
  messages of one user at most. -/
  window : ∀ uid t₁ t₂, (answersOf cfg uid msgs).countP (admittedBetween t₁ t₂)
    ≤ cfg.bucketSize + (t₂ / cfg.refillPeriod - t₁ / cfg.refillPeriod) * cfg.refillRate
  /-- A user's answers are those of a run in which nobody else takes part. -/
  own_requests : ∀ uid,
    answersOf cfg uid msgs = answers cfg (msgs.filter (ofUser cfg uid))
  /-- The sum of a refill fits in the `uint32_t` that stores it. -/
  no_wrap : ∀ before msg after, before ++ msg :: after = msgs → limited cfg msg = true →
    ∀ i, ((run cfg before).slot i).uid = msg.authUid →
      ((run cfg before).slot i).tokens
        + (msg.now / cfg.refillPeriod - ((run cfg before).slot i).lastUpdate) * cfg.refillRate
        < 2 ^ 32

/-- For every user the exact token sums fit in 32 bits. -/
def NoOverflow (cfg : Config) (msgs : List Msg) : Prop :=
  ∀ uid, Lib.TokenBucket.Fits cfg.bucketSize cfg.refillRate (2 ^ 32) none
    (ticksOf cfg uid msgs)

/-! ## Messages, one after the other -/

theorem ofUser_authUid {msg : Msg} (h : limited cfg msg = true) :
    ofUser cfg msg.authUid msg = true := by
  simp [ofUser, h]

theorem authUid_ne_zero {msg : Msg} (h : limited cfg msg = true) : msg.authUid ≠ 0 := by
  intro h0
  simp [limited, validateSlurmUser, h0] at h

theorem limited_of_ofUser {uid : Nat} {msg : Msg} (h : ofUser cfg uid msg = true) :
    limited cfg msg = true ∧ msg.authUid = uid := by
  simpa [ofUser] using h

theorem ticksOf_snoc (uid : Nat) (msgs : List Msg) (msg : Msg) :
    ticksOf cfg uid (msgs ++ [msg])
      = if ofUser cfg uid msg then ticksOf cfg uid msgs ++ [msg.now / cfg.refillPeriod]
        else ticksOf cfg uid msgs := by
  unfold ticksOf
  rw [filter_append]
  split
  · rename_i h
    simp [h]
  · rename_i h
    simp [h]

theorem answersOf_snoc (uid : Nat) (msgs : List Msg) (msg : Msg) :
    answersOf cfg uid (msgs ++ [msg])
      = if ofUser cfg uid msg
        then answersOf cfg uid msgs ++ [(msg, (rateLimitExceeded (run cfg msgs) msg).1)]
        else answersOf cfg uid msgs := by
  unfold answersOf
  rw [answers_snoc, filter_append]
  split
  · rename_i h
    simp [h]
  · rename_i h
    simp [h]

theorem clockMonotone_snoc {msgs : List Msg} {msg : Msg} (h : ClockMonotone (msgs ++ [msg])) :
    ClockMonotone msgs ∧ ∀ m ∈ msgs, m.now ≤ msg.now := by
  unfold ClockMonotone at h
  rw [pairwise_append] at h
  exact ⟨h.1, fun m hm => h.2.2 m hm msg (List.mem_singleton.mpr rfl)⟩

theorem users_mono {msgs msgs' : List Msg} (h : msgs ⊆ msgs') :
    users cfg msgs ⊆ users cfg msgs' := by
  intro uid huid
  simp only [users, mem_toFinset, mem_map, mem_filter] at huid ⊢
  obtain ⟨msg, ⟨hmem, hlim⟩, heq⟩ := huid
  exact ⟨msg, ⟨h hmem, hlim⟩, heq⟩

theorem mem_users {msgs : List Msg} {msg : Msg} (hmem : msg ∈ msgs)
    (hlim : limited cfg msg = true) : msg.authUid ∈ users cfg msgs := by
  simp only [users, mem_toFinset, mem_map, mem_filter]
  exact ⟨msg, ⟨hmem, hlim⟩, rfl⟩

/-! ## The run invariant -/

/-- The limiter after `msgs`. -/
structure RunInv (msgs : List Msg) (s : Limiter cfg) (t : Table cfg) : Prop where
  enabled : s.rateLimitEnabled = true
  table : s.userBuckets = some t
  inv : TableInv t
  stored : ∀ i, (t i).uid ≠ 0 → (t i).uid ∈ users cfg msgs
  clock : ∀ i now, (∀ msg ∈ msgs, msg.now ≤ now) → (t i).lastUpdate ≤ now / cfg.refillPeriod

theorem RunInv.slot_eq {msgs : List Msg} {s : Limiter cfg} {t : Table cfg}
    (h : RunInv msgs s t) (i : Fin cfg.tableSize) : s.slot i = t i := by
  simp [Limiter.slot, h.table]

/-- A message that the limiter does not count changes nothing. -/
theorem rateLimitExceeded_exempt {s : Limiter cfg} {msg : Msg}
    (h : limited cfg msg = false) : rateLimitExceeded s msg = (false, s) := by
  unfold rateLimitExceeded
  rcases Bool.eq_false_or_eq_true msg.rlExempt with hx | hx
  · simp [hx]
  · have hv : validateSlurmUser cfg msg.authUid = true := by
      simpa [limited, hx] using h
    simp [hx, hv]

/-- A counted message goes to the table. -/
theorem RunInv.rateLimitExceeded_eq {msgs : List Msg} {s : Limiter cfg} {t : Table cfg}
    (hrun : RunInv msgs s t) {msg : Msg} (h : limited cfg msg = true) :
    rateLimitExceeded s msg = ((serve t msg.authUid msg.now).1,
      { s with userBuckets := some (serve t msg.authUid msg.now).2 }) := by
  have hx : msg.rlExempt = false ∧ validateSlurmUser cfg msg.authUid = false := by
    simpa [limited] using h
  simp [rateLimitExceeded, hrun.enabled, hrun.table, hx.1, hx.2]

/-- With fewer users than slots some slot is vacant. -/
theorem RunInv.exists_vacant {msgs : List Msg} {s : Limiter cfg} {t : Table cfg}
    (hrun : RunInv msgs s t) (husers : (users cfg msgs).card < cfg.tableSize) :
    ∃ i, (t i).uid = 0 := by
  by_contra hfull
  have hne : ∀ i, (t i).uid ≠ 0 := fun i h0 => hfull ⟨i, h0⟩
  have hcard : (Finset.univ : Finset (Fin cfg.tableSize)).card ≤ (users cfg msgs).card :=
    Finset.card_le_card_of_injOn (fun i => (t i).uid) (fun i _ => hrun.stored i (hne i))
      fun i _ j _ hij => hrun.inv.owner_unique (hne i) hij
  rw [Finset.card_univ, Fintype.card_fin] at hcard
  omega

/-- The probe of a counted message finds a slot. -/
theorem RunInv.exists_findSlot {msgs : List Msg} {s : Limiter cfg} {t : Table cfg}
    (hrun : RunInv msgs s t) (husers : (users cfg msgs).card < cfg.tableSize) (uid : Nat) :
    ∃ i, findSlot t uid = some i := by
  obtain ⟨j, hj⟩ := hrun.exists_vacant husers
  exact Option.isSome_iff_exists.mp (findSlot_isSome uid hj)

theorem runInv_init :
    RunInv [] (run cfg []) fun _ : Fin cfg.tableSize => UserBucket.vacant where
  enabled := rfl
  table := rfl
  inv := TableInv.vacant
  stored := fun _ h => absurd rfl h
  clock := fun _ _ _ => Nat.zero_le _

/-- A message that is not counted keeps the invariant, and the table. -/
theorem RunInv.snoc_exempt {msgs : List Msg} {s : Limiter cfg} {t : Table cfg}
    (hrun : RunInv msgs s t) {msg : Msg} (h : limited cfg msg = false) :
    RunInv (msgs ++ [msg]) (rateLimitExceeded s msg).2 t where
  enabled := by rw [rateLimitExceeded_exempt h]; exact hrun.enabled
  table := by rw [rateLimitExceeded_exempt h]; exact hrun.table
  inv := hrun.inv
  stored := fun i hi => users_mono (subset_append_left _ _) (hrun.stored i hi)
  clock := fun i now hnow =>
    hrun.clock i now fun m hm => hnow m (mem_append_left _ hm)

/-- A counted message keeps the invariant. -/
theorem RunInv.snoc_limited {msgs : List Msg} {s : Limiter cfg} {t : Table cfg}
    (hrun : RunInv msgs s t) {msg : Msg} (h : limited cfg msg = true)
    {i : Fin cfg.tableSize} (hfind : findSlot t msg.authUid = some i) :
    RunInv (msgs ++ [msg]) (rateLimitExceeded s msg).2 (serve t msg.authUid msg.now).2 := by
  obtain ⟨b, hserve, hb, htok, hlast⟩ := serve_eq_update hrun.inv hfind msg.now
  rw [hrun.rateLimitExceeded_eq h]
  refine ⟨hrun.enabled, rfl, ?_, ?_, ?_⟩ <;> rw [hserve]
  · exact tableInv_update hrun.inv hfind hb htok
  · intro j hj
    by_cases hji : j = i
    · subst hji
      rw [Function.update_self, hb]
      exact mem_users (mem_append_right _ (List.mem_singleton.mpr rfl)) h
    · rw [Function.update_of_ne hji] at hj ⊢
      exact users_mono (subset_append_left _ _) (hrun.stored j hj)
  · intro j now hnow
    by_cases hji : j = i
    · subst hji
      rw [Function.update_self, hlast]
      exact Nat.div_le_div_right (hnow msg (mem_append_right _ (List.mem_singleton.mpr rfl)))
    · rw [Function.update_of_ne hji]
      exact hrun.clock j now fun m hm => hnow m (mem_append_left _ hm)

/-- The invariant holds after every run with fewer users than slots. -/
theorem runInv (msgs : List Msg) (husers : (users cfg msgs).card < cfg.tableSize) :
    ∃ t, RunInv msgs (run cfg msgs) t := by
  induction msgs using List.reverseRecOn with
  | nil => exact ⟨_, runInv_init⟩
  | append_singleton msgs msg ih =>
    have husers' : (users cfg msgs).card < cfg.tableSize :=
      Nat.lt_of_le_of_lt (Finset.card_le_card (users_mono (subset_append_left _ _))) husers
    obtain ⟨t, hrun⟩ := ih husers'
    rw [run_snoc]
    rcases Bool.eq_false_or_eq_true (limited cfg msg) with h | h
    · obtain ⟨i, hfind⟩ := hrun.exists_findSlot husers' msg.authUid
      exact ⟨_, hrun.snoc_limited h hfind⟩
    · exact ⟨_, hrun.snoc_exempt h⟩

/-! ## Slots -/

theorem users_card_lt_left {msgs rest : List Msg}
    (husers : (users cfg (msgs ++ rest)).card < cfg.tableSize) :
    (users cfg msgs).card < cfg.tableSize :=
  Nat.lt_of_le_of_lt (Finset.card_le_card (users_mono (subset_append_left _ _))) husers

/-- One message leaves an occupied slot to its user. -/
theorem slot_uid_step {msgs : List Msg} (husers : (users cfg msgs).card < cfg.tableSize)
    (msg : Msg) {j : Fin cfg.tableSize} (hj : ((run cfg msgs).slot j).uid ≠ 0) :
    ((run cfg (msgs ++ [msg])).slot j).uid = ((run cfg msgs).slot j).uid := by
  obtain ⟨t, hrun⟩ := runInv msgs husers
  rw [hrun.slot_eq] at hj ⊢
  rw [run_snoc]
  rcases Bool.eq_false_or_eq_true (limited cfg msg) with h | h
  · obtain ⟨i, hfind⟩ := hrun.exists_findSlot husers msg.authUid
    obtain ⟨b, hserve, hb, -, -⟩ := serve_eq_update hrun.inv hfind msg.now
    rw [(hrun.snoc_limited h hfind).slot_eq, hserve]
    by_cases hji : j = i
    · subst hji
      rw [Function.update_self, hb, (findSlot_uid hfind).resolve_left hj]
    · rw [Function.update_of_ne hji]
  · rw [rateLimitExceeded_exempt h, hrun.slot_eq]

/-- An occupied slot stays with its user for ever. -/
theorem slot_uid_run {msgs : List Msg} (rest : List Msg)
    (husers : (users cfg (msgs ++ rest)).card < cfg.tableSize) {j : Fin cfg.tableSize}
    (hj : ((run cfg msgs).slot j).uid ≠ 0) :
    ((run cfg (msgs ++ rest)).slot j).uid = ((run cfg msgs).slot j).uid := by
  induction rest using List.reverseRecOn with
  | nil => rw [append_nil]
  | append_singleton rest msg ih =>
    rw [← append_assoc] at husers ⊢
    have hprev := ih (users_card_lt_left husers)
    rw [slot_uid_step (users_card_lt_left husers) msg (by rw [hprev]; exact hj), hprev]

/-- A user who was counted has a slot. -/
theorem exists_owner {msgs : List Msg} (husers : (users cfg msgs).card < cfg.tableSize)
    {uid : Nat} (h : ∃ msg ∈ msgs, ofUser cfg uid msg = true) :
    ∃ i, ((run cfg msgs).slot i).uid = uid := by
  obtain ⟨msg, hmem, hof⟩ := h
  obtain ⟨hlim, huid⟩ := limited_of_ofUser hof
  obtain ⟨before, rest, rfl⟩ := append_of_mem hmem
  rw [append_cons] at husers ⊢
  have husers' := users_card_lt_left (users_card_lt_left husers)
  obtain ⟨t, hrun⟩ := runInv before husers'
  obtain ⟨i, hfind⟩ := hrun.exists_findSlot husers' msg.authUid
  obtain ⟨b, hserve, hb, -, -⟩ := serve_eq_update hrun.inv hfind msg.now
  have hi : ((run cfg (before ++ [msg])).slot i).uid = uid := by
    rw [run_snoc, (hrun.snoc_limited hlim hfind).slot_eq, hserve, Function.update_self, hb, huid]
  have hne : uid ≠ 0 := by
    rw [← huid]
    exact authUid_ne_zero hlim
  exact ⟨i, by rw [slot_uid_run rest husers (by rw [hi]; exact hne), hi]⟩

theorem owner_unique {msgs : List Msg} (husers : (users cfg msgs).card < cfg.tableSize)
    {i j : Fin cfg.tableSize} (hi : ((run cfg msgs).slot i).uid ≠ 0)
    (hij : ((run cfg msgs).slot i).uid = ((run cfg msgs).slot j).uid) : i = j := by
  obtain ⟨t, hrun⟩ := runInv msgs husers
  rw [hrun.slot_eq] at hi hij
  rw [hrun.slot_eq] at hij
  exact hrun.inv.owner_unique hi hij

theorem one_slot {msgs : List Msg} (husers : (users cfg msgs).card < cfg.tableSize)
    (uid : Nat) (h : ∃ msg ∈ msgs, ofUser cfg uid msg = true) :
    ∃ i, ∀ before after, before ++ after = msgs →
      (∃ msg ∈ before, ofUser cfg uid msg = true) →
        ∀ j, ((run cfg before).slot j).uid = uid ↔ j = i := by
  have hne : uid ≠ 0 := by
    obtain ⟨msg, -, hof⟩ := h
    obtain ⟨hlim, huid⟩ := limited_of_ofUser hof
    rw [← huid]
    exact authUid_ne_zero hlim
  obtain ⟨i, hi⟩ := exists_owner husers h
  refine ⟨i, fun before after happ hbefore j => ?_⟩
  subst happ
  have hlate : ∀ k, ((run cfg before).slot k).uid = uid → k = i := by
    intro k hk
    have hkeep := slot_uid_run after husers (j := k) (by rw [hk]; exact hne)
    rw [hk] at hkeep
    exact owner_unique husers (by rw [hkeep]; exact hne) (by rw [hkeep, hi])
  obtain ⟨k, hk⟩ := exists_owner (users_card_lt_left husers) hbefore
  refine ⟨hlate j, fun hji => ?_⟩
  rw [hji, ← hlate k hk, hk]

theorem slot_tokens_le {msgs : List Msg} (husers : (users cfg msgs).card < cfg.tableSize)
    (i : Fin cfg.tableSize) : ((run cfg msgs).slot i).tokens ≤ cfg.bucketSize := by
  obtain ⟨t, hrun⟩ := runInv msgs husers
  rw [hrun.slot_eq]
  exact hrun.inv.tokens_le i

/-! ## Refinement of the exact machine -/

/-- The bucket of a user, in the limiter. -/
def Limiter.bucketOf (s : Limiter cfg) (uid : Nat) : Option Bucket :=
  match s.userBuckets with
  | none => none
  | some t => RateLimit.bucketOf t uid

theorem RunInv.bucketOf_eq {msgs : List Msg} {s : Limiter cfg} {t : Table cfg}
    (h : RunInv msgs s t) (uid : Nat) : s.bucketOf uid = RateLimit.bucketOf t uid := by
  simp [Limiter.bucketOf, h.table]

/-- The sum that a counted message stores fits, when the message's user already
has a bucket. -/
def SumFits (s : Limiter cfg) (msg : Msg) : Prop :=
  ∀ c ∈ s.bucketOf msg.authUid,
    Lib.TokenBucket.filled cfg.refillRate c (msg.now / cfg.refillPeriod) < 2 ^ 32

/-- One message, against the exact machine. -/
theorem step_refines {msgs : List Msg} {msg : Msg} (hclock : ClockMonotone (msgs ++ [msg]))
    (husers : (users cfg (msgs ++ [msg])).card < cfg.tableSize)
    (hlim : limited cfg msg = true) (hfits : SumFits (run cfg msgs) msg) :
    (rateLimitExceeded (run cfg msgs) msg).1 = !(Lib.TokenBucket.serve cfg.bucketSize
        cfg.refillRate ((run cfg msgs).bucketOf msg.authUid) (msg.now / cfg.refillPeriod)).1 ∧
      (run cfg (msgs ++ [msg])).bucketOf msg.authUid = some (Lib.TokenBucket.serve
        cfg.bucketSize cfg.refillRate ((run cfg msgs).bucketOf msg.authUid)
        (msg.now / cfg.refillPeriod)).2 := by
  obtain ⟨t, hrun⟩ := runInv msgs (users_card_lt_left husers)
  obtain ⟨i, hfind⟩ := hrun.exists_findSlot (users_card_lt_left husers) msg.authUid
  unfold SumFits at hfits
  rw [hrun.bucketOf_eq] at hfits ⊢
  rw [run_snoc, (hrun.snoc_limited hlim hfind).bucketOf_eq, hrun.rateLimitExceeded_eq hlim]
  exact serve_own hrun.inv (authUid_ne_zero hlim) hfind
    (hrun.clock i _ (clockMonotone_snoc hclock).2) hfits

/-- One message moves no other user's bucket. -/
theorem step_bucketOf_of_ne {msgs : List Msg} {msg : Msg}
    (husers : (users cfg (msgs ++ [msg])).card < cfg.tableSize) {uid : Nat} (huid : uid ≠ 0)
    (h : ofUser cfg uid msg = false) :
    (run cfg (msgs ++ [msg])).bucketOf uid = (run cfg msgs).bucketOf uid := by
  obtain ⟨t, hrun⟩ := runInv msgs (users_card_lt_left husers)
  rw [run_snoc, hrun.bucketOf_eq]
  rcases Bool.eq_false_or_eq_true (limited cfg msg) with hlim | hlim
  · obtain ⟨i, hfind⟩ := hrun.exists_findSlot (users_card_lt_left husers) msg.authUid
    rw [(hrun.snoc_limited hlim hfind).bucketOf_eq]
    refine serve_other hrun.inv huid (fun heq => ?_) hfind
    rw [heq, ofUser_authUid hlim] at h
    exact Bool.noConfusion h
  · rw [(hrun.snoc_exempt hlim).bucketOf_eq]

/-- While the exact sums fit, a user's bucket and answers are those of the exact
machine on the user's own ticks. -/
theorem run_refines (msgs : List Msg) (hclock : ClockMonotone msgs)
    (husers : (users cfg msgs).card < cfg.tableSize) (hfits : NoOverflow cfg msgs)
    (uid : Nat) (huid : uid ≠ 0) :
    (run cfg msgs).bucketOf uid
        = Lib.TokenBucket.after cfg.bucketSize cfg.refillRate none (ticksOf cfg uid msgs) ∧
      (answersOf cfg uid msgs).map (fun a => (a.1.now / cfg.refillPeriod, !a.2))
        = Lib.TokenBucket.decisions cfg.bucketSize cfg.refillRate none
            (ticksOf cfg uid msgs) := by
  induction msgs using List.reverseRecOn with
  | nil => exact ⟨bucketOf_vacant huid, rfl⟩
  | append_singleton msgs msg ih =>
    have hfits' : NoOverflow cfg msgs := by
      intro v
      have hv := hfits v
      rw [ticksOf_snoc] at hv
      split at hv
      · exact (Lib.TokenBucket.fits_snoc _ _ _).mp hv |>.1
      · exact hv
    obtain ⟨hbucket, hanswers⟩ :=
      ih (clockMonotone_snoc hclock).1 (users_card_lt_left husers) hfits'
    rw [ticksOf_snoc, answersOf_snoc]
    rcases Bool.eq_false_or_eq_true (ofUser cfg uid msg) with hof | hof
    · obtain ⟨hlim, rfl⟩ := limited_of_ofUser hof
      have hsum : SumFits (run cfg msgs) msg := by
        have hv := hfits msg.authUid
        rw [ticksOf_snoc, if_pos hof, Lib.TokenBucket.fits_snoc] at hv
        intro c hc
        rw [hbucket] at hc
        exact hv.2 c hc
      obtain ⟨hans, hafter⟩ := step_refines hclock husers hlim hsum
      rw [if_pos hof, if_pos hof, Lib.TokenBucket.after_snoc, Lib.TokenBucket.decisions_snoc,
        map_append, hanswers, hafter, ← hbucket]
      refine ⟨rfl, ?_⟩
      simp [hans]
    · rw [if_neg (by simp [hof]), if_neg (by simp [hof]), step_bucketOf_of_ne husers huid hof]
      exact ⟨hbucket, hanswers⟩

/-! ## The contract -/

theorem map_fst_answersOf (uid : Nat) (msgs : List Msg) :
    (answersOf cfg uid msgs).map Prod.fst = msgs.filter (ofUser cfg uid) := by
  induction msgs using List.reverseRecOn with
  | nil => rfl
  | append_singleton msgs msg ih =>
    rw [answersOf_snoc, filter_append]
    split
    · rename_i h
      simp [ih, h]
    · rename_i h
      simp [ih, h]

/-- In a run of one user, all the answers are that user's. -/
theorem answersOf_filter (uid : Nat) (msgs : List Msg) :
    answersOf cfg uid (msgs.filter (ofUser cfg uid))
      = answers cfg (msgs.filter (ofUser cfg uid)) := by
  induction msgs using List.reverseRecOn with
  | nil => rfl
  | append_singleton msgs msg ih =>
    rw [filter_append]
    rcases Bool.eq_false_or_eq_true (ofUser cfg uid msg) with h | h
    · rw [filter_cons_of_pos h, filter_nil, answersOf_snoc, if_pos h, ih, answers_snoc]
    · rw [filter_cons_of_neg (by simp [h]), filter_nil, append_nil, ih]

theorem ticksOf_filter (uid v : Nat) (msgs : List Msg) :
    ticksOf cfg v (msgs.filter (ofUser cfg uid))
      = if v = uid then ticksOf cfg uid msgs else [] := by
  unfold ticksOf
  rw [filter_filter]
  split
  · rename_i h
    subst h
    simp
  · rename_i h
    rw [map_eq_nil_iff, filter_eq_nil_iff]
    intro msg _ hboth
    simp only [Bool.and_eq_true] at hboth
    exact h ((limited_of_ofUser hboth.1).2.symm.trans (limited_of_ofUser hboth.2).2)

theorem noOverflow_filter {msgs : List Msg} (h : NoOverflow cfg msgs) (uid : Nat) :
    NoOverflow cfg (msgs.filter (ofUser cfg uid)) := by
  intro v
  rw [ticksOf_filter]
  split
  · exact h uid
  · trivial

theorem ticksOf_pairwise {msgs : List Msg} (hclock : ClockMonotone msgs) (uid : Nat) :
    (ticksOf cfg uid msgs).Pairwise (· ≤ ·) := by
  unfold ticksOf
  rw [pairwise_map]
  exact (hclock.filter _).imp fun h => Nat.div_le_div_right h

theorem ofUser_zero (msg : Msg) : ofUser cfg 0 msg = false := by
  rcases Bool.eq_false_or_eq_true (ofUser cfg 0 msg) with h | h
  · obtain ⟨hlim, h0⟩ := limited_of_ofUser h
    exact absurd h0 (authUid_ne_zero hlim)
  · exact h

theorem answersOf_zero (msgs : List Msg) : answersOf cfg 0 msgs = [] := by
  simp [answersOf, ofUser_zero]

theorem own_requests {msgs : List Msg} (hclock : ClockMonotone msgs)
    (husers : (users cfg msgs).card < cfg.tableSize) (hfits : NoOverflow cfg msgs) (uid : Nat) :
    answersOf cfg uid msgs = answers cfg (msgs.filter (ofUser cfg uid)) := by
  by_cases huid : uid = 0
  · subst huid
    rw [answersOf_zero, List.filter_eq_nil_iff.mpr (by simp [ofUser_zero])]
    rfl
  · have hall := (run_refines msgs hclock husers hfits uid huid).2
    have husers' : (users cfg (msgs.filter (ofUser cfg uid))).card < cfg.tableSize :=
      Nat.lt_of_le_of_lt (Finset.card_le_card (users_mono (filter_subset_self _))) husers
    have hown := (run_refines (msgs.filter (ofUser cfg uid)) (hclock.filter _) husers'
      (noOverflow_filter hfits uid) uid huid).2
    rw [ticksOf_filter, if_pos rfl, ← hall, answersOf_filter] at hown
    have hsnd := congrArg (List.map fun d => !d.2) hown
    simp only [map_map, Function.comp_def, Bool.not_not] at hsnd
    have hfst : (answers cfg (msgs.filter (ofUser cfg uid))).map Prod.fst
        = msgs.filter (ofUser cfg uid) := by
      rw [← answersOf_filter, map_fst_answersOf, filter_filter]
      simp only [Bool.and_self]
    rw [zip_of_prod (map_fst_answersOf uid msgs) rfl, zip_of_prod hfst hsnd]

theorem window_bound {msgs : List Msg} (hclock : ClockMonotone msgs)
    (husers : (users cfg msgs).card < cfg.tableSize) (hfits : NoOverflow cfg msgs)
    (uid t₁ t₂ : Nat) :
    (answersOf cfg uid msgs).countP (admittedBetween t₁ t₂)
      ≤ cfg.bucketSize + (t₂ / cfg.refillPeriod - t₁ / cfg.refillPeriod) * cfg.refillRate := by
  by_cases huid : uid = 0
  · subst huid
    simp [answersOf_zero]
  · refine Nat.le_trans ?_ (Lib.TokenBucket.admitted_window none (ticksOf cfg uid msgs) _ _
      (ticksOf_pairwise hclock uid))
    rw [← (run_refines msgs hclock husers hfits uid huid).2, countP_map]
    refine countP_mono_left fun a _ ha => ?_
    simp only [admittedBetween, Bool.and_eq_true, decide_eq_true_eq] at ha
    simp only [Function.comp_apply, Bool.and_eq_true, decide_eq_true_eq]
    exact ⟨ha.1, Nat.div_le_div_right ha.2.1, Nat.div_le_div_right ha.2.2⟩

/-- What a message adds, in the slot of its user. -/
theorem sumFits_iff {msgs : List Msg} (husers : (users cfg msgs).card < cfg.tableSize)
    {msg : Msg} (hlim : limited cfg msg = true) :
    SumFits (run cfg msgs) msg ↔ ∀ i, ((run cfg msgs).slot i).uid = msg.authUid →
      ((run cfg msgs).slot i).tokens
        + (msg.now / cfg.refillPeriod - ((run cfg msgs).slot i).lastUpdate) * cfg.refillRate
        < 2 ^ 32 := by
  obtain ⟨t, hrun⟩ := runInv msgs husers
  unfold SumFits
  rw [hrun.bucketOf_eq]
  constructor
  · intro h i hi
    rw [hrun.slot_eq] at hi ⊢
    exact h _ ((bucketOf_eq_some_iff hrun.inv (authUid_ne_zero hlim)).mpr ⟨i, hi, rfl⟩)
  · intro h c hc
    obtain ⟨i, hi, rfl⟩ := (bucketOf_eq_some_iff hrun.inv (authUid_ne_zero hlim)).mp hc
    have hsum := h i
    rw [hrun.slot_eq] at hsum
    exact hsum hi

/-- The exact sums fit when every sum of the run does. -/
theorem noOverflow_iff {msgs : List Msg} (hclock : ClockMonotone msgs)
    (husers : (users cfg msgs).card < cfg.tableSize) :
    NoOverflow cfg msgs ↔ ∀ before msg after, before ++ msg :: after = msgs →
      limited cfg msg = true → SumFits (run cfg before) msg := by
  induction msgs using List.reverseRecOn with
  | nil =>
    refine ⟨fun _ before msg after h => ?_, fun _ _ => trivial⟩
    exact absurd h (by simp)
  | append_singleton msgs msg ih =>
    have hclock' := (clockMonotone_snoc hclock).1
    have husers' := users_card_lt_left husers
    have hlast : NoOverflow cfg msgs →
        (NoOverflow cfg (msgs ++ [msg]) ↔ (limited cfg msg = true → SumFits (run cfg msgs) msg)) := by
      intro hfits
      constructor
      · intro h hlim
        have hv := h msg.authUid
        rw [ticksOf_snoc, if_pos (ofUser_authUid hlim), Lib.TokenBucket.fits_snoc] at hv
        intro c hc
        rw [(run_refines msgs hclock' husers' hfits _ (authUid_ne_zero hlim)).1] at hc
        exact hv.2 c hc
      · intro h uid
        rw [ticksOf_snoc]
        split
        · rename_i hof
          obtain ⟨hlim, rfl⟩ := limited_of_ofUser hof
          rw [Lib.TokenBucket.fits_snoc]
          refine ⟨hfits _, ?_⟩
          rw [← (run_refines msgs hclock' husers' hfits _ (authUid_ne_zero hlim)).1]
          exact h hlim
        · exact hfits uid
    have hprev : NoOverflow cfg (msgs ++ [msg]) → NoOverflow cfg msgs := by
      intro h uid
      have hv := h uid
      rw [ticksOf_snoc] at hv
      split at hv
      · exact ((Lib.TokenBucket.fits_snoc _ _ _).mp hv).1
      · exact hv
    constructor
    · intro h before m after happ hlim
      rcases eq_nil_or_concat after with rfl | ⟨after, m', rfl⟩
      · obtain ⟨rfl, heq⟩ := append_inj' happ rfl
        cases heq
        exact (hlast (hprev h)).mp h hlim
      · rw [concat_eq_append, ← cons_append, ← append_assoc] at happ
        obtain ⟨happ, -⟩ := append_inj' happ rfl
        exact (ih hclock' husers').mp (hprev h) before m after happ hlim
    · intro h
      have hfits : NoOverflow cfg msgs := (ih hclock' husers').mpr fun before m after happ =>
        h before m (after ++ [msg]) (by rw [← happ]; simp)
      exact (hlast hfits).mpr fun hlim => h msgs msg [] rfl hlim

/-- The contract holds exactly when the exact token sums fit in 32 bits. -/
theorem rateLimitContract_iff (cfg : Config) (msgs : List Msg) (hclock : ClockMonotone msgs)
    (husers : (users cfg msgs).card < cfg.tableSize) :
    RateLimitContract cfg msgs ↔ NoOverflow cfg msgs := by
  constructor
  · intro h
    rw [noOverflow_iff hclock husers]
    intro before msg after happ hlim
    subst happ
    exact (sumFits_iff (users_card_lt_left husers) hlim).mpr (h.no_wrap before msg after rfl hlim)
  · intro h
    refine ⟨one_slot husers, ?_, window_bound hclock husers h, own_requests hclock husers h, ?_⟩
    · intro before after happ
      subst happ
      exact slot_tokens_le (users_card_lt_left husers)
    · intro before msg after happ hlim
      have hsum := (noOverflow_iff hclock husers).mp h before msg after happ hlim
      subst happ
      exact (sumFits_iff (users_card_lt_left husers) hlim).mp hsum

/-- A table of two slots whose buckets hold one token and refill by `2 ^ 30`
tokens a second. -/
def fastRefill : Config where
  tableSize := 2
  bucketSize := 1
  logFreq := 0
  refillRate := 2 ^ 30
  refillPeriod := 1
  slurmUserId := 64030
  tableSize_pos := by decide
  bucketSize_pos := by decide
  bucketSize_lt := by decide
  refillRate_pos := by decide
  refillPeriod_pos := by decide

/-- One user asks at second 10 and again four seconds later. -/
def fourSecondsLater : List Msg := [⟨1000, false, 10⟩, ⟨1000, false, 14⟩]

/-- Four seconds at `2 ^ 30` tokens a second leave the word, and the second
request is refused although the bucket should be full. -/
theorem rateLimitContract_fails :
    ClockMonotone fourSecondsLater ∧
      (users fastRefill fourSecondsLater).card < fastRefill.tableSize ∧
      ¬ RateLimitContract fastRefill fourSecondsLater := by
  refine ⟨by decide, by decide, fun h => ?_⟩
  have hsum := h.no_wrap [⟨1000, false, 10⟩] ⟨1000, false, 14⟩ [] rfl rfl ⟨0, by decide⟩
    (by decide)
  exact absurd hsum (by decide)

theorem rateLimitContract_iff_witness :
    RateLimitContract fastRefill [⟨1000, false, 10⟩, ⟨1000, false, 13⟩] :=
  (rateLimitContract_iff fastRefill [⟨1000, false, 10⟩, ⟨1000, false, 13⟩] (by decide)
    (by decide)).mpr fun uid => by
      by_cases h : uid = 1000
      · subst h
        decide
      · have hnil : ticksOf fastRefill uid [⟨1000, false, 10⟩, ⟨1000, false, 13⟩] = [] := by
          have hof : ∀ now, ofUser fastRefill uid ⟨1000, false, now⟩ = false := by
            intro now
            simp [ofUser, Ne.symm h]
          simp [ticksOf, hof]
        rw [hnil]
        trivial

end Slurm.RateLimit
