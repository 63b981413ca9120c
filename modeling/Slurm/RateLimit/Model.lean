import Slurm.Lib.RoundRobin
import Slurm.Lib.TokenBucket

/-!
# The RPC rate limiter of slurmctld (`slurmctld/rate_limit.c`)

`rateLimitExceeded` decides one RPC.  A user is hashed to a slot of a fixed
table by `uid % table_size`, the table is probed from there, and the slot holds
a token bucket whose clock is the wall clock divided by `refill_period`.

The table is open addressed with uid 0 as the vacant mark: root is never
limited, so no stored uid is 0.  `last_update` counts refill periods, the token
count is a `uint32_t`, and the product added to it is taken modulo `2 ^ 32` when
it is stored.

`rateLimitInit` reads the settings from `SlurmctldParameters`.  The settings are
C `int`s.  `Config` is a record of settings that are all at least one, which is
what `rateLimitExceeded` needs to index the table and to divide by the period.
-/

namespace Slurm.RateLimit

/-! ## Settings -/

/-- The static variables that `rate_limit_init` sets. -/
structure Settings where
  tableSize : Int := 8192
  bucketSize : Int := 30
  logFreq : Int := 0
  refillRate : Int := 2
  refillPeriod : Int := 1
  deriving DecidableEq, Repr

/-- `xstrcasestr`: the rest of the text from the first place where `needle`
stands, letter case aside. -/
def xstrcasestr (needle : List Char) : List Char → Option (List Char)
  | [] => none
  | c :: text =>
    if ((c :: text).take needle.length).map Char.toLower = needle.map Char.toLower then
      some (c :: text)
    else xstrcasestr needle text

/-- The digits at the start of a text, as a number after `acc`. -/
def digits (acc : Nat) : List Char → Nat
  | [] => acc
  | c :: text => if c.isDigit then digits (acc * 10 + (c.toNat - 48)) text else acc

/-- `atoi`: blanks, a sign, and the digits that follow. -/
def atoi (text : List Char) : Int :=
  match text.dropWhile Char.isWhitespace with
  | '-' :: rest => -(digits 0 rest)
  | '+' :: rest => digits 0 rest
  | rest => digits 0 rest

/-- The value after `key`, or the default when `key` is not there. -/
def option (params : List Char) (key : String) (default : Int) : Int :=
  match xstrcasestr key.toList params with
  | some found => atoi (found.drop key.length)
  | none => default

/-- `rate_limit_init`: nothing unless `rl_enable` is there, else the settings. -/
def rateLimitInit (params : List Char) : Option Settings :=
  if (xstrcasestr "rl_enable".toList params).isSome then
    some {
      tableSize := option params "rl_table_size=" 8192
      bucketSize := option params "rl_bucket_size=" 30
      logFreq := option params "rl_log_freq=" 0
      refillRate := option params "rl_refill_rate=" 2
      refillPeriod := option params "rl_refill_period=" 1 }
  else none

/-- Settings under which the limiter can run, with `slurm_conf.slurm_user_id`.
The bound on `bucket_size` is that of an `int`. -/
structure Config where
  tableSize : Nat
  bucketSize : Nat
  logFreq : Int
  refillRate : Nat
  refillPeriod : Nat
  slurmUserId : Nat
  tableSize_pos : 0 < tableSize
  bucketSize_pos : 0 < bucketSize
  bucketSize_lt : bucketSize < 2 ^ 31
  refillRate_pos : 0 < refillRate
  refillPeriod_pos : 0 < refillPeriod

/-- The configuration with these settings, when they are in range. -/
def Settings.config? (s : Settings) (slurmUserId : Nat) : Option Config :=
  if h : 0 < s.tableSize ∧ 0 < s.bucketSize ∧ s.bucketSize < 2 ^ 31 ∧
      0 < s.refillRate ∧ 0 < s.refillPeriod then
    some {
      tableSize := s.tableSize.toNat
      bucketSize := s.bucketSize.toNat
      logFreq := s.logFreq
      refillRate := s.refillRate.toNat
      refillPeriod := s.refillPeriod.toNat
      slurmUserId := slurmUserId
      tableSize_pos := by omega
      bucketSize_pos := by omega
      bucketSize_lt := by omega
      refillRate_pos := by omega
      refillPeriod_pos := by omega }
  else none

/-- The settings of a bare `rl_enable` are in range. -/
theorem config?_default_isSome (uid : Nat) : (Settings.config? {} uid).isSome := by
  simp [Settings.config?]

/-! ## The table -/

/-- `user_bucket_t`.  `lastUpdate` counts refill periods. -/
structure UserBucket where
  lastUpdate : Nat
  lastLogged : Nat
  tokens : Nat
  uid : Nat
  deriving DecidableEq, Repr

/-- What `xcalloc` leaves in a slot. -/
def UserBucket.vacant : UserBucket := ⟨0, 0, 0, 0⟩

variable (cfg : Config)

/-- `user_buckets`. -/
abbrev Table := Fin cfg.tableSize → UserBucket

variable {cfg}

/-- The slot where a probe for `uid` starts. -/
def startPosition (cfg : Config) (uid : Nat) : Fin cfg.tableSize :=
  ⟨uid % cfg.tableSize, Nat.mod_lt _ cfg.tableSize_pos⟩

/-- The loop over `position`.  It stops at a vacant slot or at the user's own,
and gives up when it is back at its start. -/
def findSlot (t : Table cfg) (uid : Nat) : Option (Fin cfg.tableSize) :=
  Lib.Probe.scan (fun i => (t i).uid == 0 || (t i).uid == uid) cfg.tableSize
    (startPosition cfg uid)

/-- A slot is given to a user, who pays for this request at once. -/
def newEntry (cfg : Config) (uid now : Nat) (b : UserBucket) : UserBucket :=
  { b with uid := uid, lastUpdate := now / cfg.refillPeriod, tokens := cfg.bucketSize - 1 }

/-- The tokens after `tokens += delta * refill_rate` and the cut to
`bucket_size`.  The sum is stored in 32 bits before it is cut. -/
def addTokens (cfg : Config) (tokens : Nat) (delta : Int) : Nat :=
  if delta ≠ 0 then
    min (((tokens : Int) + delta * cfg.refillRate) % 2 ^ 32).toNat cfg.bucketSize
  else tokens

/-- A user who has a slot asks again. -/
def nextEntry (cfg : Config) (now : Nat) (b : UserBucket) : Bool × UserBucket :=
  let nowPeriods := now / cfg.refillPeriod
  let tokens := addTokens cfg b.tokens ((nowPeriods : Int) - b.lastUpdate)
  if tokens = 0 then (true, { b with lastUpdate := nowPeriods, tokens := 0 })
  else (false, { b with lastUpdate := nowPeriods, tokens := tokens - 1 })

/-- The log line of a refused request, at most one in `log_freq` seconds. -/
def logExceeded (cfg : Config) (now : Nat) (b : UserBucket) : UserBucket :=
  if cfg.logFreq ≠ -1 ∧ (b.lastLogged : Int) + cfg.logFreq ≤ now then
    { b with lastLogged := now }
  else b

/-- The part of `rate_limit_exceeded` after the exemptions.  The answer is
`exceeded`. -/
def serve (t : Table cfg) (uid now : Nat) : Bool × Table cfg :=
  match findSlot t uid with
  | none => (false, t)
  | some i =>
    if (t i).uid = 0 then (false, Function.update t i (newEntry cfg uid now (t i)))
    else
      let r := nextEntry cfg now (t i)
      (r.1, Function.update t i (if r.1 then logExceeded cfg now r.2 else r.2))

/-! ## The limiter -/

/-- What `rate_limit_exceeded` reads of a message, and the time it reads.
`rlExempt` is the flag of the RPC, false for an RPC that is not found. -/
structure Msg where
  authUid : Nat
  rlExempt : Bool
  now : Nat
  deriving DecidableEq, Repr

/-- `rate_limit_enabled` and `user_buckets`. -/
structure Limiter (cfg : Config) where
  rateLimitEnabled : Bool
  userBuckets : Option (Table cfg)

/-- The limiter right after `rate_limit_init`. -/
def Limiter.init (cfg : Config) : Limiter cfg :=
  ⟨true, some fun _ => UserBucket.vacant⟩

/-- `rate_limit_shutdown` -/
def rateLimitShutdown (_ : Limiter cfg) : Limiter cfg := ⟨false, none⟩

/-- `validate_slurm_user` -/
def validateSlurmUser (cfg : Config) (uid : Nat) : Bool :=
  uid == 0 || uid == cfg.slurmUserId

/-- `rate_limit_exceeded` -/
def rateLimitExceeded (s : Limiter cfg) (msg : Msg) : Bool × Limiter cfg :=
  if !s.rateLimitEnabled then (false, s)
  else if msg.rlExempt then (false, s)
  else if validateSlurmUser cfg msg.authUid then (false, s)
  else
    match s.userBuckets with
    | none => (true, s)
    | some t =>
      let r := serve t msg.authUid msg.now
      (r.1, { s with userBuckets := some r.2 })

/-- The limiter after some messages. -/
def runFrom (s : Limiter cfg) (msgs : List Msg) : Limiter cfg :=
  msgs.foldl (fun s msg => (rateLimitExceeded s msg).2) s

/-- Every message with the answer to it. -/
def answersFrom (s : Limiter cfg) : List Msg → List (Msg × Bool)
  | [] => []
  | msg :: msgs =>
    (msg, (rateLimitExceeded s msg).1) :: answersFrom (rateLimitExceeded s msg).2 msgs

/-- The limiter after some messages since it was started. -/
def run (cfg : Config) (msgs : List Msg) : Limiter cfg := runFrom (Limiter.init cfg) msgs

/-- The answers to some messages since the limiter was started. -/
def answers (cfg : Config) (msgs : List Msg) : List (Msg × Bool) :=
  answersFrom (Limiter.init cfg) msgs

/-- The slots of a limiter, all vacant after a shutdown. -/
def Limiter.slot (s : Limiter cfg) (i : Fin cfg.tableSize) : UserBucket :=
  match s.userBuckets with
  | none => UserBucket.vacant
  | some t => t i

theorem run_snoc (msgs : List Msg) (msg : Msg) :
    run cfg (msgs ++ [msg]) = (rateLimitExceeded (run cfg msgs) msg).2 := by
  simp [run, runFrom]

theorem answersFrom_snoc (s : Limiter cfg) (msgs : List Msg) (msg : Msg) :
    answersFrom s (msgs ++ [msg])
      = answersFrom s msgs ++ [(msg, (rateLimitExceeded (runFrom s msgs) msg).1)] := by
  induction msgs generalizing s with
  | nil => rfl
  | cons m msgs ih =>
    rw [List.cons_append, answersFrom, answersFrom, ih]
    rfl

theorem answers_snoc (msgs : List Msg) (msg : Msg) :
    answers cfg (msgs ++ [msg])
      = answers cfg msgs ++ [(msg, (rateLimitExceeded (run cfg msgs) msg).1)] :=
  answersFrom_snoc _ _ _

end Slurm.RateLimit

/-!
## The rate limiter's table over a run

`TableInv` is what the probe loop relies on: the probe for a stored user ends at
that user's slot.  A slot is never vacated, so the slots a probe passes over stay
occupied, and `tableInv_update` shows that giving out or updating the slot a
probe found keeps every other user findable.

`bucketOf` reads a user's bucket through the same probe.  `serve_spec` says what
one request does to all the buckets: the user's own bucket moves as the exact
machine of `Lib.TokenBucket` does, as long as the stored sum does not wrap, and
every other bucket is left alone.

`runInv` carries the invariant over a run: fewer users than slots means that a
vacant slot is always left.
-/

namespace Slurm.RateLimit

open Function Nat

open Lib.TokenBucket (Bucket)

variable {cfg : Config}

/-! ## The table -/

/-- Every stored user is found by the probe, and no slot holds too much. -/
structure TableInv (t : Table cfg) : Prop where
  found : ∀ i, (t i).uid ≠ 0 → findSlot t (t i).uid = some i
  tokens_le : ∀ i, (t i).tokens ≤ cfg.bucketSize

theorem TableInv.vacant : TableInv fun _ : Fin cfg.tableSize => UserBucket.vacant where
  found := fun _ h => absurd rfl h
  tokens_le := fun _ => Nat.zero_le _

theorem findSlot_uid {t : Table cfg} {uid : Nat} {i : Fin cfg.tableSize}
    (h : findSlot t uid = some i) : (t i).uid = 0 ∨ (t i).uid = uid := by
  simpa using Lib.Probe.scan_stop h

theorem findSlot_isSome {t : Table cfg} (uid : Nat) {j : Fin cfg.tableSize}
    (hj : (t j).uid = 0) : (findSlot t uid).isSome :=
  Lib.Probe.scan_isSome _ (j := j) (by simp [hj])

theorem TableInv.owner_unique {t : Table cfg} (ht : TableInv t) {i j : Fin cfg.tableSize}
    (hi : (t i).uid ≠ 0) (hij : (t i).uid = (t j).uid) : i = j := by
  have hfi := ht.found i hi
  have hfj := ht.found j (by rw [← hij]; exact hi)
  rw [hij, hfj] at hfi
  exact (Option.some.inj hfi).symm

/-- The probe for a user still ends at the slot it found, once that slot holds
the user. -/
theorem findSlot_update_self {t : Table cfg} {uid : Nat} {i : Fin cfg.tableSize}
    {b : UserBucket} (h : findSlot t uid = some i) (hb : b.uid = uid) :
    findSlot (Function.update t i b) uid = some i := by
  refine Lib.Probe.scan_narrow h (by simp [hb]) fun x hx => ?_
  by_cases hxi : x = i
  · subst hxi
    exact Lib.Probe.scan_stop h
  · rwa [update_of_ne hxi] at hx

/-- Writing the slot that the probe for `uid` found keeps the invariant. -/
theorem tableInv_update {t : Table cfg} (ht : TableInv t) {uid : Nat}
    {i : Fin cfg.tableSize} {b : UserBucket} (h : findSlot t uid = some i)
    (hb : b.uid = uid) (htok : b.tokens ≤ cfg.bucketSize) :
    TableInv (Function.update t i b) where
  found := by
    intro j hj
    by_cases hji : j = i
    · subst hji
      rw [update_self, hb]
      exact findSlot_update_self h hb
    · rw [update_of_ne hji] at hj ⊢
      have hfound := ht.found j hj
      -- The slot written held no one or `uid`, and `j` holds another user.
      have hne : (t j).uid ≠ uid := by
        intro heq
        rw [heq, h] at hfound
        exact hji (Option.some.inj hfound).symm
      refine Lib.Probe.scan_narrow hfound (by rw [update_of_ne hji]; simp)
        fun x hx => ?_
      by_cases hxi : x = i
      · subst hxi
        rcases findSlot_uid h with h0 | hu
        · simp [h0]
        · simp only [update_self, hb, Bool.or_eq_true, beq_iff_eq] at hx
          rcases hx with hx | hx
          · simp [hu, hx]
          · exact absurd hx.symm hne
      · rwa [update_of_ne hxi] at hx
  tokens_le := by
    intro j
    by_cases hji : j = i
    · subst hji
      rwa [update_self]
    · rw [update_of_ne hji]
      exact ht.tokens_le j

/-! ## Buckets of users -/

/-- The bucket in a slot. -/
def UserBucket.bucket (b : UserBucket) : Bucket := ⟨b.tokens, b.lastUpdate⟩

/-- The bucket of a user, if the user has one. -/
def bucketOf (t : Table cfg) (uid : Nat) : Option Bucket :=
  match findSlot t uid with
  | none => none
  | some i => if (t i).uid = uid then some (t i).bucket else none

theorem bucketOf_eq_some_iff {t : Table cfg} (ht : TableInv t) {uid : Nat} (huid : uid ≠ 0)
    {c : Bucket} : bucketOf t uid = some c ↔ ∃ i, (t i).uid = uid ∧ (t i).bucket = c := by
  constructor
  · intro h
    unfold bucketOf at h
    split at h
    · simp at h
    · rename_i i _
      split at h
      · rename_i hi
        exact ⟨i, hi, Option.some.inj h⟩
      · simp at h
  · rintro ⟨i, hi, hc⟩
    have hfound := ht.found i (by rw [hi]; exact huid)
    rw [hi] at hfound
    simp [bucketOf, hfound, hi, hc]

theorem bucketOf_vacant {uid : Nat} (huid : uid ≠ 0) :
    bucketOf (fun _ : Fin cfg.tableSize => UserBucket.vacant) uid = none := by
  rw [Option.eq_none_iff_forall_ne_some]
  intro c hc
  obtain ⟨i, hi, -⟩ := (bucketOf_eq_some_iff TableInv.vacant huid).mp hc
  exact huid hi.symm

theorem bucketOf_of_findSlot {t : Table cfg} {uid : Nat} {i : Fin cfg.tableSize}
    (h : findSlot t uid = some i) :
    bucketOf t uid = if (t i).uid = uid then some (t i).bucket else none := by
  simp [bucketOf, h]

/-- A write to the slot found for `uid` moves no other user's bucket. -/
theorem bucketOf_update_of_ne {t : Table cfg} (ht : TableInv t) {uid v : Nat}
    {i : Fin cfg.tableSize} {b : UserBucket} (h : findSlot t uid = some i)
    (hb : b.uid = uid) (htok : b.tokens ≤ cfg.bucketSize) (hv : v ≠ 0) (hne : v ≠ uid) :
    bucketOf (Function.update t i b) v = bucketOf t v := by
  ext c
  rw [bucketOf_eq_some_iff (tableInv_update ht h hb htok) hv, bucketOf_eq_some_iff ht hv]
  refine exists_congr fun j => ?_
  by_cases hji : j = i
  · subst hji
    have hold : (t j).uid ≠ v := by
      rcases findSlot_uid h with h0 | hu
      · rw [h0]
        exact hv.symm
      · rw [hu]
        exact hne.symm
    simp [hb, hne.symm, hold]
  · rw [update_of_ne hji]

/-! ## One request -/

theorem addTokens_le {tokens : Nat} (h : tokens ≤ cfg.bucketSize) (delta : Int) :
    addTokens cfg tokens delta ≤ cfg.bucketSize := by
  unfold addTokens
  split
  · exact Nat.min_le_right _ _
  · exact h

/-- Below the width of the word, the tokens are refilled exactly. -/
theorem addTokens_eq_refill {b : Bucket} {tick : Nat} (hcap : b.tokens ≤ cfg.bucketSize)
    (hclock : b.last ≤ tick)
    (hfits : Lib.TokenBucket.filled cfg.refillRate b tick < 2 ^ 32) :
    addTokens cfg b.tokens ((tick : Int) - b.last)
      = Lib.TokenBucket.refill cfg.bucketSize cfg.refillRate b tick := by
  have hdelta : ((tick : Int) - b.last) = ((tick - b.last : Nat) : Int) := by omega
  unfold addTokens Lib.TokenBucket.refill
  rw [hdelta]
  unfold Lib.TokenBucket.filled at hfits ⊢
  split
  · rw [← cast_mul, ← cast_add, show ((2 : Int) ^ 32) = ((2 ^ 32 : Nat) : Int) from rfl,
      ← Int.natCast_mod, Int.toNat_natCast, mod_eq_of_lt hfits, Nat.min_comm]
  · rename_i h
    have hzero : tick - b.last = 0 := by omega
    rw [hzero, Nat.zero_mul, Nat.add_zero, Nat.min_eq_right hcap]

theorem nextEntry_uid (now : Nat) (b : UserBucket) :
    (nextEntry cfg now b).2.uid = b.uid := by
  simp only [nextEntry]
  split <;> rfl

theorem nextEntry_tokens_le {b : UserBucket} (now : Nat) (h : b.tokens ≤ cfg.bucketSize) :
    (nextEntry cfg now b).2.tokens ≤ cfg.bucketSize := by
  have hadd := addTokens_le h (((now / cfg.refillPeriod : Nat) : Int) - b.lastUpdate)
  simp only [nextEntry]
  split
  · exact Nat.zero_le _
  · exact Nat.le_trans (sub_le _ _) hadd

@[simp]
theorem logExceeded_uid (now : Nat) (b : UserBucket) : (logExceeded cfg now b).uid = b.uid := by
  unfold logExceeded
  split <;> rfl

@[simp]
theorem logExceeded_tokens (now : Nat) (b : UserBucket) :
    (logExceeded cfg now b).tokens = b.tokens := by
  unfold logExceeded
  split <;> rfl

@[simp]
theorem logExceeded_lastUpdate (now : Nat) (b : UserBucket) :
    (logExceeded cfg now b).lastUpdate = b.lastUpdate := by
  unfold logExceeded
  split <;> rfl

theorem nextEntry_lastUpdate (now : Nat) (b : UserBucket) :
    (nextEntry cfg now b).2.lastUpdate = now / cfg.refillPeriod := by
  simp only [nextEntry]
  split <;> rfl

/-- The second and later requests of a user, against the exact machine. -/
theorem nextEntry_eq_request {b : UserBucket} {now : Nat} (hcap : b.tokens ≤ cfg.bucketSize)
    (hclock : b.lastUpdate ≤ now / cfg.refillPeriod)
    (hfits : Lib.TokenBucket.filled cfg.refillRate b.bucket (now / cfg.refillPeriod) < 2 ^ 32) :
    (nextEntry cfg now b).1 = !(Lib.TokenBucket.request cfg.bucketSize cfg.refillRate
        b.bucket (now / cfg.refillPeriod)).1 ∧
      (nextEntry cfg now b).2.bucket = (Lib.TokenBucket.request cfg.bucketSize cfg.refillRate
        b.bucket (now / cfg.refillPeriod)).2 := by
  have hrefill := addTokens_eq_refill (b := b.bucket) hcap hclock hfits
  simp only [UserBucket.bucket] at hrefill ⊢
  simp only [nextEntry, hrefill, Lib.TokenBucket.request]
  split
  · rename_i h0
    simp [h0]
  · rename_i h0
    have hpos := Nat.pos_of_ne_zero h0
    simp [hpos]

/-- What a request writes: the slot the probe found, for the same user. -/
theorem serve_eq_update {t : Table cfg} (ht : TableInv t) {uid : Nat}
    {i : Fin cfg.tableSize} (h : findSlot t uid = some i) (now : Nat) :
    ∃ b : UserBucket, (serve t uid now).2 = Function.update t i b ∧ b.uid = uid ∧
      b.tokens ≤ cfg.bucketSize ∧ b.lastUpdate = now / cfg.refillPeriod := by
  simp only [serve, h]
  split
  · exact ⟨_, rfl, rfl, sub_le _ _, rfl⟩
  · rename_i h0
    have huid : (t i).uid = uid := (findSlot_uid h).resolve_left h0
    refine ⟨_, rfl, ?_⟩
    have htok := nextEntry_tokens_le now (ht.tokens_le i)
    split <;> simp [nextEntry_uid, huid, nextEntry_lastUpdate, htok]

/-- The answer to a request, and the user's bucket after it. -/
theorem serve_own {t : Table cfg} (ht : TableInv t) {uid now : Nat} (huid : uid ≠ 0)
    {i : Fin cfg.tableSize} (h : findSlot t uid = some i)
    (hclock : (t i).lastUpdate ≤ now / cfg.refillPeriod)
    (hfits : ∀ c ∈ bucketOf t uid,
      Lib.TokenBucket.filled cfg.refillRate c (now / cfg.refillPeriod) < 2 ^ 32) :
    (serve t uid now).1 = !(Lib.TokenBucket.serve cfg.bucketSize cfg.refillRate
        (bucketOf t uid) (now / cfg.refillPeriod)).1 ∧
      bucketOf (serve t uid now).2 uid = some (Lib.TokenBucket.serve cfg.bucketSize
        cfg.refillRate (bucketOf t uid) (now / cfg.refillPeriod)).2 := by
  rw [bucketOf_of_findSlot h] at hfits ⊢
  by_cases h0 : (t i).uid = 0
  · have hne : (t i).uid ≠ uid := by rw [h0]; exact huid.symm
    simp only [serve, h, h0, if_true]
    rw [bucketOf_of_findSlot (findSlot_update_self h rfl), update_self]
    have hpos := cfg.bucketSize_pos
    simp [newEntry, UserBucket.bucket, huid.symm, Lib.TokenBucket.serve,
      Lib.TokenBucket.request, Lib.TokenBucket.refill, Lib.TokenBucket.filled, hpos]
  · have hown : (t i).uid = uid := (findSlot_uid h).resolve_left h0
    rw [if_pos hown] at hfits ⊢
    obtain ⟨hans, hbucket⟩ := nextEntry_eq_request (ht.tokens_le i) hclock (hfits _ rfl)
    obtain ⟨b, hb⟩ : ∃ b, b = if (nextEntry cfg now (t i)).1 = true
        then logExceeded cfg now (nextEntry cfg now (t i)).2
        else (nextEntry cfg now (t i)).2 := ⟨_, rfl⟩
    have hbuid : b.uid = uid := by
      rw [hb]
      split <;> simp [nextEntry_uid, hown]
    have hbb : b.bucket = (nextEntry cfg now (t i)).2.bucket := by
      rw [hb]
      split <;> simp [UserBucket.bucket]
    simp only [serve, h, if_neg h0, ← hb]
    rw [bucketOf_of_findSlot (findSlot_update_self h hbuid), update_self,
      if_pos hbuid, hbb]
    exact ⟨hans, congrArg some hbucket⟩

/-- A request moves no other user's bucket. -/
theorem serve_other {t : Table cfg} (ht : TableInv t) {uid v now : Nat} (hv : v ≠ 0)
    (hne : v ≠ uid) {i : Fin cfg.tableSize} (h : findSlot t uid = some i) :
    bucketOf (serve t uid now).2 v = bucketOf t v := by
  obtain ⟨b, hserve, hb, htok, -⟩ := serve_eq_update ht h now
  rw [hserve]
  exact bucketOf_update_of_ne ht h hb htok hv hne

end Slurm.RateLimit
