import Mathlib

/-!
# Token buckets

A bucket holds at most `cap` tokens.  Time is counted in ticks, and every tick
adds `rate` tokens to a bucket that is not full.  A request takes one token, or
is refused when the bucket is empty.  Tokens are added when a request arrives
and not before, so a bucket remembers the tick of its last request.

All arithmetic is exact.  A program that keeps its tokens in a machine word is
compared with this machine, and `Fits` says when a word is wide enough.

`admitted_window` is the rate bound: the requests admitted in the ticks `a` to
`b` are at most one full bucket and the tokens of the ticks in between.
-/

namespace Lib.TokenBucket

open List

/-- The tokens in a bucket and the tick at which they were last counted. -/
structure Bucket where
  tokens : Nat
  last : Nat
  deriving DecidableEq, Repr

variable (cap rate limit : Nat)

/-- The tokens in a bucket at `tick`, before they are cut to the capacity. -/
def filled (b : Bucket) (tick : Nat) : Nat :=
  b.tokens + (tick - b.last) * rate

/-- The tokens that a request at `tick` finds. -/
def refill (b : Bucket) (tick : Nat) : Nat :=
  min cap (filled rate b tick)

/-- One request.  The answer says whether it is admitted. -/
def request (b : Bucket) (tick : Nat) : Bool × Bucket :=
  (decide (0 < refill cap rate b tick), ⟨refill cap rate b tick - 1, tick⟩)

/-- A request to a bucket that may not exist yet.  A new bucket is full. -/
def serve (b : Option Bucket) (tick : Nat) : Bool × Bucket :=
  request cap rate (b.getD ⟨cap, tick⟩) tick

/-- The tick and the answer of every request. -/
def decisions (b : Option Bucket) : List Nat → List (Nat × Bool)
  | [] => []
  | tick :: ticks =>
    (tick, (serve cap rate b tick).1) :: decisions (some (serve cap rate b tick).2) ticks

/-- The bucket after some requests. -/
def after (b : Option Bucket) (ticks : List Nat) : Option Bucket :=
  ticks.foldl (fun b tick => some (serve cap rate b tick).2) b

/-- No request finds an existing bucket whose tokens, before they are cut to the
capacity, reach `limit`. -/
def Fits (b : Option Bucket) : List Nat → Prop
  | [] => True
  | tick :: ticks =>
    (∀ c ∈ b, filled rate c tick < limit) ∧ Fits (some (serve cap rate b tick).2) ticks

instance (b : Option Bucket) (ticks : List Nat) : Decidable (Fits cap rate limit b ticks) := by
  induction ticks generalizing b with
  | nil => exact isTrue trivial
  | cons tick ticks ih => exact @instDecidableAnd _ _ inferInstance (ih _)

variable {cap rate limit}

theorem refill_le (b : Bucket) (tick : Nat) : refill cap rate b tick ≤ cap :=
  Nat.min_le_left _ _

theorem serve_fst (b : Option Bucket) (tick : Nat) :
    (serve cap rate b tick).1 = decide (0 < refill cap rate (b.getD ⟨cap, tick⟩) tick) := rfl

theorem serve_snd (b : Option Bucket) (tick : Nat) :
    (serve cap rate b tick).2 = ⟨refill cap rate (b.getD ⟨cap, tick⟩) tick - 1, tick⟩ := rfl

/-! ## One request after the others -/

theorem after_snoc (b : Option Bucket) (ticks : List Nat) (tick : Nat) :
    after cap rate b (ticks ++ [tick])
      = some (serve cap rate (after cap rate b ticks) tick).2 := by
  simp [after]

theorem decisions_snoc (b : Option Bucket) (ticks : List Nat) (tick : Nat) :
    decisions cap rate b (ticks ++ [tick])
      = decisions cap rate b ticks
        ++ [(tick, (serve cap rate (after cap rate b ticks) tick).1)] := by
  induction ticks generalizing b with
  | nil => rfl
  | cons t ticks ih =>
    rw [cons_append, decisions, ih]
    rfl

theorem fits_snoc (b : Option Bucket) (ticks : List Nat) (tick : Nat) :
    Fits cap rate limit b (ticks ++ [tick]) ↔
      Fits cap rate limit b ticks ∧
        ∀ c ∈ after cap rate b ticks, filled rate c tick < limit := by
  induction ticks generalizing b with
  | nil => simp [Fits, after]
  | cons t ticks ih =>
    rw [cons_append, Fits, Fits, ih, and_assoc]
    rfl

/-! ## The rate bound -/

theorem tick_mem_of_mem_decisions {b : Option Bucket} {ticks : List Nat} {d : Nat × Bool}
    (h : d ∈ decisions cap rate b ticks) : d.1 ∈ ticks := by
  induction ticks generalizing b with
  | nil => simp [decisions] at h
  | cons tick ticks ih =>
    rw [decisions] at h
    rcases List.mem_cons.mp h with rfl | h
    · exact mem_cons_self
    · exact mem_cons_of_mem _ (ih h)

/-- Requests that all come after tick `b` do not count up to `b`. -/
theorem countP_decisions_eq_zero (ob : Option Bucket) {ticks : List Nat} {b : Nat}
    (p : Nat × Bool → Bool) (hp : ∀ d, p d = true → d.1 ≤ b) (hlate : ∀ t ∈ ticks, b < t) :
    (decisions cap rate ob ticks).countP p = 0 := by
  rw [countP_eq_zero]
  intro d hd hpd
  have hle := hp d hpd
  have hlt := hlate d.1 (tick_mem_of_mem_decisions hd)
  omega

/-- From one request on, the admitted requests up to tick `b` are paid for by
the tokens that the request finds and the tokens that come after it. -/
theorem admitted_upto (ob : Option Bucket) (tick : Nat) (ticks : List Nat) (b : Nat)
    (hsorted : (tick :: ticks).Pairwise (· ≤ ·)) (hb : tick ≤ b) :
    (decisions cap rate ob (tick :: ticks)).countP (fun d => d.2 && decide (d.1 ≤ b))
      ≤ refill cap rate (ob.getD ⟨cap, tick⟩) tick + (b - tick) * rate := by
  induction ticks generalizing ob tick with
  | nil =>
    simp only [decisions, serve_fst, countP_singleton]
    split
    · rename_i hpos
      simp only [Bool.and_eq_true, decide_eq_true_eq] at hpos
      omega
    · omega
  | cons tick' ticks ih =>
    rw [pairwise_cons] at hsorted
    have hle : tick ≤ tick' := hsorted.1 tick' mem_cons_self
    rw [decisions, serve_snd, countP_cons]
    obtain ⟨found, hfound⟩ : ∃ found, found = refill cap rate (ob.getD ⟨cap, tick⟩) tick :=
      ⟨_, rfl⟩
    rw [serve_fst, ← hfound]
    -- What the later requests take, from the tokens this one leaves.
    have hrest : (decisions cap rate (some ⟨found - 1, tick⟩) (tick' :: ticks)).countP
        (fun d => d.2 && decide (d.1 ≤ b)) ≤ (found - 1) + (b - tick) * rate := by
      by_cases hb' : tick' ≤ b
      · refine Nat.le_trans (ih (some ⟨found - 1, tick⟩) tick' hsorted.2 hb') ?_
        have hsplit : (b - tick) * rate = (tick' - tick) * rate + (b - tick') * rate := by
          rw [← Nat.add_mul]
          congr 1
          omega
        have hrefill : refill cap rate ⟨found - 1, tick⟩ tick'
            ≤ (found - 1) + (tick' - tick) * rate := Nat.min_le_right _ _
        rw [Option.getD_some]
        omega
      · rw [countP_decisions_eq_zero (b := b)]
        · omega
        · intro d hd
          simp only [Bool.and_eq_true, decide_eq_true_eq] at hd
          exact hd.2
        · intro t ht
          rcases List.mem_cons.mp ht with rfl | ht
          · omega
          · have := (List.pairwise_cons.mp hsorted.2).1 t ht
            omega
    split
    · rename_i hpos
      simp only [Bool.and_eq_true, decide_eq_true_eq] at hpos
      omega
    · omega

/-- The rate bound.  In the ticks from `a` to `b` at most one full bucket and
`rate` requests for each tick boundary are admitted. -/
theorem admitted_window (ob : Option Bucket) (ticks : List Nat) (a b : Nat)
    (hsorted : ticks.Pairwise (· ≤ ·)) :
    (decisions cap rate ob ticks).countP
        (fun d => d.2 && (decide (a ≤ d.1) && decide (d.1 ≤ b)))
      ≤ cap + (b - a) * rate := by
  induction ticks generalizing ob with
  | nil => simp [decisions]
  | cons tick ticks ih =>
    by_cases ha : tick < a
    · rw [decisions, countP_cons, if_neg]
      · exact ih _ (List.pairwise_cons.mp hsorted).2
      · simp only [Bool.and_eq_true, decide_eq_true_eq]
        omega
    · by_cases hb : tick ≤ b
      · refine Nat.le_trans (countP_mono_left fun d _ hd => ?_)
          (Nat.le_trans (admitted_upto ob tick ticks b hsorted hb) ?_)
        · simp only [Bool.and_eq_true] at hd ⊢
          exact ⟨hd.1, hd.2.2⟩
        · have hmono : (b - tick) * rate ≤ (b - a) * rate :=
            Nat.mul_le_mul_right rate (by omega)
          have hfull : refill cap rate (ob.getD ⟨cap, tick⟩) tick ≤ cap := refill_le _ _
          omega
      · rw [countP_decisions_eq_zero (b := b)]
        · omega
        · intro d hd
          simp only [Bool.and_eq_true, decide_eq_true_eq] at hd
          exact hd.2.2
        · intro t ht
          rcases List.mem_cons.mp ht with rfl | ht
          · omega
          · have := (List.pairwise_cons.mp hsorted).1 t ht
            omega

end Lib.TokenBucket
