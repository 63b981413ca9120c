import Mathlib

/-!
# Dealing numbered items to bins

A program hands out items `0, 1, 2, …` to a list of bins.  It goes over the bins
in sweeps, gives a bin several attempts in a sweep, and decides at every attempt
whether the bin takes the next item.  When a sweep ends it may start another one,
until no items are left.

`attempts`, `sweep` and `rounds` are these loops, over any type of bins.  What
all of them can do is said once, by `Deal`: a series of single items, each put in
one bin.  `attempts_deal`, `sweep_deal` and `rounds_deal` reduce the loops to it.

* `Deal.sum_size`, `Deal.forall_mem`, `Deal.map_eq`, `Deal.perm`: what a deal does
  to the sizes, to a property of bins, to a field nobody writes, and to the items
  the bins hold.
* `sweep_progress`, `sweep_full`, `sweep_stuck`: a sweep puts an item when it can, and
  reports room when it leaves some.
* `rounds_total`: rounds end, when a measure drops in each.
* `rounds_congr`: bins that count in a machine word agree with bins that count
  exactly, as long as the final sizes fit.
-/

namespace Lib.Dealing

open List

variable {B : Type}
variable {b : B}

/-- How a sweep treats a bin: the attempts it gets, when it takes the next item,
what taking it does, and whether it has more room then. -/
structure Turn (B : Type) where
  turns : B → Nat
  accept : B → Bool
  put : Nat → B → B
  room : B → Bool

/-- The next item, and whether some bin had more room. -/
structure Hand where
  item : Nat
  room : Bool
  deriving DecidableEq, Repr

/-- The attempts of one bin. -/
def attempts (limit : Nat) (v : Turn B) : Nat → Hand → B → Hand × B
  | 0, h, b => (h, b)
  | m + 1, h, b =>
    if h.item < limit ∧ v.accept b = true then
      attempts limit v m ⟨h.item + 1, h.room || v.room (v.put h.item b)⟩ (v.put h.item b)
    else attempts limit v m h b

/-- One sweep over the bins, left early when no items are left. -/
def sweep (limit : Nat) (v : Turn B) : Hand → List B → Hand × List B
  | h, [] => (h, [])
  | h, b :: bs =>
    if h.item < limit then
      let r := attempts limit v (v.turns b) h b
      let rest := sweep limit v r.1 bs
      (rest.1, r.2 :: rest.2)
    else (h, b :: bs)

/-- One round.  It knows its number, whether an earlier round left no room, the
next item and the bins. -/
abbrev Round (B : Type) := Nat → Bool → Nat → List B → Hand × List B

/-- Rounds until no items are left, at most `fuel` of them. -/
def rounds (limit : Nat) (round : Round B) :
    Nat → Nat → Bool → Nat → List B → Option (Nat × List B)
  | 0, _, _, item, bins => if item < limit then none else some (item, bins)
  | fuel + 1, j, overSub, item, bins =>
    if item < limit then
      let r := round j overSub item bins
      rounds limit round fuel (j + 1) (overSub || !r.1.room) r.1.item r.2
    else some (item, bins)

/-! ## Deals -/

/-- `Deal put ok limit t bs u bs'`: from item `t` and the bins `bs`, items have
been put one by one, each in a bin that was `ok`, up to item `u` and the bins
`bs'`. -/
inductive Deal (put : Nat → B → B) (ok : B → Prop) (limit : Nat) (t : Nat) (bs : List B) :
    Nat → List B → Prop
  | nothing : Deal put ok limit t bs t bs
  | item {u : Nat} {l r : List B} {b : B} : Deal put ok limit t bs u (l ++ b :: r) →
      u < limit → ok b → Deal put ok limit t bs (u + 1) (l ++ put u b :: r)

section Deals

variable {put : Nat → B → B} {ok : B → Prop} {limit t u w : Nat} {bs bs' bs'' : List B}

theorem Deal.trans (h : Deal put ok limit t bs u bs') (h' : Deal put ok limit u bs' w bs'') :
    Deal put ok limit t bs w bs'' := by
  induction h' with
  | nothing => exact h
  | item _ hlt hok ih => exact ih.item hlt hok

theorem Deal.weaken {ok' : B → Prop} (h : Deal put ok limit t bs u bs')
    (himp : ∀ b, ok b → ok' b) : Deal put ok' limit t bs u bs' := by
  induction h with
  | nothing => exact .nothing
  | item _ hlt hok ih => exact ih.item hlt (himp _ hok)

/-- A deal to some bins is a deal to more bins. -/
theorem Deal.frame (x y : List B) (h : Deal put ok limit t bs u bs') :
    Deal put ok limit t (x ++ bs ++ y) u (x ++ bs' ++ y) := by
  induction h with
  | nothing => exact .nothing
  | @item u l r b _ hlt hok ih =>
    have hassoc : ∀ c : B, x ++ (l ++ c :: r) ++ y = (x ++ l) ++ c :: (r ++ y) := by
      intro c
      simp
    rw [hassoc] at ih ⊢
    exact ih.item hlt hok

theorem Deal.le (h : Deal put ok limit t bs u bs') : t ≤ u := by
  induction h with
  | nothing => exact Nat.le_refl _
  | item _ _ _ ih => exact Nat.le_succ_of_le ih

theorem Deal.le_limit (h : Deal put ok limit t bs u bs') (ht : t ≤ limit) : u ≤ limit := by
  cases h with
  | nothing => exact ht
  | item _ hlt _ => exact hlt

/-- Without an item nothing changes. -/
theorem Deal.eq_self (h : Deal put ok limit t bs u bs') (hu : u = t) : bs' = bs := by
  cases h with
  | nothing => rfl
  | item h _ _ =>
    have hle := h.le
    omega

theorem Deal.length_eq (h : Deal put ok limit t bs u bs') : bs'.length = bs.length := by
  induction h with
  | nothing => rfl
  | item _ _ _ ih =>
    rw [← ih]
    simp

/-- A field that `put` leaves alone. -/
theorem Deal.map_eq {C : Type} {f : B → C} (h : Deal put ok limit t bs u bs')
    (hf : ∀ n b, f (put n b) = f b) : bs'.map f = bs.map f := by
  induction h with
  | nothing => rfl
  | item _ _ _ ih =>
    rw [← ih]
    simp [hf]

/-- A property of a bin and of the next item, kept by a put and by time. -/
theorem Deal.forall_mem {P : Nat → B → Prop} (h : Deal put ok limit t bs u bs')
    (hput : ∀ n b, ok b → P n b → P (n + 1) (put n b)) (hmono : ∀ n b, P n b → P (n + 1) b)
    (hbs : ∀ b ∈ bs, P t b) : ∀ b ∈ bs', P u b := by
  induction h with
  | nothing => exact hbs
  | @item u l r b _ _ hok ih =>
    intro c hc
    rcases List.mem_append.mp hc with hc | hc
    · exact hmono _ _ (ih c (mem_append_left _ hc))
    · rcases List.mem_cons.mp hc with rfl | hc
      · exact hput _ _ hok (ih b (by simp))
      · exact hmono _ _ (ih c (mem_append_right _ (mem_cons_of_mem _ hc)))

/-- A property that puts keep may be used of every bin that takes an item. -/
theorem Deal.with_inv {P : B → Prop} (h : Deal put ok limit t bs u bs')
    (hput : ∀ n b, ok b → P b → P (put n b)) (hbs : ∀ b ∈ bs, P b) :
    Deal put (fun b => ok b ∧ P b) limit t bs u bs' := by
  induction h with
  | nothing => exact .nothing
  | @item u l r b hprev hlt hok ih =>
    have hall := hprev.forall_mem (P := fun _ => P) (fun n b => hput n b) (fun _ _ hb => hb) hbs
    exact ih.item hlt ⟨hok, hall b (by simp)⟩

/-- Every item put makes one bin larger by one. -/
theorem Deal.sum_size (size : B → Nat) (h : Deal put ok limit t bs u bs')
    (hsize : ∀ n b, size (put n b) = size b + 1) : (bs'.map size).sum + t = (bs.map size).sum + u := by
  induction h with
  | nothing => rfl
  | item _ _ _ ih =>
    simp only [map_append, map_cons, sum_append, sum_cons, hsize] at ih ⊢
    omega

/-- No bin gets smaller, so a bound on the bins held before. -/
theorem Deal.size_le {size : B → Nat} {m : Nat} (h : Deal put ok limit t bs u bs')
    (hsize : ∀ n b, size (put n b) = size b + 1) (hm : ∀ b ∈ bs', size b ≤ m) : ∀ b ∈ bs, size b ≤ m := by
  induction h with
  | nothing => exact hm
  | @item u l r b _ _ _ ih =>
    refine ih fun c hc => ?_
    rcases List.mem_append.mp hc with hc | hc
    · exact hm c (mem_append_left _ hc)
    · rcases List.mem_cons.mp hc with rfl | hc
      · have hput := hm (put u c) (by simp)
        rw [hsize] at hput
        omega
      · exact hm c (mem_append_right _ (mem_cons_of_mem _ hc))

/-- Bins that keep the items they get hold the items dealt, each once. -/
theorem Deal.perm (items : B → List Nat) (h : Deal put ok limit t bs u bs')
    (hitems : ∀ n b, ok b → items (put n b) = items b ++ [n]) :
    ((bs'.map items).flatten).Perm ((bs.map items).flatten ++ List.range' t (u - t)) := by
  induction h with
  | nothing => simp
  | @item u l r b hprev _ hok ih =>
    have hle := hprev.le
    have hrange : List.range' t (u + 1 - t) = List.range' t (u - t) ++ [u] := by
      rw [show u + 1 - t = (u - t) + 1 by omega, range'_concat]
      congr 2
      omega
    rw [hrange, ← append_assoc]
    refine List.Perm.trans ?_ (ih.append_right [u])
    simp only [map_append, map_cons, flatten_append, flatten_cons,
      hitems u b hok, append_assoc]
    refine List.Perm.append_left _ (List.Perm.append_left _ ?_)
    exact perm_append_comm

end Deals

/-! ## The loops are deals -/

variable {h : Hand}

section Loops

variable (limit : Nat) (v : Turn B)

theorem attempts_deal (m : Nat) (h : Hand) (b : B) :
    Deal v.put (fun b => v.accept b = true) limit h.item [b]
      (attempts limit v m h b).1.item [(attempts limit v m h b).2] := by
  induction m generalizing h b with
  | zero => exact .nothing
  | succ m ih =>
    rw [attempts]
    split
    · rename_i hput
      have hone : Deal v.put (fun b => v.accept b = true) limit h.item [b]
          (h.item + 1) [v.put h.item b] :=
        Deal.item (l := []) (r := []) .nothing hput.1 hput.2
      exact hone.trans (ih ⟨h.item + 1, _⟩ _)
    · exact ih h b

theorem sweep_deal (h : Hand) (bs : List B) :
    Deal v.put (fun b => v.accept b = true) limit h.item bs
      (sweep limit v h bs).1.item (sweep limit v h bs).2 := by
  induction bs generalizing h with
  | nil => exact .nothing
  | cons b bs ih =>
    rw [sweep]
    split
    · have hhead := (attempts_deal limit v (v.turns b) h b).frame [] bs
      have hrest := (ih (attempts limit v (v.turns b) h b).1).frame
        [(attempts limit v (v.turns b) h b).2] []
      rw [append_nil, append_nil] at hrest
      exact hhead.trans hrest
    · exact .nothing

theorem rounds_deal {limit : Nat} {put : Nat → B → B} {ok : B → Prop} {round : Round B}
    (hround : ∀ j overSub t bs, Deal put ok limit t bs (round j overSub t bs).1.item (round j overSub t bs).2)
    {fuel j : Nat} {overSub : Bool} {t u : Nat} {bs bs' : List B}
    (h : rounds limit round fuel j overSub t bs = some (u, bs')) : Deal put ok limit t bs u bs' := by
  induction fuel generalizing j overSub t bs with
  | zero =>
    rw [rounds] at h
    split at h
    · cases h
    · cases h
      exact .nothing
  | succ fuel ih =>
    rw [rounds] at h
    split at h
    · exact (hround j overSub t bs).trans (ih h)
    · cases h
      exact .nothing

theorem sweep_cons_pos (hlt : h.item < limit) (b : B) (bs : List B) :
    sweep limit v h (b :: bs)
      = ((sweep limit v (attempts limit v (v.turns b) h b).1 bs).1,
          (attempts limit v (v.turns b) h b).2
            :: (sweep limit v (attempts limit v (v.turns b) h b).1 bs).2) := by
  rw [sweep, if_pos hlt]

theorem sweep_of_limit_le (hle : limit ≤ h.item) (bs : List B) : sweep limit v h bs = (h, bs) := by
  cases bs with
  | nil => rfl
  | cons b bs => rw [sweep, if_neg (by omega)]

end Loops

/-! ## Progress and room -/

section Progress

variable (limit : Nat) (v : Turn B)

theorem attempts_item_le (m : Nat) (h : Hand) (b : B) :
    h.item ≤ (attempts limit v m h b).1.item := (attempts_deal limit v m h b).le

theorem sweep_item_le (h : Hand) (bs : List B) :
    h.item ≤ (sweep limit v h bs).1.item := (sweep_deal limit v h bs).le

theorem attempts_of_not_put (hb : ¬ (h.item < limit ∧ v.accept b = true)) (m : Nat) :
    attempts limit v m h b = (h, b) := by
  induction m with
  | zero => rfl
  | succ m ih => rw [attempts, if_neg hb, ih]

theorem attempts_progress {m : Nat} (hlt : h.item < limit) (hm : 0 < m) (hb : v.accept b = true) :
    h.item < (attempts limit v m h b).1.item := by
  cases m with
  | zero => omega
  | succ m =>
    rw [attempts, if_pos ⟨hlt, hb⟩]
    exact attempts_item_le limit v m ⟨h.item + 1, _⟩ _

/-- A sweep puts an item when some bin would take one. -/
theorem sweep_progress {bs : List B} (hlt : h.item < limit)
    (hb : ∃ b ∈ bs, v.accept b = true ∧ 0 < v.turns b) : h.item < (sweep limit v h bs).1.item := by
  induction bs generalizing h with
  | nil => simp at hb
  | cons c bs ih =>
    rw [sweep_cons_pos limit v hlt]
    show h.item < (sweep limit v (attempts limit v (v.turns c) h c).1 bs).1.item
    have hrest := sweep_item_le limit v (attempts limit v (v.turns c) h c).1 bs
    have hhead := attempts_item_le limit v (v.turns c) h c
    obtain ⟨b, hmem, hacc, hturns⟩ := hb
    rcases List.mem_cons.mp hmem with rfl | hmem
    · have hmore := attempts_progress limit v hlt hturns hacc
      omega
    · by_cases hitem : (attempts limit v (v.turns c) h c).1.item < limit
      · have hmore := ih hitem ⟨b, hmem, hacc, hturns⟩
        omega
      · omega

/-- Every bin after a sweep is a bin from before, after its attempts. -/
theorem mem_sweep {bs : List B} {b' : B} (hb' : b' ∈ (sweep limit v h bs).2) :
    ∃ b ∈ bs, ∃ h', b' = (attempts limit v (v.turns b) h' b).2 := by
  by_cases hlt : h.item < limit
  · induction bs generalizing h with
    | nil => simp [sweep] at hb'
    | cons c bs ih =>
      rw [sweep_cons_pos limit v hlt] at hb'
      rcases List.mem_cons.mp hb' with rfl | hb'
      · exact ⟨c, mem_cons_self, h, rfl⟩
      · by_cases hitem : (attempts limit v (v.turns c) h c).1.item < limit
        · obtain ⟨b, hb, h', heq⟩ := ih hb' hitem
          exact ⟨b, mem_cons_of_mem _ hb, h', heq⟩
        · rw [sweep_of_limit_le limit v (by omega)] at hb'
          refine ⟨b', mem_cons_of_mem _ hb', (attempts limit v (v.turns c) h c).1, ?_⟩
          rw [attempts_of_not_put limit v (fun hput => hitem hput.1)]
  · rw [sweep_of_limit_le limit v (by omega)] at hb'
    refine ⟨b', hb', h, ?_⟩
    rw [attempts_of_not_put limit v (fun hput => hlt hput.1)]

/-- Room is reported by a put and by nothing else. -/
theorem attempts_item_lt_of_room {m : Nat} (hno : h.room = false)
    (hroom : (attempts limit v m h b).1.room = true) :
    h.item < (attempts limit v m h b).1.item := by
  induction m generalizing h b with
  | zero =>
    rw [attempts, hno] at hroom
    cases hroom
  | succ m ih =>
    rw [attempts] at hroom ⊢
    split
    · exact attempts_item_le limit v m ⟨h.item + 1, _⟩ _
    · rename_i hput
      rw [if_neg hput] at hroom
      exact ih hno hroom

theorem sweep_item_lt_of_room {bs : List B} (hno : h.room = false)
    (hroom : (sweep limit v h bs).1.room = true) : h.item < (sweep limit v h bs).1.item := by
  induction bs generalizing h with
  | nil =>
    rw [sweep, hno] at hroom
    cases hroom
  | cons b bs ih =>
    by_cases hlt : h.item < limit
    · rw [sweep_cons_pos limit v hlt] at hroom ⊢
      have hrest := sweep_item_le limit v (attempts limit v (v.turns b) h b).1 bs
      have hhead := attempts_item_le limit v (v.turns b) h b
      show h.item < (sweep limit v (attempts limit v (v.turns b) h b).1 bs).1.item
      rcases Bool.eq_false_or_eq_true (attempts limit v (v.turns b) h b).1.room with hr | hr
      · have hmore := attempts_item_lt_of_room limit v hno hr
        omega
      · have hmore := ih hr hroom
        omega
    · rw [sweep_of_limit_le limit v (Nat.le_of_not_lt hlt), hno] at hroom
      cases hroom

theorem attempts_room {m : Nat} (hroom : h.room = true) :
    (attempts limit v m h b).1.room = true := by
  induction m generalizing h b with
  | zero => exact hroom
  | succ m ih =>
    rw [attempts]
    split
    · exact ih (by simp [hroom])
    · exact ih hroom

theorem sweep_room {bs : List B} (hroom : h.room = true) : (sweep limit v h bs).1.room = true := by
  induction bs generalizing h with
  | nil => exact hroom
  | cons b bs ih =>
    rw [sweep]
    split
    · exact ih (attempts_room limit v hroom)
    · exact hroom

variable {size cap : B → Nat}

/-- A bin that takes items while it is not full, and tells when it is not, is full
when it did not tell. -/
theorem attempts_full (hsize : ∀ n b, size (v.put n b) = size b + 1)
    (hcap : ∀ n b, cap (v.put n b) = cap b) (hacc : ∀ b, v.accept b = true ↔ size b ≠ cap b)
    (hroom : ∀ b, v.room b = true ↔ size b < cap b) {m : Nat} (hle : size b ≤ cap b) (hm : 0 < m)
    (hlt : (attempts limit v m h b).1.item < limit)
    (hno : (attempts limit v m h b).1.room = false) :
    size (attempts limit v m h b).2 = cap (attempts limit v m h b).2 := by
  induction m generalizing h b with
  | zero => omega
  | succ m ih =>
    rw [attempts] at hlt hno ⊢
    split
    · rename_i hput
      rw [if_pos hput] at hlt hno
      have hlt' : size b < cap b := Nat.lt_of_le_of_ne hle ((hacc b).mp hput.2)
      have hle' : size (v.put h.item b) ≤ cap (v.put h.item b) := by
        rw [hsize, hcap]
        exact hlt'
      cases m with
      | zero =>
        have hnot : ¬ size (v.put h.item b) < cap (v.put h.item b) := by
          intro hr
          simp [attempts, (hroom _).mpr hr] at hno
        show size (v.put h.item b) = cap (v.put h.item b)
        omega
      | succ m => exact ih hle' (Nat.succ_pos m) hlt hno
    · rename_i hput
      rw [if_neg hput, attempts_of_not_put limit v hput] at hlt
      rw [attempts_of_not_put limit v hput]
      by_contra hne
      exact hput ⟨hlt, (hacc b).mpr hne⟩

/-- A whole sweep that reports no room has filled every bin. -/
theorem sweep_full (hsize : ∀ n b, size (v.put n b) = size b + 1)
    (hcap : ∀ n b, cap (v.put n b) = cap b) (hacc : ∀ b, v.accept b = true ↔ size b ≠ cap b)
    (hroom : ∀ b, v.room b = true ↔ size b < cap b) {bs : List B}
    (hbs : ∀ b ∈ bs, size b ≤ cap b ∧ 0 < v.turns b) (hlt : (sweep limit v h bs).1.item < limit)
    (hno : (sweep limit v h bs).1.room = false) : ∀ b ∈ (sweep limit v h bs).2, size b = cap b := by
  induction bs generalizing h with
  | nil => simp [sweep]
  | cons b bs ih =>
    have hitem : h.item < limit := Nat.lt_of_le_of_lt (sweep_item_le limit v h (b :: bs)) hlt
    rw [sweep_cons_pos limit v hitem] at hlt hno ⊢
    have hhead : (attempts limit v (v.turns b) h b).1.item < limit :=
      Nat.lt_of_le_of_lt (sweep_item_le limit v _ bs) hlt
    have hnohead : (attempts limit v (v.turns b) h b).1.room = false := by
      rw [← Bool.not_eq_true]
      intro hr
      rw [sweep_room limit v hr] at hno
      cases hno
    obtain ⟨hle, hturns⟩ := hbs b mem_cons_self
    intro c hc
    rcases List.mem_cons.mp hc with rfl | hc
    · exact attempts_full limit v hsize hcap hacc hroom hle hturns hhead hnohead
    · exact ih (fun d hd => hbs d (mem_cons_of_mem _ hd)) hlt hno c hc

/-- A bin that tells when it would take one more item takes none when it did not tell. -/
theorem attempts_stuck (htell : ∀ n b, v.accept (v.put n b) = true → v.room (v.put n b) = true)
    {m : Nat} (hm : 0 < m) (hlt : (attempts limit v m h b).1.item < limit)
    (hno : (attempts limit v m h b).1.room = false) :
    v.accept (attempts limit v m h b).2 = false := by
  induction m generalizing h b with
  | zero => omega
  | succ m ih =>
    rw [attempts] at hlt hno ⊢
    split
    · rename_i hput
      rw [if_pos hput] at hlt hno
      cases m with
      | zero =>
        rw [attempts, Bool.or_eq_false_iff] at hno
        by_contra hacc
        rw [attempts, Bool.not_eq_false] at hacc
        rw [htell _ _ hacc] at hno
        exact absurd hno.2 (by decide)
      | succ m => exact ih (Nat.succ_pos m) hlt hno
    · rename_i hput
      rw [if_neg hput, attempts_of_not_put limit v hput] at hlt
      rw [attempts_of_not_put limit v hput]
      by_contra hacc
      exact hput ⟨hlt, by simpa using hacc⟩

/-- A whole sweep that reports no room leaves no bin that takes one more item. -/
theorem sweep_stuck (htell : ∀ n b, v.accept (v.put n b) = true → v.room (v.put n b) = true)
    {bs : List B} (hturns : ∀ b, 0 < v.turns b) (hlt : (sweep limit v h bs).1.item < limit)
    (hno : (sweep limit v h bs).1.room = false) :
    ∀ b ∈ (sweep limit v h bs).2, v.accept b = false := by
  induction bs generalizing h with
  | nil => simp [sweep]
  | cons b bs ih =>
    have hitem : h.item < limit := Nat.lt_of_le_of_lt (sweep_item_le limit v h (b :: bs)) hlt
    rw [sweep_cons_pos limit v hitem] at hlt hno ⊢
    have hhead : (attempts limit v (v.turns b) h b).1.item < limit :=
      Nat.lt_of_le_of_lt (sweep_item_le limit v _ bs) hlt
    have hnohead : (attempts limit v (v.turns b) h b).1.room = false := by
      rw [← Bool.not_eq_true]
      intro hr
      rw [sweep_room limit v hr] at hno
      cases hno
    intro c hc
    rcases List.mem_cons.mp hc with rfl | hc
    · exact attempts_stuck limit v htell (hturns b) hhead hnohead
    · exact ih hlt hno c hc

/-- A bin with enough attempts is filled. -/
theorem attempts_fill (hsize : ∀ n b, size (v.put n b) = size b + 1)
    (hcap : ∀ n b, cap (v.put n b) = cap b) (hacc : ∀ b, v.accept b = true ↔ size b < cap b)
    {m : Nat} (hle : size b ≤ cap b) (hm : cap b ≤ size b + m)
    (hlt : (attempts limit v m h b).1.item < limit) :
    size (attempts limit v m h b).2 = cap (attempts limit v m h b).2 := by
  induction m generalizing h b with
  | zero =>
    show size b = cap b
    omega
  | succ m ih =>
    rw [attempts] at hlt ⊢
    split
    · rename_i hput
      rw [if_pos hput] at hlt
      have hroom := (hacc b).mp hput.2
      refine ih ?_ ?_ hlt
      · rw [hsize, hcap]
        exact hroom
      · rw [hsize, hcap]
        omega
    · rename_i hput
      rw [if_neg hput, attempts_of_not_put limit v hput] at hlt
      rw [attempts_of_not_put limit v hput]
      have hfull : ¬ size b < cap b := fun hroom => hput ⟨hlt, (hacc b).mpr hroom⟩
      show size b = cap b
      omega

/-- A whole sweep with enough attempts fills every bin. -/
theorem sweep_fill (hsize : ∀ n b, size (v.put n b) = size b + 1)
    (hcap : ∀ n b, cap (v.put n b) = cap b) (hacc : ∀ b, v.accept b = true ↔ size b < cap b)
    {bs : List B} (hbs : ∀ b ∈ bs, size b ≤ cap b ∧ cap b ≤ size b + v.turns b)
    (hlt : (sweep limit v h bs).1.item < limit) : ∀ b ∈ (sweep limit v h bs).2, size b = cap b := by
  induction bs generalizing h with
  | nil => simp [sweep]
  | cons b bs ih =>
    have hitem : h.item < limit := Nat.lt_of_le_of_lt (sweep_item_le limit v h (b :: bs)) hlt
    rw [sweep_cons_pos limit v hitem] at hlt ⊢
    obtain ⟨hle, hturns⟩ := hbs b mem_cons_self
    intro c hc
    rcases List.mem_cons.mp hc with rfl | hc
    · exact attempts_fill limit v hsize hcap hacc hle hturns
        (Nat.lt_of_le_of_lt (sweep_item_le limit v _ bs) hlt)
    · exact ih (fun d hd => hbs d (mem_cons_of_mem _ hd)) hlt c hc

/-- One attempt. -/
theorem attempts_one (h : Hand) (b : B) :
    attempts limit v 1 h b
      = if h.item < limit ∧ v.accept b = true then
          (⟨h.item + 1, h.room || v.room (v.put h.item b)⟩, v.put h.item b)
        else (h, b) := rfl

/-- A sweep of one attempt each raises the bins from level `j` to level `j + 1`, as
far as their capacity goes. -/
theorem sweep_level (j : Nat) (hturns : ∀ b, v.turns b = 1)
    (hsize : ∀ n b, size (v.put n b) = size b + 1) (hcap : ∀ n b, cap (v.put n b) = cap b)
    (hacc : ∀ b, v.accept b = true ↔ j < cap b) {bs : List B}
    (hbs : ∀ b ∈ bs, size b = min j (cap b)) (hlt : (sweep limit v h bs).1.item < limit) :
    ∀ b ∈ (sweep limit v h bs).2, size b = min (j + 1) (cap b) := by
  induction bs generalizing h with
  | nil => simp [sweep]
  | cons b bs ih =>
    have hitem : h.item < limit := Nat.lt_of_le_of_lt (sweep_item_le limit v h (b :: bs)) hlt
    rw [sweep_cons_pos limit v hitem, hturns, attempts_one] at hlt ⊢
    have hb := hbs b mem_cons_self
    by_cases hput : h.item < limit ∧ v.accept b = true
    · rw [if_pos hput] at hlt ⊢
      have hj := (hacc b).mp hput.2
      intro c hc
      rcases List.mem_cons.mp hc with rfl | hc
      · rw [hsize, hcap, hb]
        omega
      · exact ih (fun d hd => hbs d (mem_cons_of_mem _ hd)) hlt c hc
    · rw [if_neg hput] at hlt ⊢
      have hj : ¬ j < cap b := fun hj => hput ⟨hitem, (hacc b).mpr hj⟩
      intro c hc
      rcases List.mem_cons.mp hc with rfl | hc
      · rw [hb]
        omega
      · exact ih (fun d hd => hbs d (mem_cons_of_mem _ hd)) hlt c hc

/-- In the middle of such a sweep no bin is above level `j + 1`. -/
theorem sweep_level_le (j : Nat) (hturns : ∀ b, v.turns b = 1)
    (hsize : ∀ n b, size (v.put n b) = size b + 1) (hcap : ∀ n b, cap (v.put n b) = cap b)
    (hacc : ∀ b, v.accept b = true ↔ j < cap b) {bs : List B}
    (hbs : ∀ b ∈ bs, size b = min j (cap b)) : ∀ b ∈ (sweep limit v h bs).2, size b ≤ cap b := by
  intro c hc
  obtain ⟨b, hb, h', rfl⟩ := mem_sweep limit v hc
  have hlevel := hbs b hb
  rw [hturns, attempts_one]
  split
  · rename_i hput
    have hj := (hacc b).mp hput.2
    show size (v.put h'.item b) ≤ cap (v.put h'.item b)
    rw [hsize, hcap]
    omega
  · show size b ≤ cap b
    omega

/-- A whole sweep of one attempt each reports room when some bin can go further. -/
theorem sweep_level_room (j : Nat) (hturns : ∀ b, v.turns b = 1)
    (hcap : ∀ n b, cap (v.put n b) = cap b) (hacc : ∀ b, v.accept b = true ↔ j < cap b)
    (hroom : ∀ b, v.room b = true ↔ j + 1 < cap b) (bs : List B)
    (hlt : (sweep limit v h bs).1.item < limit) :
    (sweep limit v h bs).1.room = true ↔
      h.room = true ∨ ∃ b ∈ (sweep limit v h bs).2, j + 1 < cap b := by
  induction bs generalizing h with
  | nil => simp [sweep]
  | cons b bs ih =>
    have hitem : h.item < limit := Nat.lt_of_le_of_lt (sweep_item_le limit v h (b :: bs)) hlt
    rw [sweep_cons_pos limit v hitem, hturns, attempts_one] at hlt ⊢
    by_cases hput : h.item < limit ∧ v.accept b = true
    · rw [if_pos hput] at hlt ⊢
      simp only [ih hlt, Bool.or_eq_true, hroom, mem_cons, exists_eq_or_imp, hcap, or_assoc]
    · rw [if_neg hput] at hlt ⊢
      have hj : ¬ j + 1 < cap b := fun hj => hput ⟨hitem, (hacc b).mpr (by omega)⟩
      simp only [ih hlt, mem_cons, exists_eq_or_imp, hj, false_or]

/-- A sweep that gives every bin one item, as long as there are any. -/
theorem sweep_each (hturns : ∀ b, v.turns b = 1) (hacc : ∀ b, v.accept b = true)
    (hle : h.item ≤ limit) (bs : List B) :
    (sweep limit v h bs).1.item = min limit (h.item + bs.length) ∧
      ∀ i : Nat, (sweep limit v h bs).2[i]?
        = bs[i]?.map fun b => if h.item + i < limit then v.put (h.item + i) b else b := by
  induction bs generalizing h with
  | nil => simp [sweep, hle]
  | cons b bs ih =>
    by_cases hitem : h.item < limit
    · rw [sweep_cons_pos limit v hitem, hturns, attempts_one, if_pos ⟨hitem, hacc b⟩]
      obtain ⟨hcount, hget⟩ := ih (h := ⟨h.item + 1, h.room || v.room (v.put h.item b)⟩) hitem
      constructor
      · show (sweep limit v ⟨h.item + 1, h.room || v.room (v.put h.item b)⟩ bs).1.item = _
        rw [hcount, length_cons]
        show min limit (h.item + 1 + bs.length) = min limit (h.item + (bs.length + 1))
        rw [Nat.add_right_comm, Nat.add_assoc]
      · intro i
        cases i with
        | zero => simp [hitem]
        | succ i =>
          rw [getElem?_cons_succ, getElem?_cons_succ, hget i]
          simp only [Nat.add_assoc, Nat.add_comm 1 i]
    · rw [sweep_of_limit_le limit v (by omega)]
      refine ⟨by simp only; omega, fun i => ?_⟩
      have hnone : ∀ b : B, (if h.item + i < limit then v.put (h.item + i) b else b) = b :=
        fun b => if_neg (by omega)
      simp [hnone]

end Progress

/-! ## Rounds -/

/-- Rounds end, with what they keep, when a measure drops in each of them.  The
outcome does not depend on the fuel. -/
theorem rounds_total (limit : Nat) (round : Round B) (P : Nat → Bool → Nat → List B → Prop)
    (μ : Bool → Nat → Nat)
    (hround : ∀ j overSub t bs, t < limit → P j overSub t bs →
      P (j + 1) (overSub || !(round j overSub t bs).1.room) (round j overSub t bs).1.item
          (round j overSub t bs).2 ∧
        μ (overSub || !(round j overSub t bs).1.room) (round j overSub t bs).1.item < μ overSub t)
    (j : Nat) (overSub : Bool) (t : Nat) (bs : List B) (hP : P j overSub t bs) :
    ∃ j' overSub' u bs', limit ≤ u ∧ P j' overSub' u bs' ∧
      ∀ fuel, μ overSub t ≤ fuel → rounds limit round fuel j overSub t bs = some (u, bs') := by
  induction hm : μ overSub t using Nat.strongRecOn generalizing j overSub t bs with
  | _ m ih =>
    by_cases hlt : t < limit
    · obtain ⟨hP', hdrop⟩ := hround j overSub t bs hlt hP
      obtain ⟨j', overSub', u, bs', hu, hend, hrun⟩ := ih _ (by rw [← hm]; exact hdrop) _ _ _ _ hP' rfl
      refine ⟨j', overSub', u, bs', hu, hend, fun fuel hfuel => ?_⟩
      cases fuel with
      | zero => omega
      | succ fuel =>
        rw [rounds, if_pos hlt]
        exact hrun fuel (by omega)
    · refine ⟨j, overSub, t, bs, Nat.le_of_not_lt hlt, hP, fun fuel _ => ?_⟩
      cases fuel <;> rw [rounds, if_neg hlt]

/-! ## Bins that count in a machine word -/

section Word

variable {limit m : Nat} {v v' : Turn B} {size : B → Nat}

/-- `v'` treats bins as `v` does, while the sizes stay up to `m`. -/
structure Agree (size : B → Nat) (m : Nat) (v v' : Turn B) : Prop where
  grow : ∀ n b, size (v.put n b) = size b + 1
  turns : v'.turns = v.turns
  accept : v'.accept = v.accept
  room : v'.room = v.room
  put : ∀ n b, size (v.put n b) ≤ m → v'.put n b = v.put n b

theorem attempts_congr (hv : Agree size m v v') (n : Nat) (h : Hand) (b : B)
    (hm : size (attempts limit v n h b).2 ≤ m) :
    attempts limit v' n h b = attempts limit v n h b := by
  induction n generalizing h b with
  | zero => rfl
  | succ n ih =>
    rw [attempts] at hm
    rw [attempts, attempts, hv.accept]
    split
    · rename_i hput
      rw [if_pos hput] at hm
      have hle := (attempts_deal limit v n ⟨h.item + 1, h.room || v.room (v.put h.item b)⟩
        (v.put h.item b)).size_le hv.grow (m := m) (by simpa using hm)
      rw [hv.put _ _ (hle _ mem_cons_self), hv.room]
      exact ih _ _ hm
    · rename_i hput
      rw [if_neg hput] at hm
      exact ih _ _ hm

theorem sweep_congr (hv : Agree size m v v') (h : Hand) (bs : List B)
    (hm : ∀ b ∈ (sweep limit v h bs).2, size b ≤ m) :
    sweep limit v' h bs = sweep limit v h bs := by
  induction bs generalizing h with
  | nil => rfl
  | cons b bs ih =>
    by_cases hlt : h.item < limit
    · rw [sweep_cons_pos limit v hlt] at hm
      rw [sweep_cons_pos limit v' hlt, sweep_cons_pos limit v hlt, hv.turns,
        attempts_congr hv _ _ _ (hm _ mem_cons_self),
        ih _ fun c hc => hm c (mem_cons_of_mem _ hc)]
    · rw [sweep_of_limit_le limit v' (Nat.le_of_not_lt hlt),
        sweep_of_limit_le limit v (Nat.le_of_not_lt hlt)]

theorem rounds_congr {put : Nat → B → B} {ok : B → Prop} {round round' : Round B}
    (hgrow : ∀ n b, size (put n b) = size b + 1)
    (hround : ∀ j overSub t bs, Deal put ok limit t bs (round j overSub t bs).1.item (round j overSub t bs).2)
    (hagree : ∀ j overSub t bs, (∀ b ∈ (round j overSub t bs).2, size b ≤ m) →
      round' j overSub t bs = round j overSub t bs)
    {fuel j : Nat} {overSub : Bool} {t u : Nat} {bs bs' : List B}
    (h : rounds limit round fuel j overSub t bs = some (u, bs')) (hm : ∀ b ∈ bs', size b ≤ m) :
    rounds limit round' fuel j overSub t bs = some (u, bs') := by
  induction fuel generalizing j overSub t bs with
  | zero => exact h
  | succ fuel ih =>
    rw [rounds] at h ⊢
    split
    · rename_i hlt
      rw [if_pos hlt] at h
      rw [hagree j overSub t bs ((rounds_deal hround h).size_le hgrow hm)]
      exact ih h
    · rename_i hlt
      rwa [if_neg hlt] at h

end Word

end Lib.Dealing
