import Slurm.JobId.Written

/-!
# Reading array expressions

* `parseTok_spec`: a token sets the tasks of its item, if that is in range.
* `str2bitmap_spec`: the bitmap of an array expression.
* `bit_bitmapOf`: the tasks of a bitmap.
-/

namespace Slurm.JobId

open Lib List
open Slurm.Bitstring (Bitstr ValidSize bitAlloc bitSet bitFls bit_bitSet bitSet_nbits bit_bitAlloc)

variable {s t : List Char} {v : Int}

/-! ## Strings -/

theorem advance_of_head {c : Char} (h : s.head? = some c) : advance s = .ok s.tail := by
  cases s with
  | nil => cases h
  | cons c' s => rfl

theorem skipOpen_eq (s : List Char) : skipOpen s = .ok (dropOpen s) := by
  rw [skipOpen, dropOpen]
  split
  · rename_i h
    exact advance_of_head h
  · rfl

theorem skipClose_eq (s : List Char) : skipClose s = .ok (dropClose s) := by
  rw [skipClose, dropClose]
  split
  · rename_i h
    exact advance_of_head h
  · rfl

theorem ok_bind {α β : Type} (a : α) (f : α → Run β) : ((.ok a : Run α) >>= f) = f a := rfl

/-! ## Numbers -/

theorem number_none (h : (number s).1 = none) : (number s).2 = s := by
  rw [number] at h ⊢
  split at h
  · rename_i hnil
    rw [if_pos hnil]
  · cases h

theorem length_strtoulSign (s : List Char) : (Hostlist.strtoulSign s).2.length ≤ s.length := by
  unfold Hostlist.strtoulSign
  split <;> simp

/-- A number is not empty. -/
theorem number_some (h : (number s).1 = some v) : (number s).2 ≠ s := by
  rw [number] at h ⊢
  split at h
  · cases h
  · rename_i hdigits
    rw [if_neg hdigits]
    intro heq
    have hlen : ((Hostlist.strtoulSign (s.dropWhile Hostlist.isSpace)).2.dropWhile
        Char.isDigit).length = s.length := congrArg List.length heq
    have hsplit := congrArg List.length
      (@takeWhile_append_dropWhile _ Char.isDigit (Hostlist.strtoulSign (s.dropWhile Hostlist.isSpace)).2)
    have hpos := length_pos_of_ne_nil hdigits
    have hsign := length_strtoulSign (s.dropWhile Hostlist.isSpace)
    have hspace := (dropWhile_suffix (l := s) Hostlist.isSpace).length_le
    rw [length_append] at hsplit
    omega

theorem strtol_none (h : (number s).1 = none) : strtol s = ⟨0, s, false⟩ := by
  rw [strtol, h, number_none h]
  rfl

theorem strtol_some (h : (number s).1 = some v) : strtol s =
    ⟨max longMin (min longMax v), (number s).2, decide (v < longMin ∨ longMax < v)⟩ := by
  rw [strtol, h]
  rfl

/-- The value of a number within a `long`, or of one that is not there. -/
theorem strtol_val (s : List Char) :
    (strtol s).val = max longMin (min longMax ((number s).1.getD 0)) := rfl

theorem strtol_endPtr (s : List Char) : (strtol s).endPtr = (number s).2 := rfl

/-! ## Tokens -/

variable {max : Nat} {b b' : Bitstr}

/-- The end of a token, in terms of the numbers that are written. -/
theorem setTok_spec {first last step first' last' : Int} (hfirst : 0 ≤ first')
    (hf : first' = Max.max longMin (min longMax first)) (hl : last' = Max.max longMin (min longMax last))
    (hmax : (max : Int) < longMax) :
    setTok b max first' last' step =
      if 0 ≤ first ∧ first ≤ last ∧ last < max then some (setSteps b first last step) else none := by
  have hmin : longMin = -9223372036854775808 := rfl
  have hlong : longMax = 9223372036854775807 := rfl
  rw [setTok]
  split
  · rw [if_neg (by omega)]
  · split
    · rw [if_neg (by omega)]
    · rw [if_pos (by omega), show first' = first by omega, show last' = last by omega]

theorem Item.inRange_iff (item : Item) : item.InRange max ↔
    (0 ≤ item.lo ∧ item.lo ≤ item.hi ∧ item.hi < max) ∧
      ∀ step, item.step = some step → 0 < item.stride ∧ item.stride < max :=
  ⟨fun h => ⟨⟨h.lo_nonneg, h.lo_le, h.hi_lt⟩, h.step⟩,
    fun h => ⟨h.1.1, h.1.2.1, h.1.2.2, h.2⟩⟩

/-- What a token does. -/
def tokResult (b : Bitstr) (max : Nat) (item : Item) : Option Bitstr :=
  if 0 ≤ item.lo ∧ item.lo ≤ item.hi ∧ item.hi < max then
    if item.step = none ∨ (0 < item.stride ∧ item.stride < max) then
      some (setSteps b item.lo item.hi item.stride)
    else none
  else none

theorem tokResult_eq_some {item : Item} : tokResult b max item = some b' ↔
    item.InRange max ∧ b' = setSteps b item.lo item.hi item.stride := by
  rw [tokResult, Item.inRange_iff]
  split
  · rename_i hrange
    split
    · rename_i hstep
      rw [Option.some.injEq]
      refine ⟨fun h => ⟨⟨hrange, fun step hs => ?_⟩, h.symm⟩, fun h => h.2.symm⟩
      rcases hstep with hnone | hstep
      · rw [hnone] at hs
        cases hs
      · exact hstep
    · rename_i hstep
      refine iff_of_false nofun fun h => hstep ?_
      cases hs : item.step with
      | none => exact .inl rfl
      | some step => exact .inr (h.1.2 step hs)
  · rename_i hrange
    exact iff_of_false nofun fun h => hrange h.1.1

variable {item : Item}

theorem scanItem_first (h : scanItem t = some item) : item.first = (number t).1 := by
  simp only [scanItem] at h
  split at h
  · split at h
    · split at h
      · rw [← Option.some.inj h]
      · cases h
    · split at h
      · rw [← Option.some.inj h]
      · cases h
  · split at h
    · rw [← Option.some.inj h]
    · cases h

/-- An item that starts below zero. -/
theorem scanItem_negative (h : (number t).1.getD 0 < 0) : (scanItem t).bind (tokResult b max) = none := by
  cases hitem : scanItem t with
  | none => rfl
  | some item =>
    rw [Option.bind_some, tokResult, if_neg]
    rw [Item.lo, scanItem_first hitem]
    omega

/-- A token sets the tasks of its item, if that is in range. -/
theorem parseTok_eq (tok : List Char) (b : Bitstr) (hmax : (max : Int) < longMax) :
    slurmParseArrayTok tok b max = .ok ((scanTok tok).bind (tokResult b max)) := by
  have hmin : longMin = -9223372036854775808 := rfl
  have hlong : longMax = 9223372036854775807 := rfl
  rw [slurmParseArrayTok, scanTok, skipOpen_eq, ok_bind]
  generalize dropOpen tok = t
  simp only [skipClose_eq, ok_bind, strtol_endPtr]
  by_cases hneg : (strtol t).val < 0
  · rw [if_pos hneg, scanItem_negative]
    · rfl
    · rw [strtol_val] at hneg
      omega
  rw [if_neg hneg]
  have hfirst := strtol_val t
  simp only [scanItem]
  by_cases hdash : (dropClose (number t).2).head? = some '-'
  · rw [if_pos hdash, if_pos hdash, advance_of_head hdash]
    rw [ok_bind]
    generalize (dropClose (number t).2).tail = t₂
    have hlast := strtol_val t₂
    by_cases hcolon : (dropClose (number t₂).2).head? = some ':'
    · rw [if_pos hcolon, if_pos hcolon, advance_of_head hcolon]
      rw [ok_bind]
      generalize (dropClose (number t₂).2).tail = t₃
      have hstep := strtol_val t₃
      by_cases hends : TokEnds (dropClose (number t₃).2)
      · rw [if_neg (not_not_intro hends), if_pos hends, Option.bind_some]
        rw [setTok_spec (Int.not_lt.mp hneg) hfirst hlast hmax]
        simp only [tokResult, Item.lo, Item.hi, Item.stride, Option.map_some, Option.getD_some,
          reduceCtorEq, false_or]
        by_cases hbad : (strtol t₃).val ≤ 0 ∨ (strtol t₃).val ≥ max
        · rw [if_pos hbad, if_neg (show ¬ (0 < (number t₃).1.getD 0 ∧ (number t₃).1.getD 0 < max) by omega),
            ite_self]
          rfl
        · rw [if_neg hbad, if_pos (show 0 < (number t₃).1.getD 0 ∧ (number t₃).1.getD 0 < max by omega),
            show (strtol t₃).val = (number t₃).1.getD 0 by omega]
          rfl
      · rw [if_pos hends, if_neg hends]
        rfl
    · rw [if_neg hcolon, if_neg hcolon]
      by_cases hends : TokEnds (dropClose (number t₂).2)
      · rw [if_neg (not_not_intro hends), if_pos hends, Option.bind_some,
          setTok_spec (Int.not_lt.mp hneg) hfirst hlast hmax]
        simp [tokResult, Item.lo, Item.hi, Item.stride, pure, Except.pure]
      · rw [if_pos hends, if_neg hends]
        rfl
  · rw [if_neg hdash, if_neg hdash]
    by_cases hends : TokEnds (dropClose (number t).2)
    · rw [if_neg (not_not_intro hends), if_pos hends, Option.bind_some,
        setTok_spec (Int.not_lt.mp hneg) hfirst hfirst hmax]
      simp [tokResult, Item.lo, Item.hi, Item.stride, pure, Except.pure]
    · rw [if_pos hends, if_neg hends]
      rfl

/-! ## Bitmaps -/

/-- A loop that sets bits. -/
theorem bit_foldl_bitSet {f : Nat → Nat} {l : List Nat} (h : ∀ k ∈ l, f k < b.nbits) :
    (l.foldl (fun b k => bitSet b (f k)) b).nbits = b.nbits ∧
      ∀ j, (l.foldl (fun b k => bitSet b (f k)) b).bit j = true ↔ b.bit j = true ∨ ∃ k ∈ l, f k = j := by
  induction l generalizing b with
  | nil => simp
  | cons k l ih =>
    obtain ⟨hnbits, hbits⟩ := @ih (bitSet b (f k)) fun k' hk' => by
      rw [bitSet_nbits]
      exact h k' (mem_cons_of_mem k hk')
    rw [foldl_cons]
    refine ⟨hnbits, fun j => ?_⟩
    rw [hbits, bit_bitSet (h k mem_cons_self), Bool.or_eq_true, decide_eq_true_iff,
      exists_mem_cons_iff, eq_comm]
    tauto

theorem Item.stride_pos (h : item.InRange max) : 0 < item.stride := by
  cases hs : item.step with
  | none =>
    rw [Item.stride, hs]
    exact Int.one_pos
  | some step => exact (h.step step hs).1

/-- The tasks that the loop of a token goes through. -/
theorem Item.has_iff (h : item.InRange max) (j : Nat) : item.Has j ↔
    ∃ k ∈ List.range ((item.hi - item.lo) / item.stride + 1).toNat,
      (item.lo + (k : Nat) * item.stride).toNat = j := by
  have hpos := item.stride_pos h
  have hlo := h.lo_nonneg
  have hle := h.lo_le
  have hdiv : 0 ≤ (item.hi - item.lo) / item.stride := Int.ediv_nonneg (by omega) (by omega)
  constructor
  · intro hj
    obtain ⟨hfirst, hlast, k, hk⟩ := hj
    have hk₀ : 0 ≤ k := by
      by_contra hneg
      have := Int.mul_neg_of_pos_of_neg hpos (Int.not_le.mp hneg)
      omega
    refine ⟨k.toNat, List.mem_range.mpr ?_, ?_⟩
    · have hkdiv : k ≤ (item.hi - item.lo) / item.stride := by
        rw [Int.le_ediv_iff_mul_le hpos, Int.mul_comm]
        omega
      omega
    · rw [Int.toNat_of_nonneg hk₀, Int.mul_comm]
      omega
  · intro hj
    obtain ⟨k, hk, rfl⟩ := hj
    rw [mem_range] at hk
    have hkdiv : (k : Int) ≤ (item.hi - item.lo) / item.stride := by omega
    rw [Int.le_ediv_iff_mul_le hpos] at hkdiv
    have hmul : 0 ≤ (k : Int) * item.stride := Int.mul_nonneg (by omega) (by omega)
    rw [Item.Has, Int.toNat_of_nonneg (by omega)]
    refine ⟨by omega, by omega, ?_⟩
    rw [add_sub_cancel_left]
    exact Int.dvd_mul_left _ _

/-- The bits of a token. -/
theorem bit_setSteps (h : item.InRange max) (hmax : b.nbits = max) :
    (setSteps b item.lo item.hi item.stride).nbits = max ∧
      ∀ j, (setSteps b item.lo item.hi item.stride).bit j = true ↔ b.bit j = true ∨ item.Has j := by
  have hlt : ∀ k ∈ List.range ((item.hi - item.lo) / item.stride + 1).toNat,
      (item.lo + (k : Nat) * item.stride).toNat < b.nbits := by
    intro k hk
    have hhas := (item.has_iff h _).mpr ⟨k, hk, rfl⟩
    have hhi := h.hi_lt
    have := hhas.2.1
    rw [hmax]
    omega
  obtain ⟨hnbits, hbits⟩ := bit_foldl_bitSet hlt
  refine ⟨hnbits.trans hmax, fun j => ?_⟩
  rw [item.has_iff h]
  exact hbits j

/-- The bits of items. -/
def setItems (b : Bitstr) (items : List Item) : Bitstr :=
  items.foldl (fun b item => setSteps b item.lo item.hi item.stride) b

theorem bit_setItems {items : List Item} (h : ∀ item ∈ items, item.InRange max) (hmax : b.nbits = max) :
    (setItems b items).nbits = max ∧
      ∀ j, (setItems b items).bit j = true ↔ b.bit j = true ∨ ∃ item ∈ items, item.Has j := by
  induction items generalizing b with
  | nil => simp [setItems, hmax]
  | cons item items ih =>
    obtain ⟨hnbits, hbits⟩ := bit_setSteps (h item mem_cons_self) hmax
    obtain ⟨hnbits', hbits'⟩ := ih (fun item' hitem' => h item' (mem_cons_of_mem item hitem')) hnbits
    refine ⟨hnbits', fun j => ?_⟩
    rw [setItems, foldl_cons]
    exact (hbits' j).trans (by rw [hbits, exists_mem_cons_iff, or_assoc])

/-- The bitmap of an array expression has its tasks. -/
theorem setDenotes_bitmap {items : List Item} (h : ∀ item ∈ items, item.InRange max) (hsize : ValidSize max) :
    SetDenotes max items (setItems (bitAlloc max hsize) items) := by
  obtain ⟨hnbits, hbits⟩ := @bit_setItems max (bitAlloc max hsize) items h rfl
  refine ⟨hnbits, fun j => ?_⟩
  rw [hbits, bit_bitAlloc]
  simp

/-! ## Array expressions -/

theorem mapM_cons_eq_some {α β : Type} {f : α → Option β} {a : α} {as : List α} {bs : List β} :
    (a :: as).mapM f = some bs ↔ ∃ b bs', f a = some b ∧ as.mapM f = some bs' ∧ bs = b :: bs' := by
  simp only [RangeList.mapM_eq_some, List.forall₂_cons_left_iff]

/-- What the loop over the tokens makes. -/
theorem tokLoop_spec (hmax : (max : Int) < longMax) (toks : List (List Char)) (b : Bitstr) :
    ∃ r, tokLoop max toks b = .ok r ∧ ∀ b', r = some b' ↔
      ∃ items, toks.mapM scanTok = some items ∧ (∀ item ∈ items, item.InRange max) ∧
        b' = setItems b items := by
  induction toks generalizing b with
  | nil => exact ⟨some b, rfl, fun b' => by simp [setItems, eq_comm]⟩
  | cons tok toks ih =>
    rw [tokLoop, parseTok_eq tok b hmax, ok_bind]
    cases htok : (scanTok tok).bind (tokResult b max) with
    | none =>
      refine ⟨none, rfl, fun b' => iff_of_false nofun fun h => ?_⟩
      obtain ⟨items, hitems, hrange, -⟩ := h
      obtain ⟨item, items', hitem, -, rfl⟩ := mapM_cons_eq_some.mp hitems
      rw [hitem, Option.bind_some] at htok
      have hres := (@tokResult_eq_some max b _ item).mpr ⟨hrange item mem_cons_self, rfl⟩
      rw [htok] at hres
      cases hres
    | some b₁ =>
      obtain ⟨item, hitem, hres⟩ := Option.bind_eq_some_iff.mp htok
      obtain ⟨hin, rfl⟩ := tokResult_eq_some.mp hres
      obtain ⟨r, hrun, hr⟩ := ih (setSteps b item.lo item.hi item.stride)
      refine ⟨r, hrun, fun b' => ?_⟩
      rw [hr]
      constructor
      · intro h
        obtain ⟨items, hitems, hrange, hb'⟩ := h
        exact ⟨item :: items, mapM_cons_eq_some.mpr ⟨item, items, hitem, hitems, rfl⟩,
          List.forall_mem_cons.mpr ⟨hin, hrange⟩, hb'⟩
      · intro h
        obtain ⟨items, hitems, hrange, hb'⟩ := h
        obtain ⟨item', items', hitem', hitems', rfl⟩ := mapM_cons_eq_some.mp hitems
        rw [hitem, Option.some.injEq] at hitem'
        subst hitem'
        exact ⟨items', hitems', (List.forall_mem_cons.mp hrange).2, hb'⟩

theorem bitmapOf_eq (hsize : ValidSize max) (items : List Item) :
    bitmapOf max items = some (setItems (bitAlloc max hsize) items) := by
  rw [bitmapOf, dif_pos hsize]
  rfl

theorem validSize_lt (hsize : ValidSize max) : (max : Int) < longMax := by
  have hle := hsize.2
  have hlong : longMax = 9223372036854775807 := rfl
  omega

/-- The first task of an item. -/
theorem Item.has_lo (h : item.InRange max) : item.Has item.lo.toNat := by
  rw [Item.Has, Int.toNat_of_nonneg h.lo_nonneg]
  exact ⟨Int.le_refl _, h.lo_le, by rw [Int.sub_self]; exact Int.dvd_zero _⟩

/-- The bitmap of an array expression that has a token. -/
theorem str2bitmap_spec (hsize : ValidSize max) {str : List Char} (hstr : strtok str ≠ []) :
    ∃ r, slurmArrayStr2bitmap str max = .ok r ∧ ∀ b, r = some b ↔
      ∃ items, (strtok str).mapM scanTok = some items ∧ (∀ item ∈ items, item.InRange max) ∧
        bitmapOf max items = some b := by
  have hno : max ≠ noVal := by
    have hle := hsize.2
    rw [noVal]
    omega
  obtain ⟨r, hrun, hr⟩ := tokLoop_spec (validSize_lt hsize) (strtok str) (bitAlloc max hsize)
  rw [slurmArrayStr2bitmap, dif_pos ⟨hno, hsize⟩, hrun, ok_bind]
  cases r with
  | none =>
    refine ⟨none, rfl, fun b => (hr b).trans ?_⟩
    simp only [bitmapOf_eq hsize, Option.some.injEq, eq_comm]
  | some b₁ =>
    obtain ⟨items, hitems, hrange, hb₁⟩ := (hr b₁).mp rfl
    have hset : bitFls b₁ ≠ none := by
      cases hfirst : strtok str with
      | nil => exact absurd hfirst hstr
      | cons tok toks =>
        rw [hfirst] at hitems
        obtain ⟨item, items', -, -, rfl⟩ := mapM_cons_eq_some.mp hitems
        have hin := hrange item mem_cons_self
        have hden := setDenotes_bitmap hrange hsize
        rw [← hb₁] at hden
        intro hnone
        have hlast := Bitstring.bitFls_isLast b₁
        rw [hnone] at hlast
        refine hlast item.lo.toNat ⟨?_, (hden.bits _).mpr ⟨item, mem_cons_self, item.has_lo hin⟩⟩
        have hlo := hin.lo_nonneg
        have hle := hin.lo_le
        have hhi := hin.hi_lt
        rw [hden.nbits]
        omega
    refine ⟨some b₁, if_neg hset, fun b => (hr b).trans ?_⟩
    simp only [bitmapOf_eq hsize, Option.some.injEq, eq_comm]

end Slurm.JobId
