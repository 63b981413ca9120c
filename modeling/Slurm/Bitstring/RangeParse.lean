import Slurm.Bitstring.Observers
import Slurm.Hostlist.Model
import Slurm.Lib.RangeList
import Slurm.Lib.Int32

/-!
# Reading of range strings (`bit_unfmt`)

`bitfmt2int` makes an array of pairs of a text, with a loop over the characters or, where there is a
colon, with `strtol`.  `inx2bitstr` sets the bits of each pair up to the first that starts with -1.
Numbers are `int32_t` and wrap around.

* `bitfmt2int_list`: the array of a list of ranges.
* `bitfmt2int_step`: the array of a range with a step.
* `inxLoop_pairs`: the bits that an array sets.
-/

namespace Slurm.Bitstring

open Lib.Decimal Lib.RangeList Lib.Int32 List
open Slurm.Hostlist (isSpace strtoulSign)

variable {r : Nat × Nat} {pairs : List (Int × Int)} {b : Bitstr}

/-! ## The functions -/

/-- `strtol` in base 10: the number at the start, within the range of a `long`, and what is
after it. -/
def strtol (s : List Char) : Int × List Char :=
  let (negative, t) := strtoulSign (s.dropWhile isSpace)
  let digits := t.takeWhile Char.isDigit
  if digits = [] then (0, s)
  else if negative then (max (-9223372036854775808) (-(value digits : Int)), t.dropWhile Char.isDigit)
  else (min 9223372036854775807 (value digits : Int), t.dropWhile Char.isDigit)

/-- The first number of a pair. -/
def startOf (startVal sum : Int) : Int := if startVal = -1 then sum else startVal

/-- The loop of `bitfmt2int` over the characters, with what it puts into the array.  The end of the
list is the `'\0'`. -/
def listLoop : List Char → Int → Int → List Int
  | [], startVal, sum => [startOf startVal sum, sum]
  | c :: str, startVal, sum =>
    if c.isDigit = true then listLoop str startVal (wrap (sum * 10 + digit c))
    else if c = '-' then listLoop str sum 0
    else if c = ',' then startOf startVal sum :: sum :: listLoop str (-1) 0
    else listLoop str startVal sum

/-- The loop of `bitfmt2int` from one bit to the next of a range with a step.  The array has room for
as many pairs; it is overrun where it is too small. -/
def stepLoop (last step : Int) : Nat → Int → Option (List Int)
  | 0, i => if i < last then none else some [-1]
  | room + 1, i =>
    if i < last then (stepLoop last step room (wrap (i + step))).map fun inx => i :: i :: inx
    else some [-1]

/-- What `bitfmt2int` returns. -/
inductive Indices where
  | null
  | array (inx : List Int)
  | overrun
  deriving DecidableEq

/-- A range with a step.  The size of the array is an `int32_t`. -/
def stepIndices (start last step : Int) : Indices :=
  let size := (wrap (last - start)).tdiv step + 1
  if size * 2 + 1 ≤ 0 ∨ 2147483648 ≤ size * 2 + 1 then .overrun
  else (stepLoop last step size.toNat start).elim .overrun .array

/-- The step format of `bitfmt2int`. -/
def stepFormat (str : List Char) : Indices :=
  let (start, tmp) := strtol str
  if tmp.head? ≠ some '-' then .null
  else
    let (last, tmp) := strtol tmp.tail
    if tmp.head? ≠ some ':' then .null
    else
      let (step, tmp) := strtol tmp.tail
      if tmp ≠ [] then .null
      else if wrap last < wrap start ∨ wrap step ≤ 0 then .null
      else stepIndices (wrap start) (wrap last) (wrap step)

/-- `bitfmt2int`.  The size of the array for a list, twice that of the text and one more, is an
`int32_t` as well. -/
def bitfmt2int (str : List Char) : Indices :=
  if ':' ∈ str then stepFormat str
  else if 1073741824 ≤ str.length + 1 then .overrun
  else if str = [] ∨ str.head? = some ',' then .array [-1]
  else .array (listLoop str (-1) 0 ++ [-1])

/-- A number of `inx` is no bit. -/
def OutOfRange (bitCnt p : Int) : Prop := p < 0 ∨ bitCnt ≤ p

instance (bitCnt p : Int) : Decidable (OutOfRange bitCnt p) := inferInstanceAs (Decidable (_ ∨ _))

/-- The loop of `inx2bitstr`, which is nothing where it leaves the array. -/
def inxLoop (bitCnt : Int) : List Int → Bitstr → Option (Int × Bitstr)
  | [], _ => none
  | [p], b => if p = -1 then some (0, b) else none
  | p :: q :: inx, b =>
    if p = -1 then some (0, b)
    else if OutOfRange bitCnt p ∨ OutOfRange bitCnt q then some (-1, b)
    else inxLoop bitCnt inx (bitNset b p.toNat q.toNat)

/-- `inx2bitstr` -/
def inx2bitstr (b : Bitstr) (inx : List Int) : Option (Int × Bitstr) :=
  inxLoop b.nbits inx (bitNclear b 0 (b.nbits - 1))

/-- `bit_unfmt` -/
def bitUnfmt (b : Bitstr) (str : Option (List Char)) : Option (Int × Bitstr) :=
  if str.getD [] = [] then some (0, b)
  else
    match bitfmt2int (str.getD []) with
    | .null => some (-1, b)
    | .array inx => inx2bitstr b inx
    | .overrun => none

/-! ## Lists of ranges -/

/-- The numbers of pairs, one after another. -/
def flat (pairs : List (Int × Int)) : List Int := pairs.flatMap fun p => [p.1, p.2]

theorem flat_cons (p : Int × Int) (pairs : List (Int × Int)) : flat (p :: pairs) = p.1 :: p.2 :: flat pairs :=
  rfl

theorem flat_append (ps qs : List (Int × Int)) : flat (ps ++ qs) = flat ps ++ flat qs := flatMap_append

/-- The pair that is read of a range. -/
def pairOf (r : Nat × Nat) : Int × Int := (startOf (wrap r.1) (wrap r.2), wrap r.2)

theorem startOf_self (x : Int) : startOf x x = x := by
  rw [startOf]
  split <;> rfl

theorem startOf_minus_one (x : Int) : startOf (-1) x = x := if_pos rfl

theorem pairOf_eq (h1 : r.1 < 2147483648) (h2 : r.2 < 2147483648) : pairOf r = (↑r.1, ↑r.2) := by
  rw [pairOf, wrap_eq (by omega) (by omega), wrap_eq (by omega) (by omega), startOf,
    if_neg (by omega)]

/-- A run of digits. -/
theorem listLoop_digits {ds : List Char} (h : ∀ c ∈ ds, c.isDigit = true) (rest : List Char)
    (startVal : Int) (m : Nat) :
    listLoop (ds ++ rest) startVal (wrap m) =
      listLoop rest startVal (wrap (Nat.ofDigitChars 10 ds m : Nat)) := by
  induction ds generalizing m with
  | nil => rfl
  | cons c ds ih =>
    have hstep : wrap (wrap (m : Int) * 10 + (digit c : Nat)) = wrap ((10 * m + digit c : Nat) : Int) := by
      rw [← wrap_wrap_add, wrap_wrap_mul, wrap_wrap_add]
      push_cast
      rw [Int.mul_comm]
    rw [cons_append, listLoop, if_pos (h c mem_cons_self), hstep,
      ih fun d hd => h d (mem_cons_of_mem c hd), Nat.ofDigitChars_cons]
    rfl

theorem listLoop_number {ds : List Char} (h : IsNumber ds) (rest : List Char) (startVal : Int) :
    listLoop (ds ++ rest) startVal 0 = listLoop rest startVal (wrap (value ds)) := by
  have hrun := listLoop_digits h.2 rest startVal 0
  rw [Nat.cast_zero, wrap_eq (by decide) (by decide)] at hrun
  exact hrun

/-- A piece, up to the comma or to the end. -/
theorem listLoop_piece {p : List Char} (h : readPiece p = some r) (rest : List Char) :
    ∃ startVal, startOf startVal (wrap r.2) = (pairOf r).1 ∧
      listLoop (p ++ rest) (-1) 0 = listLoop rest startVal (wrap r.2) := by
  rcases readPiece_eq_some h with ⟨hp, rfl⟩ | ⟨lo, hi, hlo, hhi, rfl, rfl⟩
  · refine ⟨-1, ?_, listLoop_number hp rest _⟩
    rw [startOf_minus_one, pairOf, startOf_self]
  · refine ⟨wrap (value lo), rfl, ?_⟩
    rw [append_assoc, listLoop_number hlo, cons_append, listLoop, if_neg (by decide),
      if_pos rfl, listLoop_number hhi]

/-- The pairs of a list. -/
theorem listLoop_pieces {pieces : List (List Char)} {rs : List (Nat × Nat)}
    (h : List.Forall₂ (fun p r => readPiece p = some r) pieces rs) (hne : pieces ≠ []) :
    listLoop ([','].intercalate pieces) (-1) 0 = flat (rs.map pairOf) := by
  induction h with
  | nil => exact absurd rfl hne
  | @cons p r pieces rs hp hrest ih =>
    by_cases hlast : pieces = []
    · subst hlast
      rw [List.forall₂_nil_left_iff.mp hrest, intercalate_singleton]
      obtain ⟨startVal, hstart, hloop⟩ := listLoop_piece hp []
      rw [append_nil] at hloop
      rw [hloop, listLoop, hstart]
      rfl
    · obtain ⟨startVal, hstart, hloop⟩ := listLoop_piece hp (',' :: [','].intercalate pieces)
      rw [intercalate_cons_of_ne_nil hlast, append_assoc, singleton_append, hloop,
        listLoop, if_neg (by decide), if_neg (by decide), if_pos rfl, ih hlast, hstart, map_cons,
        flat_cons]
      rfl

theorem readPiece_chars {p : List Char} (h : readPiece p = some r) :
    p ≠ [] ∧ ∀ c ∈ p, c = '-' ∨ c.isDigit = true := by
  rcases readPiece_eq_some h with ⟨hp, -⟩ | ⟨lo, hi, hlo, hhi, rfl, -⟩
  · exact ⟨hp.1, fun c hc => .inr (hp.2 c hc)⟩
  · refine ⟨append_ne_nil_of_left_ne_nil hlo.1 _, fun c hc => ?_⟩
    rcases List.mem_append.mp hc with hc | hc
    · exact .inr (hlo.2 c hc)
    · rcases List.mem_cons.mp hc with hc | hc
      · exact .inl hc
      · exact .inr (hhi.2 c hc)

theorem mem_intercalate {α : Type} {sep : α} {ls : List (List α)} {c : α} (h : c ∈ [sep].intercalate ls) :
    c = sep ∨ ∃ l ∈ ls, c ∈ l := by
  induction ls with
  | nil => exact absurd h not_mem_nil
  | cons l ls ih =>
    by_cases hlast : ls = []
    · rw [hlast, intercalate_singleton] at h
      exact .inr ⟨l, mem_cons_self, h⟩
    · rw [intercalate_cons_of_ne_nil hlast, append_assoc, mem_append,
        singleton_append, mem_cons] at h
      rcases h with h | h | h
      · exact .inr ⟨l, mem_cons_self, h⟩
      · exact .inl h
      · rcases ih h with h | ⟨l', hl', h⟩
        · exact .inl h
        · exact .inr ⟨l', mem_cons_of_mem l hl', h⟩

theorem head?_intercalate {α : Type} {sep : α} {l : List α} {ls : List (List α)} (h : l ≠ []) :
    ([sep].intercalate (l :: ls)).head? = l.head? := by
  by_cases hlast : ls = []
  · rw [hlast, intercalate_singleton]
  · rw [intercalate_cons_of_ne_nil hlast, append_assoc, head?_append_of_ne_nil _ h]

/-- The array of a list of ranges. -/
theorem bitfmt2int_list {s : List Char} {rs : List (Nat × Nat)} (h : read s = some rs) (hne : s ≠ []) :
    bitfmt2int s =
      if 1073741824 ≤ s.length + 1 then .overrun else .array (flat (rs.map pairOf) ++ [-1]) := by
  obtain ⟨pieces, hpieces, hs, hread⟩ := read_eq_some h hne
  have hchars : ∀ p ∈ pieces, p ≠ [] ∧ ∀ c ∈ p, c = '-' ∨ c.isDigit = true := by
    intro p hp
    obtain ⟨i, hi, rfl⟩ := getElem_of_mem hp
    have hlen := hread.length_eq
    exact readPiece_chars (hread.get hi (hlen ▸ hi))
  have hcolon : ':' ∉ s := by
    intro hmem
    rw [hs] at hmem
    rcases mem_intercalate hmem with hc | ⟨p, hp, hc⟩
    · exact absurd hc (by decide)
    · rcases (hchars p hp).2 _ hc with hc | hc
      · exact absurd hc (by decide)
      · cases hc
  have hcomma : ¬ (s = [] ∨ s.head? = some ',') := by
    rintro (hnil | hhead)
    · exact hne hnil
    · obtain ⟨p, ps, rfl⟩ := exists_cons_of_ne_nil hpieces
      have hp := hchars p mem_cons_self
      rw [hs, head?_intercalate hp.1] at hhead
      rcases hp.2 ',' (mem_of_mem_head? hhead) with hc | hc
      · exact absurd hc (by decide)
      · cases hc
  rw [bitfmt2int, if_neg hcolon, if_neg hcomma]
  congr 2
  rw [hs, listLoop_pieces hread hpieces]

/-! ## Ranges with a step -/

theorem takeWhile_digits {ds : List Char} (h : ∀ c ∈ ds, c.isDigit = true) {rest : List Char}
    (hrest : ∀ c ∈ rest.head?, c.isDigit = false) :
    (ds ++ rest).takeWhile Char.isDigit = ds ∧ (ds ++ rest).dropWhile Char.isDigit = rest := by
  have hstop : rest.takeWhile Char.isDigit = [] ∧ rest.dropWhile Char.isDigit = rest := by
    cases rest with
    | nil => exact ⟨rfl, rfl⟩
    | cons c rest =>
      have hc : ¬ c.isDigit = true := Bool.not_eq_true _ ▸ hrest c rfl
      exact ⟨takeWhile_cons_of_neg hc, dropWhile_cons_of_neg hc⟩
  rw [takeWhile_append_of_pos h, dropWhile_append_of_pos h, hstop.1, hstop.2, append_nil]
  exact ⟨rfl, rfl⟩

/-- `strtol` of a number. -/
theorem strtol_number {ds : List Char} (h : IsNumber ds) {rest : List Char}
    (hrest : ∀ c ∈ rest.head?, c.isDigit = false) :
    strtol (ds ++ rest) = (min 9223372036854775807 (value ds : Int), rest) := by
  obtain ⟨c, t, rfl⟩ := exists_cons_of_ne_nil h.1
  have hc := isDigit_iff.mp (h.2 c mem_cons_self)
  have hspace : ¬ isSpace c = true := by
    rw [isSpace, Bool.or_eq_true, beq_iff_eq, Bool.and_eq_true, decide_eq_true_iff, decide_eq_true_iff]
    rintro (rfl | hrange)
    · exact absurd hc.1 (by decide)
    · omega
  have hsign : strtoulSign (c :: t ++ rest) = (false, c :: t ++ rest) := by
    rw [cons_append, strtoulSign]
    · intro t' heq
      rw [(List.cons.inj heq).1] at hc
      exact absurd hc.1 (by decide)
    · intro t' heq
      rw [(List.cons.inj heq).1] at hc
      exact absurd hc.1 (by decide)
  have hdigits := takeWhile_digits h.2 hrest
  have hdrop : (c :: t ++ rest).dropWhile isSpace = c :: t ++ rest := dropWhile_cons_of_neg hspace
  simp only [strtol, hdrop, hsign, hdigits.1, hdigits.2, if_neg h.1, Bool.false_eq_true, if_false]

/-- A range with a step, as it is written. -/
def IsStep (s : List Char) (lo hi step : Nat) : Prop :=
  ∃ l h t, IsNumber l ∧ IsNumber h ∧ IsNumber t ∧ s = l ++ '-' :: (h ++ ':' :: t) ∧
    value l = lo ∧ value h = hi ∧ value t = step

/-- The step that is used of the one that is written. -/
def stepOf (step : Nat) : Int := wrap (min 9223372036854775807 (step : Int))

/-- The array of a range with a step. -/
theorem bitfmt2int_step {s : List Char} {lo hi step : Nat} (h : IsStep s lo hi step)
    (hle : lo ≤ hi) (hhi : hi < 2147483648) :
    bitfmt2int s = if stepOf step ≤ 0 then .null else stepIndices lo hi (stepOf step) := by
  obtain ⟨l, u, t, hl, hu, ht, rfl, rfl, rfl, rfl⟩ := h
  have hcolon : ':' ∈ l ++ '-' :: (u ++ ':' :: t) := by simp
  have hlo : strtol (l ++ '-' :: (u ++ ':' :: t)) = ((value l : Int), '-' :: (u ++ ':' :: t)) := by
    rw [strtol_number hl fun c hc => by rw [← Option.some.inj hc]; rfl, min_eq_right (by omega)]
  have hup : strtol (u ++ ':' :: t) = ((value u : Int), ':' :: t) := by
    rw [strtol_number hu fun c hc => by rw [← Option.some.inj hc]; rfl, min_eq_right (by omega)]
  have hst : strtol t = (min 9223372036854775807 (value t : Int), []) := by
    have h := @strtol_number t ht [] fun c hc => absurd hc (by simp)
    rwa [append_nil] at h
  have hwl : wrap (value l : Int) = value l := wrap_eq (by omega) (by omega)
  have hwu : wrap (value u : Int) = value u := wrap_eq (by omega) (by omega)
  rw [bitfmt2int, if_pos hcolon, stepFormat, hlo]
  simp only [head?_cons, ne_eq, not_true_eq_false, if_false, tail_cons, hup, hst, hwl, hwu]
  rw [← stepOf]
  by_cases hneg : stepOf (value t) ≤ 0
  · rw [if_pos (.inr hneg), if_pos hneg]
  · rw [if_neg (by omega), if_neg hneg]

/-- The pairs of `n` bits from `i` on with a step. -/
def stepPairs (i step : Int) : Nat → List (Int × Int)
  | 0 => []
  | n + 1 => (i, i) :: stepPairs (i + step) step n

/-- The loop up to the place after `n` bits. -/
theorem stepLoop_steps {last step : Int} (hlast : last ≤ 2147483648) (room n : Nat) {i : Int}
    (hi : 0 ≤ i) (hstep : 0 ≤ step) (hn : n ≠ 0 → i + (n - 1) * step < last) :
    stepLoop last step (room + n) (wrap i) =
      (stepLoop last step room (wrap (i + n * step))).map (flat (stepPairs i step n) ++ ·) := by
  induction n generalizing i with
  | zero =>
    rw [Nat.cast_zero, Int.zero_mul, Int.add_zero]
    exact Option.map_id'.symm
  | succ n ih =>
    have hmul : (0 : Int) ≤ n * step := Int.mul_nonneg (Int.natCast_nonneg n) hstep
    have hcast : ((n + 1 : Nat) : Int) = n + 1 := by push_cast; rfl
    have hsucc := hn (Nat.succ_ne_zero n)
    rw [hcast, Int.add_sub_cancel] at hsucc
    have hwrap : wrap i = i := wrap_eq (by omega) (by omega)
    have hnext : i + step + n * step = i + (n + 1) * step := by ring
    rw [← Nat.add_assoc, stepLoop, hwrap, if_pos (by omega), ih (by omega) ?_, hnext, hcast,
      Option.map_map]
    · rfl
    · intro hne
      have heq : i + step + ((n : Int) - 1) * step = i + n * step := by ring
      rw [heq]
      exact hsucc

/-! ## Setting the bits -/

/-- Both numbers of a pair are bits. -/
def InBounds (bitCnt : Int) (p : Int × Int) : Prop := ¬ OutOfRange bitCnt p.1 ∧ ¬ OutOfRange bitCnt p.2

/-- The bits of the pairs are set. -/
def setPairs (b : Bitstr) (pairs : List (Int × Int)) : Bitstr :=
  pairs.foldl (fun b p => bitNset b p.1.toNat p.2.toNat) b

/-- The loop over pairs that are in bounds. -/
theorem inxLoop_pairs {bitCnt : Int} (h : ∀ p ∈ pairs, InBounds bitCnt p) (inx : List Int)
    (b : Bitstr) :
    inxLoop bitCnt (flat pairs ++ inx) b = inxLoop bitCnt inx (setPairs b pairs) := by
  induction pairs generalizing b with
  | nil => rfl
  | cons p pairs ih =>
    have hp := h p mem_cons_self
    have hfirst := hp.1
    rw [OutOfRange] at hfirst
    rw [flat_cons, cons_append, cons_append, inxLoop, if_neg (by omega),
      if_neg (not_or.mpr hp), ih fun q hq => h q (mem_cons_of_mem p hq)]
    rfl

theorem setPairs_spec {b : Bitstr} {pairs : List (Int × Int)} (h : ∀ p ∈ pairs, InBounds b.nbits p) :
    (setPairs b pairs).nbits = b.nbits ∧ ∀ i, (setPairs b pairs).bit i = true ↔
      b.bit i = true ∨ ∃ p ∈ pairs, p.1 ≤ (i : Int) ∧ (i : Int) ≤ p.2 := by
  induction pairs generalizing b with
  | nil =>
    refine ⟨rfl, fun i => (or_iff_left ?_).symm⟩
    rintro ⟨p, hp, -⟩
    exact not_mem_nil hp
  | cons p pairs ih =>
    obtain ⟨hfirst, hlast⟩ := h p mem_cons_self
    rw [OutOfRange] at hfirst hlast
    have hbound : p.2.toNat < b.nbits := by omega
    obtain ⟨hnbits, hbits⟩ := bitNset_spec b p.1.toNat hbound
    have hrest := ih (b := bitNset b p.1.toNat p.2.toNat) fun q hq => by
      rw [hnbits]
      exact h q (mem_cons_of_mem p hq)
    refine ⟨hrest.1.trans hnbits, fun i => ?_⟩
    have hi : (if p.1.toNat ≤ i ∧ i < p.2.toNat + 1 then true else b.bit i) = true ↔
        b.bit i = true ∨ (p.1 ≤ (i : Int) ∧ (i : Int) ≤ p.2) := by
      split
      · exact iff_of_true rfl (.inr (by omega))
      · exact (or_iff_left (by omega)).symm
    rw [setPairs, foldl_cons, ← setPairs, hrest.2, hbits, hi, exists_mem_cons_iff, or_assoc]

/-- The bits are those of the pairs. -/
def Holds (b b' : Bitstr) (P : Nat → Prop) : Prop :=
  b'.nbits = b.nbits ∧ ∀ i, i < b.nbits → (b'.bit i = true ↔ P i)

theorem Holds.congr {b' : Bitstr} {P Q : Nat → Prop} (h : Holds b b' P)
    (hPQ : ∀ i, i < b.nbits → (P i ↔ Q i)) : Holds b b' Q :=
  ⟨h.1, fun i hi => (h.2 i hi).trans (hPQ i hi)⟩

/-- The bits that are set of a bit string that is cleared first. -/
theorem holds_setPairs (h : ∀ p ∈ pairs, InBounds b.nbits p) :
    Holds b (setPairs (bitNclear b 0 (b.nbits - 1)) pairs)
      fun i => ∃ p ∈ pairs, p.1 ≤ (i : Int) ∧ (i : Int) ≤ p.2 := by
  have hpos := b.valid.1
  have hbound : b.nbits - 1 < b.nbits := by omega
  obtain ⟨hnbits, hclear⟩ := bitNclear_spec b 0 hbound
  obtain ⟨hnbits', hset⟩ := @setPairs_spec (bitNclear b 0 (b.nbits - 1)) pairs (by rwa [hnbits])
  refine ⟨hnbits'.trans hnbits, fun i hi => ?_⟩
  rw [hset, hclear, if_pos (by omega)]
  exact or_iff_right Bool.false_ne_true

/-- All pairs are in bounds. -/
theorem inx2bitstr_ok {b : Bitstr} {pairs : List (Int × Int)} (h : ∀ p ∈ pairs, InBounds b.nbits p) :
    ∃ b', inx2bitstr b (flat pairs ++ [-1]) = some (0, b') ∧
      Holds b b' fun i => ∃ p ∈ pairs, p.1 ≤ (i : Int) ∧ (i : Int) ≤ p.2 := by
  refine ⟨_, ?_, holds_setPairs h⟩
  rw [inx2bitstr, inxLoop_pairs h, inxLoop, if_pos rfl]

/-- The first pair that is not in bounds is not the end. -/
theorem inx2bitstr_bad {b : Bitstr} {pairs : List (Int × Int)} {p : Int × Int}
    (h : ∀ q ∈ pairs, InBounds b.nbits q) (hp : ¬ InBounds b.nbits p) (hne : p.1 ≠ -1) (inx : List Int) :
    ∃ b', inx2bitstr b (flat pairs ++ p.1 :: p.2 :: inx) = some (-1, b') := by
  refine ⟨setPairs (bitNclear b 0 (b.nbits - 1)) pairs, ?_⟩
  rw [inx2bitstr, inxLoop_pairs h, inxLoop, if_neg hne, if_pos]
  by_contra hin
  exact hp (not_or.mp hin)

/-- The pair at which the array ends for the loop. -/
theorem inx2bitstr_stop {p : Int × Int} (h : ∀ q ∈ pairs, InBounds b.nbits q) (hp : p.1 = -1)
    (inx : List Int) : ∃ b', inx2bitstr b (flat pairs ++ p.1 :: p.2 :: inx) = some (0, b') := by
  refine ⟨setPairs (bitNclear b 0 (b.nbits - 1)) pairs, ?_⟩
  rw [inx2bitstr, inxLoop_pairs h, inxLoop, if_pos hp]

end Slurm.Bitstring
