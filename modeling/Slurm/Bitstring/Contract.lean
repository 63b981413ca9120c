import Slurm.Bitstring.Sets
import Slurm.Lib.Run

/-!
# Runs over named bit strings

`Cmd` is a call of one of the functions that make or change a bit string, on bit
strings held under names.  `exec` is a step of such a program, over any
implementation of the calls; `code` is the implementation of `common/bitstring.c`
and `sets` that by sets.  A call with arguments out of range, or on a name that holds
nothing, is not a step.

`BitstringContract` says of a run that the bit strings stand for the sets all along,
and of all bit strings that what is returned about them is what the set determines.
`bitstringContract_iff` gives the one condition for it.  `bit_realloc` clears the
words it adds, but makes bits of the old last word valid as they are, and `bit_not`
has turned these around: the condition is that a bit string is made larger only when
the bits of its last word that this makes valid are clear.
-/

namespace Slurm.Bitstring

open Lib.Run (Guarded Tracks)

/-! ## Commands -/

/-- The functions that change a bit string. -/
inductive Change where
  | set (bit : Nat)
  | clear (bit : Nat)
  | nset (start stop : Nat)
  | nclear (start stop : Nat)
  | not
  | rotate (n : Int)
  | fillGaps
  | realloc (nbits : Nat)
  deriving DecidableEq

/-- The functions that change a bit string by another one. -/
inductive Merge where
  | and
  | or
  | andNot
  | orNot
  | copybits
  deriving DecidableEq

/-- A call.  The first name is that of the bit string that is made or changed. -/
inductive Cmd where
  | alloc (x nbits : Nat)
  | copy (x y : Nat)
  | change (x : Nat) (f : Change)
  | merge (x y : Nat) (f : Merge)
  deriving DecidableEq

/-- What the calls do. -/
structure Impl (α : Type) where
  alloc : Nat → Option α
  copy : α → α
  change : Change → α → Option α
  merge : Merge → α → α → Option α

/-- The calls of `common/bitstring.c`.  `none` is a failed assertion. -/
def code : Impl Bitstr where
  alloc n := if h : ValidSize n then some (bitAlloc n h) else none
  copy := bitCopy
  change f b :=
    match f with
    | .set bit => if bit < b.nbits then some (bitSet b bit) else none
    | .clear bit => if bit < b.nbits then some (bitClear b bit) else none
    | .nset start stop =>
      if start < b.nbits ∧ stop < b.nbits then some (bitNset b start stop) else none
    | .nclear start stop =>
      if start < b.nbits ∧ stop < b.nbits then some (bitNclear b start stop) else none
    | .not => some (bitNot b)
    | .rotate n => some (bitRotate b n)
    | .fillGaps => some (bitFillGaps b)
    | .realloc n => if h : ValidSize n then some (bitRealloc b n h) else none
  merge f b1 b2 :=
    match f with
    | .and => some (bitAnd b1 b2)
    | .or => some (bitOr b1 b2)
    | .andNot => some (bitAndNot b1 b2)
    | .orNot => some (bitOrNot b1 b2)
    | .copybits => if h : b2.nbits = b1.nbits then some (bitCopybits b1 b2 h) else none

/-- The calls as operations on sets. -/
def sets : Impl BitSet where
  alloc n := some (BitSet.within n ∅)
  copy A := A
  change f A :=
    match f with
    | .set bit => some (A.set bit)
    | .clear bit => some (A.clear bit)
    | .nset start stop => some (A.nset start stop)
    | .nclear start stop => some (A.nclear start stop)
    | .not => some A.not
    | .rotate n => some (A.rotate n)
    | .fillGaps => some A.fillGaps
    | .realloc n => some (A.realloc n)
  merge f A B :=
    match f with
    | .and => some (A.and B)
    | .or => some (A.or B)
    | .andNot => some (A.andNot B)
    | .orNot => some (A.orNot B)
    | .copybits => some B

/-! ## Steps -/

/-- What the names hold. -/
abbrev Store (α : Type) := Nat → Option α

variable {α : Type}

/-- A name gets a value. -/
def Store.put (s : Store α) (x : Nat) (v : α) : Store α := fun y => if y = x then some v else s y

/-- One call. -/
def exec (impl : Impl α) (s : Store α) : Cmd → Option (Store α)
  | .alloc x n => (impl.alloc n).map (s.put x)
  | .copy x y => (s y).map fun v => s.put x (impl.copy v)
  | .change x f => (s x).bind fun v => (impl.change f v).map (s.put x)
  | .merge x y f => (s x).bind fun v => (s y).bind fun w => (impl.merge f v w).map (s.put x)

/-- The bit strings stand for the sets, name by name. -/
def Denotes (s : Store Bitstr) (a : Store BitSet) : Prop := ∀ x, (s x).map denote = a x

/-- The sets that a store of bit strings stands for. -/
def denoteStore (s : Store Bitstr) : Store BitSet := fun x => (s x).map denote

/-- The bits that `bit_realloc` makes valid in the old last word are clear. -/
def CleanGrowth (s : Store Bitstr) : Cmd → Prop
  | .change x (.realloc n) => ∀ b, s x = some b →
      ∀ i, b.nbits ≤ i → i < min n (64 * bitstrWords b.nbits) → b.bit i = false
  | _ => True

variable {s : Store Bitstr}

theorem put_denotes_iff {a : Store BitSet} (h : Denotes s a) (x : Nat) (b : Bitstr) (A : BitSet) :
    Denotes (s.put x b) (a.put x A) ↔ denote b = A := by
  constructor
  · intro hput
    have hx := hput x
    simp only [Store.put, if_true, Option.map_some, Option.some.injEq] at hx
    exact hx
  · rintro rfl y
    unfold Store.put
    split
    · rfl
    · exact h y

/-- The condition on one change of a bit string. -/
def CleanChange (b : Bitstr) : Change → Prop
  | .realloc n => ∀ i, b.nbits ≤ i → i < min n (64 * bitstrWords b.nbits) → b.bit i = false
  | _ => True

/-- A change is the set operation exactly under its condition. -/
theorem change_denote {b b' : Bitstr} {f : Change} (h : code.change f b = some b') :
    ∃ A, sets.change f (denote b) = some A ∧ (denote b' = A ↔ CleanChange b f) := by
  cases f with
  | set bit =>
    obtain ⟨hbit, ⟨⟩⟩ := Option.ite_none_right_eq_some.mp h
    exact ⟨_, rfl, fun _ => trivial, fun _ => denote_bitSet hbit⟩
  | clear bit =>
    obtain ⟨hbit, ⟨⟩⟩ := Option.ite_none_right_eq_some.mp h
    exact ⟨_, rfl, fun _ => trivial, fun _ => denote_bitClear hbit⟩
  | nset start stop =>
    obtain ⟨hbits, ⟨⟩⟩ := Option.ite_none_right_eq_some.mp h
    exact ⟨_, rfl, fun _ => trivial, fun _ => denote_bitNset start hbits.2⟩
  | nclear start stop =>
    obtain ⟨hbits, ⟨⟩⟩ := Option.ite_none_right_eq_some.mp h
    exact ⟨_, rfl, fun _ => trivial, fun _ => denote_bitNclear start hbits.2⟩
  | not =>
    obtain rfl := Option.some.inj h
    exact ⟨_, rfl, fun _ => trivial, fun _ => denote_bitNot b⟩
  | rotate n =>
    obtain rfl := Option.some.inj h
    exact ⟨_, rfl, fun _ => trivial, fun _ => denote_bitRotate b n⟩
  | fillGaps =>
    obtain rfl := Option.some.inj h
    exact ⟨_, rfl, fun _ => trivial, fun _ => denote_bitFillGaps b⟩
  | realloc n =>
    obtain ⟨hvalid, ⟨⟩⟩ := Option.dite_none_right_eq_some.mp h
    exact ⟨_, rfl, denote_bitRealloc_iff b n hvalid⟩

theorem merge_denote {b1 b2 b' : Bitstr} {f : Merge} (h : code.merge f b1 b2 = some b') :
    ∃ A, sets.merge f (denote b1) (denote b2) = some A ∧ denote b' = A := by
  cases f with
  | and =>
    obtain rfl := Option.some.inj h
    exact ⟨_, rfl, denote_bitAnd b1 b2⟩
  | or =>
    obtain rfl := Option.some.inj h
    exact ⟨_, rfl, denote_bitOr b1 b2⟩
  | andNot =>
    obtain rfl := Option.some.inj h
    exact ⟨_, rfl, denote_bitAndNot b1 b2⟩
  | orNot =>
    obtain rfl := Option.some.inj h
    exact ⟨_, rfl, denote_bitOrNot b1 b2⟩
  | copybits =>
    obtain ⟨hn, ⟨⟩⟩ := Option.dite_none_right_eq_some.mp h
    exact ⟨_, rfl, denote_bitCopybits b1 b2 hn⟩

theorem cleanGrowth_change {x : Nat} {b : Bitstr} (h : s x = some b) (f : Change) :
    CleanGrowth s (.change x f) ↔ CleanChange b f := by
  cases f with
  | realloc n =>
    constructor
    · exact fun hc => hc b h
    · intro hc b' hb'
      obtain rfl := Option.some.inj (h.symm.trans hb')
      exact hc
  | _ => exact Iff.rfl

/-- One step: the sets go along, and the bit strings still stand for them exactly
when the step meets the condition. -/
theorem exec_denotes {a : Store BitSet} {c : Cmd} {s' : Store Bitstr} (hR : Denotes s a)
    (hstep : exec code s c = some s') :
    ∃ a', exec sets a c = some a' ∧ (Denotes s' a' ↔ CleanGrowth s c) := by
  have hset : ∀ {x b}, s x = some b → a x = some (denote b) := by
    intro x b hx
    rw [← hR x, hx]
    rfl
  cases c with
  | alloc x n =>
    obtain ⟨b, hb, rfl⟩ := Option.map_eq_some_iff.mp hstep
    obtain ⟨hvalid, ⟨⟩⟩ := Option.dite_none_right_eq_some.mp hb
    refine ⟨a.put x (BitSet.within n ∅), rfl, fun _ => trivial, fun _ => ?_⟩
    exact (put_denotes_iff hR x _ _).mpr (denote_bitAlloc n hvalid)
  | copy x y =>
    obtain ⟨b, hb, rfl⟩ := Option.map_eq_some_iff.mp hstep
    refine ⟨a.put x (denote b), by rw [exec, hset hb]; rfl, fun _ => trivial, fun _ => ?_⟩
    exact (put_denotes_iff hR x _ _).mpr (denote_bitCopy b)
  | change x f =>
    obtain ⟨b, hb, hchange⟩ := Option.bind_eq_some_iff.mp hstep
    obtain ⟨b', hb', rfl⟩ := Option.map_eq_some_iff.mp hchange
    obtain ⟨A, hA, hiff⟩ := change_denote hb'
    refine ⟨a.put x A, by rw [exec, hset hb, Option.bind_some, hA]; rfl, ?_⟩
    rw [put_denotes_iff hR, hiff, cleanGrowth_change hb]
  | merge x y f =>
    obtain ⟨b1, hb1, hrest⟩ := Option.bind_eq_some_iff.mp hstep
    obtain ⟨b2, hb2, hmerge⟩ := Option.bind_eq_some_iff.mp hrest
    obtain ⟨b', hb', rfl⟩ := Option.map_eq_some_iff.mp hmerge
    obtain ⟨A, hA, hdenote⟩ := merge_denote hb'
    refine ⟨a.put x A, by rw [exec, hset hb1, Option.bind_some, hset hb2, Option.bind_some, hA]; rfl,
      fun _ => trivial, fun _ => ?_⟩
    exact (put_denotes_iff hR x _ _).mpr hdenote

/-! ## The contract -/

/-- Bit strings as sets, over a run from the store `s`.  The bits of `s` beyond the
valid ones may have any value. -/
structure BitstringContract (s : Store Bitstr) (cmds : List Cmd) : Prop where
  /-- Along the run the bit strings stand for the sets that the set operations give. -/
  operations : Tracks (exec code) (exec sets) Denotes s (denoteStore s) cmds
  /-- What is returned about a bit string, or about two, is what the sets determine. -/
  observers : ∀ b, Observes b (denote b)
  observers_pair : ∀ b1 b2, ObservesPair b1 b2 (denote b1) (denote b2)

theorem tracks_iff_cleanGrowth (s : Store Bitstr) (cmds : List Cmd) :
    Tracks (exec code) (exec sets) Denotes s (denoteStore s) cmds ↔
      Guarded (exec code) CleanGrowth s cmds := by
  refine Lib.Run.tracks_iff_guarded ?_ ?_
  · exact fun _ _ _ _ hR hstep => exec_denotes hR hstep
  · exact fun x => rfl

/-- The contract holds of the runs in which bit strings are made larger only where
the bits that become valid in the old last word are clear. -/
theorem bitstringContract_iff (s : Store Bitstr) (cmds : List Cmd) :
    BitstringContract s cmds ↔ Guarded (exec code) CleanGrowth s cmds := by
  rw [← tracks_iff_cleanGrowth]
  exact ⟨fun h => h.operations, fun h => ⟨h, observes, observes_pair⟩⟩

/-- A bit string of five clear bits is turned around and made larger. -/
def notThenGrow : List Cmd := [.alloc 0 5, .change 0 .not, .change 0 (.realloc 10)]

/-- Bits 5 to 9 come out set. -/
theorem bitstringContract_fails : ¬ BitstringContract (fun _ => none) notThenGrow := by
  intro h
  have hgrow := (tracks_iff_cleanGrowth _ _).mp h.operations _ rfl
  have hclear := (hgrow.2 _ rfl).2 _ rfl
  exact Bool.noConfusion (hclear.1 _ rfl 5 (by decide) (by decide))

end Slurm.Bitstring
