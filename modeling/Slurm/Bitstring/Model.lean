import Slurm.Lib.Search

/-!
# Bit strings (`common/bitstring.c`)

A `bitstr_t` is an array of 64-bit words behind a header that holds a magic number
and the count of valid bits.  `Bitstr` keeps the count and the words.  Bit `i` is
bit `i % 64` of word `i / 64`; the words are those of a little-endian build.  The
last word may have more bits than are valid, and nothing says what these hold.

The functions work a word at a time and treat a last word that is only partly
valid by a mask.  `combine` is the common form of `bit_and`, `bit_or`,
`bit_and_not` and `bit_or_not`, with the operation on a whole word and the one on
the last word.  `nrange` is that of `bit_nset` and `bit_nclear`, which go bit by
bit up to a byte boundary and then byte by byte.

A position that the code returns as `-1` is `none` here.  The population count and
the counts of leading and trailing zeros are those of the compiler builtins.
-/

namespace Slurm.Bitstring

open List

open Lib.Search (findUp findDown)

/-! ## Words -/

/-- `bitstr_t`, one word. -/
abbrev Word := BitVec 64

/-- `_bit_mask`: the bit within its word. -/
def bitMask (bit : Nat) : Word := 1#64 <<< (bit % 64)

/-- `_bit_nmask`: the less significant bits of its word. -/
def bitNmask (n : Nat) : Word := (1#64 <<< (n % 64)) - 1#64

/-- `_bitstr_words`, less the header. -/
def bitstrWords (nbits : Nat) : Nat := (nbits + 63) / 64

/-- `hweight`, the number of bits set in a word. -/
def hweight (w : Word) : Nat := (List.range 64).countP w.getLsbD

/-- `__builtin_ctzll` -/
def ctzll (w : Word) : Nat := (findUp w.getLsbD 0 64).getD 64

/-- `__builtin_clzll` -/
def clzll (w : Word) : Nat :=
  match findDown w.getLsbD 64 64 with
  | some i => 63 - i
  | none => 64

/-! ## Bit strings -/

/-- `_assert_valid_size` -/
def ValidSize (nbits : Nat) : Prop := 0 < nbits ∧ nbits ≤ 0x40000000

instance (nbits : Nat) : Decidable (ValidSize nbits) := inferInstanceAs (Decidable (_ ∧ _))

/-- A bit string: the count of valid bits, and the words allocated for them. -/
structure Bitstr where
  nbits : Nat
  words : List Word
  valid : ValidSize nbits
  length_eq : words.length = bitstrWords nbits
  deriving DecidableEq

/-- Word `k`. -/
def Bitstr.word (b : Bitstr) (k : Nat) : Word := b.words.getD k 0

/-- Bit `i` of the memory of a bit string, valid or not. -/
def Bitstr.bit (b : Bitstr) (i : Nat) : Bool := (b.word (i / 64)).getLsbD (i % 64)

/-- Other words, as many as before. -/
def Bitstr.withWords (b : Bitstr) (words : List Word) (h : words.length = b.words.length) :
    Bitstr := { b with words := words, length_eq := h.trans b.length_eq }

/-- One word is replaced. -/
def Bitstr.modify (b : Bitstr) (k : Nat) (f : Word → Word) : Bitstr :=
  b.withWords (b.words.modify k f) (List.length_modify _ _ _)

/-- `bit_alloc` -/
def bitAlloc (nbits : Nat) (h : ValidSize nbits) : Bitstr where
  nbits := nbits
  words := List.replicate (bitstrWords nbits) 0
  valid := h
  length_eq := List.length_replicate

/-- `bit_realloc`.  `xrecalloc` clears the words it adds. -/
def bitRealloc (b : Bitstr) (nbits : Nat) (h : ValidSize nbits) : Bitstr where
  nbits := nbits
  words := b.words.take (bitstrWords nbits)
    ++ List.replicate (bitstrWords nbits - bitstrWords b.nbits) 0
  valid := h
  length_eq := by
    rw [List.length_append, List.length_take, List.length_replicate, b.length_eq]
    omega

/-- `bit_test` -/
def bitTest (b : Bitstr) (bit : Nat) : Bool := decide (b.word (bit / 64) &&& bitMask bit ≠ 0)

/-- `bit_set` -/
def bitSet (b : Bitstr) (bit : Nat) : Bitstr := b.modify (bit / 64) (· ||| bitMask bit)

/-- `bit_clear` -/
def bitClear (b : Bitstr) (bit : Nat) : Bitstr := b.modify (bit / 64) (· &&& ~~~ bitMask bit)

/-! ## Ranges -/

/-- The mask of byte `i` in its word. -/
def byteMask (i : Nat) : Word := 0xff#64 <<< (8 * (i % 8))

/-- One byte of `memset(_, 0xff, _)`. -/
def setByte (b : Bitstr) (i : Nat) : Bitstr := b.modify (i / 8) (· ||| byteMask i)

/-- One byte of `memset(_, 0, _)`. -/
def clearByte (b : Bitstr) (i : Nat) : Bitstr := b.modify (i / 8) (· &&& ~~~ byteMask i)

variable (one byte : Bitstr → Nat → Bitstr)

/-- `while (start <= stop && start % 8 > 0)`, where `stop` is below `last`. -/
def partialFirst : Nat → Nat → Nat → Bitstr → Nat × Bitstr
  | 0, start, _, b => (start, b)
  | fuel + 1, start, last, b =>
    if start < last ∧ start % 8 > 0 then partialFirst fuel (start + 1) last (one b start)
    else (start, b)

/-- `while (stop >= start && (stop + 1) % 8 > 0)`, where `last` is `stop + 1`. -/
def partialLast : Nat → Nat → Nat → Bitstr → Nat × Bitstr
  | 0, _, last, b => (last, b)
  | fuel + 1, start, last, b =>
    if start < last ∧ last % 8 > 0 then partialLast fuel start (last - 1) (one b (last - 1))
    else (last, b)

/-- The common form of `bit_nset` and `bit_nclear`: single bits up to the first and
down to the last byte boundary, and whole bytes between.  Eight turns are enough
for each of the two loops. -/
def nrange (b : Bitstr) (start stop : Nat) : Bitstr :=
  let first := partialFirst one 8 start (stop + 1) b
  let last := partialLast one 8 first.1 (stop + 1) first.2
  if last.1 > first.1 + 1 then
    (List.range ((last.1 - first.1) / 8)).foldl (fun b k => byte b (first.1 / 8 + k)) last.2
  else last.2

/-- `bit_nset` -/
def bitNset : Bitstr → Nat → Nat → Bitstr := nrange bitSet setByte

/-- `bit_nclear` -/
def bitNclear : Bitstr → Nat → Nat → Bitstr := nrange bitClear clearByte

/-! ## Operations on whole bit strings -/

/-- The common form of the operations that change `b1` by `b2` in as many bits as
both have: `full` on a whole word, and `part` on the word that is only partly in
range, with the mask of the bits in range. -/
def combine (full : Word → Word → Word) (part : Word → Word → Word → Word) (b1 b2 : Bitstr) :
    Bitstr :=
  let cnt := min b1.nbits b2.nbits
  let whole := b1.withWords
    (b1.words.mapIdx fun k w => if k < cnt / 64 then full w (b2.word k) else w)
    (by rw [List.length_mapIdx])
  if cnt / 64 * 64 < cnt then
    whole.modify (cnt / 64) fun w => part w (b2.word (cnt / 64)) (bitNmask cnt)
  else whole

/-- `bit_and` -/
def bitAnd : Bitstr → Bitstr → Bitstr :=
  combine (fun w1 w2 => w1 &&& w2) fun w1 w2 nmask => w1 &&& (w2 ||| ~~~ nmask)

/-- `bit_and_not` -/
def bitAndNot : Bitstr → Bitstr → Bitstr :=
  combine (fun w1 w2 => w1 &&& ~~~ w2) fun w1 w2 nmask => w1 &&& ~~~ (w2 &&& nmask)

/-- `bit_or` -/
def bitOr : Bitstr → Bitstr → Bitstr :=
  combine (fun w1 w2 => w1 ||| w2) fun w1 w2 nmask => w1 ||| (w2 &&& nmask)

/-- `bit_or_not` -/
def bitOrNot : Bitstr → Bitstr → Bitstr :=
  combine (fun w1 w2 => w1 ||| ~~~ w2) fun w1 w2 nmask => w1 ||| ~~~ (w2 ||| ~~~ nmask)

/-- `bit_not`, which turns the words around as they are. -/
def bitNot (b : Bitstr) : Bitstr := b.withWords (b.words.map (~~~ ·)) (List.length_map _)

/-- `bit_copy` -/
def bitCopy (b : Bitstr) : Bitstr where
  nbits := b.nbits
  words := b.words.take (bitstrWords b.nbits)
  valid := b.valid
  length_eq := by rw [List.length_take, b.length_eq, Nat.min_self]

/-- `bit_copybits`, between bit strings of one size. -/
def bitCopybits (dest src : Bitstr) (h : src.nbits = dest.nbits) : Bitstr :=
  dest.withWords src.words (by rw [src.length_eq, dest.length_eq, h])

/-- The set bits of `b` from `start` on, `len` of them, put `shift` places on. -/
def copyShifted (b : Bitstr) (start len : Nat) (place : Nat → Nat) (new : Bitstr) : Bitstr :=
  (List.range len).foldl
    (fun new k => if bitTest b (start + k) then bitSet new (place k) else new) new

theorem copyShifted_nbits (b : Bitstr) (start len : Nat) (place : Nat → Nat) (new : Bitstr) :
    (copyShifted b start len place new).nbits = new.nbits := by
  unfold copyShifted
  induction List.range len generalizing new with
  | nil => rfl
  | cons k ks ih =>
    rw [foldl_cons, ih]
    split <;> rfl

/-- The rotation, as a number of places up. -/
def rotation (n : Int) (nbits : Nat) : Nat :=
  let r := n.tmod nbits
  (if r < 0 then r + nbits else r).toNat

/-- `bit_rotate_copy` -/
def bitRotateCopy (b1 : Bitstr) (n : Int) (nbits : Nat) (h : ValidSize nbits) : Bitstr :=
  let deltasize := nbits - b1.nbits
  let up := rotation n nbits
  let wrapbits := if up > deltasize then up - deltasize else 0
  let shifted := copyShifted b1 0 (b1.nbits - wrapbits) (fun bit => bit + up) (bitAlloc nbits h)
  copyShifted b1 (b1.nbits - wrapbits) wrapbits (fun dst => dst) shifted

theorem bitRotateCopy_nbits (b1 : Bitstr) (n : Int) (nbits : Nat) (h : ValidSize nbits) :
    (bitRotateCopy b1 n nbits h).nbits = nbits := by
  simp only [bitRotateCopy, copyShifted_nbits]
  rfl

/-- `bit_rotate` -/
def bitRotate (b1 : Bitstr) (n : Int) : Bitstr :=
  if n = 0 then b1
  else bitCopybits b1 (bitRotateCopy b1 n b1.nbits b1.valid) (bitRotateCopy_nbits _ _ _ _)

/-! ## Searches -/

/-- The words from `k` on, in search of one that is not empty. -/
def ffsWords (b : Bitstr) : Nat → Nat → Option Nat
  | 0, _ => none
  | fuel + 1, k =>
    if 64 * k < b.nbits then
      if b.word k = 0 then ffsWords b fuel (k + 1) else some (64 * k + ctzll (b.word k))
    else none

/-- `bit_ffs_from_bit`.  A hit in the invalid bits of the last word is no hit. -/
def bitFfsFromBit (b : Bitstr) (bit : Nat) : Option Nat :=
  let value :=
    if bit % 64 ≠ 0 ∧ bit < b.nbits then
      let word := b.word (bit / 64) &&& ~~~ bitNmask bit
      if word = 0 then ffsWords b (bitstrWords b.nbits) (bit / 64 + 1)
      else some (64 * (bit / 64) + ctzll word)
    else if bit < b.nbits then ffsWords b (bitstrWords b.nbits) (bit / 64)
    else none
  value.filter fun v => decide (v < b.nbits)

/-- `bit_ffs` -/
def bitFfs (b : Bitstr) : Option Nat := bitFfsFromBit b 0

/-- The bits of a word that is only partly valid, from the last one down.  `last` is
the position after the bit that is tested next. -/
def flsPartial (b : Bitstr) : Nat → Nat → Nat × Option Nat
  | 0, last => (last, none)
  | fuel + 1, last =>
    if 0 < last ∧ (last - 1) / 64 = last / 64 then
      if bitTest b (last - 1) then (last, some (last - 1)) else flsPartial b fuel (last - 1)
    else (last, none)

/-- Whole words, from word `k - 1` down. -/
def flsWords (b : Bitstr) : Nat → Option Nat
  | 0 => none
  | k + 1 => if b.word k = 0 then flsWords b k else some (64 * k + 63 - clzll (b.word k))

/-- `bit_fls_from_bit` -/
def bitFlsFromBit (b : Bitstr) (bit : Nat) : Option Nat :=
  let tested := flsPartial b 64 (bit + 1)
  match tested.2 with
  | some value => some value
  | none => flsWords b (tested.1 / 64)

/-- `bit_fls` -/
def bitFls (b : Bitstr) : Option Nat := bitFlsFromBit b (b.nbits - 1)

/-- `bit_ffc`: words that are all ones are passed over, any other word is searched
bit by bit. -/
def ffcWords (b : Bitstr) : Nat → Nat → Option Nat
  | 0, _ => none
  | fuel + 1, k =>
    if 64 * k < b.nbits then
      if b.word k = BitVec.allOnes 64 then ffcWords b fuel (k + 1)
      else
        match findUp (fun i => !bitTest b i) (64 * k) (min 64 (b.nbits - 64 * k)) with
        | some value => some value
        | none => ffcWords b fuel (k + 1)
    else none

/-- `bit_ffc` -/
def bitFfc (b : Bitstr) : Option Nat := ffcWords b (bitstrWords b.nbits) 0

/-- `bit_fill_gaps` -/
def bitFillGaps (b : Bitstr) : Bitstr :=
  match bitFfs b with
  | none => b
  | some first =>
    match bitFls b with
    | none => b
    | some last => bitNset b first last

/-! ## Counts and comparisons -/

/-- `bit_set_count` -/
def bitSetCount (b : Bitstr) : Nat :=
  let whole := ((List.range (b.nbits / 64)).map fun k => hweight (b.word k)).sum
  if b.nbits / 64 * 64 < b.nbits then
    whole + hweight (b.word (b.nbits / 64) &&& bitNmask b.nbits)
  else whole

/-- `bit_clear_count` -/
def bitClearCount (b : Bitstr) : Nat := b.nbits - bitSetCount b

/-- The words of `bit_set_count_range` from a word boundary on. -/
def countFrom (b : Bitstr) (bit last : Nat) : Nat :=
  let whole :=
    ((List.range ((last - bit) / 64)).map fun k => hweight (b.word (bit / 64 + k))).sum
  if bit + (last - bit) / 64 * 64 < last then
    whole + hweight (b.word (last / 64) &&& bitNmask last)
  else whole

/-- `bit_set_count_range` -/
def bitSetCountRange (b : Bitstr) (start last : Nat) : Nat :=
  let last := min last b.nbits
  let eow := (start + 63) / 64 * 64
  if start < eow ∧ eow ≤ last then
    hweight (b.word (start / 64) &&& ~~~ bitNmask start) + countFrom b eow last
  else if eow > start then
    hweight (b.word (start / 64) &&& (~~~ bitNmask start &&& bitNmask last))
      + countFrom b eow last
  else countFrom b start last

/-- `bit_super_set`: all bits set in `b1` are set in `b2`. -/
def bitSuperSet (b1 b2 : Bitstr) : Bool :=
  (List.range (bitstrWords b1.nbits)).all fun k =>
    if b1.word k ≠ b1.word k &&& b2.word k then
      if 64 * k + 64 ≤ b1.nbits then false
      else decide (b1.word k &&& bitNmask b1.nbits
        = b1.word k &&& b2.word k &&& bitNmask b1.nbits)
    else true

/-- `bit_equal` -/
def bitEqual (b1 b2 : Bitstr) : Bool :=
  if b1.nbits ≠ b2.nbits then false
  else
    ((List.range (b1.nbits / 64)).all fun k => decide (b1.word k = b2.word k)) &&
      if b1.nbits / 64 * 64 < b1.nbits then
        decide ((b1.word (b1.nbits / 64) ^^^ b2.word (b1.nbits / 64)) &&& bitNmask b1.nbits = 0)
      else true

/-- The loop of `_bit_overlap_internal`, over the words both have bits in. -/
def overlapLoop (countIt : Bool) : List Word → Nat → Nat
  | [], count => count
  | anded :: rest, count =>
    if countIt then overlapLoop countIt rest (count + hweight anded)
    else if anded ≠ 0 then 1
    else overlapLoop countIt rest count

/-- The words that `_bit_overlap_internal` looks at. -/
def andedWords (b1 b2 : Bitstr) : List Word :=
  ((List.range (b1.nbits / 64)).map fun k => b1.word k &&& b2.word k) ++
    if b1.nbits / 64 * 64 < b1.nbits then
      [b1.word (b1.nbits / 64) &&& b2.word (b1.nbits / 64) &&& bitNmask b1.nbits]
    else []

/-- `bit_overlap` -/
def bitOverlap (b1 b2 : Bitstr) : Nat := overlapLoop true (andedWords b1 b2) 0

/-- `bit_overlap_any` -/
def bitOverlapAny (b1 b2 : Bitstr) : Nat := overlapLoop false (andedWords b1 b2) 0

end Slurm.Bitstring
