import Slurm.Lib.Escape
import Slurm.Pack.RoundTrip

/-!
# The contract of strings for the database

`escapedContract_iff` says exactly when `unpackstr_xmalloc_escaped` does what the comment
over it says: where it is a success, the first `'\0'` of the bytes in the buffer must be the
last of them.  The size starts as the number of those bytes, and that is one more than the
length of the string only then; `unpackstr_xmalloc` checks the last byte, but this function
does not.

* `unpackstrXmallocEscaped_spec`: what the function does with bytes that it takes.
* `safe_escapedMem`: the memory is as it must be for every block.
-/

/-!
## Strings for the database (`common/pack.c`)

`unpackstr_xmalloc_escaped` writes the string to new memory with a `\` before each `'` and
each `\`.  The pointers `str` and `copy`, the counter and the size move on together; a
write outside the memory is `none`.

* `escapeLoop_spec`: what the loop leaves in the memory.
-/

namespace Slurm.Pack

open Lib.BigEndian List Option
open Lib.Reading

/-- `'\\'` -/
def backslash : Byte := 0x5c

/-- `'\''` -/
def quote : Byte := 0x27

/-- What is escaped, and how. -/
def dbEscape : Lib.Escape.Scheme Byte where
  mark := backslash
  special := fun tmp => tmp = backslash || tmp = quote
  mark_special := by decide

/-- The memory at `*valp`, where `copy` points to in it, and `*size_valp`. -/
structure Copy where
  valp : List Byte
  copy : Nat
  sizeVal : Nat

/-- `*copy++ = tmp`, or none for a write outside the memory. -/
def Copy.put (m : Copy) (tmp : Byte) : Option Copy :=
  if m.copy < m.valp.length then
    some { m with valp := m.valp.set m.copy tmp, copy := m.copy + 1 }
  else none

/-- `(*size_valp)++` -/
def Copy.grow (m : Copy) : Copy := { m with sizeVal := (m.sizeVal + 1) % 2 ^ 32 }

/-- The loop over the bytes at `str`, which ends at the first `'\0'`. -/
def escapeLoop : List Byte → Copy → Option Copy
  | [], m => some m
  | tmp :: str, m =>
    if tmp = 0 then some m
    else if tmp = backslash || tmp = quote then do
      let m ← m.put backslash
      let m ← m.grow.put tmp
      escapeLoop str m
    else do
      let m ← m.put tmp
      escapeLoop str m

/-- `unpackstr_xmalloc_escaped`, or none for a write outside the memory.  Where the size is
too large, it is left as it was read. -/
def unpackstrXmallocEscaped (alloc : Bool) (c : Cursor Byte) : Option (Out (List Byte)) :=
  match unpack32 c with
  | (.error _, c) => some ⟨false, none, 0, c⟩
  | (.ok cnt, c) =>
    if cnt = 0 then some ⟨true, none, 0, c⟩
    else if maxPackMemLen < cnt.toNat then some ⟨false, none, cnt.toNat, c⟩
    else if c.remaining < cnt.toNat then some ⟨false, none, cnt.toNat, c⟩
    else if alloc = false then some ⟨false, none, 0, c⟩
    else do
      let valp := List.replicate ((cnt.toNat * 2 + 1) % 2 ^ 32) 0
      let m ← escapeLoop (c.next cnt.toNat) ⟨valp, 0, cnt.toNat⟩
      pure ⟨true, some m.valp, m.sizeVal, c.advance cnt.toNat⟩

/-! ## The loop -/

/-- The memory where `s` has been written and `k` bytes are left. -/
def copied (s : List Byte) (k sizeVal : Nat) : Copy :=
  ⟨s ++ List.replicate k 0, s.length, sizeVal⟩

@[simp] theorem grow_copied (s : List Byte) (k sizeVal : Nat) :
    (copied s k sizeVal).grow = copied s k ((sizeVal + 1) % 2 ^ 32) := rfl

theorem put_copied (s : List Byte) (k sizeVal : Nat) (tmp : Byte) :
    (copied s (k + 1) sizeVal).put tmp = some (copied (s ++ [tmp]) k sizeVal) := by
  unfold Copy.put copied
  rw [if_pos (by simp)]
  simp [replicate_succ]

/-- The loop writes the string up to its first `'\0'`, escaped, and the size grows by one for
each character that is escaped. -/
theorem escapeLoop_spec (str s : List Byte) (k sizeVal : Nat)
    (hroom : (dbEscape.escape (cstring str).chars).length ≤ k)
    (hsize : sizeVal + str.length < 2 ^ 32) :
    escapeLoop str (copied s k sizeVal) =
      some (copied (s ++ dbEscape.escape (cstring str).chars)
        (k - (dbEscape.escape (cstring str).chars).length)
        (sizeVal + (cstring str).chars.countP dbEscape.special)) := by
  induction str generalizing s k sizeVal with
  | nil => simp [escapeLoop, cstring]
  | cons tmp str ih =>
    unfold escapeLoop
    by_cases hnul : tmp = 0
    · simp [hnul, cstring]
    have hchars : (cstring (tmp :: str)).chars = tmp :: (cstring str).chars := by
      show (tmp :: str).takeWhile (fun c => decide (c ≠ 0)) = _
      rw [takeWhile_cons_of_pos (by simpa using hnul)]
      rfl
    have htest : (decide (tmp = backslash) || decide (tmp = quote)) = dbEscape.special tmp := rfl
    rw [length_cons] at hsize
    rw [hchars, Lib.Escape.Scheme.escape_cons] at hroom ⊢
    rw [if_neg hnul, countP_cons, htest]
    by_cases hspecial : dbEscape.special tmp
    · have hunit : dbEscape.unit tmp = [backslash, tmp] := if_pos hspecial
      rw [hunit] at hroom ⊢
      obtain ⟨k, rfl⟩ : ∃ k', k = k' + 2 := ⟨k - 2, by simp at hroom; omega⟩
      have hgrown : (sizeVal + 1) % 2 ^ 32 = sizeVal + 1 := Nat.mod_eq_of_lt (by omega)
      have hrest := ih (s ++ [backslash, tmp]) k (sizeVal + 1) (by simpa using hroom) (by omega)
      rw [if_pos hspecial, put_copied, bind_eq_bind, bind_some, grow_copied,
        put_copied, bind_some, hgrown, append_assoc, singleton_append, hrest,
        if_pos hspecial]
      simp [Nat.add_comm 1, Nat.add_assoc]
    · have hunit : dbEscape.unit tmp = [tmp] := if_neg hspecial
      rw [hunit] at hroom ⊢
      obtain ⟨k, rfl⟩ : ∃ k', k = k' + 1 := ⟨k - 1, by simp at hroom; omega⟩
      have hrest := ih (s ++ [tmp]) k sizeVal (by simpa using hroom) (by omega)
      rw [if_neg hspecial, put_copied, bind_eq_bind, bind_some, hrest,
        if_neg hspecial]
      simp

end Slurm.Pack

namespace Slurm.Pack

open Lib.BigEndian List
open Lib.Reading

variable {c : Cursor Byte} {alloc : Bool}

/-- The length that comes first in the buffer. -/
def wireLen (c : Cursor Byte) : Nat := ofBytes (c.next 4)

/-- The bytes that come after the length. -/
def wire (c : Cursor Byte) : List Byte := (c.advance 4).next (wireLen c)

/-- A string is in the buffer, and there is memory for it. -/
def Accepted (alloc : Bool) (c : Cursor Byte) : Prop :=
  4 ≤ c.remaining ∧
    (wireLen c = 0 ∨
      wireLen c ≤ maxPackMemLen ∧ wireLen c ≤ (c.advance 4).remaining ∧ alloc = true)

/-- The first `'\0'` is the last byte. -/
def EndsAtNul (bs : List Byte) : Prop := ∃ s : CString, bs = s.chars ++ [0]

/-- What is said of the memory at the end: the string ends in it, un-escapes to the bytes up
to their first `'\0'`, and no `'` or `\` stands in it without a `\` before it. -/
structure Safe (bs valp : List Byte) : Prop where
  ends : (0 : Byte) ∈ valp
  back : dbEscape.unescape false (cstring valp).chars = some (cstring bs).chars
  quoted : quote ∉ dbEscape.bare false (cstring valp).chars
  marked : backslash ∉ dbEscape.bare false (cstring valp).chars

/-- The memory is as it must be, and the size is that of the string with its `'\0'`. -/
structure Written (bs valp : List Byte) (sizeVal : Nat) : Prop extends Safe bs valp where
  size : sizeVal = (cstring valp).chars.length + 1

/-- The contract of one call: no write is outside the memory, and on success
`4 + wire length` bytes are consumed, as by `unpackstr_xmalloc`; there is no memory for an
empty block, and otherwise the memory and the size are as they must be. -/
def EscapedContract (alloc : Bool) (c : Cursor Byte) : Prop :=
  ∃ o, unpackstrXmallocEscaped alloc c = some o ∧
    (o.success = true →
      o.buf = c.advance (4 + wireLen c) ∧
      ((unpackstrXmalloc alloc c).success = true → (unpackstrXmalloc alloc c).buf = o.buf) ∧
      (o.valp = none → wireLen c = 0 ∧ o.sizeVal = 0) ∧
      ∀ valp, o.valp = some valp → Written (wire c) valp o.sizeVal)

/-! ## One call -/

theorem unpack32_word (c : Cursor Byte) :
    unpack32 c =
      if c.remaining < 4 then (.error .unpackError, c)
      else (.ok (BitVec.ofNat 32 (wireLen c)), c.advance 4) := by
  rw [unpack32, unpackBytes, bind_apply, bind_apply, block, blockIf]
  by_cases h : c.remaining < 4
  · rw [if_pos h, if_pos h]
  · rw [if_neg h, if_neg h, if_neg (by decide)]
    rfl

theorem wireLen_lt (h : 4 ≤ c.remaining) : wireLen c < 2 ^ 32 := by
  have hlen : (c.next 4).length = 4 := by
    unfold Cursor.remaining at h
    simp [Cursor.next]
    omega
  have hlt := ofBytes_lt (c.next 4)
  rw [hlen] at hlt
  exact hlt

/-- The length, where the buffer has one. -/
theorem unpack32_wireLen (h : 4 ≤ c.remaining) :
    ∃ cnt : BitVec 32, unpack32 c = (.ok cnt, c.advance 4) ∧ cnt.toNat = wireLen c := by
  refine ⟨BitVec.ofNat 32 (wireLen c), ?_, ?_⟩
  · rw [unpack32_word, if_neg (not_lt.mpr h)]
  · exact (BitVec.toNat_ofNat _ _).trans (Nat.mod_eq_of_lt (wireLen_lt h))

theorem length_wire (h : wireLen c ≤ (c.advance 4).remaining) : (wire c).length = wireLen c := by
  unfold Cursor.remaining at h
  simp [wire, Cursor.next]
  omega

theorem length_cstring_le (bs : List Byte) : (cstring bs).chars.length ≤ bs.length :=
  ( takeWhile_prefix _).length_le

/-- What does not stand in the buffer, or finds no memory, is an error. -/
theorem unpackstrXmallocEscaped_refused (h : ¬ Accepted alloc c) :
    ∃ o, unpackstrXmallocEscaped alloc c = some o ∧ o.success = false := by
  unfold unpackstrXmallocEscaped
  by_cases hfour : c.remaining < 4
  · rw [unpack32_word, if_pos hfour]
    exact ⟨_, rfl, rfl⟩
  obtain ⟨cnt, hread, hcnt⟩ := unpack32_wireLen (not_lt.mp hfour)
  rw [hread]
  dsimp only
  have hzero : ¬ cnt = 0 := by
    intro heq
    rw [heq] at hcnt
    exact h ⟨not_lt.mp hfour, Or.inl hcnt.symm⟩
  rw [if_neg hzero, hcnt]
  split
  · exact ⟨_, rfl, rfl⟩
  · rename_i hmax
    split
    · exact ⟨_, rfl, rfl⟩
    · rename_i hroom
      split
      · exact ⟨_, rfl, rfl⟩
      · rename_i halloc
        exact absurd ⟨not_lt.mp hfour, Or.inr ⟨not_lt.mp hmax, not_lt.mp hroom,
          Bool.not_eq_false _ ▸ halloc⟩⟩ h

/-- An empty block. -/
theorem unpackstrXmallocEscaped_empty (alloc : Bool) (hfour : 4 ≤ c.remaining)
    (hzero : wireLen c = 0) :
    unpackstrXmallocEscaped alloc c = some ⟨true, none, 0, c.advance 4⟩ := by
  obtain ⟨cnt, hread, hcnt⟩ := unpack32_wireLen hfour
  have hcntzero : cnt = 0 := BitVec.eq_of_toNat_eq (hcnt.trans hzero)
  unfold unpackstrXmallocEscaped
  rw [hread]
  exact if_pos hcntzero

/-- The memory after the loop, for a block of `n` bytes. -/
def escapedMem (bs : List Byte) (n : Nat) : List Byte :=
  dbEscape.escape (cstring bs).chars ++
    List.replicate (2 * n + 1 - (dbEscape.escape (cstring bs).chars).length) 0

/-- The memory and the size that a string leaves. -/
theorem unpackstrXmallocEscaped_spec (h : Accepted alloc c) (hne : wireLen c ≠ 0) :
    unpackstrXmallocEscaped alloc c =
      some ⟨true,
        some (escapedMem (wire c) (wireLen c)),
        wireLen c + (cstring (wire c)).chars.countP dbEscape.special,
        c.advance (4 + wireLen c)⟩ := by
  obtain ⟨hfour, hzero | ⟨hmax, hroom, halloc⟩⟩ := h
  · exact absurd hzero hne
  obtain ⟨cnt, hread, hcnt⟩ := unpack32_wireLen hfour
  have hcntne : ¬ cnt = 0 := by
    intro heq
    rw [heq] at hcnt
    exact hne hcnt.symm
  have hmax' : wireLen c ≤ 1024 * 1024 * 1024 := hmax
  have hlen := length_wire hroom
  have hstr := length_cstring_le (wire c)
  have hescape := dbEscape.length_escape_le (cstring (wire c)).chars
  have hsize : (wireLen c * 2 + 1) % 2 ^ 32 = 2 * wireLen c + 1 := by omega
  have hloop := escapeLoop_spec (wire c) [] (2 * wireLen c + 1) (wireLen c) (by omega) (by omega)
  unfold unpackstrXmallocEscaped
  rw [hread]
  dsimp only
  rw [if_neg hcntne, hcnt, if_neg (not_lt.mpr hmax), if_neg (not_lt.mpr hroom), halloc,
    if_neg (by decide), hsize]
  show (escapeLoop (wire c) (copied [] (2 * wireLen c + 1) (wireLen c)) >>= _) = _
  rw [hloop, Cursor.advance, Cursor.advance, Nat.add_assoc]
  rfl

/-- `unpackstr_xmalloc` consumes the length and that many bytes. -/
theorem unpackstrXmalloc_buf (h : (unpackstrXmalloc alloc c).success = true) :
    (unpackstrXmalloc alloc c).buf = c.advance (4 + wireLen c) := by
  unfold unpackstrXmalloc zeroOnError at h ⊢
  cases hread : readMem (fun bs => decide (bs.getLast? = some 0)) alloc c with
  | mk res c' =>
    rw [hread] at h
    cases res with
    | error e => cases h
    | ok valp =>
      show c' = _
      obtain ⟨size, c₁, hsize, hrest⟩ := bind_eq_ok.mp hread
      by_cases hfour : c.remaining < 4
      · rw [unpack32_word, if_pos hfour] at hsize
        cases hsize
      obtain ⟨cnt, hcnt, hlen⟩ := unpack32_wireLen (not_lt.mp hfour)
      rw [hcnt] at hsize
      cases hsize
      rw [← hlen]
      split at hrest
      · rename_i hzero
        cases hrest
        rw [hzero]
        rfl
      · split at hrest
        · cases hrest
        · obtain ⟨bs, c₂, hblock, hpure⟩ := bind_eq_ok.mp hrest
          cases hpure
          unfold blockIf at hblock
          split at hblock
          · cases hblock
          · split at hblock
            · cases hblock
            · cases hblock
              simp [Cursor.advance, Nat.add_assoc]

/-! ## What is written -/

/-- A string is read back from memory that is filled up with `'\0'`. -/
theorem cstring_filled {bs : List Byte} (hfree : (0 : Byte) ∉ bs) (k : Nat) :
    (cstring (bs ++ List.replicate k 0)).chars = bs := by
  have hall : ∀ b ∈ bs, decide (b ≠ 0) = true := fun b hb => decide_eq_true fun h => hfree (h ▸ hb)
  show List.takeWhile _ _ = _
  rw [takeWhile_append_of_pos hall, takeWhile_replicate]
  simp

theorem nul_free_escape (s : CString) : (0 : Byte) ∉ dbEscape.escape s.chars := by
  intro h
  rcases dbEscape.mem_escape h with h | h
  · exact absurd h (by decide)
  · exact s.nul_free h

/-- The first `'\0'` is the last byte just where the string is one shorter. -/
theorem endsAtNul_iff (bs : List Byte) :
    EndsAtNul bs ↔ bs.length = (cstring bs).chars.length + 1 := by
  constructor
  · intro h
    obtain ⟨s, rfl⟩ := h
    have hchars := cstring_filled s.nul_free 1
    rw [replicate_one] at hchars
    rw [hchars, length_append, length_singleton]
  · intro h
    have hsplit : (cstring bs).chars ++ bs.dropWhile (fun b => decide (b ≠ 0)) = bs :=
      takeWhile_append_dropWhile
    have hhead := head?_dropWhile_not (fun b : Byte => decide (b ≠ 0)) bs
    have hlen := congrArg List.length hsplit
    rw [length_append] at hlen
    obtain ⟨b, hb⟩ := List.length_eq_one_iff.mp
      (show (bs.dropWhile fun b => decide (b ≠ 0)).length = 1 by omega)
    rw [hb] at hhead
    have hnul : b = 0 := by simpa using hhead
    rw [hb, hnul] at hsplit
    exact ⟨cstring bs, hsplit.symm⟩

theorem cstring_escapedMem (bs : List Byte) (n : Nat) :
    (cstring (escapedMem bs n)).chars = dbEscape.escape (cstring bs).chars :=
  cstring_filled (nul_free_escape (cstring bs)) _

/-- The memory is as it must be, whatever the bytes are. -/
theorem safe_escapedMem (bs : List Byte) : Safe bs (escapedMem bs bs.length) := by
  have hstr := length_cstring_le bs
  have hlen := dbEscape.length_escape_le (cstring bs).chars
  have hbare := dbEscape.bare_escape (cstring bs).chars
  constructor
  · unfold escapedMem
    rw [mem_append, mem_replicate]
    exact Or.inr ⟨by omega, rfl⟩
  · rw [cstring_escapedMem]
    exact dbEscape.unescape_escape _
  · rw [cstring_escapedMem]
    intro hq
    exact absurd (hbare quote hq) (by decide)
  · rw [cstring_escapedMem]
    intro hq
    exact absurd (hbare backslash hq) (by decide)

/-- The size is right just where the first `'\0'` is the last byte. -/
theorem written_escapedMem_iff (bs : List Byte) :
    Written bs (escapedMem bs bs.length)
        (bs.length + (cstring bs).chars.countP dbEscape.special) ↔
      EndsAtNul bs := by
  have hlen := dbEscape.length_escape (cstring bs).chars
  rw [endsAtNul_iff]
  constructor
  · intro h
    have hsize := h.size
    rw [cstring_escapedMem] at hsize
    omega
  · intro h
    refine ⟨safe_escapedMem bs, ?_⟩
    rw [cstring_escapedMem]
    omega

/-- The contract holds where nothing is accepted, where the block is empty, and where the
first `'\0'` of the bytes is the last of them. -/
theorem escapedContract_iff (alloc : Bool) (c : Cursor Byte) :
    EscapedContract alloc c ↔
      (Accepted alloc c → wireLen c = 0 ∨ EndsAtNul (wire c)) := by
  by_cases haccepted : Accepted alloc c
  · by_cases hzero : wireLen c = 0
    · have hrun := unpackstrXmallocEscaped_empty alloc haccepted.1 hzero
      refine iff_of_true ⟨_, hrun, fun _ => ⟨?_, fun h => ?_, fun _ => ⟨hzero, rfl⟩, ?_⟩⟩
        fun _ => Or.inl hzero
      · rw [hzero]
      · rw [unpackstrXmalloc_buf h, hzero]
      · intro valp h
        cases h
    · have hroom : wireLen c ≤ (c.advance 4).remaining := by
        rcases haccepted.2 with h | h
        · exact absurd h hzero
        · exact h.2.1
      have hrun := unpackstrXmallocEscaped_spec haccepted hzero
      have hwritten := written_escapedMem_iff (wire c)
      rw [length_wire hroom] at hwritten
      constructor
      · intro h _
        obtain ⟨o, ho, hall⟩ := h
        rw [hrun, Option.some.injEq] at ho
        obtain ⟨-, -, -, hw⟩ := hall (ho ▸ rfl)
        rw [← ho] at hw
        exact Or.inr (hwritten.mp (hw _ rfl))
      · intro h
        refine ⟨_, hrun, fun _ => ⟨rfl, unpackstrXmalloc_buf, ?_, ?_⟩⟩
        · intro hnone
          cases hnone
        · intro valp hvalp
          rw [← Option.some.inj hvalp]
          exact hwritten.mpr ((h haccepted).resolve_left hzero)
  · obtain ⟨o, ho, hfail⟩ := unpackstrXmallocEscaped_refused haccepted
    refine iff_of_true ⟨o, ho, fun h => ?_⟩ fun h => absurd h haccepted
    rw [h] at hfail
    cases hfail

/-- Two characters without a `'\0'`: the size is 2, where the string with its `'\0'` takes
3 bytes. -/
theorem not_escapedContract_unended :
    ¬ EscapedContract true ⟨[0, 0, 0, 2, 0x61, 0x62], 0⟩ := by
  intro h
  obtain ⟨o, ho, hall⟩ := h
  have hrun : unpackstrXmallocEscaped true ⟨[0, 0, 0, 2, 0x61, 0x62], 0⟩ =
      some ⟨true, some [0x61, 0x62, 0, 0, 0], 2, ⟨[0, 0, 0, 2, 0x61, 0x62], 6⟩⟩ := by
    rfl
  rw [hrun, Option.some.injEq] at ho
  rw [← ho] at hall
  obtain ⟨-, -, -, hwritten⟩ := hall rfl
  exact absurd (hwritten _ rfl).size (by decide)

end Slurm.Pack
