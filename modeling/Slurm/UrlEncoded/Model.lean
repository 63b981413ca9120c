import Slurm.Lib.FirstMatch
import Slurm.Lib.Scanning

/-!
# URL queries (`plugins/serializer/url-encoded/serializer_url_encoded.c`)

`serialize_p_string_to_data` reads a query such as `a=1&b=x%20y;a=2` into a dictionary.  Two strings
that may be `NULL` are all that the loop keeps: the name that an `=` has ended, and the characters
that came since.

A string is the list of its bytes; `look` finds the NUL behind the last one, and nothing behind that.
A failure carries the code that the function returns.  `data_t` has here the types that a query can
come to; its `length` argument is read by nobody.
-/

namespace Slurm.UrlEncoded

open Lib.Scanning
open Lib.FirstMatch (modifyFirst)

/-- The bytes of a string. -/
abbrev Bytes := List UInt8

/-- `SLURM_SUCCESS` -/
def slurmSuccess : Int := 0

/-- `SLURM_ERROR` -/
def slurmError : Int := -1

/-- What reads the string. -/
abbrev Read (α : Type) := Except (Stop Int) α

/-- `data_t` -/
inductive Data where
  | null
  | bool (b : Bool)
  | string (s : Bytes)
  | list (l : List Data)
  | dict (d : List (Bytes × Data))

/-- The entries of a dictionary, in the order in which they were made. -/
abbrev Dict := List (Bytes × Data)

/-! ## Characters -/

/-- The byte of a character of the source. -/
def byte (c : Char) : UInt8 := UInt8.ofNat c.toNat

/-- `_is_char_hex` -/
def isCharHex (buffer : UInt8) : Bool :=
  (byte '0' ≤ buffer && buffer ≤ byte '9') || (byte 'a' ≤ buffer && buffer ≤ byte 'f') ||
    (byte 'A' ≤ buffer && buffer ≤ byte 'F')

/-- `_is_valid_url_char` -/
def isValidUrlChar (buffer : UInt8) : Bool :=
  (byte '0' ≤ buffer && buffer ≤ byte '9') || (byte 'a' ≤ buffer && buffer ≤ byte 'z') ||
    (byte 'A' ≤ buffer && buffer ≤ byte 'Z') || buffer == byte '~' || buffer == byte '-' ||
    buffer == byte '.' || buffer == byte '_'

/-- `tolower` -/
def toLower (c : UInt8) : UInt8 := if byte 'A' ≤ c && c ≤ byte 'Z' then c + 32 else c

/-- `slurm_char_to_hex` -/
def slurmCharToHex (c : UInt8) : Int :=
  if byte '0' ≤ c && c ≤ byte '9' then (c.toNat : Int) - 48
  else if byte 'a' ≤ toLower c && toLower c ≤ byte 'f' then ((toLower c).toNat : Int) + (10 - 97)
  else -1

/-- The character of two digits. -/
def decoded (high low : UInt8) : UInt8 :=
  UInt8.ofInt (slurmCharToHex high * 2 ^ 4 + slurmCharToHex low)

/-- `_decode_seq`, for the `%` at the place `ptr`. -/
def decodeSeq (s : Bytes) (ptr : Nat) : Read UInt8 := do
  let high ← look 0 s (ptr + 1)
  if isCharHex high then do
    let low ← look 0 s (ptr + 2)
    if isCharHex low then
      if decoded high low = 0 then pure 0
      else if decoded high low = 0xff then pure 0
      else pure (decoded high low)
    else pure 0
  else pure 0

/-! ## Entries -/

/-- A value behind the ones that a key has: a list keeps growing, and anything else becomes the first
of a list. -/
def Data.append : Data → Data → Data
  | .list l, v => .list (l ++ [v])
  | c, v => .list [c, v]

/-- `data_key_get`: the first entry of a key. -/
def dataKeyGet (d : Dict) (key : Bytes) : Option (Bytes × Data) := d.find? fun e => decide (e.1 = key)

/-- `_on_key`, with the value `v` that its caller puts into the place that it returns. -/
def onKey (dst : Dict) (key : Bytes) (v : Data) : Dict :=
  match dataKeyGet dst key with
  | none => dst ++ [(key, v)]
  | some _ => modifyFirst (fun e => decide (e.1 = key)) (fun e => (e.1, e.2.append v)) dst

/-- The local variables. -/
structure Locals where
  d : Dict
  key : Option Bytes
  buffer : Option Bytes

/-- Before the loop. -/
def Locals.init : Locals := ⟨[], none, none⟩

/-- `xstrcatchar(buffer, c)` -/
def Locals.catChar (p : Locals) (c : UInt8) : Locals :=
  { p with buffer := some (p.buffer.getD [] ++ [c]) }

/-- `_handle_new_key_char` -/
def handleNewKeyChar (p : Locals) : Locals :=
  match p.key, p.buffer with
  -- example: &test=value
  | none, none => p
  -- example: test1&test2=value
  | none, some buffer => ⟨onKey p.d buffer (.bool true), none, none⟩
  -- example: &test1=&=value
  | some key, none => ⟨onKey p.d key .null, none, none⟩
  | some key, some buffer => ⟨onKey p.d key (.string buffer), none, none⟩

/-- `case '='` -/
def handleEquals (p : Locals) : Read Locals :=
  match p.key, p.buffer with
  -- example: =test=value
  | none, none => .error (.failed slurmError)
  | none, some buffer => .ok { p with key := some buffer, buffer := none }
  -- example: test===value
  | some _, none => .ok p
  -- example: test=value=testv
  | some _, some _ => .error (.failed slurmError)

/-! ## The loop -/

/-- The body of the loop, at the place `ptr`: where it comes to, and the variables there. -/
def turn (s : Bytes) (ptr : Nat) (p : Locals) : Read (Nat × Locals) := do
  let c ← look 0 s ptr
  if isValidUrlChar c then pure (ptr, p.catChar c)
  else if c = byte '%' then do
    let e ← decodeSeq s ptr
    if e ≠ 0 then pure (ptr + 2, p.catChar e) else .error (.failed slurmError)
  else if c = byte '+' then pure (ptr, p.catChar (byte ' '))
  else if c = byte ';' ∨ c = byte '&' then pure (ptr, handleNewKeyChar p)
  else if c = byte '=' then do
    let next ← handleEquals p
    pure (ptr, next)
  else .error (.failed slurmError)

/-- The loop over the string, up to the NUL. -/
def parse (s : Bytes) : Read Locals :=
  scan 0 (fun c => c == 0) (turn s) s (s.length + 1) 0 .init

/-- Behind the loop: the last entry, which may have no value. -/
def finish (p : Locals) : Locals :=
  let p := handleNewKeyChar p
  if p.buffer.isSome then handleNewKeyChar p else p

/-- What the caller gets: the code, and the data behind `dest`. -/
structure Reply where
  rc : Int
  dest : Option Data

/-- `serialize_p_string_to_data` -/
def serializePStringToData (dest : Option Data) (src : Option Bytes) : Read Reply :=
  match src.elim (.ok .init) parse with
  | .ok p => .ok ⟨slurmSuccess, some (.dict (finish p).d)⟩
  | .error (.failed rc) => .ok ⟨rc, dest⟩
  | .error e => .error e

end Slurm.UrlEncoded

/-!
## One turn of the loop over a query

`Digits b high low` are the two digits of a byte, and `Escape s ptr b` that they stand behind the
place `ptr`.  `Step` has a constructor for each way in which a turn goes on.

* `decodeSeq_cases`: an escape is read, or none is there.
* `turn_cases`: a turn at a place of the string goes on, or gives up.
* `step_passes`: a turn passes only digits.
* `inside_parse`: no turn reads a place behind the NUL.
-/

namespace Slurm.UrlEncoded

open Lib.Scanning

variable {s : Bytes} {ptr ptr' : Nat} {p p' : Locals} {b c high low : UInt8}

/-! ## Digits -/

/-- A digit in base 16, in capital or in small letters. -/
def hexDigit (upper : Bool) (n : Nat) : UInt8 :=
  UInt8.ofNat (if n < 10 then 48 + n else if upper then 55 + n else 87 + n)

/-- The two digits of a byte. -/
def Digits (b high low : UInt8) : Prop :=
  ∃ u u', high = hexDigit u (b.toNat / 16) ∧ low = hexDigit u' (b.toNat % 16)

theorem isCharHex_hexDigit (u : Bool) {n : Nat} (hn : n < 16) :
    isCharHex (hexDigit u n) = true ∧ slurmCharToHex (hexDigit u n) = n := by
  have hall : ∀ (u : Bool) (n : Fin 16), isCharHex (hexDigit u n) = true ∧
      slurmCharToHex (hexDigit u n) = (n : Nat) := by decide
  exact hall u ⟨n, hn⟩

/-- A digit is one of the thirty-two. -/
theorem exists_hexDigit (h : isCharHex c = true) : ∃ u n, n < 16 ∧ c = hexDigit u n := by
  have hall : ∀ i : Fin 256, isCharHex (UInt8.ofNat i) = true →
      ∃ (u : Bool) (n : Fin 16), UInt8.ofNat i = hexDigit u n := by decide +kernel
  have hc : UInt8.ofNat c.toNat = c := UInt8.ofNat_toNat
  obtain ⟨u, n, hn⟩ := hall ⟨c.toNat, c.toNat_lt⟩ (by rw [hc]; exact h)
  exact ⟨u, n, n.isLt, hc ▸ hn⟩

theorem decoded_hexDigit (u u' : Bool) {n m : Nat} (hn : n < 16) (hm : m < 16) :
    decoded (hexDigit u n) (hexDigit u' m) = UInt8.ofNat (16 * n + m) := by
  unfold decoded
  rw [(isCharHex_hexDigit u hn).2, (isCharHex_hexDigit u' hm).2]
  have hsum : ((n : Int) * 2 ^ 4 + m) % 2 ^ 8 = ((16 * n + m : Nat) : Int) := by omega
  unfold UInt8.ofInt
  rw [hsum]
  rfl

theorem digits_spec (h : Digits b high low) :
    isCharHex high = true ∧ isCharHex low = true ∧ decoded high low = b := by
  obtain ⟨u, u', rfl, rfl⟩ := h
  have hlt : b.toNat < 256 := b.toNat_lt
  have hhigh : b.toNat / 16 < 16 := by omega
  have hlow : b.toNat % 16 < 16 := Nat.mod_lt _ (by decide)
  refine ⟨(isCharHex_hexDigit u hhigh).1, (isCharHex_hexDigit u' hlow).1, ?_⟩
  rw [decoded_hexDigit u u' hhigh hlow, Nat.div_add_mod]
  exact UInt8.ofNat_toNat

theorem digits_decoded (hhigh : isCharHex high = true) (hlow : isCharHex low = true) :
    Digits (decoded high low) high low := by
  obtain ⟨u, n, hn, rfl⟩ := exists_hexDigit hhigh
  obtain ⟨u', m, hm, rfl⟩ := exists_hexDigit hlow
  have hval : (decoded (hexDigit u n) (hexDigit u' m)).toNat = 16 * n + m := by
    rw [decoded_hexDigit u u' hn hm]
    exact UInt8.toNat_ofNat_of_lt' (by show 16 * n + m < 256; omega)
  refine ⟨u, u', ?_, ?_⟩
  · rw [hval]
    congr 1
    omega
  · rw [hval]
    congr 1
    omega

/-- What a digit is not. -/
theorem isCharHex_ne (h : isCharHex c = true) :
    c ≠ 0 ∧ isValidUrlChar c = true ∧ c ≠ byte '%' ∧ c ≠ byte '=' ∧ c ≠ byte ';' ∧
      c ≠ byte '&' := by
  have hall : ∀ (u : Bool) (n : Fin 16), hexDigit u n ≠ 0 ∧ isValidUrlChar (hexDigit u n) = true ∧
      hexDigit u n ≠ byte '%' ∧ hexDigit u n ≠ byte '=' ∧ hexDigit u n ≠ byte ';' ∧
      hexDigit u n ≠ byte '&' := by decide
  obtain ⟨u, n, hn, rfl⟩ := exists_hexDigit h
  exact hall u ⟨n, hn⟩

/-! ## Escapes -/

/-- The digits of a byte stand behind the place `ptr`. -/
def Escape (s : Bytes) (ptr : Nat) (b : UInt8) : Prop :=
  b ≠ 0 ∧ b ≠ 0xff ∧ ∃ high low, s[ptr + 1]? = some high ∧ s[ptr + 2]? = some low ∧
    Digits b high low

/-- What is read behind a place of the string is an element of it, if it is not the NUL. -/
theorem getElem_of_look (h : (look 0 s ptr : Read UInt8) = .ok c) (hc : c ≠ 0) :
    s[ptr]? = some c := by
  rcases look_eq_ok.mp h with h | ⟨-, h⟩
  · exact h
  · exact absurd h.symm hc

theorem decodeSeq_escape (h : Escape s ptr b) : decodeSeq s ptr = .ok b := by
  obtain ⟨hzero, hff, high, low, hhigh, hlow, hdigits⟩ := h
  obtain ⟨hexh, hexl, hval⟩ := digits_spec hdigits
  unfold decodeSeq
  simp [look_of_lt 0 hhigh, look_of_lt 0 hlow, hexh, hexl, hval, hzero, hff, bind, Except.bind,
    pure, Except.pure]

/-- The escape at a place of the string is read, or there is none. -/
theorem decodeSeq_cases (hptr : ptr < s.length) :
    (∃ b, Escape s ptr b ∧ decodeSeq s ptr = .ok b) ∨
      (∀ b, ¬ Escape s ptr b) ∧ decodeSeq s ptr = .ok 0 := by
  by_cases hesc : ∃ b, Escape s ptr b
  · obtain ⟨b, hb⟩ := hesc
    exact Or.inl ⟨b, hb, decodeSeq_escape hb⟩
  · refine Or.inr ⟨fun b hb => hesc ⟨b, hb⟩, ?_⟩
    obtain ⟨high, hhigh⟩ := @exists_look _ Int s (ptr + 1) 0 hptr
    by_cases hexh : isCharHex high = true
    · have hin := getElem_of_look hhigh (isCharHex_ne hexh).1
      obtain ⟨low, hlow⟩ :=
        @exists_look _ Int s (ptr + 2) 0 (List.getElem?_eq_some_iff.mp hin).1
      by_cases hexl : isCharHex low = true
      · have hin' := getElem_of_look hlow (isCharHex_ne hexl).1
        have hor : decoded high low = 0 ∨ decoded high low = 0xff := by
          by_contra hne
          rw [not_or] at hne
          exact hesc ⟨_, hne.1, hne.2, high, low, hin, hin', digits_decoded hexh hexl⟩
        unfold decodeSeq
        rcases hor with hval | hval <;>
          simp [hhigh, hlow, hexh, hexl, hval, bind, Except.bind, pure, Except.pure]
      · unfold decodeSeq
        simp [hhigh, hlow, hexh, hexl, bind, Except.bind, pure, Except.pure]
    · unfold decodeSeq
      simp [hhigh, hexh, bind, Except.bind, pure, Except.pure]

/-! ## Turns -/

/-- How a turn goes on, at the character `c`. -/
inductive Step (s : Bytes) (c : UInt8) (ptr : Nat) (p : Locals) : Nat → Locals → Prop
  | char (hc : isValidUrlChar c = true) : Step s c ptr p ptr (p.catChar c)
  | escape {b : UInt8} (hc : c = byte '%') (hb : Escape s ptr b) :
      Step s c ptr p (ptr + 2) (p.catChar b)
  | plus (hc : c = byte '+') : Step s c ptr p ptr (p.catChar (byte ' '))
  | separator (hc : c = byte ';' ∨ c = byte '&') : Step s c ptr p ptr (handleNewKeyChar p)
  | name {buffer : Bytes} (hc : c = byte '=') (hkey : p.key = none) (hbuf : p.buffer = some buffer) :
      Step s c ptr p ptr ⟨p.d, some buffer, none⟩
  | again (hc : c = byte '=') (hkey : p.key.isSome = true) (hbuf : p.buffer = none) :
      Step s c ptr p ptr p

/-- The special characters are no others. -/
theorem special_ne :
    isValidUrlChar (byte '%') = false ∧ isValidUrlChar (byte '+') = false ∧
      isValidUrlChar (byte ';') = false ∧ isValidUrlChar (byte '&') = false ∧
      isValidUrlChar (byte '=') = false := by decide

theorem handleEquals_cases (p : Locals) :
    (∃ buffer, p.key = none ∧ p.buffer = some buffer ∧
        handleEquals p = .ok ⟨p.d, some buffer, none⟩) ∨
      p.key.isSome = true ∧ p.buffer = none ∧ handleEquals p = .ok p ∨
      handleEquals p = .error (.failed slurmError) := by
  rcases p with ⟨d, _ | key, _ | buffer⟩
  · exact Or.inr (Or.inr rfl)
  · exact Or.inl ⟨buffer, rfl, rfl, rfl⟩
  · exact Or.inr (Or.inl ⟨rfl, rfl, rfl⟩)
  · exact Or.inr (Or.inr rfl)

/-- The body of the loop, with its character. -/
theorem turn_eq (h : s[ptr]? = some c) (p : Locals) :
    turn s ptr p =
      if isValidUrlChar c then .ok (ptr, p.catChar c)
      else if c = byte '%' then
        decodeSeq s ptr >>= fun e =>
          if e ≠ 0 then .ok (ptr + 2, p.catChar e) else .error (.failed slurmError)
      else if c = byte '+' then .ok (ptr, p.catChar (byte ' '))
      else if c = byte ';' ∨ c = byte '&' then .ok (ptr, handleNewKeyChar p)
      else if c = byte '=' then handleEquals p >>= fun next => .ok (ptr, next)
      else .error (.failed slurmError) := by
  unfold turn
  rw [look_of_lt 0 h]
  rfl

/-- A turn at a place of the string goes on, or gives up. -/
theorem turn_cases (h : s[ptr]? = some c) (p : Locals) :
    (∃ ptr' p', turn s ptr p = .ok (ptr', p') ∧ Step s c ptr p ptr' p') ∨
      turn s ptr p = .error (.failed slurmError) := by
  rw [turn_eq h]
  split
  · rename_i hc
    exact Or.inl ⟨_, _, rfl, .char hc⟩
  split
  · rename_i hc
    rcases decodeSeq_cases (List.getElem?_eq_some_iff.mp h).1 with ⟨b, hb, heq⟩ | ⟨-, heq⟩
    · rw [heq]
      exact Or.inl ⟨_, _, if_pos hb.1, .escape hc hb⟩
    · rw [heq]
      exact Or.inr rfl
  split
  · rename_i hc
    exact Or.inl ⟨_, _, rfl, .plus hc⟩
  split
  · rename_i hc
    exact Or.inl ⟨_, _, rfl, .separator hc⟩
  split
  · rename_i hc
    rcases handleEquals_cases p with ⟨buffer, hkey, hbuf, heq⟩ | ⟨hkey, hbuf, heq⟩ | heq
    · rw [heq]
      exact Or.inl ⟨_, _, rfl, .name hc hkey hbuf⟩
    · rw [heq]
      exact Or.inl ⟨_, _, rfl, .again hc hkey hbuf⟩
    · rw [heq]
      exact Or.inr rfl
  · exact Or.inr rfl

theorem step_of_turn (h : s[ptr]? = some c) (hturn : turn s ptr p = .ok (ptr', p')) :
    Step s c ptr p ptr' p' := by
  rcases turn_cases h p with ⟨ptr₁, p₁, heq, hstep⟩ | heq
  · rw [hturn] at heq
    cases heq
    exact hstep
  · rw [hturn] at heq
    cases heq

/-- Each way to go on is taken. -/
theorem turn_of_step (h : s[ptr]? = some c) (hstep : Step s c ptr p ptr' p') :
    turn s ptr p = .ok (ptr', p') := by
  obtain ⟨hpercent, hplus, hsemi, hamp, heq⟩ := special_ne
  rw [turn_eq h]
  cases hstep with
  | char hc => rw [if_pos hc]
  | escape hc hb =>
    rw [hc, hpercent, decodeSeq_escape hb]
    exact if_pos hb.1
  | plus hc =>
    rw [hc, hplus]
    rfl
  | separator hc =>
    rcases hc with hc | hc
    · rw [hc, hsemi]
      rfl
    · rw [hc, hamp]
      rfl
  | name hc hkey hbuf =>
    rw [hc, heq]
    unfold handleEquals
    rw [hkey, hbuf]
    rfl
  | again hc hkey hbuf =>
    obtain ⟨key, hkey⟩ := Option.isSome_iff_exists.mp hkey
    rw [hc, heq]
    unfold handleEquals
    rw [hkey, hbuf]
    rfl

/-- Behind its own character a turn passes only digits, and it stays in the string. -/
theorem step_passes (hptr : s[ptr]? = some c) (hstep : Step s c ptr p ptr' p') :
    ptr ≤ ptr' ∧ ptr' < s.length ∧
      ∀ i, ptr < i → i ≤ ptr' → ∃ d, s[i]? = some d ∧ isCharHex d = true := by
  have hlt : ptr < s.length := (List.getElem?_eq_some_iff.mp hptr).1
  have hself : ∀ i, ptr < i → i ≤ ptr → ∃ d, s[i]? = some d ∧ isCharHex d = true :=
    fun i hi hi' => absurd hi (Nat.not_lt_of_le hi')
  cases hstep with
  | escape hc hb =>
    obtain ⟨-, -, high, low, hhigh, hlow, hdigits⟩ := hb
    obtain ⟨hexh, hexl, -⟩ := digits_spec hdigits
    refine ⟨Nat.le_add_right _ _, (List.getElem?_eq_some_iff.mp hlow).1, fun i hi hi' => ?_⟩
    have hor : i = ptr + 1 ∨ i = ptr + 2 := by omega
    rcases hor with rfl | rfl
    · exact ⟨high, hhigh, hexh⟩
    · exact ⟨low, hlow, hexl⟩
  | char hc => exact ⟨Nat.le_refl _, hlt, hself⟩
  | plus hc => exact ⟨Nat.le_refl _, hlt, hself⟩
  | separator hc => exact ⟨Nat.le_refl _, hlt, hself⟩
  | name hc hkey hbuf => exact ⟨Nat.le_refl _, hlt, hself⟩
  | again hc hkey hbuf => exact ⟨Nat.le_refl _, hlt, hself⟩

/-! ## The loop -/

/-- The loop comes to the place `ptr` with `p`. -/
abbrev Comes (s : Bytes) (ptr : Nat) (p : Locals) : Prop :=
  Reaches 0 (fun c => c == 0) (turn s) s .init ptr p

theorem getElem_of_go (h : (look 0 s ptr : Read UInt8) = .ok c) (hstop : (c == 0) = false) :
    s[ptr]? = some c := getElem_of_look h (by simpa using hstop)

/-- The body of the loop reads no place behind the NUL. -/
theorem fits_turn (ptr : Nat) (p : Locals) : Fits 0 (fun c => c == 0) (turn s) s ptr p := by
  intro c hlook hstop
  have hc := getElem_of_go hlook hstop
  rcases turn_cases hc p with ⟨ptr', p', heq, hstep⟩ | heq
  · rw [heq]
    exact (step_passes hc hstep).2.1
  · rw [heq]
    trivial

/-- The body never goes back. -/
theorem forward_turn : Forward (turn s) := by
  intro ptr p ptr' p' hturn
  rcases hlook : (look 0 s ptr : Read UInt8) with e | c
  · unfold turn at hturn
    rw [hlook] at hturn
    cases hturn
  · by_cases hc : s[ptr]? = some c
    · exact (step_passes hc (step_of_turn hc hturn)).1
    · have hzero : c = 0 := by
        by_contra hne
        exact hc (getElem_of_look hlook hne)
      unfold turn at hturn
      rw [hlook, hzero] at hturn
      cases hturn

/-- No place behind the NUL is read. -/
theorem inside_parse (s : Bytes) : Inside (parse s) fun _ => True :=
  (inside_scan_iff forward_turn rfl .init).mpr fun ptr p _ => fits_turn ptr p

end Slurm.UrlEncoded
