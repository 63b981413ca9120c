import Slurm.Lib.Upsert
import Slurm.UrlEncoded.Model

/-!
# Form encoding

`Encodes t e` says that `e` is a way to write the text `t`, and `Writes fs s` that `s` is a way to
write the fields `fs` one after another.

* `comes_text`: the loop reads a written text into its buffer.
* `finish_writes`: it reads written fields into the dictionary, one after another.
* `mem_entries`, `mem_keys_entries`: what a name has in the dictionary then.
-/

namespace Slurm.UrlEncoded

open Lib.Scanning List
open Lib.Upsert (upsert)

variable {s t e rest : Bytes} {p : Locals} {c : UInt8}

/-! ## Texts and fields -/

/-- The ways to write a text: a character for itself, `+` for a space, or an escape. -/
inductive Encodes : Bytes → Bytes → Prop
  | nil : Encodes [] []
  | unreserved {c : UInt8} {t e : Bytes} (hc : isValidUrlChar c = true) (h : Encodes t e) :
      Encodes (c :: t) (c :: e)
  | plus {t e : Bytes} (h : Encodes t e) : Encodes (byte ' ' :: t) (byte '+' :: e)
  | percent {b high low : UInt8} {t e : Bytes} (hb : Digits b high low) (h : Encodes t e) :
      Encodes (b :: t) (byte '%' :: high :: low :: e)

/-- A name that is not empty, and its value. -/
structure Field where
  name : Bytes
  value : Bytes
  named : name ≠ []
  bytes : ∀ b ∈ name ++ value, b ≠ 0 ∧ b ≠ 0xff

/-- The ways to write fields. -/
inductive Writes : List Field → Bytes → Prop
  | nil : Writes [] []
  | last (f : Field) {n v : Bytes} (hn : Encodes f.name n) (hv : Encodes f.value v) :
      Writes [f] (n ++ byte '=' :: v)
  | more (f : Field) {fs : List Field} {n v s : Bytes} {sep : UInt8} (hn : Encodes f.name n)
      (hv : Encodes f.value v) (hsep : sep = byte ';' ∨ sep = byte '&') (hne : fs ≠ [])
      (h : Writes fs s) : Writes (f :: fs) (n ++ byte '=' :: (v ++ sep :: s))

/-- The value that a field has in the dictionary. -/
def valueOf (value : Bytes) : Data := if value = [] then .null else .string value

/-- The values of a name, one after another. -/
def gathered : List Bytes → Option Data
  | [] => none
  | [value] => some (valueOf value)
  | values => some (.list (values.map valueOf))

/-! ## Entries -/

theorem append_valueOf (value : Bytes) (v : Data) : (valueOf value).append v = .list [valueOf value, v] := by
  unfold valueOf
  split <;> rfl

theorem onKey_eq (d : Dict) (key : Bytes) (v : Data) :
    onKey d key v = upsert Data.append d (key, v) := by
  have hmem : key ∈ d.map Prod.fst ↔ (dataKeyGet d key).isSome = true := by
    unfold dataKeyGet
    rw [find?_isSome, mem_map]
    simp
  unfold onKey upsert
  cases hkey : dataKeyGet d key with
  | none => exact (if_neg (by rw [hmem, hkey]; exact Bool.false_ne_true)).symm
  | some old => exact (if_pos (by rw [hmem, hkey]; rfl)).symm

/-- One more value of a name. -/
theorem gathered_append (values : List Bytes) (value : Bytes) :
    gathered (values ++ [value]) =
      Option.merge Data.append (gathered values) (some (valueOf value)) := by
  match values with
  | [] => rfl
  | [v] => exact congrArg some (append_valueOf v (valueOf value)).symm
  | v :: w :: values =>
    show some (Data.list ((v :: w :: (values ++ [value])).map valueOf)) =
      some (.list ((v :: w :: values).map valueOf ++ [valueOf value]))
    simp

/-- The dictionary of all fields. -/
def entries (fs : List Field) (d : Dict) : Dict :=
  (fs.map fun f => (f.name, valueOf f.value)).foldl (upsert Data.append) d

theorem entries_cons (f : Field) (fs : List Field) (d : Dict) :
    entries (f :: fs) d = entries fs (onKey d f.name (valueOf f.value)) := by
  rw [onKey_eq]
  rfl

/-- A name has the values of all its fields, in their order. -/
theorem mem_entries (fs : List Field) (k : Bytes) (v : Data) :
    (k, v) ∈ entries fs [] ↔ gathered ((fs.filter (·.name = k)).map Field.value) = some v := by
  have h := Lib.Upsert.mem_foldl_upsert_gathered (f := Data.append) (g := gathered) rfl
    gathered_append (fs.map fun f => (f.name, f.value)) k v
  rw [map_map, filter_map, map_map] at h
  exact h

/-- Each name occurs once. -/
theorem nodup_entries (fs : List Field) : ((entries fs []).map Prod.fst).Nodup :=
  Lib.Upsert.nodup_foldl_upsert (l := []) _ _ nodup_nil

theorem gathered_isSome {values : List Bytes} : (gathered values).isSome = true ↔ values ≠ [] := by
  match values with
  | [] => simp [gathered]
  | [_] => simp [gathered]
  | _ :: _ :: _ => simp [gathered]

/-- The keys are the names. -/
theorem mem_keys_entries (fs : List Field) (k : Bytes) :
    k ∈ (entries fs []).map Prod.fst ↔ ∃ f ∈ fs, f.name = k := by
  have hsome : k ∈ (entries fs []).map Prod.fst ↔
      (gathered ((fs.filter (·.name = k)).map Field.value)).isSome = true := by
    rw [Option.isSome_iff_exists, mem_map]
    simp only [← mem_entries]
    constructor
    · intro h
      obtain ⟨e, he, rfl⟩ := h
      exact ⟨e.2, he⟩
    · intro h
      obtain ⟨v, hv⟩ := h
      exact ⟨(k, v), hv, rfl⟩
  rw [hsome, gathered_isSome, Ne, map_eq_nil_iff, filter_eq_nil_iff]
  simp

/-! ## The loop over a written text -/

/-- The loop comes to the rest of the string with `p`. -/
def ComesTo (s rest : Bytes) (p : Locals) : Prop :=
  ∃ a, s = a ++ rest ∧ Comes s a.length p

theorem comesTo_start (s : Bytes) : ComesTo s s .init := ⟨[], rfl, .start⟩

theorem comesTo_nil (h : ComesTo s [] p) : Comes s s.length p := by
  obtain ⟨a, rfl, h⟩ := h
  rw [append_nil] at h ⊢
  exact h

/-- A turn over the characters `e`, the first of which is `c`. -/
theorem comesTo_step {p' : Locals} (h : ComesTo s (c :: (e ++ rest)) p) (hc : c ≠ 0)
    (hstep : ∀ a, s = a ++ c :: (e ++ rest) → Step s c a.length p (a.length + e.length) p') :
    ComesTo s rest p' := by
  obtain ⟨a, rfl, h⟩ := h
  have hget : (a ++ c :: (e ++ rest))[a.length]? = some c := by simp
  refine ⟨a ++ c :: e, by simp, ?_⟩
  have hlen : (a ++ c :: e).length = a.length + e.length + 1 := by simp; omega
  rw [hlen]
  exact h.next (look_of_lt 0 hget) (by simpa using hc) (turn_of_step hget (hstep a rfl))

/-- All characters of a text are in the buffer. -/
def Locals.catText (p : Locals) (t : Bytes) : Locals := t.foldl Locals.catChar p

theorem catText_eq (p : Locals) (t : Bytes) :
    p.catText t = if t = [] then p else ⟨p.d, p.key, some (p.buffer.getD [] ++ t)⟩ := by
  unfold Locals.catText
  induction t generalizing p with
  | nil => rfl
  | cons c t ih =>
    rw [foldl_cons, ih, if_neg (cons_ne_nil c t)]
    split
    · rename_i ht
      rw [ht]
      rfl
    · simp [Locals.catChar]

/-- A written text is read into the buffer. -/
theorem comes_text (henc : Encodes t e) (hbytes : ∀ b ∈ t, b ≠ 0 ∧ b ≠ 0xff)
    (h : ComesTo s (e ++ rest) p) : ComesTo s rest (p.catText t) := by
  induction henc generalizing p with
  | nil => exact h
  | @unreserved c t e hc henc ih =>
    have hzero : c ≠ 0 := by
      intro heq
      rw [heq] at hc
      exact absurd hc (by decide)
    refine ih (fun b hb => hbytes b (mem_cons_of_mem _ hb)) ?_
    exact comesTo_step (e := []) h hzero fun a _ => .char hc
  | plus henc ih =>
    refine ih (fun b hb => hbytes b (mem_cons_of_mem _ hb)) ?_
    exact comesTo_step (e := []) h (by decide) fun a _ => .plus rfl
  | @percent b high low t e hb henc ih =>
    refine ih (fun b hb => hbytes b (mem_cons_of_mem _ hb)) ?_
    refine comesTo_step (e := [high, low]) h (by decide) fun a ha => .escape rfl ?_
    obtain ⟨hzero, hff⟩ := hbytes b mem_cons_self
    exact ⟨hzero, hff, high, low, by simp [ha], by simp [ha], hb⟩

/-! ## The loop over written fields -/

/-- A written field: its name and its value are in the two strings. -/
theorem comes_field (f : Field) {n v : Bytes} {d : Dict} (hn : Encodes f.name n)
    (hv : Encodes f.value v) (h : ComesTo s (n ++ byte '=' :: (v ++ rest)) ⟨d, none, none⟩) :
    ComesTo s rest ⟨d, some f.name, if f.value = [] then none else some f.value⟩ := by
  have hname := comes_text hn (fun b hb => f.bytes b (mem_append_left _ hb)) h
  rw [catText_eq, if_neg f.named] at hname
  have hequals : ComesTo s (v ++ rest) ⟨d, some f.name, none⟩ :=
    comesTo_step (e := []) hname (by decide) fun a _ => .name rfl rfl rfl
  have hvalue := comes_text hv (fun b hb => f.bytes b (mem_append_right _ hb)) hequals
  rw [catText_eq] at hvalue
  split at hvalue
  · rename_i hnil
    rwa [if_pos hnil]
  · rename_i hnil
    rwa [if_neg hnil]

theorem handleNewKeyChar_field (f : Field) (d : Dict) :
    handleNewKeyChar ⟨d, some f.name, if f.value = [] then none else some f.value⟩ =
      ⟨onKey d f.name (valueOf f.value), none, none⟩ := by
  unfold valueOf
  split <;> rfl

/-- Nothing is left in the two strings behind the loop. -/
theorem finish_eq (p : Locals) : finish p = handleNewKeyChar p := by
  rcases p with ⟨d, _ | key, _ | buffer⟩ <;> rfl

/-- Written fields are read one after another. -/
theorem finish_writes {fs : List Field} (hwrites : Writes fs rest) {d : Dict} (h : ComesTo s rest ⟨d, none, none⟩) :
    ∃ p, Comes s s.length p ∧ (finish p).d = entries fs d := by
  induction hwrites generalizing d with
  | nil => exact ⟨_, comesTo_nil h, rfl⟩
  | @last f n v hn hv =>
    have hfield := comes_field f hn hv (append_nil v ▸ h)
    refine ⟨_, comesTo_nil hfield, ?_⟩
    rw [finish_eq, handleNewKeyChar_field, entries_cons]
    rfl
  | @more f fs n v rest sep hn hv hsep hne hwrites ih =>
    have hfield := comes_field f hn hv h
    have hsep' : ComesTo s rest ⟨onKey d f.name (valueOf f.value), none, none⟩ := by
      rw [← handleNewKeyChar_field]
      refine comesTo_step (e := []) hfield ?_ fun a _ => .separator hsep
      rcases hsep with hsep | hsep <;> rw [hsep] <;> decide
    rw [entries_cons]
    exact ih hsep'

/-- What a query of fields is read into. -/
theorem parse_writes {fs : List Field} (hwrites : Writes fs s) :
    ∃ p, parse s = .ok p ∧ (finish p).d = entries fs [] := by
  obtain ⟨p, hcomes, hd⟩ := finish_writes hwrites (comesTo_start s)
  refine ⟨p, ?_, hd⟩
  obtain ⟨fuel, hfuel, heq⟩ := scan_of_reaches forward_turn hcomes
  obtain ⟨fuel, rfl⟩ : ∃ n, fuel = n + 1 := ⟨fuel - 1, by omega⟩
  unfold parse
  rw [heq, scan_succ fuel _ _ (look_length 0 s)]
  rfl

end Slurm.UrlEncoded

/-!
## Queries, read and refused

A query of fields comes back as a dictionary that has each name once, with its value or with the list
of its values.  Three kinds of strings are refused: those with a character that means nothing
(`Foreign`), those with a `%` that begins no escape (`Broken`), and those with a second `=`
behind the beginning of a value (`Twice`).

* `not_ok_of_turn`: a string is refused when the turn at one of its characters gives up.
* `parse_foreign`, `parse_broken`, `parse_twice`: the three kinds.
* `urlContract`: the contract of `serialize_p_string_to_data`.
-/

namespace Slurm.UrlEncoded

open Lib.Scanning List

variable {s : Bytes} {ptr : Nat} {p : Locals} {c : UInt8}
variable {i : Nat} {d : UInt8}

/-! ## What is refused -/

/-- A character stands for nothing. -/
def Foreign (s : Bytes) : Prop :=
  ∃ c ∈ s, isValidUrlChar c = false ∧ c ∉ "%+;&=".toList.map byte

/-- A `%` is not followed by the two digits of a byte that may be written. -/
def Broken (s : Bytes) : Prop := ∃ i, s[i]? = some (byte '%') ∧ ∀ b, ¬ Escape s i b

/-- Behind an `=` comes some text, and then another `=`, and no separator stands between them. -/
def Twice (s : Bytes) : Prop :=
  ∃ a v b, s = a ++ byte '=' :: (v ++ byte '=' :: b) ∧ byte ';' ∉ v ∧ byte '&' ∉ v ∧
    ∃ c ∈ v, c ≠ byte '='

/-- A loop that has a result has come to the NUL. -/
theorem comes_of_parse (hnul : (0 : UInt8) ∉ s) (h : parse s = .ok p) : Comes s s.length p := by
  obtain ⟨ptr, c, hcomes, hlook, hstop⟩ := reaches_of_scan_ok .start h
  have hc : c = 0 := by simpa using hstop
  rcases look_eq_ok.mp hlook with hget | ⟨hptr, -⟩
  · exact absurd (mem_of_getElem? (hc ▸ hget)) hnul
  · exact hptr ▸ hcomes

/-- A character that is no digit has a turn of its own, if the loop comes past it. -/
theorem comes_of_passes (hcomes : Comes s ptr p) (hi : i < ptr) (hd : s[i]? = some d)
    (hex : isCharHex d = false) : ∃ p₁ ptr' p', Comes s i p₁ ∧ turn s i p₁ = .ok (ptr', p') := by
  obtain ⟨ptr₁, p₁, ptr', p', hcomes₁, hle, hle', hturn⟩ := hcomes.passes hi
  rcases Nat.lt_or_eq_of_le hle with hlt | rfl
  · have hget : ∃ c, s[ptr₁]? = some c :=
      ⟨_, getElem?_eq_getElem (hlt.trans (List.getElem?_eq_some_iff.mp hd).1)⟩
    obtain ⟨c, hc⟩ := hget
    obtain ⟨e, he, hexe⟩ := (step_passes hc (step_of_turn hc hturn)).2.2 i hlt hle'
    rw [hd] at he
    cases he
    rw [hex] at hexe
    cases hexe
  · exact ⟨p₁, ptr', p', hcomes₁, hturn⟩

/-- A string is refused when the turn at one of its characters that are no digits always gives up. -/
theorem not_ok_of_turn (hnul : (0 : UInt8) ∉ s) (hd : s[i]? = some d) (hex : isCharHex d = false)
    (hturn : ∀ p, Comes s i p → turn s i p = .error (.failed slurmError)) (p : Locals) :
    parse s ≠ .ok p := by
  intro h
  obtain ⟨p₁, ptr', p', hcomes, hok⟩ :=
    comes_of_passes (comes_of_parse hnul h) (List.getElem?_eq_some_iff.mp hd).1 hd hex
  rw [hturn p₁ hcomes] at hok
  cases hok

/-- Without a result, the loop fails with `SLURM_ERROR`. -/
theorem parse_failed (h : ∀ p, parse s ≠ .ok p) : parse s = .error (.failed slurmError) := by
  have hinside := inside_parse s
  rcases hparse : parse s with (e | _ | _) | p
  · obtain ⟨ptr, p, -, hturn, c, hlook, hstop⟩ := reaches_of_scan_failed .start hparse
    rcases turn_cases (getElem_of_go hlook hstop) p with ⟨ptr', p', heq, -⟩ | heq
    · rw [heq] at hturn
      cases hturn
    · rw [heq] at hturn
      cases hturn
      rfl
  · rw [hparse] at hinside
    exact hinside.elim
  · rw [hparse] at hinside
    exact hinside.elim
  · exact absurd hparse (h p)

/-- The special characters are no digits. -/
theorem special_not_hex : isCharHex (byte '%') = false ∧ isCharHex (byte '=') = false := by decide

theorem isCharHex_of_invalid (h : isValidUrlChar c = false) : isCharHex c = false := by
  apply Bool.eq_false_of_not_eq_true
  intro hex
  rw [(isCharHex_ne hex).2.1] at h
  cases h

theorem parse_foreign (hnul : (0 : UInt8) ∉ s) (h : Foreign s) :
    parse s = .error (.failed slurmError) := by
  obtain ⟨c, hmem, hvalid, hother⟩ := h
  obtain ⟨i, hi⟩ := getElem?_of_mem hmem
  refine parse_failed (not_ok_of_turn hnul hi (isCharHex_of_invalid hvalid) fun p _ => ?_)
  have hother' : c ≠ byte '%' ∧ c ≠ byte '+' ∧ c ≠ byte ';' ∧ c ≠ byte '&' ∧ c ≠ byte '=' := by
    simpa using hother
  obtain ⟨hpercent, hplus, hsemi, hamp, hequals⟩ := hother'
  rw [turn_eq hi, hvalid]
  simp [hpercent, hplus, hsemi, hamp, hequals]

theorem parse_broken (hnul : (0 : UInt8) ∉ s) (h : Broken s) :
    parse s = .error (.failed slurmError) := by
  obtain ⟨i, hi, hnone⟩ := h
  refine parse_failed (not_ok_of_turn hnul hi special_not_hex.1 fun p _ => ?_)
  rcases turn_cases hi p with ⟨ptr', p', -, hstep⟩ | heq
  · cases hstep with
    | char hc => exact absurd hc (by decide)
    | escape hc hb => exact absurd hb (hnone _)
    | plus hc => exact absurd hc (by decide)
    | separator hc => exact absurd hc (by decide)
    | name hc hkey hbuf => exact absurd hc (by decide)
    | again hc hkey hbuf => exact absurd hc (by decide)
  · exact heq

/-- What holds at the places from the first `=` to the second one: the name is there, and behind the
place `k`, so is some text. -/
def InValue (i j k ptr : Nat) (p : Locals) : Prop :=
  i < ptr → ptr ≤ j → p.key.isSome = true ∧ (k < ptr → p.buffer.isSome = true)

/-- A place before one that holds no digit is not passed together with it. -/
theorem step_le {ptr' : Nat} {p' : Locals} (hptr : s[ptr]? = some c)
    (hstep : Step s c ptr p ptr' p') (hd : s[i]? = some d) (hex : isCharHex d = false)
    (hlt : ptr < i) : ptr' < i := by
  by_contra hle
  obtain ⟨e, he, hexe⟩ := (step_passes hptr hstep).2.2 i hlt (by omega)
  rw [hd] at he
  cases he
  rw [hex] at hexe
  cases hexe

theorem inValue_next {j k ptr' : Nat} {p' : Locals} (hi : s[i]? = some (byte '=')) (hik : i < k)
    (hk : s[k]? ≠ some (byte '='))
    (hsep : ∀ m, i < m → m < j → s[m]? ≠ some (byte ';') ∧ s[m]? ≠ some (byte '&'))
    (hptr : s[ptr]? = some c) (hinv : InValue i j k ptr p) (hstep : Step s c ptr p ptr' p') :
    InValue i j k (ptr' + 1) p' := by
  intro hlt hle
  by_cases hbefore : ptr < i
  · exact absurd (step_le hptr hstep hi special_not_hex.2 hbefore) (by omega)
  have hptrj : ptr < j := by
    have hmono := (step_passes hptr hstep).1
    omega
  rcases Nat.lt_or_eq_of_le (Nat.le_of_not_lt hbefore) with hafter | rfl
  · -- Inside the value the name stays, and every other character adds to the text.
    obtain ⟨hkey, hbuf⟩ := hinv hafter hptrj.le
    cases hstep with
    | char hc => exact ⟨hkey, fun _ => rfl⟩
    | escape hc hb => exact ⟨hkey, fun _ => rfl⟩
    | plus hc => exact ⟨hkey, fun _ => rfl⟩
    | separator hc =>
      obtain ⟨hsemi, hamp⟩ := hsep ptr hafter hptrj
      rcases hc with rfl | rfl
      · exact absurd hptr hsemi
      · exact absurd hptr hamp
    | name hc hnone hsome =>
      rw [hnone] at hkey
      cases hkey
    | again hc hsome hnone =>
      refine ⟨hkey, fun hlt' => hbuf ?_⟩
      have hne : k ≠ ptr := fun heq => hk (by rw [heq, hptr, hc])
      omega
  · -- The first `=` makes the text before it the name.
    rw [hi] at hptr
    cases hptr
    cases hstep with
    | char hc => exact absurd hc (by decide)
    | escape hc hb => exact absurd hc (by decide)
    | plus hc => exact absurd hc (by decide)
    | separator hc => exact absurd hc (by decide)
    | name hc hkey hbuf => exact ⟨rfl, fun hk' => absurd hk' (by omega)⟩
    | again hc hkey hbuf => exact ⟨hkey, fun hk' => absurd hk' (by omega)⟩

theorem parse_twice (hnul : (0 : UInt8) ∉ s) (h : Twice s) :
    parse s = .error (.failed slurmError) := by
  obtain ⟨a, v, b, rfl, hsemi, hamp, c, hc, hne⟩ := h
  obtain ⟨n, hn⟩ := getElem?_of_mem hc
  have hnlt : n < v.length := (List.getElem?_eq_some_iff.mp hn).1
  have hbetween : ∀ m, m < v.length →
      (a ++ byte '=' :: (v ++ byte '=' :: b))[a.length + 1 + m]? = v[m]? := by
    intro m hm
    rw [getElem?_append_right (by omega)]
    have hsub : a.length + 1 + m - a.length = m + 1 := by omega
    rw [hsub, getElem?_cons_succ, getElem?_append_left hm]
  have hi : (a ++ byte '=' :: (v ++ byte '=' :: b))[a.length]? = some (byte '=') := by simp
  have hj : (a ++ byte '=' :: (v ++ byte '=' :: b))[a.length + 1 + v.length]? = some (byte '=') := by
    rw [getElem?_append_right (by omega)]
    have hsub : a.length + 1 + v.length - a.length = v.length + 1 := by omega
    rw [hsub, getElem?_cons_succ, getElem?_append_right (Nat.le_refl _), Nat.sub_self]
    rfl
  refine parse_failed (not_ok_of_turn hnul hj special_not_hex.2 fun p hcomes => ?_)
  have hvalue : InValue a.length (a.length + 1 + v.length) (a.length + 1 + n)
      (a.length + 1 + v.length) p := by
    refine hcomes.inv (I := InValue a.length (a.length + 1 + v.length) (a.length + 1 + n))
      (fun hlt => absurd hlt (Nat.not_lt_zero _)) ?_
    intro ptr p ptr' p' c' hinv hlook hstop hturn
    have hget := getElem_of_go hlook hstop
    refine inValue_next hi (by omega) ?_ ?_ hget hinv (step_of_turn hget hturn)
    · rw [hbetween n hnlt, hn]
      exact fun heq => hne (Option.some.inj heq)
    · intro m hlt hlt'
      have hm : a.length + 1 + (m - (a.length + 1)) = m := by omega
      rw [← hm, hbetween _ (by omega)]
      exact ⟨fun hmem => hsemi (mem_of_getElem? hmem), fun hmem => hamp (mem_of_getElem? hmem)⟩
  obtain ⟨hkey, hbuf⟩ := hvalue (by omega) (Nat.le_refl _)
  have hbuf := hbuf (by omega)
  rcases turn_cases hj p with ⟨ptr', p', -, hstep⟩ | heq
  · cases hstep with
    | char hc => exact absurd hc (by decide)
    | escape hc hb => exact absurd hc (by decide)
    | plus hc => exact absurd hc (by decide)
    | separator hc => exact absurd hc (by decide)
    | name hc hnone hsome =>
      rw [hnone] at hkey
      cases hkey
    | again hc hsome hnone =>
      rw [hnone] at hbuf
      cases hbuf
  · exact heq

/-! ## The contract -/

/-- What `serialize_p_string_to_data` does with the strings it may get. -/
structure UrlContract (dest : Option Data) : Prop where
  /-- A query of fields is read: each name is a key, once, with its value or the list of its values. -/
  fields : ∀ fs s, Writes fs s → ∃ d,
    serializePStringToData dest (some s) = .ok ⟨slurmSuccess, some (.dict d)⟩ ∧
      (d.map Prod.fst).Nodup ∧ (∀ k, k ∈ d.map Prod.fst ↔ ∃ f ∈ fs, f.name = k) ∧
      ∀ k v, (k, v) ∈ d ↔ gathered ((fs.filter (·.name = k)).map Field.value) = some v
  /-- The three kinds of strings are refused, and nothing is written. -/
  refused : ∀ s, (0 : UInt8) ∉ s → Foreign s ∨ Broken s ∨ Twice s →
    serializePStringToData dest (some s) = .ok ⟨slurmError, dest⟩
  /-- No place behind the NUL is read, whatever the string is. -/
  inside : ∀ src, ∃ reply, serializePStringToData dest src = .ok reply

theorem urlContract (dest : Option Data) : UrlContract dest where
  fields := by
    intro fs s hwrites
    obtain ⟨p, hparse, hd⟩ := parse_writes hwrites
    refine ⟨entries fs [], ?_, nodup_entries fs, mem_keys_entries fs, mem_entries fs⟩
    unfold serializePStringToData
    rw [Option.elim_some, hparse, ← hd]
  refused := by
    intro s hnul hbad
    have hparse : parse s = .error (.failed slurmError) := by
      rcases hbad with hbad | hbad | hbad
      · exact parse_foreign hnul hbad
      · exact parse_broken hnul hbad
      · exact parse_twice hnul hbad
    unfold serializePStringToData
    rw [Option.elim_some, hparse]
  inside := by
    intro src
    unfold serializePStringToData
    cases src with
    | none => exact ⟨_, rfl⟩
    | some s =>
      have hinside := inside_parse s
      rw [Option.elim_some]
      rcases hparse : parse s with (e | _ | _) | p
      · exact ⟨_, rfl⟩
      · rw [hparse] at hinside
        exact hinside.elim
      · rw [hparse] at hinside
        exact hinside.elim
      · exact ⟨_, rfl⟩

/-- `a=1&b=x%20y;a=&c`: two values of one name, an escape, and a name without a value. -/
example : serializePStringToData none (some ("a=1&b=x%20y;a=&c".toList.map byte)) =
    .ok ⟨slurmSuccess, some (.dict
      [([byte 'a'], .list [.string [byte '1'], .null]),
        ([byte 'b'], .string [byte 'x', byte ' ', byte 'y']), ([byte 'c'], .bool true)])⟩ := rfl

end Slurm.UrlEncoded
