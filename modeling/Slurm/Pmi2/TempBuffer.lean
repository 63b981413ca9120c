import Slurm.Pack.Model

/-!
# The buffer of the pending pairs (`plugins/mpi/pmi2/kvs.c`)

`temp_kvs_buf` holds what is sent at the next fence.  `temp_kvs_init` and `temp_kvs_add` make it
larger by a fixed step, and `temp_kvs_merge` by as much as is added.

* `append_ok`, `append_fails`: what fits is copied, and what does not is a fault.
* `Inv.step`, `Inv.fault`: one call.
* `kvsContract_iff`: every byte is copied into the buffer if and only if each call fits where it is
  made.
-/

namespace Slurm.KvsBuffer

open List

open Slurm.Pack (Byte Buf CString initBuf pack16 pack32 packstr)
open Lib.Reading (Cursor)

variable {bytes : List Byte}

/-- `TEMP_KVS_SIZE_INC` -/
def tempKvsSizeInc : Nat := 2048

/-- Bytes are copied past the end of the buffer, or its size is no longer an `int`. -/
inductive Fault where
  | overrun
  | overflow
  deriving DecidableEq

/-- `temp_kvs_buf`, `temp_kvs_cnt`, `temp_kvs_size` and `kvs_seq`. -/
structure State where
  buf : List Byte
  cnt : Nat
  size : Nat
  seq : BitVec 32

/-- What the header of a message says: of a stepd, or of `srun`. -/
structure Sender where
  inStepd : Bool
  nodeid : BitVec 32
  thisNode : Option CString
  numChildren : BitVec 32

/-! ## The code -/

/-- The bytes that are packed into a buffer of a size. -/
def packed (size : Nat) (pack : Buf → Buf) : List Byte :=
  match initBuf size with
  | none => []
  | some buf => (pack buf).data.take (pack buf).pos

/-- The header: `TREE_CMD_KVS_FENCE` or `TREE_CMD_KVS_FENCE_RESP`, and what goes with it. -/
def header (sender : Sender) (seq : BitVec 32) : List Byte :=
  packed 1024 fun buf =>
    if sender.inStepd then
      pack32 seq (pack32 (sender.numChildren + 1) (packstr sender.thisNode
        (pack32 sender.nodeid (pack16 0 buf))))
    else pack32 seq (pack16 1 buf)

/-- A key and its value, with `PMI2_MAX_KEYLEN` and `PMI2_MAX_VALLEN`. -/
def pair (key val : CString) : List Byte :=
  packed (64 + 1024 + 2 * 4) fun buf => packstr (some val) (packstr (some key) buf)

/-- `memcpy` to the end of what is in the buffer. -/
def copy (s : State) (bytes : List Byte) : Except Fault State :=
  if s.cnt + bytes.length ≤ s.buf.length then
    .ok { s with
      buf := s.buf.take s.cnt ++ bytes ++ s.buf.drop (s.cnt + bytes.length)
      cnt := s.cnt + bytes.length }
  else .error .overrun

/-- The buffer is made larger where the bytes do not fit: `xrealloc`. -/
def reserve (s : State) (len inc : Nat) : Except Fault State :=
  if (s.cnt + len) % 2 ^ 32 > s.size then
    if s.size + inc < 2 ^ 31 then
      .ok { s with size := s.size + inc, buf := s.buf ++ List.replicate inc 0 }
    else .error .overflow
  else .ok s

/-- What the three functions have in common. -/
def append (s : State) (bytes : List Byte) (inc : Nat) : Except Fault State := do
  copy (← reserve s bytes.length inc) bytes

/-- `temp_kvs_init` -/
def tempKvsInit (sender : Sender) (s : State) : Except Fault State :=
  append { s with buf := List.replicate tempKvsSizeInc 0, cnt := 0, size := tempKvsSizeInc }
    (header sender s.seq) tempKvsSizeInc

/-- `temp_kvs_add`, where a key or a value that is not in the request is `NULL`. -/
def tempKvsAdd (key val : Option CString) (s : State) : Except Fault State :=
  match key, val with
  | some key, some val => append s (pair key val) tempKvsSizeInc
  | _, _ => .ok s

/-- `temp_kvs_merge` -/
def tempKvsMerge (buf : Cursor Byte) (s : State) : Except Fault State :=
  let bytes := buf.data.drop buf.pos
  if bytes.length = 0 then .ok s else append s bytes bytes.length

/-- `temp_kvs_send`: what is in the buffer is sent, and the buffer is cleared. -/
def tempKvsSend (sender : Sender) (s : State) : Except Fault State :=
  tempKvsInit sender { s with seq := s.seq + 1 }

/-- A call. -/
inductive Call where
  | init
  | add (key val : Option CString)
  | merge (buf : Cursor Byte)
  | send

/-- A call is made. -/
def exec (sender : Sender) (s : State) : Call → Except Fault State
  | .init => tempKvsInit sender s
  | .add key val => tempKvsAdd key val s
  | .merge buf => tempKvsMerge buf s
  | .send => tempKvsSend sender s

/-- A run, which starts with `temp_kvs_init`. -/
def run (sender : Sender) (seq : BitVec 32) (calls : List Call) : Except Fault State :=
  (Call.init :: calls).foldlM (exec sender) ⟨[], 0, 0, seq⟩

/-! ## The contract -/

/-- The sequence number and the bytes after a call. -/
def writes (sender : Sender) (w : BitVec 32 × List Byte) : Call → BitVec 32 × List Byte
  | .init => (w.1, header sender w.1)
  | .add (some key) (some val) => (w.1, w.2 ++ pair key val)
  | .add _ _ => w
  | .merge buf => (w.1, w.2 ++ buf.data.drop buf.pos)
  | .send => (w.1 + 1, header sender (w.1 + 1))

/-- The header, the pairs and what was merged, in the order of the calls. -/
def written (sender : Sender) (seq : BitVec 32) (calls : List Call) : BitVec 32 × List Byte :=
  (Call.init :: calls).foldl (writes sender) (seq, [])

/-- What is promised after every call. -/
def KvsContract (sender : Sender) (seq : BitVec 32) (calls : List Call) : Prop :=
  ∀ pre post, calls = pre ++ post → ∃ s, run sender seq pre = .ok s ∧ s.cnt ≤ s.size ∧
    s.size = s.buf.length ∧ s.buf.take s.cnt = (written sender seq pre).2

/-- The bytes fit into the buffer, or into a buffer that is larger by `inc`. -/
def Room (s : State) (len inc : Nat) : Prop :=
  s.cnt + len ≤ s.size ∨ (s.cnt + len ≤ s.size + inc ∧ s.size + inc < 2 ^ 31)

/-- What a call has to fit into. -/
def Fits (sender : Sender) (s : State) : Call → Prop
  | .init => (header sender s.seq).length ≤ 2 * tempKvsSizeInc
  | .add (some key) (some val) => Room s (pair key val).length tempKvsSizeInc
  | .add _ _ => True
  | .merge buf => Room s (buf.data.drop buf.pos).length (buf.data.drop buf.pos).length
  | .send => (header sender (s.seq + 1)).length ≤ 2 * tempKvsSizeInc

/-! ## One call -/

variable {sender : Sender} {s : State} {w : BitVec 32 × List Byte}

/-- What is known of the buffer after each call. -/
structure Inv (s : State) (w : BitVec 32 × List Byte) : Prop where
  seq : s.seq = w.1
  cnt_le : s.cnt ≤ s.size
  size_lt : s.size < 2 ^ 31
  length : s.buf.length = s.size
  take : s.buf.take s.cnt = w.2

theorem Inv.copy (h : Inv s w) (hle : s.cnt + bytes.length ≤ s.size) :
    ∃ s', copy s bytes = .ok s' ∧ Inv s' (w.1, w.2 ++ bytes) := by
  have hlen := h.length
  have hcnt := h.cnt_le
  refine ⟨_, if_pos (hlen ▸ hle), h.seq, hle, h.size_lt, ?_, ?_⟩
  · show (s.buf.take s.cnt ++ bytes ++ s.buf.drop (s.cnt + bytes.length)).length = s.size
    simp only [length_append, length_take, length_drop]
    omega
  · show (s.buf.take s.cnt ++ bytes ++ s.buf.drop (s.cnt + bytes.length)).take (s.cnt + bytes.length) =
      w.2 ++ bytes
    have hfront : (s.buf.take s.cnt ++ bytes).length = s.cnt + bytes.length := by
      simp only [length_append, length_take]
      omega
    rw [← hfront, take_left, h.take]

/-- What fits is copied. -/
theorem append_ok (h : Inv s w) {inc : Nat} (hroom : Room s bytes.length inc) :
    ∃ s', append s bytes inc = .ok s' ∧ Inv s' (w.1, w.2 ++ bytes) := by
  have hsize := h.size_lt
  have hcnt := h.cnt_le
  rw [append, reserve]
  by_cases hle : s.cnt + bytes.length ≤ s.size
  · rw [if_neg (by omega)]
    exact h.copy hle
  · have hgrow : s.cnt + bytes.length ≤ s.size + inc ∧ s.size + inc < 2 ^ 31 := by
      rcases hroom with hroom | hroom
      · exact absurd hroom hle
      · exact hroom
    rw [if_pos (by omega), if_pos hgrow.2]
    have hlarger : Inv { s with size := s.size + inc, buf := s.buf ++ List.replicate inc 0 } w := by
      refine ⟨h.seq, hcnt.trans (Nat.le_add_right _ _), hgrow.2, ?_, ?_⟩
      · simp [h.length]
      · show (s.buf ++ List.replicate inc 0).take s.cnt = w.2
        rw [take_append_of_le_length (h.length ▸ hcnt)]
        exact h.take
    exact hlarger.copy hgrow.1

/-- What does not fit is a fault. -/
theorem append_fails (h : Inv s w) {inc : Nat} (hroom : ¬ Room s bytes.length inc) :
    ∃ fault, append s bytes inc = .error fault := by
  have hlen := h.length
  rw [Room] at hroom
  rw [append, reserve]
  split
  · split
    · refine ⟨.overrun, if_neg ?_⟩
      simp only [length_append, length_replicate]
      omega
    · exact ⟨.overflow, rfl⟩
  · exact ⟨.overrun, if_neg (by omega)⟩

/-- A buffer that was cleared. -/
theorem inv_cleared (s : State) : Inv { s with
    buf := List.replicate tempKvsSizeInc 0, cnt := 0, size := tempKvsSizeInc } (s.seq, []) :=
  ⟨rfl, Nat.zero_le _, Nat.lt_of_sub_eq_succ rfl, length_replicate, take_zero⟩

theorem room_cleared (s : State) (len : Nat) : Room { s with
    buf := List.replicate tempKvsSizeInc 0, cnt := 0, size := tempKvsSizeInc } len tempKvsSizeInc ↔
      len ≤ 2 * tempKvsSizeInc := by
  simp only [Room, tempKvsSizeInc]
  omega

/-- A call that fits. -/
theorem Inv.step (h : Inv s w) {c : Call} (hfits : Fits sender s c) :
    ∃ s', exec sender s c = .ok s' ∧ Inv s' (writes sender w c) := by
  cases c with
  | init =>
    rw [writes, ← h.seq]
    exact append_ok (inv_cleared s) ((room_cleared s _).mpr hfits)
  | send =>
    rw [writes, ← h.seq]
    exact append_ok (inv_cleared { s with seq := s.seq + 1 }) ((room_cleared _ _).mpr hfits)
  | add key val =>
    cases key with
    | none => exact ⟨s, rfl, h⟩
    | some key =>
      cases val with
      | none => exact ⟨s, rfl, h⟩
      | some val => exact append_ok h hfits
  | merge buf =>
    rw [exec, tempKvsMerge]
    by_cases hzero : (buf.data.drop buf.pos).length = 0
    · rw [if_pos hzero]
      refine ⟨s, rfl, ?_⟩
      rw [writes, eq_nil_of_length_eq_zero hzero, append_nil]
      exact h
    · rw [if_neg hzero]
      exact append_ok h hfits

/-- A call that does not fit. -/
theorem Inv.fault (h : Inv s w) {c : Call} (hfits : ¬ Fits sender s c) :
    ∃ fault, exec sender s c = .error fault := by
  cases c with
  | init => exact append_fails (inv_cleared s) (mt (room_cleared s _).mp hfits)
  | send => exact append_fails (inv_cleared _) (mt (room_cleared { s with seq := s.seq + 1 } _).mp hfits)
  | add key val =>
    cases key with
    | none => exact absurd trivial hfits
    | some key =>
      cases val with
      | none => exact absurd trivial hfits
      | some val => exact append_fails h hfits
  | merge buf =>
    rw [exec, tempKvsMerge]
    have hzero : (buf.data.drop buf.pos).length ≠ 0 := by
      intro hzero
      have hcnt := h.cnt_le
      exact hfits (Or.inl (by omega))
    rw [if_neg hzero]
    exact append_fails h hfits

/-! ## Runs -/

variable {seq : BitVec 32} {calls : List Call}

theorem inv_foldlM (h : Inv s w) {s' : State} (hrun : calls.foldlM (exec sender) s = .ok s') :
    Inv s' (calls.foldl (writes sender) w) := by
  induction calls generalizing s w with
  | nil =>
    rw [foldlM_nil] at hrun
    cases hrun
    exact h
  | cons c calls ih =>
    rw [foldlM_cons] at hrun
    by_cases hfits : Fits sender s c
    · obtain ⟨s₁, hexec, hinv⟩ := h.step hfits
      rw [hexec] at hrun
      exact ih hinv hrun
    · obtain ⟨fault, hexec⟩ := h.fault hfits
      rw [hexec] at hrun
      cases hrun

theorem inv_start (seq : BitVec 32) : Inv ⟨[], 0, 0, seq⟩ (seq, []) :=
  ⟨rfl, le_rfl, Nat.lt_of_sub_eq_succ rfl, rfl, rfl⟩

theorem inv_run (hrun : run sender seq calls = .ok s) : Inv s (written sender seq calls) :=
  inv_foldlM (inv_start seq) hrun

theorem run_concat (pre : List Call) (c : Call) :
    run sender seq (pre ++ [c]) = run sender seq pre >>= fun s => exec sender s c := by
  rw [run, run, ← cons_append, foldlM_append]
  simp only [foldlM_cons, foldlM_nil, bind_pure]

theorem run_nil : run sender seq [] = exec sender ⟨[], 0, 0, seq⟩ .init := by
  rw [run, foldlM_cons]
  simp only [foldlM_nil, bind_pure]

/-- Each call has to fit where it is made. -/
theorem kvsContract_iff (sender : Sender) (seq : BitVec 32) (calls : List Call) :
    KvsContract sender seq calls ↔ (header sender seq).length ≤ 2 * tempKvsSizeInc ∧
      ∀ pre c post, calls = pre ++ c :: post → ∀ s, run sender seq pre = .ok s → Fits sender s c := by
  constructor
  · intro h
    refine ⟨?_, fun pre c post hsplit s hrun => ?_⟩
    · obtain ⟨s, hrun, -⟩ := h [] calls rfl
      by_contra hfits
      obtain ⟨fault, hfault⟩ := @Inv.fault sender _ _ (inv_start seq) .init hfits
      rw [run_nil, hfault] at hrun
      cases hrun
    · obtain ⟨s', hrun', -⟩ := h (pre ++ [c]) post (by rw [hsplit, List.append_assoc]; rfl)
      by_contra hfits
      obtain ⟨fault, hfault⟩ := (inv_run hrun).fault hfits
      rw [run_concat, hrun] at hrun'
      rw [show (Except.ok s >>= fun s => exec sender s c) = exec sender s c from rfl, hfault] at hrun'
      cases hrun'
  · rintro ⟨hheader, hcalls⟩ pre post hsplit
    have hok : ∃ s, run sender seq pre = .ok s := by
      induction pre using List.reverseRecOn generalizing post with
      | nil =>
        obtain ⟨s, hexec, -⟩ := @Inv.step sender _ _ (inv_start seq) .init hheader
        exact ⟨s, run_nil.trans hexec⟩
      | append_singleton pre c ih =>
        rw [List.append_assoc] at hsplit
        obtain ⟨s, hrun⟩ := ih (c :: post) hsplit
        obtain ⟨s', hexec, -⟩ := (inv_run hrun).step (hcalls pre c post hsplit s hrun)
        exact ⟨s', by rw [run_concat, hrun]; exact hexec⟩
    obtain ⟨s, hrun⟩ := hok
    have hinv := inv_run hrun
    exact ⟨s, hrun, hinv.cnt_le, hinv.length.symm, hinv.take⟩

/-! ## A value that is too long -/

/-- `srun`. -/
def srun : Sender := ⟨false, 0, none, 0⟩

/-- A string of `a`. -/
def letters (n : Nat) : CString := ⟨List.replicate n 97, fun h => by simpa using List.eq_of_mem_replicate h⟩

/-- One pair, with a value of 5000 characters. -/
def longValue : List Call := [.add (some (letters 1)) (some (letters 5000))]

theorem kvsContract_fails : ¬ KvsContract srun 1 longValue := by
  intro h
  obtain ⟨s, hrun, -⟩ := h longValue [] rfl
  have hfault : (run srun 1 longValue).isOk = false := by decide +kernel
  rw [hrun] at hfault
  cases hfault

end Slurm.KvsBuffer
