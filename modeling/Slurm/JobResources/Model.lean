import Slurm.Lib.RunLength
import Slurm.Bitstring.Sets

/-!
# Merging job resources (`common/job_resources.c`)

A `job_resources_t` holds the nodes of an allocation as a bit string over the node
table, and their cores as one bit string, node after node.  How many cores a node
has is kept in run-length records: `sock_core_rep_count` nodes in a row with
`sockets_per_node` times `cores_per_socket` cores each.

`jobResourcesAnd` and `jobResourcesOr` are the two merges.  Both walk the node table
with a cursor into the records of either operand (`Cursors.visit`).  Both may call `bit_test` at `-1`,
when the first operand has no node; `testAt` says what comes of it.

The results are the return code, as `true` for `SLURM_SUCCESS`, and what the first
operand becomes.  The second one is only read.  `none` is a failed assertion.
-/

namespace Slurm

open Slurm.Bitstring
open Lib.RunLength (Cursor advance)

/-- `job_resources_t`, the fields that are merged. -/
structure JobResources where
  nodeBitmap : Bitstr
  coreBitmap : Bitstr
  socketsPerNode : List Nat
  coresPerSocket : List Nat
  sockCoreRepCount : List Nat
  nhosts : Nat
  deriving DecidableEq

namespace JobResources

/-- The cores of a node of record `off`. -/
def cores (r : JobResources) (off : Nat) : Nat :=
  r.coresPerSocket.getD off 0 * r.socketsPerNode.getD off 0

/-- `if (++sock_core_cnt > sock_core_rep_count[so_co_off])`: the cursor at the next
node. -/
def next (r : JobResources) (c : Cursor) : Cursor := advance 0 r.sockCoreRepCount c

/-- `bit_test` at any position.  Position `-1` is not valid.  Without assertions it is
the top bit of the word before the bits, which holds their number. -/
def testAt (ndebug : Bool) (b : Bitstr) (i : Int) : Option Bool :=
  if 0 ≤ i then some (bitTest b i.toNat)
  else if ndebug then some ((BitVec.ofNat 64 b.nbits).getLsbD 63)
  else none

/-! ## The walk over the nodes -/

/-- `-1` for no position. -/
def position : Option Nat → Int
  | some i => i
  | none => -1

/-- `node_cnt` -/
def nodeCnt (r1 r2 : JobResources) : Nat := min r1.nodeBitmap.nbits r2.nodeBitmap.nbits

/-- `i_first` -/
def firstNode (r1 r2 : JobResources) : Int :=
  let i : Int := position (bitFfs r2.nodeBitmap)
  let first : Int := position (bitFfs r1.nodeBitmap)
  if i ≠ -1 ∧ i < first then i else first

/-- `i_last` -/
def lastNode (r1 r2 : JobResources) : Int :=
  let i : Int := position (bitFls r2.nodeBitmap)
  let last : Int := position (bitFls r1.nodeBitmap)
  let last : Int := if i ≠ -1 ∧ i > last then i else last
  let last : Int := if last ≥ nodeCnt r1 r2 then nodeCnt r1 r2 - 1 else last
  if last = -1 then -2 else last

variable {σ : Type}

/-- `for (i = i_first; i <= i_last; i++)`, with `match1` and `match2`. -/
def walk (ndebug : Bool) (r1 r2 : JobResources) (step : σ → Int → Bool → Bool → σ) :
    Nat → Int → σ → Option σ
  | 0, _, s => some s
  | fuel + 1, i, s =>
    (testAt ndebug r1.nodeBitmap i).bind fun match1 =>
      (testAt ndebug r2.nodeBitmap i).bind fun match2 =>
        walk ndebug r1 r2 step fuel (i + 1) (step s i match1 match2)

/-- The walk from the first to the last node. -/
def forNodes (ndebug : Bool) (r1 r2 : JobResources) (step : σ → Int → Bool → Bool → σ) (s : σ) :
    Option σ :=
  walk ndebug r1 r2 step (lastNode r1 r2 - firstNode r1 r2 + 1).toNat (firstNode r1 r2) s

/-! ## The cursors -/

/-- The variables that both merges keep: the cursors into the records of the operands,
the offsets of the current node in their core bit strings, and the return code. -/
structure Cursors where
  cur1 : Cursor
  cur2 : Cursor
  coreOff1 : Nat
  coreOff2 : Nat
  rc : Bool

/-- The variables before the loop. -/
def Cursors.start (r1 r2 : JobResources) : Cursors where
  cur1 := ⟨0, 0⟩
  cur2 := ⟨0, 0⟩
  coreOff1 := 0
  coreOff2 := 0
  rc := decide (r1.nodeBitmap.nbits = r2.nodeBitmap.nbits)

/-- `core_cnt1`, of the node that the first cursor comes to. -/
def Cursors.coreCnt1 (s : Cursors) (r1 : JobResources) : Nat := r1.cores (r1.next s.cur1).off

/-- `core_cnt2`, of the node that the second cursor comes to. -/
def Cursors.coreCnt2 (s : Cursors) (r2 : JobResources) : Nat := r2.cores (r2.next s.cur2).off

/-- What becomes of them at a node.  It is an error when a node of both operands does
not have as many cores in both. -/
def Cursors.visit (s : Cursors) (r1 r2 : JobResources) (match1 match2 : Bool) : Cursors where
  cur1 := if match1 then r1.next s.cur1 else s.cur1
  cur2 := if match2 then r2.next s.cur2 else s.cur2
  coreOff1 := if match1 then s.coreOff1 + s.coreCnt1 r1 else s.coreOff1
  coreOff2 := if match2 then s.coreOff2 + s.coreCnt2 r2 else s.coreOff2
  rc := s.rc && (!(match1 && match2) || decide (s.coreCnt1 r1 = s.coreCnt2 r2))

/-! ## Intersection -/

/-- The variables of `job_resources_and`. -/
structure AndState extends Cursors where
  coreBitmap : Bitstr

/-- The bits of `len` cores are cleared where `keep` does not hold. -/
def clearUnless (keep : Nat → Bool) (off len : Nat) (b : Bitstr) : Bitstr :=
  (List.range len).foldl
    (fun b j => if bitTest b (off + j) && !keep j then bitClear b (off + j) else b) b

/-- The bits of `len` cores are cleared. -/
def clearAll (off len : Nat) (b : Bitstr) : Bitstr :=
  (List.range len).foldl (fun b j => bitClear b (off + j)) b

/-- The body of the loop of `job_resources_and`. -/
def andStep (r1 r2 : JobResources) (s : AndState) (_ : Int) (match1 match2 : Bool) : AndState where
  toCursors := s.visit r1 r2 match1 match2
  coreBitmap :=
    match match1, match2 with
    | true, true =>
      clearUnless (fun j => bitTest r2.coreBitmap (s.coreOff2 + j)) s.coreOff1
        (min (s.coreCnt1 r1) (s.coreCnt2 r2)) s.coreBitmap
    | true, false => clearAll s.coreOff1 (s.coreCnt1 r1) s.coreBitmap
    | false, _ => s.coreBitmap

/-- `job_resources_and` -/
def jobResourcesAnd (ndebug : Bool) (r1 r2 : JobResources) : Option (Bool × JobResources) :=
  let start : AndState := { Cursors.start r1 r2 with coreBitmap := r1.coreBitmap }
  (forNodes ndebug r1 r2 (andStep r1 r2) start).map fun s =>
    (s.rc, { r1 with coreBitmap := s.coreBitmap })

/-! ## Union -/

/-- The variables of `job_resources_or`, with `job_resrcs_new` field by field.
`nodeInx` is `node_inx + 1`. -/
structure OrState extends Cursors where
  coreOff : Nat
  nodeInx : Nat
  nodeBitmap : Bitstr
  coreBitmap : Bitstr
  socketsPerNode : List Nat
  coresPerSocket : List Nat
  sockCoreRepCount : List Nat

/-- The bits of `len` cores are set where `pick` holds. -/
def setWhere (pick : Nat → Bool) (off len : Nat) (b : Bitstr) : Bitstr :=
  (List.range len).foldl (fun b j => if pick j then bitSet b (off + j) else b) b

/-- A node gets its bit, a record of its own with the sockets and cores of record
`off` of `r`, and `len` cores. -/
def OrState.addNode (s : OrState) (i : Int) (r : JobResources) (off len : Nat)
    (pick : Nat → Bool) : OrState :=
  { s with
    coreOff := s.coreOff + len
    nodeInx := s.nodeInx + 1
    nodeBitmap := bitSet s.nodeBitmap i.toNat
    coreBitmap := setWhere pick s.coreOff len s.coreBitmap
    coresPerSocket := s.coresPerSocket.set s.nodeInx (r.coresPerSocket.getD off 0)
    socketsPerNode := s.socketsPerNode.set s.nodeInx (r.socketsPerNode.getD off 0)
    sockCoreRepCount := s.sockCoreRepCount.set s.nodeInx 1 }

/-- The body of the loop of `job_resources_or`. -/
def orStep (r1 r2 : JobResources) (s : OrState) (i : Int) (match1 match2 : Bool) : OrState :=
  let cursors := s.visit r1 r2 match1 match2
  match match1, match2 with
  | false, false => s
  | true, true =>
    { s.addNode i r1 (r1.next s.cur1).off (min (s.coreCnt1 r1) (s.coreCnt2 r2)) (fun j =>
        bitTest r1.coreBitmap (s.coreOff1 + j) || bitTest r2.coreBitmap (s.coreOff2 + j)) with
      toCursors := cursors }
  | true, false =>
    { s.addNode i r1 (r1.next s.cur1).off (s.coreCnt1 r1) (fun j =>
        bitTest r1.coreBitmap (s.coreOff1 + j)) with
      toCursors := cursors }
  | false, true =>
    { s.addNode i r2 (r2.next s.cur2).off (s.coreCnt2 r2) (fun j =>
        bitTest r2.coreBitmap (s.coreOff2 + j)) with
      toCursors := cursors }

/-- The sizes of the two core bit strings together. -/
def coreBits (r1 r2 : JobResources) : Nat := r1.coreBitmap.nbits + r2.coreBitmap.nbits

/-- `_assert_valid_size` for the node bit string of the union. -/
theorem nodeCnt_valid (r1 r2 : JobResources) : ValidSize (nodeCnt r1 r2) := by
  have h1 := r1.nodeBitmap.valid
  have h2 := r2.nodeBitmap.valid
  unfold ValidSize nodeCnt at *
  omega

/-- The state before the loop.  The core bit string may be over-sized. -/
def orStart (r1 r2 : JobResources) (h : ValidSize (coreBits r1 r2)) : OrState :=
  let records := bitSetCount r1.nodeBitmap + bitSetCount r2.nodeBitmap
  { Cursors.start r1 r2 with
    coreOff := 0
    nodeInx := 0
    nodeBitmap := bitAlloc (nodeCnt r1 r2) (nodeCnt_valid r1 r2)
    coreBitmap := bitAlloc (coreBits r1 r2) h
    socketsPerNode := List.replicate records 0
    coresPerSocket := List.replicate records 0
    sockCoreRepCount := List.replicate records 0 }

/-- `job_resources_or` -/
def jobResourcesOr (ndebug : Bool) (r1 r2 : JobResources) : Option (Bool × JobResources) :=
  if h : ValidSize (coreBits r1 r2) then
    (forNodes ndebug r1 r2 (orStep r1 r2) (orStart r1 r2 h)).map fun s =>
      (s.rc,
        { nodeBitmap := s.nodeBitmap
          coreBitmap := s.coreBitmap
          socketsPerNode := s.socketsPerNode
          coresPerSocket := s.coresPerSocket
          sockCoreRepCount := s.sockCoreRepCount
          nhosts := s.nodeInx })
  else none

end JobResources

end Slurm

/-!
## What job resources say

The nodes of a `job_resources_t` are the set bits of its node bit string, in order.
`hostIndex` is the place of a node among them, `coreCount` the cores of its record,
and `coreOffset` where its cores start.  `HasCore` reads a node and core pair, and
`WellFormed` says that the records are for the nodes there are and that the core bit
string has room for their cores.

`cursorCount` is the count that the cursor of the merges reads at a node.  The walk of
the merges is a fold over the node table (`forNodes_eq`).
-/

namespace Slurm.JobResources

open Slurm.Bitstring Option Finset Nat
open Lib.RunLength (cursorAt cursorAt_succ cursorAt_off expand stretch)

variable {m n : Nat} {p : Nat → Bool}

/-! ## Nodes and cores -/

variable (r : JobResources)

/-- The number of nodes before node `i`. -/
def hostIndex (i : Nat) : Nat := countRange r.nodeBitmap.bit 0 i

/-- The cores of node `i`. -/
def coreCount (i : Nat) : Nat := r.cores ((expand r.sockCoreRepCount).getD (hostIndex r i) 0)

/-- The cores of the record that the cursor of the merges reads at node `i`. -/
def cursorCount (i : Nat) : Nat :=
  r.cores ((expand (stretch r.sockCoreRepCount)).getD (hostIndex r i) 0)

/-- The sum of a count over the numbers below `n` that pass `p`. -/
def sumBefore (p : Nat → Bool) (count : Nat → Nat) (n : Nat) : Nat :=
  ∑ i ∈ Finset.range n, if p i then count i else 0

/-- Where the cores of node `i` start. -/
def coreOffset (i : Nat) : Nat := sumBefore r.nodeBitmap.bit (coreCount r) i

/-- Core `c` of node `i` is there. -/
def HasCore (i c : Nat) : Prop :=
  i ∈ (denote r.nodeBitmap).elems ∧ c < coreCount r i ∧
    r.coreBitmap.bit (coreOffset r i + c) = true

/-- The arrays have one length, their records are for as many nodes as there are, and
the cores of all nodes fit. -/
structure WellFormed : Prop where
  sockets_length : r.socketsPerNode.length = r.sockCoreRepCount.length
  cores_length : r.coresPerSocket.length = r.sockCoreRepCount.length
  records : r.sockCoreRepCount.sum = (denote r.nodeBitmap).elems.card
  nhosts : r.nhosts = (denote r.nodeBitmap).elems.card
  cores_fit : coreOffset r r.nodeBitmap.nbits ≤ r.coreBitmap.nbits

variable {r}

theorem countRange_succ (p : Nat → Bool) (n : Nat) :
    countRange p 0 (n + 1) = countRange p 0 n + if p n then 1 else 0 := by
  rw [← countRange_append _ (Nat.zero_le n) (le_succ n)]
  congr 1
  rw [countRange, succ_sub (Nat.le_refl n), Nat.sub_self, List.range'_one, List.countP_singleton]

theorem hostIndex_succ (n : Nat) :
    hostIndex r (n + 1) = hostIndex r n + if r.nodeBitmap.bit n then 1 else 0 :=
  countRange_succ _ n

theorem countRange_le (p : Nat → Bool) (h : m ≤ n) : countRange p 0 m ≤ countRange p 0 n := by
  rw [← countRange_append _ (Nat.zero_le m) h]
  exact Nat.le_add_right _ _

theorem countRange_lt (h : m < n) (hp : p m = true) : countRange p 0 m < countRange p 0 n := by
  have hle := countRange_le p (succ_le_of_lt h)
  rw [countRange_succ, if_pos hp] at hle
  exact hle

theorem card_eq_hostIndex : (denote r.nodeBitmap).elems.card = hostIndex r r.nodeBitmap.nbits := by
  rw [← bitSetCount_eq_card, bitSetCount_eq]
  rfl

/-- A node has its place below the number of nodes. -/
theorem WellFormed.hostIndex_lt (h : WellFormed r) {i : Nat} (hi : i < r.nodeBitmap.nbits)
    (hbit : r.nodeBitmap.bit i = true) : hostIndex r i < r.sockCoreRepCount.sum := by
  rw [h.records, card_eq_hostIndex]
  exact countRange_lt hi hbit

theorem sumBefore_succ (p : Nat → Bool) (count : Nat → Nat) (n : Nat) :
    sumBefore p count (n + 1) = sumBefore p count n + if p n then count n else 0 :=
  sum_range_succ _ n

/-- What a node counts for lies before the nodes after it. -/
theorem sumBefore_add_le (count : Nat → Nat) (h : m < n) (hp : p m = true) :
    sumBefore p count m + count m ≤ sumBefore p count n := by
  have hle : sumBefore p count (m + 1) ≤ sumBefore p count n :=
    sum_le_sum_of_subset (range_mono h)
  rwa [sumBefore_succ, if_pos hp] at hle

theorem sumBefore_congr {count count' : Nat → Nat}
    (h : ∀ i, i < n → p i = true → count i = count' i) :
    sumBefore p count n = sumBefore p count' n := by
  refine sum_congr rfl fun i hi => ?_
  by_cases hp : p i = true
  · rw [if_pos hp, if_pos hp, h i (Finset.mem_range.mp hi) hp]
  · rw [if_neg hp, if_neg hp]

/-! ## The walk -/

variable {r1 r2 : JobResources} {σ : Type} {step : σ → Int → Bool → Bool → σ} {ndebug : Bool}

/-- The nodes from `i` on, `len` of them. -/
def foldNodes (r1 r2 : JobResources) (step : σ → Int → Bool → Bool → σ) (i len : Nat) (s : σ) : σ :=
  (List.range' i len).foldl
    (fun s (k : Nat) => step s k (r1.nodeBitmap.bit k) (r2.nodeBitmap.bit k)) s

theorem foldNodes_succ (i len : Nat) (s : σ) : foldNodes r1 r2 step i (len + 1) s
    = step (foldNodes r1 r2 step i len s) (i + len : Nat) (r1.nodeBitmap.bit (i + len))
        (r2.nodeBitmap.bit (i + len)) := by
  rw [foldNodes, List.range'_1_concat, List.foldl_append]
  rfl

theorem foldNodes_append (i len len' : Nat) (s : σ) : foldNodes r1 r2 step i (len + len') s
    = foldNodes r1 r2 step (i + len) len' (foldNodes r1 r2 step i len s) := by
  rw [foldNodes, ← List.range'_append_1, List.foldl_append]
  rfl

theorem walk_eq (fuel i : Nat) (s : σ) :
    walk ndebug r1 r2 step fuel i s = some (foldNodes r1 r2 step i fuel s) := by
  induction fuel generalizing i s with
  | zero => rfl
  | succ fuel ih =>
    have htest : ∀ b, testAt ndebug b (i : Int) = some (b.bit i) := by
      intro b
      rw [testAt, if_pos (Int.natCast_nonneg i), Int.toNat_natCast, bitTest_eq]
    rw [walk, htest, htest, bind_some, bind_some,
      show (i : Int) + 1 = (i + 1 : Nat) from rfl, ih, foldNodes, foldNodes, List.range'_succ]
    rfl

/-- Nothing happens where no operand has a node. -/
theorem foldNodes_skip (hstep : ∀ s i, step s i false false = s) (i len : Nat) (s : σ)
    (h : ∀ k, i ≤ k → k < i + len → r1.nodeBitmap.bit k = false ∧ r2.nodeBitmap.bit k = false) :
    foldNodes r1 r2 step i len s = s := by
  induction len with
  | zero => rfl
  | succ len ih =>
    have hnone := h (i + len) (Nat.le_add_right _ _) (by omega)
    rw [foldNodes_succ, ih fun k hlo hhi => h k hlo (by omega), hnone.1, hnone.2, hstep]

/-- An operand has no node. -/
def NoNodes (r : JobResources) : Prop := ∀ i, i < r.nodeBitmap.nbits → r.nodeBitmap.bit i = false

theorem bitFfs_eq_none (h : NoNodes r) : bitFfs r.nodeBitmap = none := by
  have hnone : Lib.Search.IsFirst (fun i => i < r.nodeBitmap.nbits ∧ r.nodeBitmap.bit i = true) none :=
    fun i hi => absurd ((h i hi.1).symm.trans hi.2) Bool.false_ne_true
  exact (bitFfs_isFirst r.nodeBitmap).unique hnone

theorem bitFls_eq_none (h : NoNodes r) : bitFls r.nodeBitmap = none := by
  have hnone : Lib.Search.IsLast (fun i => i < r.nodeBitmap.nbits ∧ r.nodeBitmap.bit i = true) none :=
    fun i hi => absurd ((h i hi.1).symm.trans hi.2) Bool.false_ne_true
  exact (bitFls_isLast r.nodeBitmap).unique hnone

/-- The first and the last node of an operand that has one. -/
theorem exists_ends (h : ¬ NoNodes r) : ∃ first last,
    bitFfs r.nodeBitmap = some first ∧ bitFls r.nodeBitmap = some last ∧
      first ≤ last ∧ last < r.nodeBitmap.nbits ∧
      ∀ i, i < r.nodeBitmap.nbits → r.nodeBitmap.bit i = true → first ≤ i ∧ i ≤ last := by
  have hfirst := bitFfs_isFirst r.nodeBitmap
  have hlast := bitFls_isLast r.nodeBitmap
  cases hffs : bitFfs r.nodeBitmap with
  | none =>
    rw [hffs] at hfirst
    exact absurd (fun i hi => Bool.eq_false_iff.mpr fun hb => hfirst i ⟨hi, hb⟩) h
  | some first =>
    cases hfls : bitFls r.nodeBitmap with
    | none =>
      rw [hfls] at hlast
      exact absurd (fun i hi => Bool.eq_false_iff.mpr fun hb => hlast i ⟨hi, hb⟩) h
    | some last =>
      rw [hffs] at hfirst
      rw [hfls] at hlast
      have hbounds : ∀ i, i < r.nodeBitmap.nbits → r.nodeBitmap.bit i = true →
          first ≤ i ∧ i ≤ last := fun i hi hb =>
        ⟨Nat.le_of_not_lt fun hlt => hfirst.2 i hlt ⟨hi, hb⟩,
          Nat.le_of_not_lt fun hlt => hlast.2 i hlt ⟨hi, hb⟩⟩
      exact ⟨first, last, rfl, rfl, (hbounds first hfirst.1.1 hfirst.1.2).2, hlast.1.1, hbounds⟩

/-- Without assertions position `-1` has no bit. -/
theorem testAt_neg (b : Bitstr) : testAt true b (-1) = some false := by
  have hvalid := b.valid.2
  rw [testAt, if_neg (by decide), if_pos rfl, BitVec.getLsbD_ofNat,
    testBit_lt_two_pow (by omega), Bool.and_false]

/-- The nodes from `first` to `last` are all there are. -/
theorem foldNodes_between (hstep : ∀ s i, step s i false false = s) {first last : Nat}
    (hle : first ≤ last) (hlt : last < n) (hout : ∀ k, k < n → k < first ∨ last < k →
      r1.nodeBitmap.bit k = false ∧ r2.nodeBitmap.bit k = false) (s : σ) :
    foldNodes r1 r2 step first (last + 1 - first) s = foldNodes r1 r2 step 0 n s := by
  have hsplit : n = first + ((last + 1 - first) + (n - (last + 1))) := by omega
  conv_rhs => rw [hsplit]
  rw [foldNodes_append, foldNodes_skip hstep 0 first s fun k _ hk => hout k (by omega) (by omega),
    foldNodes_append, Nat.zero_add]
  rw [foldNodes_skip hstep (first + (last + 1 - first)) (n - (last + 1)) _
    fun k hlo hhi => hout k (by omega) (by omega)]

variable (hn : r1.nodeBitmap.nbits = r2.nodeBitmap.nbits)

include hn

/-- The walk visits every node of the table that matters. -/
theorem forNodes_eq (hstep : ∀ s i, step s i false false = s)
    (hassert : ndebug = true ∨ ¬ NoNodes r1 ∨ NoNodes r2) (s : σ) :
    forNodes ndebug r1 r2 step s = some (foldNodes r1 r2 step 0 r1.nodeBitmap.nbits s) := by
  have hcnt : nodeCnt r1 r2 = r1.nodeBitmap.nbits := by
    rw [nodeCnt, ← hn, Nat.min_self]
  by_cases h1 : NoNodes r1
  · have hffs := bitFfs_eq_none h1
    have hfls := bitFls_eq_none h1
    by_cases h2 : NoNodes r2
    · rw [foldNodes_skip hstep 0 _ s fun k _ hk => ⟨h1 k (by omega), h2 k (by omega)⟩]
      have hfirst : firstNode r1 r2 = -1 := by
        simp [firstNode, hffs, bitFfs_eq_none h2, position]
      have hlast : lastNode r1 r2 = -2 := by
        simp [lastNode, hfls, bitFls_eq_none h2, position]
        omega
      rw [forNodes, hfirst, hlast]
      rfl
    · -- The walk starts at `-1`, where the cursors do not move.
      obtain ⟨first, last, hffs2, hfls2, hle, hlt, hbounds⟩ := exists_ends h2
      have hdebug : ndebug = true := hassert.resolve_right (by simp [h1, h2])
      subst hdebug
      have hfirst : firstNode r1 r2 = -1 := by
        simp only [firstNode, hffs, hffs2, position]
        rw [if_neg (by omega)]
      have hlast : lastNode r1 r2 = last := by
        simp only [lastNode, hfls, hfls2, position, hcnt]
        rw [if_pos (show (last : Int) ≠ -1 ∧ (last : Int) > -1 by omega), if_neg (by omega),
          if_neg (by omega)]
      rw [forNodes, hfirst, hlast, show ((last : Int) - -1 + 1).toNat = last + 1 + 1 by omega, walk,
        testAt_neg, testAt_neg, bind_some, bind_some, hstep,
        show (-1 : Int) + 1 = (0 : Nat) from rfl, walk_eq]
      refine congrArg some (foldNodes_between hstep (Nat.zero_le last) (hn ▸ hlt) ?_ s)
      intro k hk hout
      refine ⟨h1 k hk, Bool.eq_false_iff.mpr fun hb => ?_⟩
      have hb' := hbounds k (hn ▸ hk) hb
      omega
  · obtain ⟨first1, last1, hffs1, hfls1, hle1, hlt1, hbounds1⟩ := exists_ends h1
    have hends : ∃ first last : Nat, firstNode r1 r2 = first ∧ lastNode r1 r2 = last ∧
        first ≤ last ∧ last < r1.nodeBitmap.nbits ∧
        ∀ k, k < r1.nodeBitmap.nbits → k < first ∨ last < k →
          r1.nodeBitmap.bit k = false ∧ r2.nodeBitmap.bit k = false := by
      by_cases h2 : NoNodes r2
      · refine ⟨first1, last1, ?_, ?_, hle1, hlt1, fun k hk hout => ⟨?_, h2 k (hn ▸ hk)⟩⟩
        · simp [firstNode, hffs1, bitFfs_eq_none h2, position]
        · simp only [lastNode, hfls1, bitFls_eq_none h2, position, hcnt]
          rw [if_neg (by omega), if_neg (by omega), if_neg (by omega)]
        · refine Bool.eq_false_iff.mpr fun hb => ?_
          have hb' := hbounds1 k hk hb
          omega
      · obtain ⟨first2, last2, hffs2, hfls2, hle2, hlt2, hbounds2⟩ := exists_ends h2
        refine ⟨min first1 first2, max last1 last2, ?_, ?_, by omega, by omega, fun k hk hout => ?_⟩
        · simp only [firstNode, hffs1, hffs2, position]
          split <;> omega
        · simp only [lastNode, hfls1, hfls2, position, hcnt]
          split <;> (rw [if_neg (by omega), if_neg (by omega)]; omega)
        · constructor
          · refine Bool.eq_false_iff.mpr fun hb => ?_
            have hb' := hbounds1 k hk hb
            omega
          · refine Bool.eq_false_iff.mpr fun hb => ?_
            have hb' := hbounds2 k (hn ▸ hk) hb
            omega
    obtain ⟨first, last, hfirst, hlast, hle, hlt, hout⟩ := hends
    rw [forNodes, hfirst, hlast, show ((last : Int) - first + 1).toNat = last + 1 - first by omega,
      walk_eq]
    exact congrArg some (foldNodes_between hstep hle hlt hout s)

omit hn

/-- With assertions the walk fails when the first operand alone has no node. -/
theorem forNodes_eq_none (h1 : NoNodes r1) (h2 : ¬ NoNodes r2) (s : σ) :
    forNodes false r1 r2 step s = none := by
  obtain ⟨first, last, hffs2, hfls2, hle, hlt, hbounds⟩ := exists_ends h2
  have hfirst : firstNode r1 r2 = -1 := by
    simp only [firstNode, bitFfs_eq_none h1, hffs2, position]
    rw [if_neg (by omega)]
  have hcnt : 0 < nodeCnt r1 r2 := (nodeCnt_valid r1 r2).1
  have hlast : 0 ≤ lastNode r1 r2 := by
    simp only [lastNode, bitFls_eq_none h1, hfls2, position]
    rw [if_pos (show (last : Int) ≠ -1 ∧ (last : Int) > -1 by omega)]
    split <;> (rw [if_neg (by omega)]; omega)
  rw [forNodes, hfirst]
  obtain ⟨fuel, hfuel⟩ : ∃ fuel, (lastNode r1 r2 - -1 + 1).toNat = fuel + 1 :=
    ⟨(lastNode r1 r2 - -1).toNat, by omega⟩
  rw [hfuel, walk]
  rfl

end Slurm.JobResources
