import Slurm.CoreSync.Block
import Slurm.CoreSync.CyclicContract

/-!
# When block core selection stays inside its arrays

The last turn of `_gen_combs` carries out of the combination: it adds one to `comb[-1]`.  So no call
of it stays inside its arrays, and every node with enough cores calls it.

* `genCombs_fault`: no run of `_gen_combs` ends with a list.
* `blockNode_stops`: a node is finished only if it has not enough cores.
* `blockContract_iff`: the function does what is promised of it where it returns at once.
-/

namespace Slurm.CoreSync

open Lib.Checked List Nat

variable {fuel : Nat}

/-! ## What is promised -/

/-- A job whose nodes have boards of the same number of sockets. -/
structure BlockJob extends CoreJob where
  boards_pos : ∀ node ∈ nodes, 1 ≤ node.boards
  boards_le : ∀ node ∈ nodes, node.boards ≤ maxBoards
  boards_dvd : ∀ node ∈ nodes, node.boards ∣ node.sockets

/-- The sockets of a board. -/
def boardSockets (node : SyncNode) (b : Nat) : Finset Nat :=
  (Finset.range node.sockets).filter fun s => s / (node.sockets / node.boards) = b

/-- The sockets of a node that have available cores. -/
def usedSockets (coreMap : List Bool) (c : Nat) (node : SyncNode) : Finset Nat :=
  (Finset.range node.sockets).filter fun s => 0 < socketOnes coreMap c node s

/-- The boards of a node that have available cores. -/
def usedBoards (coreMap : List Bool) (c : Nat) (node : SyncNode) : Finset Nat :=
  (usedSockets coreMap c node).image fun s => s / (node.sockets / node.boards)

/-- What is promised for a node that comes after others: the boards and the sockets that it uses are
as few as can be. -/
structure FitRight (job : BlockJob) (r : BlockResult) (front : List SyncNode) (node : SyncNode) :
    Prop where
  exact : ones r.coreMap (offset front) (offset front + node.size) = node.need
  cpus : r.cpus[front.length]? = some (node.need * node.tpc)
  leastBoards : ∀ boards ⊆ Finset.range node.boards,
    node.need ≤ ∑ b ∈ boards, ∑ s ∈ boardSockets node b, socketOnes job.coreMap (offset front) node s →
    (usedBoards r.coreMap (offset front) node).card ≤ boards.card
  leastSockets : ∀ sockets ⊆ (usedBoards r.coreMap (offset front) node).biUnion (boardSockets node),
    node.need ≤ ∑ s ∈ sockets, socketOnes job.coreMap (offset front) node s →
    (usedSockets r.coreMap (offset front) node).card ≤ sockets.card

/-- What is promised of a result. -/
structure BlockRight (job : BlockJob) (r : BlockResult) : Prop where
  available : ∀ j, bitTest r.coreMap j = true → bitTest job.coreMap j = true
  nodes : ∀ front node back, job.nodes = front ++ node :: back → FitRight job r front node

/-- The core bitmap after a node. -/
def BlockEnd.coreMap : BlockEnd → List Bool
  | .stopped coreMap => coreMap
  | .next coreMap _ _ => coreMap

/-- What is promised of the function: it ends inside its arrays with a result that is right, and no
node changes a bit of another one. -/
structure BlockContract (job : BlockJob) : Prop where
  right : ∃ fuel r, blockSyncCoreBitmap fuel job.toSyncJob = .ok r ∧ BlockRight job r
  others : ∀ fuel coreMap c node t e, blockNode fuel job.toSyncJob coreMap c node t = .ok e →
    ∀ j, j < c ∨ c + node.size ≤ j → bitTest e.coreMap j = bitTest coreMap j

/-! ## Combinations -/

variable {n k : Nat} {comb comb' : List Int}

/-- The first entry is one of those from which a combination can go on. -/
def Fits (n k : Nat) (comb : List Int) : Prop := ∀ x, comb[0]? = some x → x ≤ (n : Int) - k

/-- The inner loop ends inside the combination only if there is a next one. -/
theorem carry_fits {m : Nat} {i : Int} (hm : 1 ≤ m) (hfits : 2 ≤ m → Fits n k comb)
    (hrun : carry n k m comb = .ok (i, comb')) : 0 ≤ i ∧ Fits n k comb' := by
  induction m generalizing comb with
  | zero => omega
  | succ m ih =>
    rw [carry, bind_eq_ok] at hrun
    obtain ⟨x, hx, hrun⟩ := hrun
    split at hrun
    · rw [bind_eq_ok] at hrun
      obtain ⟨y, hy, hrun⟩ := hrun
      rw [bind_eq_ok] at hrun
      obtain ⟨comb₁, hwrite, hrun⟩ := hrun
      -- at the first entry the code goes on to the one before it
      have hpos : 1 ≤ m := by
        have := (read_eq_ok.mp hy).1
        omega
      refine ih hpos (fun hm₂ z hz => ?_) hrun
      rw [write_getElem? hwrite (by omega)] at hz
      exact hfits (by omega) z hz
    · rename_i hlt
      rw [pure_eq_ok, Prod.mk.injEq] at hrun
      obtain ⟨rfl, rfl⟩ := hrun
      refine ⟨by omega, fun z hz => ?_⟩
      rcases Nat.eq_zero_or_pos m with rfl | hpos
      · have hget := (read_eq_ok.mp hx).2
        simp only [Int.toNat_natCast, hz, Option.some.injEq] at hget
        omega
      · exact hfits (by omega) z hz

theorem refill_fits {i : Int} (hi : 0 ≤ i) (hfits : Fits n k comb) (hrun : refill k i comb = .ok comb') :
    Fits n k comb' := by
  rw [refill] at hrun
  refine foldlM_inv (P := Fits n k) (fun j hj b b' hb hstep => ?_) hfits hrun
  rw [mem_range'_1] at hj
  rw [bind_eq_ok] at hstep
  obtain ⟨x, -, hwrite⟩ := hstep
  intro z hz
  rw [write_getElem? hwrite (by omega)] at hz
  exact hb z hz

/-- The outer loop has no way out. -/
theorem combsLoop_fault (hk : 1 ≤ k) (fuel b : Nat) (combList l : List Int) (hfits : Fits n k comb) :
    combsLoop n k fuel b comb combList ≠ .ok l := by
  induction fuel generalizing b comb combList with
  | zero => exact nofun
  | succ fuel ih =>
    intro hrun
    rw [combsLoop, bind_eq_ok] at hrun
    obtain ⟨combList₁, -, hrun⟩ := hrun
    rw [bind_eq_ok] at hrun
    obtain ⟨x, -, hrun⟩ := hrun
    rw [bind_eq_ok] at hrun
    obtain ⟨comb₁, hwrite, hrun⟩ := hrun
    rw [bind_eq_ok] at hrun
    obtain ⟨⟨i, comb₂⟩, hcarry, hrun⟩ := hrun
    have hfits₁ : 2 ≤ k → Fits n k comb₁ := fun hk₂ z hz => by
      rw [write_getElem? hwrite (by omega)] at hz
      exact hfits z hz
    obtain ⟨hi, hfits₂⟩ := carry_fits hk hfits₁ hcarry
    simp only at hrun
    rw [bind_eq_ok] at hrun
    obtain ⟨first, hfirst, hrun⟩ := hrun
    rw [if_neg (not_lt.mpr (hfits₂ first (read_eq_ok.mp hfirst).2)), bind_eq_ok] at hrun
    obtain ⟨comb₃, hrefill, hrun⟩ := hrun
    exact ih _ _ (refill_fits hi hfits₂ hrefill) hrun

/-- No run of `_gen_combs` ends with a list. -/
theorem genCombs_fault (hk : 1 ≤ k) (hn : k ≤ n) (fuel : Nat) (combList l : List Int) :
    genCombs fuel combList n k ≠ .ok l := by
  refine combsLoop_fault hk fuel 0 combList l fun x hx => ?_
  rw [getElem?_map, getElem?_range hk, Option.map_some, Option.some.injEq] at hx
  rw [← hx]
  exact Int.sub_nonneg_of_le (by exact_mod_cast hn)

/-! ## Counting -/

variable {coreMap : List Bool} {c : Nat} {node : SyncNode} {t t' : Scratch}

theorem sum_toNat (p : Nat → Bool) (l : List Nat) : (l.map fun j => (p j).toNat).sum = l.countP p := by
  induction l with
  | nil => rfl
  | cons j l ih =>
    rw [map_cons, sum_cons, ih, countP_cons]
    cases p j <;> simp [Nat.add_comm]

theorem read_bit {j : Nat} {x : Bool} (h : read coreMap j = .ok x) : bitTest coreMap j = x := by
  have hget := (read_eq_ok.mp h).2
  rw [Int.toNat_natCast] at hget
  rw [bitTest, getD_eq_getElem?_getD, hget, Option.getD_some]

/-- The counts of the boards, with `n` cores more. -/
def Counted (t t' : Scratch) (n : Nat) : Prop :=
  t'.sortBrdsCoreCnt.length = t.sortBrdsCoreCnt.length ∧
    t'.sortBrdsCoreCnt.sum = t.sortBrdsCoreCnt.sum + n

/-- A loop whose turns add cores. -/
theorem foldlM_counted {f : Scratch → Nat → Run Scratch} {w : Nat → Nat} {l : List Nat}
    (h : ∀ t t' j, f t j = .ok t' → Counted t t' (w j)) (hrun : l.foldlM f t = .ok t') :
    Counted t t' (l.map w).sum := by
  obtain ⟨hlen, hsum⟩ := foldlM_sum (fun t => t.sortBrdsCoreCnt.sum) (fun j => (w j : Int))
    (fun t' => t'.sortBrdsCoreCnt.length = t.sortBrdsCoreCnt.length)
    (fun j _ b b' hb hstep => ⟨(h b b' j hstep).1.trans hb, (h b b' j hstep).2⟩) rfl hrun
  refine ⟨hlen, ?_⟩
  rw [hsum, cast_list_sum, map_map]
  rfl

/-- A core is counted if it is available. -/
theorem countCore_counted {s b j : Nat} (hrun : countCore coreMap s b t j = .ok t') :
    Counted t t' (bitTest coreMap j).toNat := by
  rw [countCore, bind_eq_ok] at hrun
  obtain ⟨x, hx, hrun⟩ := hrun
  rw [read_bit hx]
  split at hrun
  · rename_i hset
    simp only [bind_eq_ok, pure_eq_ok] at hrun
    obtain ⟨-, -, -, -, -, -, -, -, y, hy, sorted, hwrite, rfl⟩ := hrun
    rw [hset]
    exact ⟨write_length hwrite, sum_add 1 hy hwrite⟩
  · rename_i hclear
    rw [pure_eq_ok] at hrun
    rw [← hrun, Bool.eq_false_of_not_eq_true hclear]
    exact ⟨rfl, (Int.add_zero _).symm⟩

/-- The available cores of a socket are counted. -/
theorem countSocket_counted {spb s : Nat} (hrun : countSocket coreMap c node spb t s = .ok t') :
    Counted t t' (socketOnes coreMap c node s) := by
  simp only [countSocket, bind_eq_ok] at hrun
  obtain ⟨sockets, -, used, -, hrun⟩ := hrun
  split at hrun
  · cases hrun
  · have hsum := foldlM_counted (fun _ _ _ hstep => countCore_counted hstep) hrun
    rw [sum_toNat] at hsum
    rwa [socketOnes, ones, Nat.add_sub_cancel_left]

/-- The boards of the first node together have its available cores. -/
theorem countNode_sum {spb : Nat} (hzero : t.sortBrdsCoreCnt = List.replicate (nboardsOf node) 0)
    (hrun : countNode coreMap c node spb t = .ok t') :
    t'.sortBrdsCoreCnt.length = nboardsOf node ∧
      t'.sortBrdsCoreCnt.sum = (ones coreMap c (c + node.size) : Int) := by
  simp only [countNode, bind_eq_ok, pure_eq_ok] at hrun
  obtain ⟨t₁, hclear, t₂, hcount, sorted, hsort, rfl⟩ := hrun
  have hclean : t₁.sortBrdsCoreCnt = List.replicate (nboardsOf node) 0 := by
    refine foldlM_inv (P := fun t => t.sortBrdsCoreCnt = List.replicate (nboardsOf node) 0)
      (fun b _ t t' ht hstep => ?_) hzero hclear
    simp only [clearBoard, bind_eq_ok, pure_eq_ok] at hstep
    obtain ⟨-, -, sorted, hwrite, rfl⟩ := hstep
    have hset := (write_eq_ok.mp hwrite).2
    rw [ht] at hset
    simpa using hset
  obtain ⟨hlen, hsum⟩ := foldlM_counted (fun _ _ _ hstep => countSocket_counted hstep) hcount
  have hperm := sortPart_perm hsort
  rw [hclean, length_replicate] at hlen
  rw [hclean, sum_replicate, smul_zero, Int.zero_add] at hsum
  simp only [socketOnes, ones_blocks] at hsum
  exact ⟨hperm.length_eq.trans hlen, hperm.sum_eq.trans hsum⟩

/-- A loop that ends without enough has added up all numbers that were left. -/
theorem firstEnough_short {a : List Int} {req : Int} {left b b' : Nat} {count : Int} (hleft : 0 < left)
    (hlen : a.length = b + left) (hrun : firstEnough (fun b => read a b) req left b count = .ok b')
    (hend : b + left ≤ b') : count + (a.drop b).sum < req := by
  induction left generalizing b count with
  | zero => omega
  | succ left ih =>
    rw [firstEnough, bind_eq_ok] at hrun
    obtain ⟨x, hx, hrun⟩ := hrun
    have hget := (read_eq_ok.mp hx).2
    rw [Int.toNat_natCast] at hget
    obtain ⟨hlt, rfl⟩ := List.getElem?_eq_some_iff.mp hget
    rw [drop_eq_getElem_cons hlt, sum_cons]
    simp only at hrun
    split at hrun
    · rw [pure_eq_ok] at hrun
      omega
    · rename_i hmore
      rcases Nat.eq_zero_or_pos left with rfl | hpos
      · rw [drop_eq_nil_of_le (by omega), sum_nil]
        omega
      · have hrest := ih hpos (by omega) hrun (by omega)
        omega

/-- The cores that are asked for are those that the node needs. -/
theorem reqCores_eq {job : SyncJob} (hcore : job.ntasksPerCore ≠ 1) (node : SyncNode) :
    reqCores job node = node.need := by
  have hv := node.vpus_pos
  have hdiv := div_add_mod node.cpus node.vpus
  have hlt := mod_lt node.cpus hv
  rw [reqCores, if_neg (by simp [hcore]), SyncNode.need]
  generalize node.cpus / node.vpus = q at hdiv ⊢
  generalize node.cpus % node.vpus = r at hdiv hlt ⊢
  split
  · rw [show node.cpus + node.vpus - 1 = (node.vpus - 1) + node.vpus * q by omega,
      add_mul_div_left _ _ hv, div_eq_of_lt (by omega), Nat.zero_add]
  · rw [show node.cpus + node.vpus - 1 = (r - 1) + node.vpus * (q + 1) by rw [mul_succ]; omega,
      add_mul_div_left _ _ hv, div_eq_of_lt (by omega), Nat.zero_add]

/-! ## Nodes -/

variable {e : BlockEnd}

/-- A node of which a combination of boards is looked for is not finished. -/
theorem blockBoards_fault {bMin : Nat} {job : SyncJob} (hpos : 1 ≤ bMin)
    (hle : bMin ≤ nboardsOf node) : blockBoards fuel job coreMap c node t bMin ≠ .ok e := by
  intro hrun
  rw [blockBoards, bind_eq_ok] at hrun
  obtain ⟨sockets, hsockets, -⟩ := hrun
  simp only [bestSockets, bind_eq_ok] at hsockets
  obtain ⟨row, -, ncomb, -, combs, hcombs, -⟩ := hsockets
  exact genCombs_fault hpos hle fuel _ combs hcombs

/-- A node is finished only if it has not enough room or not enough cores: nothing has changed. -/
theorem blockNode_stops {job : SyncJob} (hrun : blockNode fuel job coreMap c node t = .ok e) :
    e = .stopped coreMap := by
  rw [blockNode] at hrun
  split at hrun
  · exact (pure_eq_ok.mp hrun).symm
  · split at hrun
    · cases hrun
    · simp only [bind_eq_ok] at hrun
      obtain ⟨t', -, b, -, hrun⟩ := hrun
      split at hrun
      · exact (pure_eq_ok.mp hrun).symm
      · rename_i hb
        exact absurd hrun (blockBoards_fault (Nat.le_add_left 1 b) (by omega))

theorem room_firstScratch (hle : node.boards ≤ maxBoards) :
    ((firstScratch node).room node).sortBrdsCoreCnt = List.replicate (nboardsOf node) 0 := by
  have hboards : nboardsOf node = node.boards := if_neg (Nat.not_lt.mpr hle)
  simp [Scratch.room, firstScratch, grow, hboards]

/-- The first node is not finished if it has enough cores. -/
theorem firstNode_fault {job : SyncJob} (hcore : job.ntasksPerCore ≠ 1) (hpos : 1 ≤ node.boards)
    (hle : node.boards ≤ maxBoards) (hroom : c + node.size ≤ coreMap.length)
    (henough : node.need ≤ ones coreMap c (c + node.size)) :
    blockNode fuel job coreMap c node (firstScratch node) ≠ .ok e := by
  intro hrun
  have hboards : nboardsOf node = node.boards := if_neg (Nat.not_lt.mpr hle)
  rw [blockNode, if_neg (Nat.not_lt.mpr hroom), if_neg (by omega)] at hrun
  simp only [bind_eq_ok] at hrun
  obtain ⟨t', hcount, b, hfirst, hrun⟩ := hrun
  obtain ⟨hlen, hsum⟩ := countNode_sum (room_firstScratch hle) hcount
  split at hrun
  · rename_i hb
    have hshort := firstEnough_short (by omega) (by rw [hlen, Nat.zero_add]) hfirst (by omega)
    rw [drop_zero, hsum, Int.zero_add, reqCores_eq hcore] at hshort
    omega
  · exact blockBoards_fault (Nat.le_add_left 1 b) (by omega) hrun

/-! ## Jobs -/

variable {job : BlockJob}

/-- A job that has a node, and an available core, ends in a fault. -/
theorem blockSync_fault (hnodes : job.nodes ≠ []) {j : Nat} (hj : bitTest job.coreMap j = true)
    (fuel : Nat) (r : BlockResult) : blockSyncCoreBitmap fuel job.toSyncJob ≠ .ok r := by
  have hany : job.coreMap.any id = true := by
    rw [bitTest, getD_eq_getElem?_getD] at hj
    rw [any_eq_true]
    cases hget : job.coreMap[j]? with
    | none => simp [hget] at hj
    | some x => exact ⟨x, mem_of_getElem? hget, by simpa [hget] using hj⟩
  rw [blockSyncCoreBitmap, if_neg (by simp [hany])]
  cases hsplit : job.nodes with
  | nil => exact absurd hsplit hnodes
  | cons node rest =>
    have hmem : node ∈ job.nodes := by rw [hsplit]; exact mem_cons_self
    have hroom := job.size_eq
    rw [hsplit, map_cons, sum_cons] at hroom
    have henough : node.need ≤ ones job.coreMap 0 (0 + node.size) := job.enough [] node rest hsplit
    intro hrun
    simp only [blockNodes, bind_eq_ok] at hrun
    obtain ⟨e, he, -⟩ := hrun
    refine firstNode_fault ?_ (job.boards_pos node hmem) (job.boards_le node hmem) (by omega)
      henough he
    rw [job.ntasksPerCore_eq]
    decide

/-- No core is available, so no node needs any. -/
theorem idle_right (hidle : ∀ j, bitTest job.coreMap j = false) :
    BlockRight job ⟨job.coreMap, job.nodes.map SyncNode.cpus⟩ where
  available _ hj := hj
  nodes front node back hsplit := by
    have hones : ∀ a b, ones job.coreMap a b = 0 := fun a b => ones_eq_zero fun j _ _ => hidle j
    have henough := job.enough front node back hsplit
    have hneed : node.need = 0 := by rwa [hones, le_zero] at henough
    have hcpus : node.cpus = 0 := by
      have hv := node.vpus_pos
      rw [SyncNode.need, Nat.div_eq_zero_iff] at hneed
      omega
    have hunused : usedSockets job.coreMap (offset front) node = ∅ := by
      refine Finset.filter_eq_empty_iff.mpr fun s _ => ?_
      rw [socketOnes, hones]
      exact Nat.lt_irrefl 0
    refine ⟨?_, ?_, fun boards _ _ => ?_, fun sockets _ _ => ?_⟩
    · rw [hneed]
      exact hones _ _
    · rw [hneed, hsplit]
      simp [hcpus]
    · rw [usedBoards, hunused]
      exact Nat.zero_le _
    · rw [hunused]
      exact Nat.zero_le _

/-- Nothing that is promised of nodes is asked of a job without nodes. -/
theorem empty_right (hnodes : job.nodes = []) : BlockRight job ⟨job.coreMap, []⟩ where
  available _ hj := hj
  nodes front node back hsplit := by
    rw [hnodes] at hsplit
    exact absurd hsplit.symm (by simp)

/-- **Main result**: the function does what is promised of it for a job without nodes, or without
an available core.  It returns at once for both of them, and for no other job. -/
theorem blockContract_iff (job : BlockJob) :
    BlockContract job ↔ job.nodes = [] ∨ ∀ j, bitTest job.coreMap j = false := by
  have hothers : ∀ fuel coreMap c node t e, blockNode fuel job.toSyncJob coreMap c node t = .ok e →
      ∀ j, j < c ∨ c + node.size ≤ j → bitTest e.coreMap j = bitTest coreMap j :=
    fun fuel coreMap c node t e hrun j _ => by
      rw [blockNode_stops hrun]
      rfl
  constructor
  · intro h
    obtain ⟨fuel, r, hrun, -⟩ := h.right
    by_contra hnot
    rw [not_or, not_forall] at hnot
    obtain ⟨hnodes, j, hj⟩ := hnot
    exact blockSync_fault hnodes (Bool.eq_true_of_not_eq_false hj) fuel r hrun
  · intro h
    refine ⟨⟨0, ?_⟩, hothers⟩
    rcases h with hnodes | hidle
    · have hlen := job.size_eq
      rw [hnodes, List.map_nil, List.sum_nil, List.length_eq_zero_iff] at hlen
      refine ⟨_, ?_, empty_right hnodes⟩
      rw [blockSyncCoreBitmap, hlen, hnodes]
      rfl
    · refine ⟨_, ?_, idle_right hidle⟩
      rw [blockSyncCoreBitmap, if_pos]
      · rfl
      · rw [List.any_eq_false]
        intro x hx
        obtain ⟨i, hi⟩ := List.getElem?_of_mem hx
        have hbit := hidle i
        rw [bitTest, List.getD_eq_getElem?_getD, hi, Option.getD_some] at hbit
        simp [hbit]

/-! ## One node with one core -/

theorem oneNode_vpus_le : 1 ≤ 1 := Nat.le_refl 1

theorem oneNode_threads_lt : 1 * 1 * 1 < 2 ^ 16 := by decide

theorem oneNode_cpus_lt : 1 < 2 ^ 16 := by decide

/-- A node of one core that is available, and one CPU of a job on it. -/
def oneNode : SyncNode where
  boards := 1
  sockets := 1
  cores := 1
  tpc := 1
  vpus := 1
  cpus := 1
  vpus_pos := oneNode_vpus_le
  vpus_le := oneNode_vpus_le
  threads_lt := oneNode_threads_lt
  cpus_lt := oneNode_cpus_lt

theorem oneJob_size : [true].length = ([oneNode].map SyncNode.size).sum := rfl

theorem oneNode_only {front back : List SyncNode} (h : [oneNode] = front ++ node :: back) :
    front = [] ∧ node = oneNode := by
  cases front with
  | nil => simpa [eq_comm] using (List.cons.inj h).1
  | cons x front => simp at h

theorem oneJob_enough (front : List SyncNode) (node : SyncNode) (back : List SyncNode)
    (h : [oneNode] = front ++ node :: back) :
    node.need ≤ ones [true] (offset front) (offset front + node.size) := by
  obtain ⟨rfl, rfl⟩ := oneNode_only h
  decide

theorem oneJob_boards_pos : ∀ node ∈ [oneNode], 1 ≤ node.boards := by simp [oneNode]

theorem oneJob_boards_le : ∀ node ∈ [oneNode], node.boards ≤ maxBoards := by simp [oneNode, maxBoards]

theorem oneJob_boards_dvd : ∀ node ∈ [oneNode], node.boards ∣ node.sockets := by simp [oneNode]

/-- The job on that node. -/
def oneJob : BlockJob where
  nodes := [oneNode]
  coreMap := [true]
  crSocket := false
  crCore := true
  cpusPerTask := 1
  ntasksPerCore := infinite16
  ntasksPerSocket := infinite16
  overcommit := false
  preemptMode := false
  size_eq := oneJob_size
  crSocket_eq := rfl
  crCore_eq := rfl
  ntasksPerCore_eq := rfl
  enough := oneJob_enough
  boards_pos := oneJob_boards_pos
  boards_le := oneJob_boards_le
  boards_dvd := oneJob_boards_dvd

/-- On the smallest node there is, the function writes before its array. -/
theorem blockContract_fails : ¬ BlockContract oneJob := by
  intro h
  obtain ⟨fuel, r, hrun, -⟩ := h.right
  exact @blockSync_fault oneJob (List.cons_ne_nil _ _) 0 rfl fuel r hrun

end Slurm.CoreSync
