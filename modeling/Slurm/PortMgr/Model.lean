import Slurm.Lib.RoundRobin

/-!
# Reserved ports (`port_mgr.c`)

`Ports` is the table of reserved ports with its bounds and the position of the round
robin, `last_port_alloc`.  Entry `i` has the nodes on which port `resvMin + i` is in use.
It is `NULL` where the port is not one of the job's: `reservePortConfig` makes tables
without such entries, `reservePortStepmgrInit` tables with them.

`resvPortAlloc` and `resvPortFree` are `_resv_port_alloc` and `_resv_port_free`.  A step
keeps its ports in `resv_port_array`; the text `resv_ports` of a step is only printed and
is left out.
-/

namespace Slurm.PortMgr

/-- `port_resv_table` and its variables. -/
structure Ports (n : Nat) where
  table : List (Option (BitVec n))
  resvCnt : Nat
  resvMin : Nat
  resvMax : Nat
  lastPortAlloc : Nat

variable {n : Nat}

/-- The nodes of an entry, where there is one. -/
def nodesAt (table : List (Option (BitVec n))) (i : Nat) : Option (BitVec n) := table[i]?.join

/-- The table of all ports from `pMin` to `pMax`, of which none is reserved. -/
def reservePortConfig (n pMin pMax lastPortAlloc : Nat) : Ports n where
  table := List.replicate (pMax - pMin + 1) (some 0)
  resvCnt := pMax - pMin + 1
  resvMin := pMin
  resvMax := pMax
  lastPortAlloc := lastPortAlloc

/-! ## Allocation -/

/-- Return codes. -/
inductive Rc where
  | success
  | portsInvalid
  | portsBusy
  deriving DecidableEq

/-- `++last_port_alloc`, which starts over at the end of the table. -/
def nextPort (resvCnt last : Nat) : Nat := Lib.RoundRobin.next resvCnt last

/-- The port is there and not in use on these nodes. -/
def isFree (table : List (Option (BitVec n))) (nodes : BitVec n) (i : Nat) : Bool :=
  match nodesAt table i with
  | none => false
  | some b => decide (nodes &&& b = 0)

/-- The loop that finds `cnt` available ports, with the number of entries left to look
at.  It gives `last_port_alloc` and `port_array`. -/
def findPorts (table : List (Option (BitVec n))) (nodes : BitVec n) (resvCnt cnt : Nat) :
    Nat → Nat → List Nat → Nat × List Nat
  | 0, last, array => (last, array)
  | k + 1, last, array =>
    let i := nextPort resvCnt last
    if isFree table nodes i = false then findPorts table nodes resvCnt cnt k i array
    else if cnt ≤ (array ++ [i]).length then (i, array ++ [i])
    else findPorts table nodes resvCnt cnt k i (array ++ [i])

/-- `bit_or(port_resv_table[i], node_bitmap)` -/
def setNodes (nodes : BitVec n) (table : List (Option (BitVec n))) (i : Nat) :
    List (Option (BitVec n)) :=
  table.modify i (Option.map (· ||| nodes))

/-- `_resv_port_alloc`: the table after it, the return code, and the ports. -/
def resvPortAlloc (s : Ports n) (cnt : Nat) (nodes : BitVec n) : Ports n × Rc × Option (List Nat) :=
  if s.resvCnt < cnt then (s, .portsInvalid, none)
  else
    let r := findPorts s.table nodes s.resvCnt cnt s.resvCnt s.lastPortAlloc []
    let s' := { s with lastPortAlloc := r.1 }
    if r.2.length < cnt then (s', .portsBusy, none)
    else
      ({ s' with table := r.2.foldl (setNodes nodes) s.table }, .success,
        some (r.2.map (· + s.resvMin)))

/-! ## Release -/

/-- `bit_and_not(port_resv_table[j], node_bitmap)` -/
def clearNodes (nodes : BitVec n) (table : List (Option (BitVec n))) (j : Nat) :
    List (Option (BitVec n)) :=
  table.modify j (Option.map (· &&& ~~~nodes))

/-- The loop of `_resv_port_free` from position `i` of the array on.  What is looked up
for `NULL` is the entry of the position, not the one of the port. -/
def freeLoop (s : Ports n) (nodes : BitVec n) :
    Nat → List Nat → List (Option (BitVec n)) → List (Option (BitVec n))
  | _, [], table => table
  | i, port :: array, table =>
    if port < s.resvMin ∨ s.resvMax < port then freeLoop s nodes (i + 1) array table
    else if nodesAt table i = none then freeLoop s nodes (i + 1) array table
    else freeLoop s nodes (i + 1) array (clearNodes nodes table (port - s.resvMin))

/-- `_resv_port_free` -/
def resvPortFree (s : Ports n) (array : List Nat) (nodes : BitVec n) : Ports n :=
  { s with table := freeLoop s nodes 0 array s.table }

/-! ## Steps -/

/-- What a step asks for. -/
structure StepRec (n : Nat) where
  resvPortCnt : Nat
  nodes : BitVec n
  cnt_pos : 0 < resvPortCnt

/-- The table and the `resv_port_array` of each step. -/
structure State (n : Nat) where
  ports : Ports n
  arrays : Nat → Option (List Nat)

/-- A call for a step. -/
inductive Cmd where
  | alloc (step : Nat)
  | free (step : Nat)

/-- `resv_port_step_alloc`: an array that the step still has is dropped. -/
def resvPortStepAlloc (steps : Nat → StepRec n) (s : State n) (step : Nat) : State n × Rc :=
  let r := resvPortAlloc s.ports (steps step).resvPortCnt (steps step).nodes
  ({ ports := r.1, arrays := Function.update s.arrays step r.2.2 }, r.2.1)

/-- `resv_port_step_free` -/
def resvPortStepFree (steps : Nat → StepRec n) (s : State n) (step : Nat) : State n :=
  match s.arrays step with
  | none => s
  | some array =>
    { ports := resvPortFree s.ports array (steps step).nodes
      arrays := Function.update s.arrays step none }

/-- One call. -/
def exec (steps : Nat → StepRec n) (s : State n) : Cmd → Option (State n)
  | .alloc step => some (resvPortStepAlloc steps s step).1
  | .free step => some (resvPortStepFree steps s step)

/-! ## The table of a step manager -/

/-- The functions of `hostlist.c` that ports are written and read with. -/
structure HostlistOps where
  /-- `hostlist_push_host` of each name, `hostlist_sort` and
  `hostlist_ranged_string_xmalloc_dims` without brackets. -/
  ranged : List String → String
  /-- `hostlist_create`, and the names that `hostlist_shift` gives. -/
  create : String → Option (List String)

/-- `atoi` -/
def atoi (s : String) : Int :=
  let digits (cs : List Char) : Int := Nat.ofDigitChars 10 (cs.takeWhile Char.isDigit) 0
  match s.toList.dropWhile Char.isWhitespace with
  | '-' :: cs => -digits cs
  | '+' :: cs => digits cs
  | cs => digits cs

/-- How `_rebuild_port_array` ends. -/
inductive Rebuilt where
  | ok (array : List Nat)
  | error
  | invalid
  /-- The array is written after its end. -/
  | pastEnd

/-- `_rebuild_port_array`, which makes an array of `cnt * cnt` bytes for the ports, of
four bytes each. -/
def rebuildPortArray (ops : HostlistOps) (resvPorts : String) (cnt : Nat) : Rebuilt :=
  match ops.create ("[" ++ resvPorts ++ "]") with
  | none => .error
  | some names =>
    let array := names.filterMap fun name => if 0 < atoi name then some (atoi name).toNat else none
    if cnt * cnt < 4 * array.length then .pastEnd
    else if array = [] then .invalid
    else .ok array

/-- The ports of a job. -/
structure JobPorts where
  resvPorts : Option String
  resvPortCnt : Nat
  resvPortArray : Option (List Nat)

/-- How `reserve_port_stepmgr_init` ends. -/
inductive InitResult (n : Nat) where
  | ok (s : Ports n)
  | error
  /-- The number of entries is negative. -/
  | badSize
  /-- The array is read or written after its end. -/
  | pastEnd

/-- The loop that makes the entries from `i` on, with `k` of them left and the cursor
`j` in the array.  It gives none where the array is read after its end. -/
def stepmgrLoop (n : Nat) (array : List Nat) (resvMin : Nat) :
    Nat → Nat → Nat → Option (List (Option (BitVec n)))
  | 0, _, _ => some []
  | k + 1, i, j =>
    match array[j]? with
    | none => none
    | some port =>
      if port ≠ i + resvMin then
        (stepmgrLoop n array resvMin k (i + 1) j).map (none :: ·)
      else (stepmgrLoop n array resvMin k (i + 1) (j + 1)).map (some 0 :: ·)

/-- `reserve_port_stepmgr_init` with the array in hand. -/
def stepmgrInit (s : Ports n) (array : List Nat) (cnt : Nat) : InitResult n :=
  match array[0]?, array[cnt - 1]? with
  | some pMin, some pMax =>
    if pMin = s.resvMin ∧ pMax = s.resvMax then .ok s
    else if pMax + 1 < pMin then .badSize
    else
      match stepmgrLoop n array pMin (pMax + 1 - pMin) 0 0 with
      | none => .pastEnd
      | some table =>
        .ok
          { s with
            table := table
            resvCnt := pMax + 1 - pMin
            resvMin := pMin
            resvMax := pMax }
  | _, _ => .pastEnd

/-- `reserve_port_stepmgr_init` -/
def reservePortStepmgrInit (ops : HostlistOps) (s : Ports n) (job : JobPorts) : InitResult n :=
  match job.resvPorts with
  | none => .ok { s with table := [], resvCnt := 0, resvMin := 0, resvMax := 0 }
  | some resvPorts =>
    match job.resvPortArray with
    | some array => stepmgrInit s array job.resvPortCnt
    | none =>
      match rebuildPortArray ops resvPorts job.resvPortCnt with
      | .ok array => stepmgrInit s array array.length
      | .error => .error
      | .invalid => .error
      | .pastEnd => .pastEnd

/-- What `resv_port_job_alloc` leaves in the job. -/
def grantedPorts (ops : HostlistOps) (array : List Nat) : JobPorts where
  resvPorts := some (ops.ranged (array.map toString))
  resvPortCnt := array.length
  resvPortArray := some array

end Slurm.PortMgr

/-!
## The table of reserved ports, bit by bit

`inUse table i k` is the bit of node `k` in entry `i`, and `owned table i` says that the
entry is there.

* `inUse_setAll` and `inUse_freeLoop`: what an allocation and a release do to the bits.
* `findPorts_array`: the ports that are found are the first free ones of the round.
-/

namespace Slurm.PortMgr

open List

variable {n : Nat}

/-- The port of entry `i` is one of those that may be reserved. -/
def owned (table : List (Option (BitVec n))) (i : Nat) : Bool := (nodesAt table i).isSome

/-- The port of entry `i` is in use on node `k`. -/
def inUse (table : List (Option (BitVec n))) (i k : Nat) : Bool :=
  (nodesAt table i).any (·.getLsbD k)

theorem nodesAt_modify (table : List (Option (BitVec n))) (f : BitVec n → BitVec n) (i j : Nat) :
    nodesAt (table.modify j (Option.map f)) i =
      if i = j then (nodesAt table i).map f else nodesAt table i := by
  rw [nodesAt, nodesAt, getElem?_modify]
  by_cases hij : j = i
  · rw [if_pos hij.symm]
    simp only [hij, if_true]
    rcases table[i]? with _ | _ | b <;> rfl
  · rw [if_neg fun h => hij h.symm]
    simp only [hij, if_false, id_map']

theorem owned_modify (table : List (Option (BitVec n))) (f : BitVec n → BitVec n) (i j : Nat) :
    owned (table.modify j (Option.map f)) i = owned table i := by
  rw [owned, owned, nodesAt_modify]
  split
  · exact Option.isSome_map
  · rfl

theorem inUse_setNodes (nodes : BitVec n) (table : List (Option (BitVec n))) (j i k : Nat) :
    inUse (setNodes nodes table j) i k = true ↔
      inUse table i k = true ∨ i = j ∧ owned table i = true ∧ nodes.getLsbD k = true := by
  rw [inUse, setNodes, nodesAt_modify, inUse, owned]
  by_cases hij : i = j
  · rw [if_pos hij]
    cases nodesAt table i with
    | none => simp
    | some b => simp [hij]
  · rw [if_neg hij]
    simp [hij]

theorem inUse_clearNodes (nodes : BitVec n) (table : List (Option (BitVec n))) (j i k : Nat) :
    inUse (clearNodes nodes table j) i k = true ↔
      inUse table i k = true ∧ ¬ (i = j ∧ nodes.getLsbD k = true) := by
  rw [inUse, clearNodes, nodesAt_modify, inUse]
  by_cases hij : i = j
  · rw [if_pos hij]
    cases nodesAt table i with
    | none => simp
    | some b =>
      have hlt : b.getLsbD k = true → k < n := fun h => BitVec.lt_of_getLsbD h
      simp [hij]
      tauto
  · rw [if_neg hij]
    simp [hij]

theorem isFree_iff {table : List (Option (BitVec n))} {nodes : BitVec n} {i : Nat} :
    isFree table nodes i = true ↔
      owned table i = true ∧ ∀ k, nodes.getLsbD k = true → inUse table i k = false := by
  rw [isFree, owned]
  simp only [inUse]
  cases nodesAt table i with
  | none => simp
  | some b =>
    simp only [decide_eq_true_eq, Option.isSome_some, true_and, Option.any_some]
    constructor
    · intro h k hk
      have hbit := congrArg (·.getLsbD k) h
      rw [BitVec.getLsbD_and, hk, Bool.true_and] at hbit
      exact hbit.trans BitVec.getLsbD_zero
    · intro h
      refine BitVec.eq_of_getLsbD_eq fun k _ => ?_
      rw [BitVec.getLsbD_and]
      cases hk : nodes.getLsbD k with
      | false => exact (Bool.false_and _).trans BitVec.getLsbD_zero.symm
      | true => exact (Bool.true_and _).trans ((h k hk).trans BitVec.getLsbD_zero.symm)

/-! ## Allocation -/

theorem length_setAll (nodes : BitVec n) (l : List Nat) (table : List (Option (BitVec n))) :
    (l.foldl (setNodes nodes) table).length = table.length := by
  induction l generalizing table with
  | nil => rfl
  | cons j l ih => rw [foldl_cons, ih, setNodes, length_modify]

theorem owned_setAll (nodes : BitVec n) (l : List Nat) (table : List (Option (BitVec n))) (i : Nat) :
    owned (l.foldl (setNodes nodes) table) i = owned table i := by
  induction l generalizing table with
  | nil => rfl
  | cons j l ih => rw [foldl_cons, ih, setNodes, owned_modify]

theorem inUse_setAll (nodes : BitVec n) (l : List Nat) (table : List (Option (BitVec n))) (i k : Nat) :
    inUse (l.foldl (setNodes nodes) table) i k = true ↔
      inUse table i k = true ∨ i ∈ l ∧ owned table i = true ∧ nodes.getLsbD k = true := by
  induction l generalizing table with
  | nil => simp
  | cons j l ih =>
    have howned : owned (setNodes nodes table j) i = owned table i := owned_modify _ _ _ _
    rw [foldl_cons, ih, inUse_setNodes, howned, mem_cons]
    tauto

/-- The positions that are looked at, in order. -/
def positions (s : Ports n) : List Nat :=
  List.iterate (Lib.RoundRobin.next s.resvCnt) (nextPort s.resvCnt s.lastPortAlloc) s.resvCnt

theorem positions_perm (s : Ports n) : (positions s).Perm (List.range s.resvCnt) := by
  rcases Nat.eq_zero_or_pos s.resvCnt with hzero | hpos
  · rw [positions, hzero]
    exact List.Perm.refl []
  · exact Lib.RoundRobin.iterate_next_perm (Lib.RoundRobin.next_lt hpos _)

/-- The ports that are found are the first free ones. -/
theorem findPorts_array (table : List (Option (BitVec n))) (nodes : BitVec n) (resvCnt cnt k last : Nat)
    {array : List Nat} (h : array.length < cnt) :
    (findPorts table nodes resvCnt cnt k last array).2 =
      (array ++ (List.iterate (Lib.RoundRobin.next resvCnt) (nextPort resvCnt last) k).filter
        (isFree table nodes)).take cnt := by
  induction k generalizing last array with
  | zero =>
    rw [findPorts, List.iterate, filter_nil, append_nil, take_of_length_le h.le]
  | succ k ih =>
    rw [findPorts, List.iterate]
    by_cases hfree : isFree table nodes (nextPort resvCnt last) = true
    · rw [if_neg (by rw [hfree]; exact Bool.noConfusion), filter_cons_of_pos hfree]
      split
      · rename_i hfull
        have hlen : cnt = (array ++ [nextPort resvCnt last]).length := by
          rw [length_append] at hfull ⊢
          exact le_antisymm hfull h
        rw [hlen, append_cons array _ (List.filter _ _), take_left]
      · rename_i hroom
        rw [ih _ (not_le.mp hroom), append_assoc]
        rfl
    · rw [if_pos (Bool.eq_false_iff.mpr hfree), filter_cons_of_neg hfree, ih _ h]
      rfl

/-! ## Release -/

theorem length_freeLoop (s : Ports n) (nodes : BitVec n) (i : Nat) (array : List Nat)
    (table : List (Option (BitVec n))) : (freeLoop s nodes i array table).length = table.length := by
  induction array generalizing i table with
  | nil => rfl
  | cons port array ih =>
    rw [freeLoop]
    split
    · exact ih _ _
    · split
      · exact ih _ _
      · rw [ih, clearNodes, length_modify]

theorem owned_freeLoop (s : Ports n) (nodes : BitVec n) (i : Nat) (array : List Nat)
    (table : List (Option (BitVec n))) (x : Nat) :
    owned (freeLoop s nodes i array table) x = owned table x := by
  induction array generalizing i table with
  | nil => rfl
  | cons port array ih =>
    rw [freeLoop]
    split
    · exact ih _ _
    · split
      · exact ih _ _
      · rw [ih, clearNodes, owned_modify]

/-- A bit is cleared when its port is at a position of the array whose own entry is there. -/
theorem inUse_freeLoop (s : Ports n) (nodes : BitVec n) (i : Nat) {array : List Nat}
    (hports : ∀ port ∈ array, s.resvMin ≤ port ∧ port ≤ s.resvMax)
    (table : List (Option (BitVec n))) (x k : Nat) :
    inUse (freeLoop s nodes i array table) x k = true ↔
      inUse table x k = true ∧ ¬ (nodes.getLsbD k = true ∧
        ∃ m, array[m]? = some (s.resvMin + x) ∧ owned table (i + m) = true) := by
  induction array generalizing i table with
  | nil => simp [freeLoop]
  | cons port array ih =>
    have hport := hports port mem_cons_self
    have hrest := fun q hq => hports q (mem_cons_of_mem _ hq)
    have hin : ¬ (port < s.resvMin ∨ s.resvMax < port) := by omega
    have hsplit : (∃ m, (port :: array)[m]? = some (s.resvMin + x) ∧ owned table (i + m) = true) ↔
        (port = s.resvMin + x ∧ owned table i = true) ∨
          ∃ m, array[m]? = some (s.resvMin + x) ∧ owned table (i + 1 + m) = true := by
      constructor
      · rintro ⟨m, hm, howned⟩
        cases m with
        | zero => exact Or.inl ⟨Option.some.inj hm, howned⟩
        | succ m => exact Or.inr ⟨m, hm, by rwa [Nat.add_assoc, Nat.add_comm 1 m]⟩
      · rintro (⟨hport, howned⟩ | ⟨m, hm, howned⟩)
        · exact ⟨0, congrArg some hport, howned⟩
        · exact ⟨m + 1, hm, by rwa [Nat.add_assoc, Nat.add_comm 1 m] at howned⟩
    rw [freeLoop, if_neg hin, hsplit]
    split
    · rename_i hnull
      have howned : ¬ owned table i = true := by
        rw [owned, hnull]
        exact Bool.noConfusion
      rw [ih (i + 1) hrest]
      simp only [howned, Bool.false_eq_true, and_false, false_or]
    · rename_i hthere
      have howned : owned table i = true := Option.isSome_iff_ne_none.mpr hthere
      have hkeep : ∀ y, owned (clearNodes nodes table (port - s.resvMin)) y = owned table y :=
        fun y => owned_modify _ _ _ _
      have hx : x = port - s.resvMin ↔ port = s.resvMin + x := by omega
      rw [ih (i + 1) hrest, inUse_clearNodes, hx]
      simp only [hkeep, howned, and_true]
      generalize (∃ m, array[m]? = some (s.resvMin + x) ∧ owned table (i + 1 + m) = true) = later
      by_cases hp : port = s.resvMin + x <;> by_cases hk : nodes.getLsbD k = true <;>
        simp only [hp, hk, true_and, false_and, not_true_eq_false, not_false_eq_true, and_true,
          and_false, true_or, false_or, Bool.false_eq_true]

end Slurm.PortMgr
