import Slurm.Tres.Model

/-!
# The contract of TRES strings

`tresContract` says that simple TRES strings are finite maps: a list of records comes back
from the string that is made of it, and two strings are combined id by id.

An id is from 1 to `2^31 - 1`: 0 is not a valid id, and larger ones do not fit into the `int`
that is read.  `INFINITE64` is a count that was cleared, so that a sum must stay below it where
sums are added in another order.

* `newCount_flag`: what the code does with two counts of one id.
-/

namespace Slurm.Tres

open Lib.Upsert

/-- A list of records, each with an id of its own. -/
structure TresList where
  recs : List TresRec
  distinct : (recs.map TresRec.id).Nodup
  valid : ∀ r ∈ recs, ValidId r.id

/-- A simple string in which each id occurs once. -/
structure TresString where
  text : Option (List Char)
  entries : List Entry
  distinct : (entries.map Prod.fst).Nodup
  simple : Simple text entries

/-- A map of ids to counts, where `INFINITE64` is a count that was cleared. -/
abbrev TresMap := BitVec 32 → Option (BitVec 64)

/-- The map of a string. -/
def TresString.map (s : TresString) : TresMap := fun id => s.entries.lookup id

/-- The map of a list of records. -/
def listMap (l : Option (List TresRec)) : TresMap := fun id => (entriesOf l).lookup id

/-! ## Combining maps -/

/-- How counts are combined. -/
inductive Op where
  | replace
  | sum
  | max
  | min
  deriving DecidableEq

/-- The flag for it. -/
def Op.flag : Op → BitVec 32
  | .replace => flagReplace
  | .sum => flagSum
  | .max => flagMax
  | .min => flagMin

/-- The function on numbers. -/
def Op.onNat : Op → Nat → Nat → Nat
  | .replace, _, n => n
  | .sum, m, n => m + n
  | .max, m, n => Nat.max m n
  | .min, m, n => Nat.min m n

/-- Two counts of one id: a new one replaces the old one, and otherwise one that was cleared
yields the other. -/
def Op.counts (op : Op) (x y : BitVec 64) : BitVec 64 :=
  if op = .replace then y
  else if y = infinite64 then x
  else if x = infinite64 then y
  else BitVec.ofNat 64 (op.onNat x.toNat y.toNat)

/-- Two maps, id by id. -/
def Op.maps (op : Op) (m m' : TresMap) : TresMap := fun id => Option.merge op.counts (m id) (m' id)

/-- What a count adds to a sum. -/
def weight (c : Option (BitVec 64)) : Nat :=
  match c with
  | none => 0
  | some c => if c = infinite64 then 0 else c.toNat

/-- No sum of counts is as large as `INFINITE64`. -/
def SumFits (m m' m'' : TresMap) : Prop :=
  ∀ id, weight (m id) + weight (m' id) + weight (m'' id) < infinite64.toNat

/-- The contract: a list of records comes back, where nothing is to be removed; two strings
make a string in which each id occurs once and has the combined count; and sums, maxima and
minima may be taken in any order. -/
structure TresContract (mgr : Option (List TresRec)) (l : TresList) (a b c : TresString) :
    Prop where
  round_trip : ∀ flags, has flags flagRemove = false →
    listMap (tresListFromString mgr none (makeTresString (some l.recs) flagSimple) flags) =
      listMap (some l.recs)
  combine : ∀ op : Op, ∃ s : TresString,
    combineTresStrings mgr a.text b.text op.flag = s.text ∧ s.map = op.maps a.map b.map
  comm : ∀ op : Op, op ≠ .replace → op.maps a.map b.map = op.maps b.map a.map
  assoc : ∀ op : Op, op ≠ .replace → (op = .sum → SumFits a.map b.map c.map) →
    op.maps (op.maps a.map b.map) c.map = op.maps a.map (op.maps b.map c.map)

/-! ## Counts -/

/-- What the code does with two counts of one id. -/
theorem newCount_flag (op : Op) : newCount op.flag = op.counts := by
  funext x y
  have hmax : BitVec.ofNat 64 (Nat.max x.toNat y.toNat) = if y < x then x else y := by
    split
    · rename_i h
      show BitVec.ofNat 64 (max x.toNat y.toNat) = x
      rw [Nat.max_eq_left (Nat.le_of_lt h), BitVec.ofNat_toNat, BitVec.setWidth_eq]
    · rename_i h
      show BitVec.ofNat 64 (max x.toNat y.toNat) = y
      rw [Nat.max_eq_right (Nat.le_of_not_lt h), BitVec.ofNat_toNat, BitVec.setWidth_eq]
  have hmin : BitVec.ofNat 64 (Nat.min x.toNat y.toNat) = if x < y then x else y := by
    split
    · rename_i h
      show BitVec.ofNat 64 (min x.toNat y.toNat) = x
      rw [Nat.min_eq_left (Nat.le_of_lt h), BitVec.ofNat_toNat, BitVec.setWidth_eq]
    · rename_i h
      show BitVec.ofNat 64 (min x.toNat y.toNat) = y
      rw [Nat.min_eq_right (Nat.le_of_not_lt h), BitVec.ofNat_toNat, BitVec.setWidth_eq]
  have hsum : BitVec.ofNat 64 (x.toNat + y.toNat) = x + y := by
    rw [BitVec.ofNat_add, BitVec.ofNat_toNat, BitVec.ofNat_toNat, BitVec.setWidth_eq,
      BitVec.setWidth_eq]
  by_cases hy : y = infinite64
  · cases op <;> simp [newCount, Op.flag, Op.counts, has, flagReplace, flagSum, flagMax, flagMin, hy]
  · cases op with
    | replace => simp [newCount, Op.flag, Op.counts, has, flagReplace]
    | sum =>
      simp [newCount, Op.flag, Op.counts, Op.onNat, has, flagReplace, flagSum, hy, hsum]
    | max =>
      simp [newCount, Op.flag, Op.counts, Op.onNat, has, flagReplace, flagSum, flagMax, hy, ← hmax]
    | min =>
      simp [newCount, Op.flag, Op.counts, Op.onNat, has, flagReplace, flagSum, flagMax, flagMin, hy,
        ← hmin]

variable {op : Op}

theorem onNat_comm (hop : op ≠ .replace) (m n : Nat) : op.onNat m n = op.onNat n m := by
  cases op with
  | replace => exact absurd rfl hop
  | sum => exact Nat.add_comm m n
  | max => exact Nat.max_comm m n
  | min => exact Nat.min_comm m n

theorem counts_comm (hop : op ≠ .replace) (x y : BitVec 64) : op.counts x y = op.counts y x := by
  unfold Op.counts
  rw [if_neg hop, if_neg hop, onNat_comm hop]
  by_cases hx : x = infinite64
  · by_cases hy : y = infinite64
    · rw [hx, hy]
    · simp [hx, hy]
  · by_cases hy : y = infinite64
    · simp [hx, hy]
    · simp [hx, hy]

theorem onNat_assoc (hop : op ≠ .replace) (m n k : Nat) :
    op.onNat (op.onNat m n) k = op.onNat m (op.onNat n k) := by
  cases op with
  | replace => exact absurd rfl hop
  | sum => exact Nat.add_assoc m n k
  | max => exact Nat.max_assoc m n k
  | min => exact Nat.min_assoc m n k

/-- A count that is combined of counts that were not cleared, and fits. -/
theorem counts_eq (hop : op ≠ .replace) {x y : BitVec 64} (hx : x ≠ infinite64)
    (hy : y ≠ infinite64) (hfit : op = .sum → x.toNat + y.toNat < infinite64.toNat) :
    op.counts x y ≠ infinite64 ∧ (op.counts x y).toNat = op.onNat x.toNat y.toNat := by
  have hinf : infinite64.toNat = 2 ^ 64 - 1 := rfl
  have hbelow : ∀ z : BitVec 64, z ≠ infinite64 → z.toNat < 2 ^ 64 - 1 := by
    intro z hz
    have hne : z.toNat ≠ infinite64.toNat := fun heq => hz (BitVec.eq_of_toNat_eq heq)
    have := z.isLt
    omega
  have hx' := hbelow x hx
  have hy' := hbelow y hy
  have hlt : op.onNat x.toNat y.toNat < 2 ^ 64 - 1 := by
    cases op with
    | replace => exact absurd rfl hop
    | sum => exact hinf ▸ hfit rfl
    | max => exact Nat.max_lt.mpr ⟨hx', hy'⟩
    | min => exact Nat.lt_of_le_of_lt (Nat.min_le_left _ _) hx'
  have hcounts : op.counts x y = BitVec.ofNat 64 (op.onNat x.toNat y.toNat) := by
    unfold Op.counts
    rw [if_neg hop, if_neg hy, if_neg hx]
  have hnat : (op.counts x y).toNat = op.onNat x.toNat y.toNat := by
    rw [hcounts, BitVec.toNat_ofNat, Nat.mod_eq_of_lt (by omega)]
  refine ⟨?_, hnat⟩
  intro heq
  rw [heq, hinf] at hnat
  omega

theorem counts_cleared_left (hop : op ≠ .replace) (y : BitVec 64) : op.counts infinite64 y = y := by
  unfold Op.counts
  rw [if_neg hop, if_pos rfl]
  split
  · rename_i h
    exact h.symm
  · rfl

theorem counts_cleared_right (hop : op ≠ .replace) (x : BitVec 64) :
    op.counts x infinite64 = x := by
  rw [counts_comm hop, counts_cleared_left hop]

theorem counts_assoc (hop : op ≠ .replace) (x y z : BitVec 64) (hfit : op = .sum →
      weight (some x) + weight (some y) + weight (some z) < infinite64.toNat) :
    op.counts (op.counts x y) z = op.counts x (op.counts y z) := by
  by_cases hx : x = infinite64
  · rw [hx, counts_cleared_left hop, counts_cleared_left hop]
  by_cases hy : y = infinite64
  · rw [hy, counts_cleared_left hop, counts_cleared_right hop]
  by_cases hz : z = infinite64
  · rw [hz, counts_cleared_right hop, counts_cleared_right hop]
  have hfit' : op = .sum → x.toNat + y.toNat + z.toNat < infinite64.toNat := by
    intro hsum
    have h := hfit hsum
    simp only [weight, if_neg hx, if_neg hy, if_neg hz] at h
    exact h
  obtain ⟨hxy, hxy'⟩ := counts_eq hop hx hy fun h => by
    have := hfit' h
    omega
  obtain ⟨hyz, hyz'⟩ := counts_eq hop hy hz fun h => by
    have := hfit' h
    omega
  apply BitVec.eq_of_toNat_eq
  rw [(counts_eq hop hxy hz _).2, (counts_eq hop hx hyz _).2, hxy', hyz', onNat_assoc hop]
  · intro h
    rw [hyz', h]
    have := hfit' h
    show x.toNat + (y.toNat + z.toNat) < _
    omega
  · intro h
    rw [hxy', h]
    exact hfit' h

/-! ## Maps -/

theorem maps_comm (hop : op ≠ .replace) (m m' : TresMap) : op.maps m m' = op.maps m' m := by
  funext id
  unfold Op.maps
  cases m id with
  | none => simp
  | some x =>
    cases m' id with
    | none => simp
    | some y => simp [counts_comm hop x y]

theorem maps_assoc (hop : op ≠ .replace) (m m' m'' : TresMap)
    (hfit : op = .sum → SumFits m m' m'') :
    op.maps (op.maps m m') m'' = op.maps m (op.maps m' m'') := by
  funext id
  unfold Op.maps
  have hid := fun h => hfit h id
  cases hx : m id with
  | none => simp
  | some x =>
    cases hy : m' id with
    | none => simp
    | some y =>
      cases hz : m'' id with
      | none => simp
      | some z =>
        rw [hx, hy, hz] at hid
        simp [counts_assoc hop x y z hid]

/-! ## Strings -/

/-- The ids of a string are valid. -/
theorem valid_of_simple {t : Option (List Char)} {es : List Entry} (h : Simple t es) :
    ∀ e ∈ es, ValidId e.1 := by
  cases h with
  | null => simp
  | blank => simp
  | plain h => exact h.valid
  | comma h => exact h.valid

/-- Two strings are combined into one in which each id occurs once. -/
theorem combineTresStrings_spec (mgr : Option (List TresRec)) (a b : TresString) (op : Op) :
    ∃ s : TresString,
      combineTresStrings mgr a.text b.text op.flag = s.text ∧ s.map = op.maps a.map b.map := by
  have hflags : has op.flag flagRemove = false ∧ has op.flag flagOnlyConcat = false ∧
      has op.flag flagNoNull = false ∧ has op.flag (flagComma1 ||| flagOnlyConcat) = false ∧
      has (op.flag ||| flagSimple) flagSimple = true ∧
      has (op.flag ||| flagSimple) flagRemove = false ∧
      has (op.flag ||| flagSimple) flagComma1 = false := by
    cases op <;> decide
  obtain ⟨hremove, honly, hnull, hcomma, hsimple, hremove', hcomma'⟩ := hflags
  have hconcat := simple_concatTres hcomma a.simple b.simple
  let l := tresListFromString mgr none (concatTres a.text b.text op.flag) op.flag
  have hperm : (entriesOf l).Perm (b.entries.foldl (upsert op.counts) a.entries) := by
    have h := perm_tresListFromString mgr hconcat hremove
    rwa [newCount_flag, List.foldl_append, foldl_upsert_nil _ _ a.distinct] at h
  have hdistinct := nodup_foldl_upsert op.counts b.entries a.distinct
  have hdistinct' : ((entriesOf l).map Prod.fst).Nodup := (hperm.map Prod.fst).nodup_iff.mpr hdistinct
  have hvalid : ∀ e ∈ entriesOf l, ValidId e.1 := by
    intro e he
    have hkey := (hperm.map Prod.fst).mem_iff.mp (List.mem_map_of_mem he)
    rw [← lookup_isSome_iff_mem, lookup_foldl_upsert _ _ _ b.distinct, Option.isSome_merge,
      Bool.or_eq_true, lookup_isSome_iff_mem, lookup_isSome_iff_mem] at hkey
    rcases hkey with hkey | hkey
    · obtain ⟨e', he', heq⟩ := List.mem_map.mp hkey
      exact heq ▸ valid_of_simple a.simple e' he'
    · obtain ⟨e', he', heq⟩ := List.mem_map.mp hkey
      exact heq ▸ valid_of_simple b.simple e' he'
  refine ⟨⟨makeTresString l (op.flag ||| flagSimple), entriesOf l, hdistinct',
    simple_makeTresString hsimple hremove' hcomma' hvalid⟩, ?_, ?_⟩
  · simp [combineTresStrings, honly, hnull, l]
  · funext id
    exact (lookup_perm hperm hdistinct' id).trans (lookup_foldl_upsert _ _ _ b.distinct id)

/-- A list of records comes back from its string. -/
theorem listMap_makeTresString (mgr : Option (List TresRec)) (l : TresList) {flags : BitVec 32}
    (hremove : has flags flagRemove = false) :
    listMap (tresListFromString mgr none (makeTresString (some l.recs) flagSimple) flags) =
      listMap (some l.recs) := by
  have hvalid : ∀ e ∈ entriesOf (some l.recs), ValidId e.1 := by
    intro e he
    obtain ⟨r, hr, rfl⟩ := List.mem_map.mp he
    exact l.valid r hr
  have hdistinct : ((entriesOf (some l.recs)).map Prod.fst).Nodup := by
    unfold entriesOf
    rw [List.map_map]
    exact l.distinct
  have htext : Simple (makeTresString (some l.recs) flagSimple) (entriesOf (some l.recs)) :=
    simple_makeTresString (by decide) (by decide) (by decide) hvalid
  have hperm := perm_tresListFromString mgr htext hremove
  rw [foldl_upsert_nil _ _ hdistinct] at hperm
  funext id
  exact (lookup_perm hperm.symm hdistinct id).symm

/-- Simple TRES strings are finite maps. -/
theorem tresContract (mgr : Option (List TresRec)) (l : TresList) (a b c : TresString) :
    TresContract mgr l a b c where
  round_trip _ hremove := listMap_makeTresString mgr l hremove
  combine op := combineTresStrings_spec mgr a b op
  comm _ hop := maps_comm hop a.map b.map
  assoc _ hop hfit := maps_assoc hop a.map b.map c.map hfit

/-- The id 0 does not come back.  A sum that is `INFINITE64` fits into 64 bits, but counts as
cleared when the next count is added. -/
theorem not_tresContract_zero :
    ¬ (∀ l : List TresRec, (l.map TresRec.id).Nodup →
        listMap (tresListFromString none none (makeTresString (some l) flagSimple) 0) =
          listMap (some l)) ∧
    ¬ (∀ x y z : BitVec 64, x.toNat + y.toNat + z.toNat < 2 ^ 64 →
        Op.sum.counts (Op.sum.counts x y) z = Op.sum.counts x (Op.sum.counts y z)) := by
  constructor
  · intro h
    have hlist := congrFun (h [⟨5, 0, none, none⟩] (by decide)) 0
    have htext : makeTresString (some [⟨5, 0, none, none⟩]) flagSimple = some ['0', '=', '5'] := by
      decide +kernel
    have hid : tresId none ['0', '=', '5'] = some 0 := by
      decide +kernel
    have hloop : readLoop none 0 ['0', '=', '5'] ⟨none, 0⟩ = ⟨none, 0⟩ := by
      rw [readLoop, hid]
      rfl
    have hread : tresListFromString none none (some ['0', '=', '5']) 0 = none := by
      unfold tresListFromString
      simp only [show ('0' = ',') = False from eq_false (by decide), if_false, hloop]
      rfl
    rw [htext, hread] at hlist
    cases hlist
  · intro h
    exact absurd (h (infinite64 - 1) 1 0 (by decide)) (by decide)

end Slurm.Tres
