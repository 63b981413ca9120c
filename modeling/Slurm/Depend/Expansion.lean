import Slurm.Depend.Requests
import Slurm.Bitstring.RangeGrammar

/-!
# Lists of tasks in requests

A list of tasks is first written out, one job for each task (`_xlate_array_dep`); what is
written for the job behind the list is then behind the last of its tasks.

* `unfmtTasks_list`: the tasks that `bit_unfmt` finds in a list.
* `xlate_ref`, `xlate_item`: a job with a list, and an item, written out.
* `xlate_items`: the request that is left to read.
-/

namespace Slurm.ArrayDepend

open List

open Slurm.Depend (DependType noVal u32 strtol xlateLoop xlateArrayDep dependTypeText)
open Lib.Decimal (IsNumber value)
open Lib.RangeList (read Denotes)
open Slurm.Bitstring (ValidSize bitAlloc bitUnfmt)

variable {text : List Char} {sep : Char}

/-! ## Lists of tasks -/

/-- The tasks that a list names, in order, of those that an array may have. -/
def listed (size : Nat) (text : List Char) : List Nat :=
  (List.range size).filter fun t => ((read text).getD []).any fun r => r.1 ≤ t && t ≤ r.2

/-- `bit_unfmt` into as many bits as an array may have: the bits that are set. -/
def unfmtTasks (size : Nat) (h : ValidSize size) (text : List Char) : Option (List Nat) :=
  match bitUnfmt (bitAlloc size h) (some text) with
  | some (0, b) => some ((List.range size).filter b.bit)
  | _ => none

/-- A list of ranges of tasks, which names one. -/
structure IsTasks (size : Nat) (text : List Char) : Prop where
  ranges : ∃ rs, read text = some rs ∧ ∀ r ∈ rs, r.1 < size ∧ r.2 < size
  some_task : listed size text ≠ []

theorem IsTasks.ne_nil {size : Nat} (h : IsTasks size text) : text ≠ [] := by
  intro hnil
  apply h.some_task
  obtain ⟨rs, hread, -⟩ := h.ranges
  rw [hnil] at hread ⊢
  unfold listed
  rw [hread, Lib.RangeList.read_nil hread]
  simp

/-- No character of a list closes it. -/
theorem IsTasks.not_close {size : Nat} (h : IsTasks size text) : ']' ∉ text := by
  obtain ⟨rs, hread, -⟩ := h.ranges
  obtain ⟨pieces, -, htext, hpieces⟩ := Lib.RangeList.read_eq_some hread h.ne_nil
  intro hmem
  rw [htext] at hmem
  rcases Slurm.Bitstring.mem_intercalate hmem with hc | ⟨p, hp, hc⟩
  · exact absurd hc (by decide)
  · obtain ⟨i, hi, rfl⟩ := getElem_of_mem hp
    have hpiece := hpieces.get hi (hpieces.length_eq ▸ hi)
    rcases (Slurm.Bitstring.readPiece_chars hpiece).2 _ hc with hc | hc
    · exact absurd hc (by decide)
    · exact absurd hc (by decide)

/-- The tasks that are found are those that are named. -/
theorem unfmtTasks_list {size : Nat} (hsize : ValidSize size) (h : IsTasks size text)
    (hshort : text.length + 1 < 2 ^ 30) : unfmtTasks size hsize text = some (listed size text) := by
  obtain ⟨rs, hread, hbounds⟩ := h.ranges
  obtain ⟨b, hlist, -, hbits⟩ := Slurm.Bitstring.inx2bitstr_list (b := bitAlloc size hsize) hbounds
  have hunfmt : bitUnfmt (bitAlloc size hsize) (some text) = some (0, b) := by
    rw [Slurm.Bitstring.bitUnfmt_list hread h.ne_nil, if_neg (by omega), hlist]
  have hbit : ∀ t ∈ List.range size, b.bit t = rs.any fun r => r.1 ≤ t && t ≤ r.2 := by
    intro t ht
    have hiff := hbits t (List.mem_range.mp ht)
    unfold Denotes at hiff
    rw [Bool.eq_iff_iff, hiff]
    simp
  unfold unfmtTasks listed
  simp only [hunfmt, hread, Option.getD_some, filter_congr hbit]

/-! ## Writing lists out -/

section Expansion

variable {unfmt : List Char → Option (List Nat)}

/-- Characters that are passed over. -/
theorem xlateLoop_skip (unfmt : List Char → Option (List Nat)) (s rest : List Char)
    (jobidPtr : Option (List Char)) (out : List Char) :
    xlateLoop unfmt (s ++ rest) s.length jobidPtr out = xlateLoop unfmt rest 0 jobidPtr out := by
  induction s with
  | nil => rfl
  | cons c s ih =>
    rw [cons_append, length_cons, xlateLoop]
    exact ih

/-- A character that is no digit, and starts no list. -/
theorem xlateLoop_char {c : Char} (hc : c.isDigit = false) {rest : List Char}
    (hrest : c = '_' → rest.head? ≠ some '[') (jobidPtr : Option (List Char)) (out : List Char) :
    xlateLoop unfmt (c :: rest) 0 jobidPtr out = xlateLoop unfmt rest 0 none (out ++ [c]) := by
  have hnone : ∀ p text, jobidPtr = some p → c = '_' → rest = '[' :: text → False := by
    intro p text _ hunder htext
    rw [htext] at hrest
    exact hrest hunder rfl
  rw [xlateLoop, hc]
  · simp
  · exact hnone

/-- A digit: the place where a number starts is kept. -/
theorem xlateLoop_digit {c : Char} (hc : c.isDigit = true) (rest : List Char)
    (jobidPtr : Option (List Char)) (out : List Char) :
    xlateLoop unfmt (c :: rest) 0 jobidPtr out =
      xlateLoop unfmt rest 0 (some (jobidPtr.getD (c :: rest))) (out ++ [c]) := by
  rw [xlateLoop, if_pos hc]
  intro p text _ hunder
  rw [hunder] at hc
  exact absurd hc (by decide)

theorem xlateLoop_number {ds : List Char} (hds : IsNumber ds) (rest out : List Char) :
    xlateLoop unfmt (ds ++ rest) 0 none out =
      xlateLoop unfmt rest 0 (some (ds ++ rest)) (out ++ ds) := by
  obtain ⟨hne, hdigits⟩ := hds
  have hcopy : ∀ (ds : List Char), (∀ c ∈ ds, c.isDigit = true) → ∀ (p out : List Char),
      xlateLoop unfmt (ds ++ rest) 0 (some p) out =
        xlateLoop unfmt rest 0 (some p) (out ++ ds) := by
    intro ds
    induction ds with
    | nil => simp
    | cons c ds ih =>
      intro hdigits p out
      rw [cons_append, xlateLoop_digit (hdigits c mem_cons_self), Option.getD_some,
        ih fun d hd => hdigits d (mem_cons_of_mem c hd)]
      simp
  obtain ⟨c, ds, rfl⟩ := exists_cons_of_ne_nil hne
  rw [cons_append, xlateLoop_digit (hdigits c mem_cons_self),
    hcopy ds fun d hd => hdigits d (mem_cons_of_mem c hd)]
  simp

/-- A text without lists is copied. -/
theorem xlateLoop_copy (unfmt : List Char → Option (List Nat)) {s : List Char} (hs : '[' ∉ s)
    {rest : List Char} (hrest : rest.head? ≠ some '[') (jobidPtr : Option (List Char))
    (out : List Char) :
    ∃ p, xlateLoop unfmt (s ++ rest) 0 jobidPtr out = xlateLoop unfmt rest 0 p (out ++ s) := by
  induction s generalizing jobidPtr out with
  | nil => exact ⟨jobidPtr, by simp⟩
  | cons c s ih =>
    have hs' : '[' ∉ s := fun hmem => hs (mem_cons_of_mem c hmem)
    have hhead : (s ++ rest).head? ≠ some '[' := by
      cases s with
      | nil => exact hrest
      | cons d s =>
        intro heq
        have hd : d = '[' := by simpa using heq
        exact hs' (hd ▸ mem_cons_self)
    cases hc : c.isDigit with
    | true =>
      obtain ⟨p, hcopy⟩ := ih hs' (some (jobidPtr.getD (c :: (s ++ rest)))) (out ++ [c])
      refine ⟨p, ?_⟩
      rw [cons_append, xlateLoop_digit hc, hcopy]
      simp
    | false =>
      obtain ⟨p, hcopy⟩ := ih hs' none (out ++ [c])
      refine ⟨p, ?_⟩
      rw [cons_append, xlateLoop_char hc (fun _ => hhead), hcopy]
      simp

/-- Nothing changes in a text in which no list starts. -/
theorem xlateLoop_plain {s : List Char} (hs : ¬ ['_', '['] <:+: s) (jobidPtr : Option (List Char))
    (out : List Char) : xlateLoop unfmt s 0 jobidPtr out = some (out ++ s) := by
  induction s generalizing jobidPtr out with
  | nil => simp [xlateLoop]
  | cons c s ih =>
    have hs' : ¬ ['_', '['] <:+: s := fun hin => hs (infix_cons hin)
    have hhead : c = '_' → s.head? ≠ some '[' := by
      intro hc heq
      obtain ⟨t, rfl⟩ : ∃ t, s = '[' :: t := List.head?_eq_some_iff.mp heq
      exact hs ⟨[], t, by simp [hc]⟩
    cases hc : c.isDigit with
    | true =>
      rw [xlateLoop_digit hc, ih hs']
      simp
    | false =>
      rw [xlateLoop_char hc hhead, ih hs']
      simp

/-- The text that is left to read. -/
theorem xlateArrayDep_getD {s t : List Char} (h : xlateLoop unfmt s 0 none [] = some t) :
    (xlateArrayDep unfmt s).getD s = t := by
  unfold xlateArrayDep
  split
  · rw [h]
    rfl
  · rename_i hplain
    rw [xlateLoop_plain hplain, nil_append] at h
    exact Option.some.inj h

/-- A list of tasks of a job. -/
theorem xlateLoop_list {text rest : List Char} {t : Nat} {ts : List Nat}
    (hunfmt : unfmt text = some (t :: ts)) (hclose : ']' ∉ text) (p out : List Char) :
    xlateLoop unfmt ('_' :: '[' :: (text ++ ']' :: rest)) 0 (some p) out =
      xlateLoop unfmt rest 0 none (out ++ ['_'] ++ (toString t).toList ++
        ts.flatMap fun t =>
          ':' :: (toString (u32 (strtol p).1)).toList ++ '_' :: (toString t).toList) := by
  have hother : ∀ c ∈ text, decide (c ≠ ']') = true := by
    intro c hc
    simpa using fun heq : c = ']' => hclose (heq ▸ hc)
  have htake : (text ++ ']' :: rest).takeWhile (· ≠ ']') = text := by
    rw [takeWhile_append_of_pos hother]
    simp
  have hskip := xlateLoop_skip unfmt ('[' :: (text ++ [']'])) rest none
    (out ++ ['_'] ++ (toString t).toList ++
      ts.flatMap fun t =>
        ':' :: (toString (u32 (strtol p).1)).toList ++ '_' :: (toString t).toList)
  have hlength : ('[' :: (text ++ [']'])).length = text.length + 2 := by simp
  rw [hlength, cons_append, append_assoc, singleton_append] at hskip
  rw [xlateLoop, if_neg (by decide)]
  simp only [htake, hunfmt, mem_append, mem_cons, true_or, or_true, not_true_eq_false,
    if_false]
  rw [← hskip]
  rfl

end Expansion

/-! ## Jobs written out -/

/-- The task of a job is written in the documented form. -/
def Task.Written (size : Nat) : Task → Prop
  | .none => True
  | .all => True
  | .one digits => IsNumber digits ∧ value digits < noVal
  | .list text => IsTasks size text

/-- The jobs that a job stands for: one for each task of a list. -/
def Ref.standsFor (size : Nat) (r : Ref) : List Ref :=
  match r.task with
  | .list text => (listed size text).map fun t => { r with task := .one (toString t).toList }
  | _ => [r]

/-- The jobs that are written in its place.  The number of the job is written anew for all but the
first. -/
def Ref.rewritten (size : Nat) (r : Ref) : List Ref :=
  match r.task with
  | .list text =>
    match listed size text with
    | [] => []
    | t :: ts =>
      { r with task := .one (toString t).toList } :: ts.map fun t =>
        { r with job := (toString (value r.job)).toList, task := .one (toString t).toList }
  | _ => [r]

/-- A job with a list of several tasks has neither minutes nor a state: they would be those of the
last task. -/
def Ref.Single (size : Nat) (r : Ref) : Prop :=
  ∀ text, r.task = .list text → 1 < (listed size text).length → r.minutes = none ∧ r.state = none

theorem toList_toString (n : Nat) : (toString n).toList = Nat.toDigits 10 n := Nat.toList_repr

theorem value_toString (n : Nat) : value (toString n).toList = n := by
  rw [toList_toString, Lib.RangeList.value_toDigits]

theorem isNumber_toString (n : Nat) : IsNumber (toString n).toList := by
  rw [toList_toString]
  exact Lib.RangeList.isNumber_toDigits n

variable {r : Ref}

/-- What does not look at how the number of a job is written is the same for both. -/
theorem map_rewritten {β : Type} {f : Ref → β} {size : Nat}
    (hf : ∀ r job, value job = value r.job → f { r with job := job } = f r) :
    (r.rewritten size).map f = (r.standsFor size).map f := by
  unfold Ref.rewritten Ref.standsFor
  cases r.task with
  | list text =>
    cases hlisted : listed size text with
    | nil => simp [hlisted]
    | cons t ts =>
      simp only [hlisted, map_cons, map_map, List.cons.injEq, true_and]
      apply map_congr_left
      intro u _
      exact hf { r with task := .one (toString u).toList } _ (value_toString _)
  | _ => rfl

/-- The jobs written out are those that are named. -/
theorem mem_rewritten {size : Nat} {x : Ref} (hr : IsNumber r.job) (hx : x ∈ r.rewritten size) :
    ∃ y ∈ r.standsFor size, y.job = r.job ∧ x = { y with job := x.job } ∧ IsNumber x.job ∧
      value x.job = value r.job := by
  unfold Ref.rewritten at hx
  unfold Ref.standsFor
  split at hx
  · split at hx
    · exact absurd hx not_mem_nil
    · rename_i t ts hlisted
      simp only [hlisted, mem_map]
      rcases List.mem_cons.mp hx with rfl | hmem
      · exact ⟨_, ⟨t, mem_cons_self, rfl⟩, rfl, rfl, hr, rfl⟩
      · obtain ⟨u, hu, rfl⟩ := List.mem_map.mp hmem
        exact ⟨_, ⟨u, mem_cons_of_mem t hu, rfl⟩, rfl, rfl, isNumber_toString _,
          value_toString _⟩
  · rw [mem_singleton] at hx
    subst hx
    exact ⟨x, mem_singleton_self x, rfl, rfl, hr, rfl⟩

theorem rewritten_ne_nil {size : Nat} (hr : r.task.Written size) : r.rewritten size ≠ [] := by
  unfold Ref.rewritten
  split
  · rename_i text htask
    rw [htask] at hr
    split
    · rename_i hnil
      exact absurd hnil hr.some_task
    · exact cons_ne_nil _ _
  · exact cons_ne_nil _ _

theorem not_bracket_of_digit {ds : List Char} (h : IsNumber ds) : '[' ∉ ds := by
  intro hmem
  exact absurd (h.2 _ hmem) (by decide)

theorem not_bracket_behind (hr : r.Valid) : '[' ∉ minutesText r.minutes ++ stateText r.state := by
  rw [mem_append, not_or]
  constructor
  · cases hminutes : r.minutes with
    | none => simp [minutesText]
    | some ds => simpa [minutesText] using not_bracket_of_digit (hr.minutes ds hminutes).1
  · cases hstate : r.state with
    | none => simp [stateText]
    | some w =>
      have hword := hr.state w hstate
      have hnot : '[' ∉ w := fun hmem => absurd (hword _ hmem) (by decide)
      simpa [stateText] using hnot

theorem not_bracket_text {r : Ref} (hr : r.Valid) (htask : '[' ∉ taskText r.task) :
    '[' ∉ r.text := by
  have hbehind := not_bracket_behind hr
  have hjob := not_bracket_of_digit hr.job.1
  unfold Ref.text
  simp only [mem_append, not_or] at hbehind ⊢
  exact ⟨⟨⟨hjob, htask⟩, hbehind.1⟩, hbehind.2⟩

section Rewriting

variable {size : Nat} (hsize : ValidSize size)

/-- The jobs behind each other that are written in the place of one. -/
theorem xlate_ref {r : Ref} (hr : r.Valid) (hwritten : r.task.Written size) (hsingle : r.Single size)
    (hshort : r.text.length < 2 ^ 30) {rest : List Char} (hrest : rest.head? ≠ some '[')
    (jobidPtr : Option (List Char)) (out : List Char) :
    ∃ p, xlateLoop (unfmtTasks size hsize) (':' :: (r.text ++ rest)) 0 jobidPtr out =
      xlateLoop (unfmtTasks size hsize) rest 0 p
        (out ++ (r.rewritten size).flatMap fun x => ':' :: x.text) := by
  have hcopy : ∀ task, r.task = task → '[' ∉ taskText task → r.rewritten size = [r] →
      ∃ p, xlateLoop (unfmtTasks size hsize) (':' :: (r.text ++ rest)) 0 jobidPtr out =
        xlateLoop (unfmtTasks size hsize) rest 0 p
          (out ++ (r.rewritten size).flatMap fun x => ':' :: x.text) := by
    intro task htask hplain heq
    have hnot : '[' ∉ ':' :: r.text := by
      simpa using not_bracket_text hr (htask ▸ hplain)
    rw [heq]
    simpa using xlateLoop_copy _ hnot hrest jobidPtr out
  cases htask : r.task with
  | none => exact hcopy _ htask (by simp [taskText]) (by simp [Ref.rewritten, htask])
  | all => exact hcopy _ htask (by simp [taskText]) (by simp [Ref.rewritten, htask])
  | one digits =>
    rw [htask] at hwritten
    have hdigits := not_bracket_of_digit hwritten.1
    exact hcopy _ htask (by simpa [taskText] using hdigits) (by simp [Ref.rewritten, htask])
  | list text =>
    rw [htask] at hwritten
    obtain ⟨t, ts, hlisted⟩ := exists_cons_of_ne_nil hwritten.some_task
    have htext : r.text = r.job ++ '_' :: '[' :: (text ++ ']' ::
        (minutesText r.minutes ++ stateText r.state)) := by
      unfold Ref.text
      rw [htask]
      simp [taskText]
    have hlen : text.length + 1 < 2 ^ 30 := by
      rw [htext] at hshort
      simp only [length_append, length_cons] at hshort
      omega
    have hunfmt := unfmtTasks_list hsize hwritten hlen
    rw [hlisted] at hunfmt
    obtain ⟨hjob, -, hsmall⟩ := hr.job
    have hnumber : u32 (strtol (r.job ++ '_' :: '[' :: (text ++ ']' ::
        (minutesText r.minutes ++ stateText r.state ++ rest)))).1 = value r.job := by
      rw [strtol_number _ hjob (Lib.Scanf.noDigitHead_cons _ rfl) (by omega), u32_natCast hsmall]
    obtain ⟨p, hbehind⟩ := xlateLoop_copy (unfmtTasks size hsize) (not_bracket_behind hr)
      hrest none (out ++ [':'] ++ r.job ++ ['_'] ++ (toString t).toList ++
        ts.flatMap fun t => ':' :: (toString (value r.job)).toList ++ '_' :: (toString t).toList)
    refine ⟨p, ?_⟩
    rw [htext, xlateLoop_char (by decide) (fun h => absurd h (by decide))]
    simp only [append_assoc, cons_append] at hnumber hbehind ⊢
    rw [xlateLoop_number hjob, xlateLoop_list hunfmt hwritten.not_close, hnumber]
    simp only [append_assoc, cons_append] at hbehind ⊢
    rw [hbehind]
    congr 1
    unfold Ref.rewritten
    simp only [htask, hlisted]
    cases ts with
    | nil => simp [Ref.text, taskText]
    | cons u us =>
      obtain ⟨hminutes, hstate⟩ := hsingle text htask (by simp [hlisted])
      simp [Ref.text, taskText, hminutes, hstate, minutesText, stateText, flatMap_map]

/-- Jobs of an item are written out. -/
theorem xlate_refs {refs : List Ref} (hwritten : ∀ r ∈ refs, r.Valid ∧ r.task.Written size)
    (hsingle : ∀ r ∈ refs, r.Single size) (hshort : ∀ r ∈ refs, r.text.length < 2 ^ 30)
    {rest : List Char} (hrest : rest.head? ≠ some '[') (jobidPtr : Option (List Char))
    (out : List Char) :
    ∃ p, xlateLoop (unfmtTasks size hsize) ((refs.flatMap fun r => ':' :: r.text) ++ rest) 0
        jobidPtr out =
      xlateLoop (unfmtTasks size hsize) rest 0 p
        (out ++ (refs.flatMap (Ref.rewritten size)).flatMap fun x => ':' :: x.text) := by
  induction refs generalizing jobidPtr out with
  | nil => exact ⟨jobidPtr, by simp⟩
  | cons r refs ih =>
    obtain ⟨hwritten₁, hwritten₂⟩ := List.forall_mem_cons.mp hwritten
    obtain ⟨hsingle₁, hsingle₂⟩ := List.forall_mem_cons.mp hsingle
    obtain ⟨hshort₁, hshort₂⟩ := List.forall_mem_cons.mp hshort
    have hhead : ((refs.flatMap fun r => ':' :: r.text) ++ rest).head? ≠ some '[' := by
      cases refs with
      | nil => exact hrest
      | cons r refs => simp
    obtain ⟨p, hone⟩ := xlate_ref hsize hwritten₁.1 hwritten₁.2 hsingle₁ hshort₁ hhead
      jobidPtr out
    obtain ⟨p', hmore⟩ := ih hwritten₂ hsingle₂ hshort₂ p
      (out ++ (r.rewritten size).flatMap fun x => ':' :: x.text)
    refine ⟨p', ?_⟩
    rw [flatMap_cons, cons_append, cons_append, append_assoc, hone, hmore,
      flatMap_cons, flatMap_append, append_assoc]

/-- An item is written in the documented form. -/
def Item.Written (size : Nat) : Item → Prop
  | .jobs type first more =>
    type ≠ .singleton ∧ ∀ r ∈ first :: more, r.Valid ∧ r.task.Written size
  | .singleton state => ∀ w, state = some w → IsWord w

/-- The jobs of an item, as they are written. -/
def Item.refs : Item → List Ref
  | .jobs _ first more => first :: more
  | .singleton _ => []

/-- The item that is written in the place of one. -/
def Item.rewritten (size : Nat) : Item → Item
  | .jobs type first more =>
    match (first :: more).flatMap (Ref.rewritten size) with
    | [] => .jobs type first more
    | first :: more => .jobs type first more
  | .singleton state => .singleton state

theorem rewritten_jobs (type : DependType) {first : Ref} (more : List Ref)
    (h : first.task.Written size) :
    ∃ x xs, (first :: more).flatMap (Ref.rewritten size) = x :: xs ∧
      Item.rewritten size (.jobs type first more) = .jobs type x xs := by
  obtain ⟨x, xs, hrefs⟩ := exists_cons_of_ne_nil
    (l := (first :: more).flatMap (Ref.rewritten size)) (by simp [rewritten_ne_nil h])
  exact ⟨x, xs, hrefs, by simp only [Item.rewritten, hrefs]⟩

theorem text_jobs (type : DependType) (first : Ref) (more : List Ref) :
    Item.text (.jobs type first more) =
      dependTypeText type ++ (first :: more).flatMap fun r => ':' :: r.text := by
  rw [flatMap_cons, cons_append]
  rfl

theorem not_bracket_typeText (type : DependType) : '[' ∉ dependTypeText type := by
  unfold dependTypeText
  cases type <;> simp

/-- An item is written out. -/
theorem xlate_item {i : Item} (hi : i.Written size) (hsingle : ∀ r ∈ i.refs, r.Single size)
    (hshort : ∀ r ∈ i.refs, r.text.length < 2 ^ 30) {rest : List Char}
    (hrest : rest.head? ≠ some '[') (jobidPtr : Option (List Char)) (out : List Char) :
    ∃ p, xlateLoop (unfmtTasks size hsize) (i.text ++ rest) 0 jobidPtr out =
      xlateLoop (unfmtTasks size hsize) rest 0 p (out ++ (i.rewritten size).text) := by
  cases i with
  | jobs type first more =>
    obtain ⟨-, hwritten⟩ := hi
    obtain ⟨x, xs, hrefs, hitem⟩ := rewritten_jobs type more
      (hwritten first mem_cons_self).2
    have hhead : (((first :: more).flatMap fun r => ':' :: r.text) ++ rest).head? ≠ some '[' := by
      simp
    obtain ⟨p, htype⟩ := xlateLoop_copy (unfmtTasks size hsize) (not_bracket_typeText type)
      hhead jobidPtr out
    obtain ⟨p', hjobs⟩ := xlate_refs hsize hwritten hsingle hshort hrest p
      (out ++ dependTypeText type)
    refine ⟨p', ?_⟩
    rw [hitem, text_jobs, text_jobs, append_assoc, htype, hjobs, hrefs, append_assoc]
  | singleton state =>
    have hnot : '[' ∉ Item.text (.singleton state) := by
      unfold Item.text
      cases state with
      | none => simp [stateText]
      | some w =>
        have hword : '[' ∉ w := fun hmem => absurd (hi w rfl _ hmem) (by decide)
        simpa [stateText] using hword
    exact xlateLoop_copy _ hnot hrest jobidPtr out

theorem xlate_more (hsep : IsSep sep) {items : List Item} (hwritten : ∀ i ∈ items, i.Written size)
    (hsingle : ∀ i ∈ items, ∀ r ∈ i.refs, r.Single size)
    (hshort : ∀ i ∈ items, ∀ r ∈ i.refs, r.text.length < 2 ^ 30) (jobidPtr : Option (List Char))
    (out : List Char) :
    xlateLoop (unfmtTasks size hsize) (items.flatMap fun i => sep :: i.text) 0 jobidPtr out =
      some (out ++ (items.map (Item.rewritten size)).flatMap fun i => sep :: i.text) := by
  induction items generalizing jobidPtr out with
  | nil => simp [xlateLoop]
  | cons i items ih =>
    obtain ⟨hwritten₁, hwritten₂⟩ := List.forall_mem_cons.mp hwritten
    obtain ⟨hsingle₁, hsingle₂⟩ := List.forall_mem_cons.mp hsingle
    obtain ⟨hshort₁, hshort₂⟩ := List.forall_mem_cons.mp hshort
    have hchar : sep.isDigit = false ∧ sep ≠ '_' ∧ sep ≠ '[' := by
      rcases hsep with rfl | rfl <;> decide
    have hhead : (items.flatMap fun i => sep :: i.text).head? ≠ some '[' := by
      cases items with
      | nil => simp
      | cons i items => simpa using hchar.2.2
    obtain ⟨p, hone⟩ := xlate_item hsize hwritten₁ hsingle₁ hshort₁ hhead none
      (out ++ [sep])
    rw [flatMap_cons, cons_append, xlateLoop_char hchar.1 fun h => absurd h hchar.2.1,
      hone, ih hwritten₂ hsingle₂ hshort₂]
    simp

/-- The lists of a request are written out. -/
theorem xlate_items (hsep : IsSep sep) {first : Item} {more : List Item}
    (hwritten : ∀ i ∈ first :: more, i.Written size)
    (hsingle : ∀ i ∈ first :: more, ∀ r ∈ i.refs, r.Single size)
    (hshort : ∀ i ∈ first :: more, ∀ r ∈ i.refs, r.text.length < 2 ^ 30) :
    (xlateArrayDep (unfmtTasks size hsize) (itemsText sep first more)).getD
        (itemsText sep first more) =
      itemsText sep (first.rewritten size) (more.map (Item.rewritten size)) := by
  obtain ⟨hwritten₁, hwritten₂⟩ := List.forall_mem_cons.mp hwritten
  obtain ⟨hsingle₁, hsingle₂⟩ := List.forall_mem_cons.mp hsingle
  obtain ⟨hshort₁, hshort₂⟩ := List.forall_mem_cons.mp hshort
  have hhead : (more.flatMap fun i => sep :: i.text).head? ≠ some '[' := by
    cases more with
    | nil => simp
    | cons i more => rcases hsep with rfl | rfl <;> simp
  obtain ⟨p, hone⟩ := xlate_item hsize hwritten₁ hsingle₁ hshort₁ hhead none []
  apply xlateArrayDep_getD
  unfold itemsText
  rw [hone, xlate_more hsize hsep hwritten₂ hsingle₂ hshort₂, nil_append]

/-- No job is longer than the request. -/
theorem length_ref_le {first i : Item} {more : List Item} (hi : i ∈ first :: more)
    (hr : r ∈ i.refs) : r.text.length ≤ (itemsText sep first more).length := by
  have hitem : i.text.length ≤ (itemsText sep first more).length := by
    unfold itemsText
    rcases List.mem_cons.mp hi with rfl | hi
    · simp
    · have hsub := (sublist_flatten_of_mem
        (mem_map_of_mem (f := fun i => sep :: i.text) hi)).length_le
      rw [← flatMap_def, length_cons] at hsub
      rw [length_append]
      omega
  refine le_trans ?_ hitem
  cases i with
  | singleton state => exact absurd hr not_mem_nil
  | jobs type first more =>
    have hmem : r ∈ first :: more := hr
    have hsub := (sublist_flatten_of_mem
      (mem_map_of_mem (f := fun r : Ref => ':' :: r.text) hmem)).length_le
    rw [← flatMap_def, length_cons] at hsub
    rw [text_jobs, length_append]
    omega

end Rewriting

end Slurm.ArrayDepend
