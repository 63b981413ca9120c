import Slurm.Licenses.Model

/-!
# Ids of the license list

* `setIds_*`: what `_set_license_ids` gives out when the ids do not run out, and
  `setIds_fits`, that they have not run out when no entry ends up without an id.
* `Merged`: the new list of `license_update` while the old local entries are walked.
  Ids go to first matches only, so no two entries of one record get one.
* `mem_updateList`: the new list as a whole, local entries before remote ones.
-/

namespace Slurm.Licenses

open Lib.FirstMatch List

variable {e m : License} {l new old : List License}

/-! ## Setting ids -/

/-- The entry has no id yet. -/
def noId (e : License) : Bool := decide (e.licId = noVal16)

/-- The number of ids that `_set_license_ids` takes. -/
def idsMissing (l : List License) : Nat := l.countP noId

theorem ne_noVal16 {id : UInt16} (h : id.toNat < 65534) : id ≠ noVal16 := by
  rintro rfl
  exact absurd h (by decide)

theorem toNat_succ {n : UInt16} (h : n.toNat < 65535) : (n + 1).toNat = n.toNat + 1 := by
  rw [UInt16.toNat_add, show (1 : UInt16).toNat = 1 from rfl, Nat.mod_eq_of_lt (by omega)]

theorem idsMissing_cons_none (h : e.licId = noVal16) (es : List License) :
    idsMissing (e :: es) = idsMissing es + 1 :=
  countP_cons_of_pos (decide_eq_true h)

theorem idsMissing_cons_some (h : e.licId ≠ noVal16) (es : List License) :
    idsMissing (e :: es) = idsMissing es :=
  countP_cons_of_neg (by rw [noId, decide_eq_false h]; exact Bool.false_ne_true)

theorem setIds_next (l : List License) (next : UInt16) :
    (setIds l next).2.toNat = (next.toNat + idsMissing l) % 65536 := by
  induction l generalizing next with
  | nil => exact (Nat.mod_eq_of_lt next.toNat_lt).symm
  | cons e es ih =>
    rw [setIds]
    split
    · rename_i hid
      rw [ih, idsMissing_cons_none hid, UInt16.toNat_add, show (1 : UInt16).toNat = 1 from rfl]
      omega
    · rename_i hid
      rw [ih, idsMissing_cons_some hid]

/-- What is not the id stays. -/
theorem setIds_map {β : Type} {g : License → β} (hg : ∀ e id, g { e with licId := id } = g e)
    (l : List License) (next : UInt16) : (setIds l next).1.map g = l.map g := by
  induction l generalizing next with
  | nil => rfl
  | cons e es ih =>
    rw [setIds]
    split
    · rw [map_cons, map_cons, ih, hg]
    · rw [map_cons, map_cons, ih]

/-- An entry that has an id is kept. -/
theorem mem_setIds_of_mem (h : e ∈ l) (hid : e.licId ≠ noVal16) (next : UInt16) :
    e ∈ (setIds l next).1 := by
  induction l generalizing next with
  | nil => exact absurd h not_mem_nil
  | cons x xs ih =>
    rw [setIds]
    rcases List.mem_cons.mp h with rfl | h
    · rw [if_neg hid]
      exact mem_cons_self
    · split <;> exact mem_cons_of_mem _ (ih h _)

/-- An entry has the id it had, or one of those given out. -/
theorem mem_setIds {next : UInt16} (hfits : next.toNat + idsMissing l ≤ 65534)
    (h : e ∈ (setIds l next).1) :
    (e ∈ l ∧ e.licId ≠ noVal16) ∨
      next.toNat ≤ e.licId.toNat ∧ e.licId.toNat < next.toNat + idsMissing l := by
  induction l generalizing next with
  | nil => exact absurd h not_mem_nil
  | cons x xs ih =>
    rw [setIds] at h
    split at h
    · rename_i hid
      rw [idsMissing_cons_none hid] at hfits ⊢
      have hsucc := toNat_succ (n := next) (by omega)
      rcases List.mem_cons.mp h with rfl | h
      · exact Or.inr ⟨Nat.le_refl _, by show next.toNat < _; omega⟩
      · rcases ih (by omega) h with ⟨hmem, hne⟩ | hgiven
        · exact Or.inl ⟨mem_cons_of_mem _ hmem, hne⟩
        · exact Or.inr (by omega)
    · rename_i hid
      rw [idsMissing_cons_some hid] at hfits ⊢
      rcases List.mem_cons.mp h with rfl | h
      · exact Or.inl ⟨mem_cons_self, hid⟩
      · rcases ih hfits h with ⟨hmem, hne⟩ | hgiven
        · exact Or.inl ⟨mem_cons_of_mem _ hmem, hne⟩
        · exact Or.inr hgiven

/-- The ids in use, of a list that is still to get some. -/
structure IdsBelow (l : List License) (next : UInt16) : Prop where
  lt : ∀ e ∈ l, e.licId ≠ noVal16 → e.licId.toNat < next.toNat
  nodup : l.Pairwise fun a b => a.licId ≠ noVal16 → b.licId ≠ noVal16 → a.licId ≠ b.licId

theorem setIds_nodup {next : UInt16} (h : IdsBelow l next)
    (hfits : next.toNat + idsMissing l ≤ 65534) : ((setIds l next).1.map License.licId).Nodup := by
  induction l generalizing next with
  | nil => exact nodup_nil
  | cons x xs ih =>
    have hlt : ∀ e ∈ xs, e.licId ≠ noVal16 → e.licId.toNat < next.toNat := fun e he =>
      h.lt e (mem_cons_of_mem _ he)
    obtain ⟨hx, hxs⟩ := List.pairwise_cons.mp h.nodup
    rw [setIds]
    split
    · rename_i hid
      rw [idsMissing_cons_none hid] at hfits
      have hsucc := toNat_succ (n := next) (by omega)
      have hbelow : IdsBelow xs (next + 1) :=
        ⟨fun e he hne => by have := hlt e he hne; omega, hxs⟩
      refine List.nodup_cons.mpr ⟨fun hmem => ?_, ih hbelow (by omega)⟩
      obtain ⟨e, he, heq⟩ := List.mem_map.mp hmem
      rcases mem_setIds (by omega) he with ⟨hmem, hne⟩ | hgiven
      · have hlt' := hlt e hmem hne
        rw [heq] at hlt'
        exact Nat.lt_irrefl _ hlt'
      · rw [heq] at hgiven
        have hle : (next + 1).toNat ≤ next.toNat := hgiven.1
        omega
    · rename_i hid
      rw [idsMissing_cons_some hid] at hfits
      refine List.nodup_cons.mpr ⟨fun hmem => ?_, ih ⟨hlt, hxs⟩ hfits⟩
      obtain ⟨e, he, heq⟩ := List.mem_map.mp hmem
      rcases mem_setIds hfits he with ⟨hmem, hne⟩ | hgiven
      · exact hx e hmem hid hne heq.symm
      · have hlt' := h.lt x mem_cons_self hid
        rw [heq] at hgiven
        omega

/-- The ids did not run out when the counter did not wrap and no entry is without one. -/
theorem setIds_fits {l : List License} {next : UInt16} (hnext : next.toNat ≤ 65534)
    (hwrap : next.toNat + idsMissing l ≤ 65535)
    (hids : ∀ e ∈ (setIds l next).1, e.licId ≠ noVal16) : next.toNat + idsMissing l ≤ 65534 := by
  induction l generalizing next with
  | nil => exact hnext
  | cons x xs ih =>
    rw [setIds] at hids
    split at hids
    · rename_i hid
      rw [idsMissing_cons_none hid] at hwrap ⊢
      have hne : next ≠ noVal16 := hids _ mem_cons_self
      have hlt : next.toNat ≠ 65534 := fun heq => hne (UInt16.toNat_inj.mp heq)
      have hsucc := toNat_succ (n := next) (by omega)
      have hrest := @ih (next + 1) (by omega) (by omega)
        fun e he => hids e (mem_cons_of_mem _ he)
      omega
    · rename_i hid
      rw [idsMissing_cons_some hid] at hwrap ⊢
      exact ih hnext hwrap fun e he => hids e (mem_cons_of_mem _ he)

/-! ## The new list of `license_update` -/

/-- The ids of an old entry are copied to a new one. -/
def copyIds (e m : License) : License := { m with licId := e.licId, hresId := e.hresId }

/-- The new list after some local entries of the old one. -/
def mergeLocals (new old : List License) : List License :=
  old.foldl (fun l e => modifyFirst (sameRec e) (copyIds e) l) new

theorem mergeLocals_append (new old : List License) (e : License) :
    mergeLocals new (old ++ [e])
      = modifyFirst (sameRec e) (copyIds e) (mergeLocals new old) := by
  rw [mergeLocals, foldl_append]
  rfl

theorem sameRec_iff : sameRec e m = true ↔ m.name = e.name ∧ m.nodes = e.nodes :=
  decide_eq_true_iff

/-- The new list has its ids from the old entries, and only the first entry of a name
and nodes has one. -/
structure Merged (new old l : List License) : Prop where
  recs : l.map (fun m => (m.name, m.nodes, m.remote)) = new.map fun m => (m.name, m.nodes, m.remote)
  source : ∀ m ∈ l, m.licId ≠ noVal16 → ∃ e ∈ old, sameRec e m = true ∧ e.licId = m.licId
  nodup : l.Pairwise fun a b => a.licId ≠ noVal16 → b.licId ≠ noVal16 → a.licId ≠ b.licId
  first : l.Pairwise fun a b => b.licId ≠ noVal16 → sameRec b a = false

theorem mergeLocals_merged (hnew : ∀ m ∈ new, m.licId = noVal16)
    (hids : (old.map License.licId).Nodup) : Merged new old (mergeLocals new old) := by
  induction old using List.reverseRecOn with
  | nil =>
    have hnone : ∀ m ∈ new, ¬ m.licId ≠ noVal16 := fun m hm hne => hne (hnew m hm)
    exact
      { recs := rfl
        source := fun m hm hne => absurd hne (hnone m hm)
        nodup := List.Pairwise.imp_of_mem (fun ha _ _ hne => absurd hne (hnone _ ha))
          (pairwise_of_forall fun _ _ => trivial)
        first := List.Pairwise.imp_of_mem (fun _ hb _ hne => absurd hne (hnone _ hb))
          (pairwise_of_forall fun _ _ => trivial) }
  | append_singleton old e ih =>
    rw [map_append, map_singleton, nodup_append] at hids
    obtain ⟨hold, -, hfresh⟩ := hids
    have hprev := ih hold
    rw [mergeLocals_append]
    have hsource : ∀ m ∈ mergeLocals new old, m.licId ≠ noVal16 →
        ∃ e' ∈ old ++ [e], sameRec e' m = true ∧ e'.licId = m.licId := by
      intro m hm hne
      obtain ⟨e', he', hsame⟩ := hprev.source m hm hne
      exact ⟨e', mem_append_left _ he', hsame⟩
    have hother : ∀ m ∈ mergeLocals new old, m.licId ≠ noVal16 → m.licId ≠ e.licId := by
      intro m hm hne heq
      obtain ⟨e', he', -, hid⟩ := hprev.source m hm hne
      exact hfresh _ (mem_map_of_mem he') _ (mem_singleton_self _) (hid.trans heq)
    have hrecs := map_modifyFirst (p := sameRec e) (f := copyIds e)
      (g := fun m => (m.name, m.nodes, m.remote)) (fun _ _ => rfl) (mergeLocals new old)
    rcases modifyFirst_cases (sameRec e) (copyIds e) (mergeLocals new old) with
      ⟨-, heq⟩ | ⟨l₁, a, l₂, hl, ha, hbefore, heq⟩
    · exact
        { recs := hrecs.trans hprev.recs
          source := by rw [heq]; exact hsource
          nodup := by rw [heq]; exact hprev.nodup
          first := by rw [heq]; exact hprev.first }
    · have hnodup := hprev.nodup
      have hfirst := hprev.first
      rw [hl] at hnodup hfirst hsource hother
      rw [pairwise_append, pairwise_cons] at hnodup hfirst
      obtain ⟨hn₁, ⟨hna, hn₂⟩, hn₁₂⟩ := hnodup
      obtain ⟨hf₁, ⟨hfa, hf₂⟩, hf₁₂⟩ := hfirst
      have hmem₁ : ∀ b ∈ l₁, b ∈ l₁ ++ a :: l₂ := fun b hb => mem_append_left _ hb
      have hmem₂ : ∀ b ∈ l₂, b ∈ l₁ ++ a :: l₂ := fun b hb =>
        mem_append_right _ (mem_cons_of_mem _ hb)
      refine { recs := hrecs.trans hprev.recs, source := ?_, nodup := ?_, first := ?_ }
      · intro m hm hne
        rcases mem_modifyFirst hm with hm | ⟨b, -, hb, rfl⟩
        · rw [hl] at hm
          exact hsource m hm hne
        · exact ⟨e, mem_append_right _ (mem_singleton_self _), hb, rfl⟩
      · rw [heq, pairwise_append, pairwise_cons]
        refine ⟨hn₁, ⟨fun b hb _ hne heq' => hother b (hmem₂ b hb) hne heq'.symm, hn₂⟩, ?_⟩
        intro b hb c hc hbne hcne
        rcases List.mem_cons.mp hc with rfl | hc
        · exact hother b (hmem₁ b hb) hbne
        · exact hn₁₂ b hb c (mem_cons_of_mem _ hc) hbne hcne
      · -- The entry that gets the id is the first one of its name and nodes.
        rw [heq, pairwise_append, pairwise_cons]
        refine ⟨hf₁, ⟨fun b hb hne => hfa b hb hne, hf₂⟩, ?_⟩
        intro b hb c hc hne
        rcases List.mem_cons.mp hc with rfl | hc
        · refine Bool.eq_false_iff.mpr fun hsame => ?_
          have hba := hbefore b hb
          rw [sameRec_iff] at hsame ha
          rw [sameRec, decide_eq_false_iff_not] at hba
          exact hba ⟨hsame.1.trans ha.1, hsame.2.trans ha.2⟩
        · exact hf₁₂ b hb c (mem_cons_of_mem _ hc) hne

/-- A record that is in the new list. -/
def Matched (new : List License) (e : License) : Prop := ∃ m ∈ new, sameRec e m = true

instance (new : List License) (e : License) : Decidable (Matched new e) :=
  inferInstanceAs (Decidable (∃ m ∈ new, sameRec e m = true))

theorem Merged.matched (h : Merged new old l) (hm : m ∈ l) (hsame : sameRec e m = true) :
    Matched new e := by
  have hmem : (m.name, m.nodes, m.remote) ∈ new.map fun m => (m.name, m.nodes, m.remote) := by
    rw [← h.recs]
    exact mem_map_of_mem (f := fun m : License => (m.name, m.nodes, m.remote)) hm
  obtain ⟨m', hm', heq⟩ := List.mem_map.mp hmem
  simp only [Prod.mk.injEq] at heq
  rw [sameRec_iff] at hsame
  exact ⟨m', hm', sameRec_iff.mpr ⟨heq.1.trans hsame.1, heq.2.1.trans hsame.2⟩⟩

/-- The entries of one record among those that are matched. -/
def Apart (new old : List License) : Prop :=
  (old.filter fun e => decide (Matched new e)).Pairwise fun a b => sameRec a b = false

/-- Where no two old entries match one record, each gives its id to a new entry. -/
theorem mergeLocals_kept (hnew : ∀ m ∈ new, m.licId = noVal16)
    (hids : (old.map License.licId).Nodup) (hapart : Apart new old) :
    ∀ e ∈ old, Matched new e →
      ∃ m ∈ mergeLocals new old, sameRec e m = true ∧ m.licId = e.licId := by
  induction old using List.reverseRecOn with
  | nil => exact fun e he => absurd he not_mem_nil
  | append_singleton old e ih =>
    rw [map_append, map_singleton, nodup_append] at hids
    rw [Apart, filter_append, pairwise_append] at hapart
    have hprev := mergeLocals_merged hnew hids.1
    rw [mergeLocals_append]
    intro e' he' hmatched
    rcases List.mem_append.mp he' with he' | he'
    · obtain ⟨m, hm, hsame, hid⟩ := ih hids.1 hapart.1 e' he' hmatched
      refine ⟨m, mem_modifyFirst_of_mem hm (Bool.eq_false_iff.mpr fun hsame' => ?_), hsame, hid⟩
      -- Otherwise `e` and `e'` are two entries of one record that is matched.
      have hmatched' := hprev.matched hm hsame'
      have hdiff := hapart.2.2 e' (List.mem_filter.mpr ⟨he', decide_eq_true hmatched⟩) e
        (List.mem_filter.mpr ⟨mem_singleton_self e, decide_eq_true hmatched'⟩)
      rw [sameRec_iff] at hsame hsame'
      rw [sameRec, decide_eq_false_iff_not] at hdiff
      exact hdiff ⟨hsame'.1.symm.trans hsame.1, hsame'.2.symm.trans hsame.2⟩
    · obtain rfl := List.mem_singleton.mp he'
      cases hfind : (mergeLocals new old).find? (sameRec e') with
      | some m =>
        have hsame : sameRec e' m = true := find?_some hfind
        exact ⟨copyIds e' m, find?_modifyFirst_some hfind, hsame, rfl⟩
      | none =>
        obtain ⟨m, hm, hsame⟩ := hmatched
        have hmem : (m.name, m.nodes, m.remote) ∈ (mergeLocals new old).map fun m =>
            (m.name, m.nodes, m.remote) := by
          rw [hprev.recs]
          exact mem_map_of_mem (f := fun m : License => (m.name, m.nodes, m.remote)) hm
        obtain ⟨m', hm', heq⟩ := List.mem_map.mp hmem
        simp only [Prod.mk.injEq] at heq
        rw [sameRec_iff] at hsame
        have hsame' : sameRec e' m' = true :=
          sameRec_iff.mpr ⟨heq.1.trans hsame.1, heq.2.1.trans hsame.2⟩
        exact absurd hsame' (List.find?_eq_none.mp hfind m' hm')

/-- Two entries that give their ids to one record are one entry. -/
theorem Merged.unique (h : Merged new old l) {a b : License} (ha : a ∈ l) (hb : b ∈ l)
    (hane : a.licId ≠ noVal16) (hbne : b.licId ≠ noVal16) (hsame : sameRec a b = true) : a = b := by
  obtain ⟨l₁, l₂, rfl⟩ := append_of_mem ha
  have hfirst := h.first
  rw [pairwise_append, pairwise_cons] at hfirst
  rcases List.mem_append.mp hb with hb | hb
  · have hdiff := hfirst.2.2 b hb a mem_cons_self hane
    exact absurd (hdiff.symm.trans hsame) Bool.false_ne_true
  · rcases List.mem_cons.mp hb with rfl | hb
    · rfl
    · have hdiff := hfirst.2.1.1 b hb hbne
      rw [sameRec, decide_eq_false_iff_not] at hdiff
      rw [sameRec_iff] at hsame
      exact absurd ⟨hsame.1.symm, hsame.2.symm⟩ hdiff

/-- The entries of the configuration. -/
def confList (conf : Config) : List License := (conf.map (List.map ConfEntry.license)).getD []

theorem confList_licId {conf : Config} (h : m ∈ confList conf) :
    m.licId = noVal16 ∧ m.remote = .no := by
  cases conf with
  | none => exact absurd h not_mem_nil
  | some l =>
    obtain ⟨c, -, rfl⟩ := List.mem_map.mp h
    exact ⟨rfl, rfl⟩

theorem updateEntry_local {newList : Option (List License)} (h : e.remote = .no) :
    updateEntry newList e = newList.map (modifyFirst (sameRec e) (copyIds e)) :=
  if_neg (not_not.mpr h)

theorem foldl_updateEntry_locals {locals : List License} (h : ∀ e ∈ locals, e.remote = .no)
    (newList : Option (List License)) :
    (locals.foldl updateEntry newList).getD [] = mergeLocals (newList.getD []) locals := by
  induction locals generalizing newList with
  | nil => rfl
  | cons e es ih =>
    rw [foldl_cons, ih fun x hx => h x (mem_cons_of_mem _ hx),
      updateEntry_local (h e mem_cons_self), mergeLocals, mergeLocals, foldl_cons]
    cases newList <;> rfl

theorem foldl_updateEntry_remotes {remotes : List License} (h : ∀ e ∈ remotes, e.remote ≠ .no)
    (newList : Option (List License)) :
    (remotes.foldl updateEntry newList).getD []
      = newList.getD [] ++ remotes.map fun e => { e with used := 0 } := by
  induction remotes generalizing newList with
  | nil => rw [map_nil, append_nil]; rfl
  | cons e es ih =>
    rw [foldl_cons, ih fun x hx => h x (mem_cons_of_mem _ hx), updateEntry,
      if_pos (h e mem_cons_self), Option.getD_some, map_cons, append_assoc]
    rfl

/-- Local entries before remote ones. -/
def LocalsFirst (l : List License) : Prop := l.Pairwise fun a b => a.remote ≠ .no → b.remote ≠ .no

/-- The local entries. -/
def localRecs (l : List License) : List License := l.filter fun e => decide (e.remote = .no)

/-- The remote entries. -/
def remoteRecs (l : List License) : List License := l.filter fun e => decide (e.remote ≠ .no)

theorem LocalsFirst.eq_append (h : LocalsFirst l) : l = localRecs l ++ remoteRecs l := by
  induction l with
  | nil => rfl
  | cons e es ih =>
    obtain ⟨he, hes⟩ := List.pairwise_cons.mp h
    rw [localRecs, remoteRecs]
    by_cases hremote : e.remote = .no
    · rw [filter_cons_of_pos (by rw [decide_eq_true hremote]),
        filter_cons_of_neg (by rw [decide_eq_false (not_not.mpr hremote)]; exact Bool.false_ne_true),
        cons_append]
      exact congrArg (e :: ·) (ih hes)
    · have hall : ∀ x ∈ es, x.remote ≠ .no := fun x hx => he x hx hremote
      rw [filter_cons_of_neg (by rw [decide_eq_false hremote]; exact Bool.false_ne_true),
        filter_cons_of_pos (by rw [decide_eq_true hremote]),
        List.filter_eq_nil_iff.mpr fun x hx => by rw [decide_eq_false (hall x hx)]; exact Bool.false_ne_true,
        List.filter_eq_self.mpr fun x hx => decide_eq_true (hall x hx), nil_append]

/-- The new list: what became of the configuration, and the remote entries. -/
theorem updateList_getD (conf : Config) (h : LocalsFirst old) :
    (updateList conf old).getD []
      = mergeLocals (confList conf) (localRecs old)
        ++ (remoteRecs old).map fun e => { e with used := 0 } := by
  have hlocals : ∀ e ∈ localRecs old, e.remote = .no := fun e he =>
    of_decide_eq_true (List.mem_filter.mp he).2
  have hremotes : ∀ e ∈ remoteRecs old, e.remote ≠ .no := fun e he =>
    of_decide_eq_true (List.mem_filter.mp he).2
  conv_lhs => rw [h.eq_append]
  rw [updateList, foldl_append, foldl_updateEntry_remotes hremotes,
    foldl_updateEntry_locals hlocals]
  rfl

end Slurm.Licenses
