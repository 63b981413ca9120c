import Slurm.Xahash.Model

/-!
# Insertions and frees (`common/xahash.c`)

* `place_spec`, `unlink_spec`: the place that an insertion takes in a chain, and what a free
  leaves of a chain.
* `insert_spec`, `free_spec`: the operations keep the invariant and do what they do to the map.
-/

namespace Slurm.Xahash

open Lib.Buckets Option

variable {κ β σ α χ : Type} [DecidableEq χ] {p : Client κ β σ χ} {t : Table β σ}
variable {chain : List (Fentry β)} {key : κ} {fe : Fentry β}

/-! ## Insertions -/

theorem liveOf_eq_self (h : ∀ fe ∈ chain, fe.set = true) : liveOf chain = chain :=
  List.filter_eq_self.mpr h

/-- An entry is appended to entries that are all set. -/
theorem appendFentry_spec (f : Funcs κ β σ) (fresh : Nat) (hne : chain ≠ [])
    (h : ∀ fe ∈ chain, fe.set = true) :
    appendFentry f fresh chain = (chain ++ [initFentry f fresh], chain.length, fresh + 1) := by
  induction chain with
  | nil => exact absurd rfl hne
  | cons fe rest ih =>
    have hset : (!fe.set) = false := by
      rw [h fe List.mem_cons_self]
      rfl
    rw [appendFentry, hset, if_neg Bool.false_ne_true]
    cases rest with
    | nil => rfl
    | cons fe' rest =>
      have hrest := ih (List.cons_ne_nil fe' rest) fun e he => h e (List.mem_cons_of_mem fe he)
      simp [hrest]

/-- The place of a new entry: the head that is not set, or behind the chain. -/
theorem place_spec (f : Funcs κ β σ) (fresh : Nat) (h : ChainOk chain) :
    ∃ A fe B fresh', placeFentry f fresh chain = (A ++ fe :: B, A.length, fresh') ∧
      liveOf chain = A ++ B ∧ (∀ e ∈ A ++ B, e.set = true) ∧
      (A = [] ∧ chain = fe :: B ∧ fe.set = false ∧ fresh' = fresh ∨
        A = chain ∧ B = [] ∧ fe = initFentry f fresh ∧ fresh' = fresh + 1 ∧
          chain.head?.any (·.set) = true) := by
  obtain ⟨head, rest, rfl, hrest⟩ := h
  by_cases hset : head.set = true
  · have hall : ∀ fe ∈ head :: rest, fe.set = true := by
      intro fe hfe
      rcases List.mem_cons.mp hfe with rfl | hfe
      · exact hset
      · exact hrest fe hfe
    have hany : (head :: rest).head?.any (·.set) = true := by
      simpa using hset
    refine ⟨head :: rest, _, [], _, ?_, ?_, ?_, Or.inr ⟨rfl, rfl, rfl, rfl, hany⟩⟩
    · rw [placeFentry, if_pos hany]
      exact appendFentry_spec f fresh (List.cons_ne_nil head rest) hall
    · rw [List.append_nil]
      exact liveOf_eq_self hall
    · rw [List.append_nil]
      exact hall
  · have hfalse : head.set = false := by simpa using hset
    refine ⟨[], head, rest, fresh, ?_, ?_, hrest, Or.inl ⟨rfl, rfl, hfalse, rfl⟩⟩
    · rw [placeFentry, if_neg (by simp [hfalse])]
      rfl
    · show liveOf (head :: rest) = rest
      rw [liveOf, List.filter_cons_of_neg hset]
      exact liveOf_eq_self hrest

theorem ChainOk.of_all (hne : chain ≠ []) (h : ∀ fe ∈ chain, fe.set = true) : ChainOk chain := by
  cases chain with
  | nil => exact absurd rfl hne
  | cons head rest => exact ⟨head, rest, rfl, fun fe hfe => h fe (List.mem_cons_of_mem head hfe)⟩

/-- The entries of a chain are at home there, each class once. -/
theorem Inv.live_chain (h : Inv p t) {i : Nat} (hget : t.slots[i]? = some chain) :
    (∀ fe ∈ liveOf chain, home p (p.classOf fe) = i) ∧ ((liveOf chain).map p.classOf).Nodup := by
  have hlive : (t.slots.map liveOf)[i]? = some (liveOf chain) := by
    rw [List.getElem?_map, hget]
    rfl
  exact ⟨h.placed.home_eq i _ hlive, h.placed.nodup i _ hlive⟩

/-- An insertion of a key that is there changes nothing. -/
theorem insert_present (h : Inv p t) (hfe : toMap p t (p.keyClass key) = some fe) :
    insertEntry p.funcs t key = { ret := some fe.addr, table := t, calls := [] } := by
  rw [insertEntry, findFixedEntry, h.find_eq, hfe]

/-- An insertion of a key that is not there puts one entry into the table. -/
theorem insert_absent (h : Inv p t) (hnone : toMap p t (p.keyClass key) = none) :
    ∃ fe, (insertEntry p.funcs t key).ret = some fe.addr ∧
      (insertEntry p.funcs t key).calls = [.onInsert fe.addr key] ∧
      p.classOf fe = p.keyClass key ∧ Inv p (insertEntry p.funcs t key).table ∧
      (live (insertEntry p.funcs t key).table).Perm (fe :: live t) ∧
      ∀ head rest, chainOf p.funcs t key = head :: rest → head.set = false →
        fe.addr = head.addr ∧ (insertEntry p.funcs t key).table.fresh = t.fresh := by
  obtain ⟨hindex, hget, hok⟩ := h.chain key
  obtain ⟨A, e, B, fresh, hplace, hlive, hall, hwhere⟩ := place_spec p.funcs t.fresh hok
  let fe : Fentry β :=
    { e with set := true, blob := (p.onInsert e.blob key t.state).1 }
  have hclass : p.classOf fe = p.keyClass key := p.insert_class e.blob key t.state
  have hinsert : insertEntry p.funcs t key =
      { ret := some fe.addr
        table := { slots := t.slots.set (home p (p.keyClass key)) (A ++ fe :: B)
                   state := (p.onInsert e.blob key t.state).2, fresh := fresh }
        calls := [.onInsert fe.addr key] } := by
    have hchain : getFentry t (home p (p.keyClass key)) = chainOf p.funcs t key := by
      rw [chainOf, hindex]
    rw [insertEntry, findFixedEntry, h.find_eq, hnone]
    simp only [hindex, hchain, hplace]
    rw [List.getElem?_append_right (Nat.le_refl _), Nat.sub_self, List.getElem?_cons_zero]
    simp only [callOnInsert, p.onInsert_eq]
    rw [List.set_append_right _ _ (Nat.le_refl _), Nat.sub_self, List.set_cons_zero]
  have hall' : ∀ x ∈ A ++ fe :: B, x.set = true := by
    intro x hx
    rcases List.mem_append.mp hx with hx | hx
    · exact hall x (List.mem_append_left _ hx)
    · rcases List.mem_cons.mp hx with rfl | hx
      · rfl
      · exact hall x (List.mem_append_right _ hx)
  have hperm : (A ++ fe :: B).Perm (fe :: liveOf (chainOf p.funcs t key)) := by
    rw [hlive]
    exact List.perm_middle
  obtain ⟨hhome, hnodup⟩ := h.live_chain hget
  have hnew : p.keyClass key ∉ (liveOf (chainOf p.funcs t key)).map p.classOf := by
    rw [← find?_eq_none]
    have hbucket : (t.slots.map liveOf)[home p (p.keyClass key)]? =
        some (liveOf (chainOf p.funcs t key)) := by
      rw [List.getElem?_map, hget]
      rfl
    rw [h.placed.find?_home hbucket]
    exact hnone
  have hinv : Inv p (insertEntry p.funcs t key).table := by
    rw [hinsert]
    refine h.set_chain hget (ChainOk.of_all (by simp) hall') ?_ ?_ ?_ ?_ _
    · rw [liveOf_eq_self hall']
      intro x hx
      rcases List.mem_cons.mp (hperm.mem_iff.mp hx) with rfl | hx
      · rw [hclass]
      · exact hhome x hx
    · rw [liveOf_eq_self hall', (hperm.map p.classOf).nodup_iff, List.map_cons, List.nodup_cons,
        hclass]
      exact ⟨hnew, hnodup⟩
    · rcases hwhere with ⟨-, -, -, rfl⟩ | ⟨-, -, -, rfl, -⟩ <;> omega
    · intro rest hrest
      have hold := (hrest.map Fentry.addr).nodup_iff.mpr h.addrs
      have hlt : ∀ x ∈ chainOf p.funcs t key ++ rest, x.addr < t.fresh := fun x hx =>
        h.lt_fresh x (hrest.mem_iff.mp hx)
      rcases hwhere with ⟨rfl, hchain, -, rfl⟩ | ⟨rfl, rfl, rfl, rfl, -⟩
      · rw [hchain] at hold hlt
        exact ⟨hold, fun x hx => by
          rcases List.mem_cons.mp hx with rfl | hx
          · exact hlt e List.mem_cons_self
          · exact hlt x (List.mem_cons_of_mem _ (List.mem_append_left _ hx))⟩
      · constructor
        · have hswap : ((chainOf p.funcs t key ++ fe :: []) ++ rest).Perm
              (fe :: (chainOf p.funcs t key ++ rest)) := by
            rw [List.append_assoc]
            exact List.perm_middle
          rw [(hswap.map Fentry.addr).nodup_iff, List.map_cons, List.nodup_cons]
          refine ⟨fun hmem => ?_, hold⟩
          obtain ⟨x, hx, haddr⟩ := List.mem_map.mp hmem
          have := hlt x hx
          have hfresh : fe.addr = t.fresh := rfl
          omega
        · intro x hx
          rcases List.mem_append.mp hx with hx | hx
          · exact Nat.lt_succ_of_lt (hlt x (List.mem_append_left _ hx))
          · rw [List.mem_singleton.mp hx]
            exact Nat.lt_succ_self _
  refine ⟨fe, by rw [hinsert], by rw [hinsert], hclass, hinv, ?_, ?_⟩
  · obtain ⟨-, rest, hbefore, hafter⟩ := Xahash.set_chain hget (A ++ fe :: B)
    rw [hinsert]
    refine hafter.trans ?_
    rw [liveOf_eq_self hall']
    exact (hperm.append_right rest).trans ((hbefore.symm).cons fe)
  · intro head rest hhead hunset
    rw [hinsert]
    rcases hwhere with ⟨-, hchain, -, rfl⟩ | ⟨-, -, -, -, hany⟩
    · rw [hhead] at hchain
      have haddr : e.addr = head.addr := congrArg Fentry.addr (List.cons.inj hchain).1.symm
      exact ⟨haddr, rfl⟩
    · rw [hhead] at hany
      simp [hunset] at hany

theorem insert_spec (h : Inv p t) (key : κ) :
    Inv p (insertEntry p.funcs t key).table ∧
      InsertHolds p t key (insertEntry p.funcs t key) := by
  cases hfind : toMap p t (p.keyClass key) with
  | some fe =>
    have hinsert := insert_present h hfind
    refine ⟨by rw [hinsert]; exact h, ?_, ?_, ?_⟩
    · intro fe' hfe'
      rw [hfind, some_inj] at hfe'
      rw [hinsert, ← hfe']
      exact ⟨rfl, rfl, rfl⟩
    · intro hnone
      rw [hfind] at hnone
      cases hnone
    · intro hnone
      rw [hfind] at hnone
      cases hnone
  | none =>
    obtain ⟨fe, hret, hcalls, hclass, hinv, hperm, hreuse⟩ := insert_absent h hfind
    refine ⟨hinv, ?_, ?_, ?_⟩
    · intro fe' hfe'
      rw [hfind] at hfe'
      cases hfe'
    · intro _
      refine ⟨fe, hret, fun e he haddr => ?_, ?_, hcalls⟩
      · have haddrs := ((live_sublist _).map Fentry.addr).nodup hinv.addrs
        rw [(hperm.map Fentry.addr).nodup_iff, List.map_cons, List.nodup_cons] at haddrs
        exact haddrs.1 (haddr ▸ List.mem_map_of_mem he)
      · rw [toMap_cons hinv.nodup hperm, hclass]
    · intro _ head rest hhead hunset
      obtain ⟨haddr, hfresh⟩ := hreuse head rest hhead hunset
      rw [hret, haddr]
      exact ⟨rfl, hfresh⟩

/-! ## Frees -/

/-- The first entry that is looked for, and its place. -/
theorem findIdx_spec (q : Fentry β → Bool) (h : chain.find? q = some fe) :
    ∃ A B, chain = A ++ fe :: B ∧ q fe = true ∧ chain.findIdx q = A.length := by
  induction chain with
  | nil => cases h
  | cons e chain ih =>
    by_cases hq : q e = true
    · rw [List.find?_cons_of_pos hq, some_inj] at h
      refine ⟨[], chain, by rw [h]; rfl, by rw [← h]; exact hq, ?_⟩
      rw [List.findIdx_cons, hq]
      rfl
    · rw [List.find?_cons_of_neg hq] at h
      obtain ⟨A, B, rfl, hfe, hidx⟩ := ih h
      refine ⟨e :: A, B, rfl, hfe, ?_⟩
      rw [List.findIdx_cons, Bool.eq_false_iff.mpr hq, hidx]
      rfl

/-- What a free leaves of a chain. -/
theorem unlink_spec {A B : List (Fentry β)} (h : ChainOk (A ++ fe :: B)) :
    ChainOk (unlinkFentry (A ++ fe :: B) A.length) ∧
      liveOf (unlinkFentry (A ++ fe :: B) A.length) = liveOf A ++ liveOf B ∧
      ((unlinkFentry (A ++ fe :: B) A.length).map Fentry.addr).Sublist
        ((A ++ fe :: B).map Fentry.addr) ∧
      (A = [] → unlinkFentry (A ++ fe :: B) A.length = { fe with set := false } :: B) := by
  obtain ⟨head, rest, hchain, hrest⟩ := h
  unfold unlinkFentry
  cases A with
  | nil =>
    obtain ⟨rfl, rfl⟩ := List.cons.inj hchain
    exact ⟨⟨_, _, rfl, hrest⟩, rfl, List.Sublist.refl _, fun _ => rfl⟩
  | cons a A =>
    obtain ⟨rfl, rfl⟩ := List.cons.inj hchain
    have herase : (a :: A ++ fe :: B).eraseIdx (a :: A).length = a :: (A ++ B) := by
      rw [List.eraseIdx_append_of_length_le (Nat.le_refl _), Nat.sub_self]
      rfl
    rw [if_neg (by simp), herase]
    refine ⟨⟨a, A ++ B, rfl, fun x hx => hrest x ?_⟩, ?_, ?_, fun h => absurd h (by simp)⟩
    · rcases List.mem_append.mp hx with hx | hx
      · exact List.mem_append_left _ hx
      · exact List.mem_append_right _ (List.mem_cons_of_mem _ hx)
    · show List.filter _ (a :: A ++ B) = _
      exact List.filter_append _ _
    · refine List.Sublist.map _ (List.Sublist.cons_cons a ?_)
      exact (List.Sublist.refl A).append (List.sublist_cons_self fe B)

/-- A free of a key that is not there changes nothing. -/
theorem free_absent (h : Inv p t) (hnone : toMap p t (p.keyClass key) = none) :
    freeEntry p.funcs t key = { ret := false, table := t, calls := [] } := by
  obtain ⟨hindex, -, -⟩ := h.chain key
  have hchain : getFentry t (home p (p.keyClass key)) = chainOf p.funcs t key := by
    rw [chainOf, hindex]
  rw [← h.find_eq, List.find?_eq_none] at hnone
  have hidx : (chainOf p.funcs t key).findIdx (matchFixedEntry p.funcs key t.state) =
      (chainOf p.funcs t key).length := List.findIdx_eq_length.mpr fun x hx => by
    simpa using hnone x hx
  unfold freeEntry
  simp only [hindex, hchain, hidx]
  rw [List.getElem?_eq_none (Nat.le_refl _)]

/-- A free of a key that is there takes its entry from the table. -/
theorem free_present (h : Inv p t) (hfe : toMap p t (p.keyClass key) = some fe) :
    (freeEntry p.funcs t key).ret = true ∧
      (freeEntry p.funcs t key).calls = freeCalls p fe ∧
      Inv p (freeEntry p.funcs t key).table ∧
      (live t).Perm (fe :: live (freeEntry p.funcs t key).table) ∧
      ∀ head rest, chainOf p.funcs t key = head :: rest → fe = head →
        chainOf p.funcs (freeEntry p.funcs t key).table key =
          { head with set := false } :: rest := by
  obtain ⟨hindex, hget, hok⟩ := h.chain key
  have hchain : getFentry t (home p (p.keyClass key)) = chainOf p.funcs t key := by
    rw [chainOf, hindex]
  have hfind := h.find_eq key
  rw [hfe] at hfind
  obtain ⟨A, B, hsplit, hmatch, hidx⟩ := findIdx_spec _ hfind
  have hset : fe.set = true := by
    rw [matchFixedEntry, Bool.and_eq_true] at hmatch
    exact hmatch.1
  rw [hsplit] at hok
  obtain ⟨hok', hlive', haddrs', hhead⟩ := unlink_spec hok
  have hlive : liveOf (chainOf p.funcs t key) = liveOf A ++ fe :: liveOf B := by
    rw [hsplit, liveOf, List.filter_append, List.filter_cons_of_pos hset]
    rfl
  have hcall : callOnFree p.funcs fe t.state =
      ((callOnFree p.funcs fe t.state).1, freeCalls p fe) := by
    unfold callOnFree freeCalls
    cases p.funcs.onFreeFunc with
    | none => rfl
    | some onFree => simp [hset]
  have hfree : freeEntry p.funcs t key =
      { ret := true
        table :=
          { slots := t.slots.set (home p (p.keyClass key)) (unlinkFentry (A ++ fe :: B) A.length)
            state := (callOnFree p.funcs fe t.state).1, fresh := t.fresh }
        calls := freeCalls p fe } := by
    unfold freeEntry
    simp only [hindex, hchain, hidx]
    rw [hsplit, List.getElem?_append_right (Nat.le_refl _), Nat.sub_self, List.getElem?_cons_zero]
    simp only
    rw [hcall]
  obtain ⟨hhome, hnodup⟩ := h.live_chain hget
  have hsub : (liveOf A ++ liveOf B).Sublist (liveOf (chainOf p.funcs t key)) := by
    rw [hlive]
    exact (List.Sublist.refl _).append (List.sublist_cons_self fe _)
  have hinv : Inv p (freeEntry p.funcs t key).table := by
    rw [hfree]
    refine h.set_chain hget hok' ?_ ?_ (Nat.le_refl _) ?_ _
    · rw [hlive']
      exact fun x hx => hhome x (hsub.subset hx)
    · rw [hlive']
      exact hnodup.sublist (hsub.map _)
    · intro rest hrest
      have hold := (hrest.map Fentry.addr).nodup_iff.mpr h.addrs
      rw [hsplit] at hold
      constructor
      · rw [List.map_append] at hold ⊢
        exact hold.sublist (haddrs'.append (List.Sublist.refl _))
      · intro x hx
        obtain ⟨y, hy, haddr⟩ := List.mem_map.mp (haddrs'.subset (List.mem_map_of_mem hx))
        rw [← haddr]
        refine h.lt_fresh y (hrest.mem_iff.mp (List.mem_append_left _ ?_))
        rw [hsplit]
        exact hy
  refine ⟨by rw [hfree], by rw [hfree], hinv, ?_, ?_⟩
  · obtain ⟨-, rest, hbefore, hafter⟩ :=
      Xahash.set_chain hget (unlinkFentry (A ++ fe :: B) A.length)
    rw [hfree]
    refine hbefore.trans (List.Perm.trans ?_ (hafter.symm.cons fe))
    rw [hlive, hlive']
    exact (List.perm_middle.append_right rest)
  · intro head rest hheadEq hsame
    have hnil : A = [] := by
      cases A with
      | nil => rfl
      | cons a A =>
        -- The head would be set twice.
        rw [hsplit, List.cons_append, List.cons.injEq] at hheadEq
        have hnodupAddr := h.addrs
        obtain ⟨⟨others, hperm, -⟩, -⟩ := Xahash.set_chain hget []
        rw [(hperm.map Fentry.addr).nodup_iff, hsplit] at hnodupAddr
        simp only [List.cons_append, List.map_cons, List.nodup_cons] at hnodupAddr
        rw [hheadEq.1, ← hsame] at hnodupAddr
        exact absurd (List.mem_map_of_mem (List.mem_append_left _
          (List.mem_append_right _ List.mem_cons_self))) hnodupAddr.1
    have hslot := (hinv.chain key).2.1
    rw [hfree] at hslot
    have hlt : home p (p.keyClass key) < t.slots.length := (List.getElem?_eq_some_iff.mp hget).1
    rw [List.getElem?_set_self hlt, some_inj] at hslot
    rw [hfree, ← hslot, hhead hnil]
    rw [hsplit, hnil] at hheadEq
    obtain ⟨rfl, rfl⟩ := List.cons.inj hheadEq
    rfl

theorem free_spec (h : Inv p t) (key : κ) :
    Inv p (freeEntry p.funcs t key).table ∧ FreeHolds p t key (freeEntry p.funcs t key) := by
  cases hfind : toMap p t (p.keyClass key) with
  | none =>
    have hfree := free_absent h hfind
    refine ⟨by rw [hfree]; exact h, ?_, ?_, ?_⟩
    · intro _
      rw [hfree]
      exact ⟨rfl, rfl, rfl⟩
    · intro fe hfe
      rw [hfind] at hfe
      cases hfe
    · intro head rest _ hhead
      rw [hfind] at hhead
      cases hhead
  | some fe =>
    obtain ⟨hret, hcalls, hinv, hperm, hhole⟩ := free_present h hfind
    refine ⟨hinv, ?_, ?_, ?_⟩
    · intro hnone
      rw [hfind] at hnone
      cases hnone
    · intro fe' hfe'
      rw [hfind, some_inj] at hfe'
      rw [← hfe']
      refine ⟨hret, hcalls, ?_⟩
      rw [toMap_erase h.nodup hperm, (toMap_mem _ hfind).2]
    · intro head rest hheadEq hhead
      rw [hfind, some_inj] at hhead
      exact hhole head rest hheadEq hhead

end Slurm.Xahash
