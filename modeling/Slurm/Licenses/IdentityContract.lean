import Slurm.Licenses.Identity
import Slurm.Lib.Run

/-!
# License ids along a run

`IdentityContract` says of a run from `license_init` that every entry has an id of its
own in every state, that an entry which `license_update` keeps has its id after it, and
that the counter does not wrap.  `identityContract_iff` gives the condition on the
steps of the run (`IdsLast`).

Three things break the contract.  `license_update` returns early when there was no
list, before ids are set.  No path stops when the ids run out: the callback of
`_set_license_ids` returns 1 where only a negative value counts, and
`_add_res_rec_2_lic_list` has an assertion only.  Two entries of one name and nodes in
the old list, which `hres_init` refuses, give their ids to one new entry.
-/

namespace Slurm.Licenses

open Lib.FirstMatch List
open Lib.Run (Always EachStep Guarded)

variable {e : License} {l : List License} {s' : Cluster} {c : Cmd}

/-! ## The contract -/

/-- Every entry has an id of its own. -/
def Distinct (s : Cluster) : Prop :=
  (∀ e ∈ s.list, e.licId ≠ noVal16) ∧ (s.list.map License.licId).Nodup

/-- The number of ids that a call takes. -/
def idsNeeded (s : Cluster) : Cmd → Nat
  | .update conf =>
    match s.licenses with
    | none => 0
    | some old => idsMissing ((updateList conf old).getD [])
  | .addRemote rec => if s.list.any (isRemoteRec rec.licenseName) then 0 else 1
  | .updateRemote rec => if s.list.any (isRemoteRec rec.licenseName) then 0 else 1
  | .removeRemote _ => 0
  | .syncRemote none => 0
  | .syncRemote (some recs) =>
    (recs.foldl syncRec { s with licenses := some s.list }).list.length - s.list.length

/-- The counter does not wrap, and what `license_update` keeps has its id after it. -/
structure KeepsIds (s : Cluster) (c : Cmd) (s' : Cluster) : Prop where
  not_wrapped : s'.nextLicId.toNat = s.nextLicId.toNat + idsNeeded s c
  kept_local : ∀ conf, c = .update conf → ∀ e ∈ localRecs s.list, Matched (confList conf) e →
    ∃ e' ∈ s'.list, e'.remote = .no ∧ sameRec e e' = true ∧ e'.licId = e.licId
  kept_remote : ∀ conf, c = .update conf → ∀ e ∈ remoteRecs s.list, { e with used := 0 } ∈ s'.list

/-- License identity over a run that starts with `license_init`. -/
structure IdentityContract (conf : Config) (cmds : List Cmd) : Prop where
  distinct : Always exec Distinct (licenseInit conf) cmds
  keeps_ids : EachStep exec KeepsIds (licenseInit conf) cmds
  init_not_wrapped : (licenseInit conf).nextLicId.toNat = (confList conf).length

/-- The condition on a step. -/
structure IdsLast (s : Cluster) (c : Cmd) : Prop where
  fresh : ∀ conf, c = .update conf → s.licenses = none → confList conf = []
  fits : s.nextLicId.toNat + idsNeeded s c ≤ 65534
  apart : ∀ conf, c = .update conf → Apart (confList conf) (localRecs s.list)

/-! ## The invariant -/

/-- What the ids depend on. -/
def idAndSource (e : License) : UInt16 × Bool := (e.licId, decide (e.remote ≠ .no))

/-- The ids are below the next one and distinct, and local entries come first. -/
structure IdsInv (l : List (UInt16 × Bool)) (next : UInt16) : Prop where
  lt : ∀ k ∈ l, k.1.toNat < next.toNat
  nodup : (l.map Prod.fst).Nodup
  locals_first : l.Pairwise fun a b => a.2 = true → b.2 = true

/-- The invariant of the runs. -/
structure Inv (s : Cluster) : Prop where
  ids : IdsInv (s.list.map idAndSource) s.nextLicId
  next_le : s.nextLicId.toNat ≤ 65534

theorem IdsInv.sublist {l l' : List (UInt16 × Bool)} {next : UInt16} (h : IdsInv l next)
    (hsub : l'.Sublist l) : IdsInv l' next where
  lt k hk := h.lt k (hsub.subset hk)
  nodup := (hsub.map Prod.fst).nodup h.nodup
  locals_first := h.locals_first.sublist hsub

theorem IdsInv.append {l : List (UInt16 × Bool)} {next : UInt16} (h : IdsInv l next)
    (hnext : next.toNat < 65535) : IdsInv (l ++ [(next, true)]) (next + 1) := by
  have hsucc := toNat_succ hnext
  refine { lt := fun k hk => ?_, nodup := ?_, locals_first := ?_ }
  · rcases List.mem_append.mp hk with hk | hk
    · have hlt := h.lt k hk
      omega
    · rw [List.mem_singleton.mp hk]
      show next.toNat < _
      omega
  · rw [map_append, nodup_append]
    refine ⟨h.nodup, nodup_singleton _, fun a ha b hb heq => ?_⟩
    obtain ⟨k, hk, rfl⟩ := List.mem_map.mp ha
    have hlt := h.lt k hk
    rw [heq, List.mem_singleton.mp hb] at hlt
    exact Nat.lt_irrefl _ hlt
  · rw [pairwise_append]
    refine ⟨h.locals_first, pairwise_singleton _ _, fun a _ b hb _ => ?_⟩
    rw [List.mem_singleton.mp hb]

theorem map_licId (l : List License) :
    (l.map idAndSource).map Prod.fst = l.map License.licId := by
  rw [map_map]
  rfl

theorem Inv.lt {s : Cluster} (h : Inv s) (he : e ∈ s.list) :
    e.licId.toNat < s.nextLicId.toNat := h.ids.lt _ (mem_map_of_mem (f := idAndSource) he)

theorem Inv.nodup {s : Cluster} (h : Inv s) : (s.list.map License.licId).Nodup := by
  rw [← map_licId]
  exact h.ids.nodup

theorem Inv.licId_ne {s : Cluster} (h : Inv s) (he : e ∈ s.list) : e.licId ≠ noVal16 := by
  have hlt := h.lt he
  have hle := h.next_le
  exact ne_noVal16 (by omega)

theorem Inv.distinct {s : Cluster} (h : Inv s) : Distinct s := ⟨fun _ he => h.licId_ne he, h.nodup⟩

theorem Inv.localsFirst {s : Cluster} (h : Inv s) : LocalsFirst s.list := by
  have hpairs := List.pairwise_map.mp h.ids.locals_first
  exact hpairs.imp fun hab ha => of_decide_eq_true (hab (decide_eq_true ha))

/-! ## `license_update` -/

theorem setLicenseIds_list (s : Cluster) :
    (setLicenseIds s).list = (setIds s.list s.nextLicId).1 ∧
      (setLicenseIds s).nextLicId = (setIds s.list s.nextLicId).2 := by
  cases h : s.licenses with
  | none =>
    have hlist : s.list = [] := by rw [Cluster.list, h]; rfl
    rw [setLicenseIds, h, hlist]
    exact ⟨rfl, rfl⟩
  | some l =>
    have hlist : s.list = l := by rw [Cluster.list, h]; rfl
    rw [setLicenseIds, h, hlist]
    exact ⟨rfl, rfl⟩

theorem mem_localRecs : e ∈ localRecs l ↔ e ∈ l ∧ e.remote = .no := by
  rw [localRecs, mem_filter, decide_eq_true_eq]

theorem mem_remoteRecs : e ∈ remoteRecs l ↔ e ∈ l ∧ e.remote ≠ .no := by
  rw [remoteRecs, mem_filter, decide_eq_true_eq]

section Update

variable {s : Cluster} (h : Inv s) (conf : Config)

include h

theorem Inv.merged :
    Merged (confList conf) (localRecs s.list) (mergeLocals (confList conf) (localRecs s.list)) :=
  mergeLocals_merged (fun _ hm => (confList_licId hm).1)
    ((List.filter_sublist.map License.licId).nodup h.nodup)

theorem Inv.merged_remote {m : License}
    (hm : m ∈ mergeLocals (confList conf) (localRecs s.list)) : m.remote = .no := by
  have hmem : (m.name, m.nodes, m.remote) ∈ (confList conf).map fun m =>
      (m.name, m.nodes, m.remote) := by
    rw [← (h.merged conf).recs]
    exact mem_map_of_mem (f := fun m : License => (m.name, m.nodes, m.remote)) hm
  obtain ⟨m', hm', heq⟩ := List.mem_map.mp hmem
  simp only [Prod.mk.injEq] at heq
  rw [← heq.2.2, (confList_licId hm').2]

/-- An id that was copied is the id of a local entry. -/
theorem Inv.merged_source {m : License}
    (hm : m ∈ mergeLocals (confList conf) (localRecs s.list)) (hne : m.licId ≠ noVal16) :
    ∃ e ∈ s.list, e.remote = .no ∧ e.licId = m.licId := by
  obtain ⟨e, he, -, hid⟩ := (h.merged conf).source m hm hne
  rw [mem_localRecs] at he
  exact ⟨e, he.1, he.2, hid⟩

theorem Inv.idsBelow_updateList :
    IdsBelow ((updateList conf s.list).getD []) s.nextLicId := by
  rw [updateList_getD conf h.localsFirst]
  constructor
  · intro m hm hne
    rcases List.mem_append.mp hm with hm | hm
    · obtain ⟨e, he, -, hid⟩ := h.merged_source conf hm hne
      rw [← hid]
      exact h.lt he
    · obtain ⟨e, he, rfl⟩ := List.mem_map.mp hm
      have hlt := h.lt (mem_remoteRecs.mp he).1
      exact hlt
  · rw [pairwise_append]
    refine ⟨(h.merged conf).nodup, ?_, ?_⟩
    · rw [pairwise_map]
      have hnodup : ((remoteRecs s.list).map License.licId).Nodup :=
        (List.filter_sublist.map License.licId).nodup h.nodup
      exact (List.pairwise_map.mp hnodup).imp fun hab _ _ => hab
    · intro m hm r hr hne _ heq
      obtain ⟨e, he, hlocal, hid⟩ := h.merged_source conf hm hne
      obtain ⟨e', he', rfl⟩ := List.mem_map.mp hr
      obtain ⟨he', hremote⟩ := mem_remoteRecs.mp he'
      obtain rfl : e = e' := inj_on_of_nodup_map h.nodup he he' (hid.trans heq)
      exact hremote hlocal

theorem Inv.updateList_localsFirst : LocalsFirst ((updateList conf s.list).getD []) := by
  rw [updateList_getD conf h.localsFirst, LocalsFirst, pairwise_append]
  refine ⟨?_, ?_, ?_⟩
  · exact List.Pairwise.imp_of_mem (fun ha _ _ hne => absurd (h.merged_remote conf ha) hne)
      (pairwise_of_forall fun _ _ => trivial)
  · exact List.Pairwise.imp_of_mem (fun _ hb _ _ => by
      obtain ⟨e, he, rfl⟩ := List.mem_map.mp hb
      exact (mem_remoteRecs.mp he).2) (pairwise_of_forall fun _ _ => trivial)
  · intro m hm _ _ hne
    exact absurd (h.merged_remote conf hm) hne

/-- The list after ids are set. -/
theorem Inv.setIds_inv
    (hfits : s.nextLicId.toNat + idsMissing ((updateList conf s.list).getD []) ≤ 65534) :
    Inv (setLicenseIds { s with licenses := updateList conf s.list }) := by
  obtain ⟨hlist, hnext⟩ := setLicenseIds_list { s with licenses := updateList conf s.list }
  have hnext' := setIds_next ((updateList conf s.list).getD []) s.nextLicId
  rw [Nat.mod_eq_of_lt (by omega)] at hnext'
  have hbelow := h.idsBelow_updateList conf
  refine { ids := { lt := fun k hk => ?_, nodup := ?_, locals_first := ?_ }, next_le := ?_ }
  · obtain ⟨e, he, rfl⟩ := List.mem_map.mp hk
    rw [hlist] at he
    rw [hnext]
    show e.licId.toNat < _
    refine Nat.lt_of_lt_of_eq ?_ hnext'.symm
    rcases mem_setIds hfits he with ⟨hmem, hne⟩ | hgiven
    · have hlt := hbelow.lt e hmem hne
      omega
    · exact hgiven.2
  · rw [map_licId, hlist]
    exact setIds_nodup hbelow hfits
  · rw [hlist, pairwise_map]
    have hremote := setIds_map (g := License.remote) (fun _ _ => rfl)
      ((updateList conf s.list).getD []) s.nextLicId
    have hpairs : (((updateList conf s.list).getD []).map License.remote).Pairwise
        fun a b => a ≠ .no → b ≠ .no := List.pairwise_map.mpr (h.updateList_localsFirst conf)
    rw [← hremote] at hpairs
    exact (List.pairwise_map.mp hpairs).imp fun hab ha =>
      decide_eq_true (hab (of_decide_eq_true ha))
  · rw [hnext]
    exact Nat.le_trans (Nat.le_of_eq hnext') hfits

/-- What keeps its id, where no two old entries match one record. -/
theorem Inv.setIds_keeps (hapart : Apart (confList conf) (localRecs s.list)) :
    (∀ e ∈ localRecs s.list, Matched (confList conf) e →
      ∃ e' ∈ (setIds ((updateList conf s.list).getD []) s.nextLicId).1,
        e'.remote = .no ∧ sameRec e e' = true ∧ e'.licId = e.licId) ∧
      ∀ e ∈ remoteRecs s.list,
        { e with used := 0 } ∈ (setIds ((updateList conf s.list).getD []) s.nextLicId).1 := by
  rw [updateList_getD conf h.localsFirst]
  constructor
  · intro e he hmatched
    obtain ⟨m, hm, hsame, hid⟩ := mergeLocals_kept (fun _ hm => (confList_licId hm).1)
      ((List.filter_sublist.map License.licId).nodup h.nodup) hapart e he hmatched
    have hne : m.licId ≠ noVal16 := hid ▸ h.licId_ne (mem_localRecs.mp he).1
    exact ⟨m, mem_setIds_of_mem (mem_append_left _ hm) hne _, h.merged_remote conf hm, hsame, hid⟩
  · intro e he
    have hne : e.licId ≠ noVal16 := h.licId_ne (mem_remoteRecs.mp he).1
    exact mem_setIds_of_mem
      (mem_append_right _ (mem_map_of_mem (f := fun e : License => { e with used := 0 }) he))
      hne _

/-- Two old entries of one record cannot both give it their ids. -/
theorem Inv.apart_of_kept
    (hfits : s.nextLicId.toNat + idsMissing ((updateList conf s.list).getD []) ≤ 65534)
    (hkept : ∀ e ∈ localRecs s.list, Matched (confList conf) e →
      ∃ e' ∈ (setIds ((updateList conf s.list).getD []) s.nextLicId).1,
        e'.remote = .no ∧ sameRec e e' = true ∧ e'.licId = e.licId) :
    Apart (confList conf) (localRecs s.list) := by
  have hfind : ∀ e ∈ localRecs s.list, Matched (confList conf) e →
      ∃ m ∈ mergeLocals (confList conf) (localRecs s.list), sameRec e m = true ∧
        m.licId = e.licId ∧ m.licId ≠ noVal16 := by
    intro e he hmatched
    obtain ⟨e', he', hlocal, hsame, hid⟩ := hkept e he hmatched
    have hlt := h.lt (mem_localRecs.mp he).1
    rcases mem_setIds hfits he' with ⟨hmem, hne⟩ | hgiven
    · rw [updateList_getD conf h.localsFirst] at hmem
      rcases List.mem_append.mp hmem with hmem | hmem
      · exact ⟨e', hmem, hsame, hid, hne⟩
      · obtain ⟨r, hr, rfl⟩ := List.mem_map.mp hmem
        exact absurd hlocal (mem_remoteRecs.mp hr).2
    · rw [hid] at hgiven
      omega
  have hids : (localRecs s.list).Pairwise fun a b => a.licId ≠ b.licId :=
    List.pairwise_map.mp ((List.filter_sublist.map License.licId).nodup h.nodup)
  refine List.Pairwise.imp_of_mem ?_ (hids.sublist filter_sublist)
  intro a b ha hb hne
  refine Bool.eq_false_iff.mpr fun hab => ?_
  rw [mem_filter, decide_eq_true_eq] at ha hb
  obtain ⟨m, hm, hsame, hid, hmne⟩ := hfind a ha.1 ha.2
  obtain ⟨m', hm', hsame', hid', hmne'⟩ := hfind b hb.1 hb.2
  rw [sameRec_iff] at hsame hsame' hab
  have heq : m = m' := (h.merged conf).unique hm hm' hmne hmne' (sameRec_iff.mpr
    ⟨hsame'.1.trans (hab.1.trans hsame.1.symm), hsame'.2.trans (hab.2.trans hsame.2.symm)⟩)
  rw [heq] at hid
  exact hne (hid.symm.trans hid')

theorem licenseUpdate_step :
    (IdsLast s (.update conf) → Inv (licenseUpdate s conf)) ∧
      (Distinct (licenseUpdate s conf) ∧ KeepsIds s (.update conf) (licenseUpdate s conf) ↔
        IdsLast s (.update conf)) := by
  cases hl : s.licenses with
  | none =>
    have hlist : s.list = [] := by rw [Cluster.list, hl]; rfl
    have hnew : (licenseUpdate s conf).list = confList conf := by rw [licenseUpdate, hl]; rfl
    have hnext : (licenseUpdate s conf).nextLicId = s.nextLicId := by rw [licenseUpdate, hl]
    have hneeded : idsNeeded s (.update conf) = 0 := by rw [idsNeeded, hl]
    have hinv : confList conf = [] → Inv (licenseUpdate s conf) := by
      intro hnil
      have hids := h.ids
      rw [hlist] at hids
      exact ⟨by rw [hnew, hnext, hnil]; exact hids, by rw [hnext]; exact h.next_le⟩
    refine ⟨fun hg => hinv (hg.fresh conf rfl hl), ?_, fun hg => ⟨?_, ?_⟩⟩
    · rintro ⟨hdistinct, -⟩
      refine { fresh := fun conf' hc _ => ?_, fits := ?_, apart := fun _ _ => ?_ }
      · obtain rfl : conf = conf' := by injection hc
        refine List.eq_nil_iff_forall_not_mem.mpr fun m hm => ?_
        exact hdistinct.1 m (hnew ▸ hm) (confList_licId hm).1
      · rw [hneeded]
        exact h.next_le
      · rw [hlist]
        exact List.Pairwise.nil
    · exact (hinv (hg.fresh conf rfl hl)).distinct
    · refine { not_wrapped := ?_, kept_local := fun _ _ e he => ?_, kept_remote := fun _ _ e he => ?_ }
      · rw [hnext, hneeded, Nat.add_zero]
      · rw [hlist] at he
        exact absurd he not_mem_nil
      · rw [hlist] at he
        exact absurd he not_mem_nil
  | some old =>
    have hlist : s.list = old := by rw [Cluster.list, hl]; rfl
    have hnew : licenseUpdate s conf = setLicenseIds { s with licenses := updateList conf s.list } := by
      rw [licenseUpdate, hl, hlist]
    have hneeded : idsNeeded s (.update conf)
        = idsMissing ((updateList conf s.list).getD []) := by rw [idsNeeded, hl, hlist]
    obtain ⟨hlist', hnext'⟩ := setLicenseIds_list { s with licenses := updateList conf s.list }
    have hnextNat := setIds_next ((updateList conf s.list).getD []) s.nextLicId
    have hinv : IdsLast s (.update conf) → Inv (licenseUpdate s conf) := by
      intro hg
      rw [hnew]
      exact h.setIds_inv conf (hneeded ▸ hg.fits)
    refine ⟨hinv, ?_, fun hg => ⟨(hinv hg).distinct, ?_⟩⟩
    · rintro ⟨hdistinct, hkeeps⟩
      have hwrap := hkeeps.not_wrapped
      rw [hneeded, hnew, hnext'] at hwrap
      have hlt := (setIds ((updateList conf s.list).getD []) s.nextLicId).2.toNat_lt
      have hfits : s.nextLicId.toNat + idsMissing ((updateList conf s.list).getD []) ≤ 65534 := by
        refine setIds_fits h.next_le ?_ fun e he => hdistinct.1 e ?_
        · have hwrap' : (setIds ((updateList conf s.list).getD []) s.nextLicId).2.toNat
            = s.nextLicId.toNat + idsMissing ((updateList conf s.list).getD []) := hwrap
          omega
        · rw [hnew, hlist']
          exact he
      refine { fresh := fun _ _ hnone => ?_, fits := hneeded ▸ hfits, apart := fun conf' hc => ?_ }
      · rw [hl] at hnone
        cases hnone
      · obtain rfl : conf = conf' := by injection hc
        refine h.apart_of_kept conf hfits fun e he hmatched => ?_
        have hkept := hkeeps.kept_local conf rfl e he hmatched
        rw [hnew, hlist'] at hkept
        exact hkept
    · have hfits := hg.fits
      rw [hneeded] at hfits
      rw [Nat.mod_eq_of_lt (by omega)] at hnextNat
      obtain ⟨hlocal, hremote⟩ := h.setIds_keeps conf (hg.apart conf rfl)
      refine
        { not_wrapped := ?_
          kept_local := fun conf' hc e he hmatched => ?_
          kept_remote := fun conf' hc e he => ?_ }
      · rw [hneeded, hnew, hnext']
        exact hnextNat
      · obtain rfl : conf = conf' := by injection hc
        rw [hnew, hlist']
        exact hlocal e he hmatched
      · obtain rfl : conf = conf' := by injection hc
        rw [hnew, hlist']
        exact hremote e he

end Update

/-! ## Remote licenses -/

theorem Inv.of_sublist {s : Cluster} (h : Inv s) (hnext : s'.nextLicId = s.nextLicId)
    (hsub : (s'.list.map idAndSource).Sublist (s.list.map idAndSource)) : Inv s' where
  ids := hnext ▸ h.ids.sublist hsub
  next_le := hnext ▸ h.next_le

/-- A step that is not `license_update`. -/
def NotUpdate (c : Cmd) : Prop := ∀ conf, c ≠ .update conf

/-- For such a step the condition is that the ids last. -/
theorem idsLast_iff {s : Cluster} (hc : NotUpdate c) :
    IdsLast s c ↔ s.nextLicId.toNat + idsNeeded s c ≤ 65534 :=
  ⟨fun h => h.fits, fun h =>
    { fresh := fun conf hconf => absurd hconf (hc conf)
      fits := h
      apart := fun conf hconf => absurd hconf (hc conf) }⟩

theorem keepsIds_iff {s : Cluster} (hc : NotUpdate c) :
    KeepsIds s c s' ↔ s'.nextLicId.toNat = s.nextLicId.toNat + idsNeeded s c :=
  ⟨fun h => h.not_wrapped, fun h =>
    { not_wrapped := h
      kept_local := fun conf hconf => absurd hconf (hc conf)
      kept_remote := fun conf hconf => absurd hconf (hc conf) }⟩

/-- A step that takes no id and leaves no other entries than there were. -/
theorem step_of_sublist {s : Cluster} (h : Inv s) (hc : NotUpdate c) (hneeded : idsNeeded s c = 0)
    (hnext : s'.nextLicId = s.nextLicId)
    (hsub : (s'.list.map idAndSource).Sublist (s.list.map idAndSource)) :
    (IdsLast s c → Inv s') ∧ (Distinct s' ∧ KeepsIds s c s' ↔ IdsLast s c) := by
  have hinv := h.of_sublist hnext hsub
  rw [idsLast_iff hc, keepsIds_iff hc, hneeded, hnext]
  exact ⟨fun _ => hinv, fun _ => h.next_le, fun _ => ⟨hinv.distinct, rfl⟩⟩

theorem addResRec_list (l : List License) (next : UInt16) (rec : ResRec) (sync : Bool) :
    (addResRec l next rec sync).list = l ++ [newRemote next rec sync] := rfl

/-- A remote entry takes the next id. -/
theorem addResRec_inv {s : Cluster} (h : Inv s) (rec : ResRec) (sync : Bool)
    (hfits : s.nextLicId.toNat + 1 ≤ 65534) : Inv (addResRec s.list s.nextLicId rec sync) := by
  have hsucc := toNat_succ (n := s.nextLicId) (by omega)
  refine { ids := ?_, next_le := by show (s.nextLicId + 1).toNat ≤ _; omega }
  have hkey : idAndSource (newRemote s.nextLicId rec sync) = (s.nextLicId, true) := by
    cases sync <;> rfl
  have happ := h.ids.append (by omega)
  show IdsInv ((s.list ++ [newRemote s.nextLicId rec sync]).map idAndSource) (s.nextLicId + 1)
  rw [map_append, map_singleton, hkey]
  exact happ

theorem step_of_add {s : Cluster} (h : Inv s) (hc : NotUpdate c) (hneeded : idsNeeded s c = 1)
    (rec : ResRec) (sync : Bool) :
    (IdsLast s c → Inv (addResRec s.list s.nextLicId rec sync)) ∧
      (Distinct (addResRec s.list s.nextLicId rec sync) ∧
        KeepsIds s c (addResRec s.list s.nextLicId rec sync) ↔ IdsLast s c) := by
  have hinv := addResRec_inv h rec sync
  rw [idsLast_iff hc, keepsIds_iff hc, hneeded]
  refine ⟨hinv, ?_, fun hfits => ⟨(hinv hfits).distinct, toNat_succ (by omega)⟩⟩
  rintro ⟨hdistinct, -⟩
  have hne : s.nextLicId ≠ noVal16 :=
    hdistinct.1 _ (mem_append_right s.list (mem_singleton_self _))
  have hle := h.next_le
  have hlt : s.nextLicId.toNat ≠ 65534 := fun heq => hne (UInt16.toNat_inj.mp heq)
  omega

theorem isRemoteRec_remote {name : String} (h : isRemoteRec name e = true) :
    e.remote ≠ .no := (of_decide_eq_true h).1

/-- A change of a remote entry that keeps its id. -/
theorem modify_ids (name : String) {f : License → License} (hid : ∀ e, (f e).licId = e.licId)
    (hremote : ∀ e, e.remote ≠ .no → (f e).remote ≠ .no) (l : List License) :
    (modifyFirst (isRemoteRec name) f l).map idAndSource = l.map idAndSource := by
  refine map_modifyFirst (fun e he => ?_) l
  have hne := isRemoteRec_remote he
  rw [idAndSource, idAndSource, hid, decide_eq_true hne, decide_eq_true (hremote e hne)]

theorem licenseAddRemote_step {s : Cluster} (h : Inv s) (rec : ResRec) :
    (IdsLast s (.addRemote rec) → Inv (licenseAddRemote s rec)) ∧
      (Distinct (licenseAddRemote s rec) ∧ KeepsIds s (.addRemote rec) (licenseAddRemote s rec) ↔
        IdsLast s (.addRemote rec)) := by
  unfold licenseAddRemote
  split
  · rename_i hany
    exact step_of_sublist h (fun _ => Cmd.noConfusion) (if_pos hany) rfl (List.Sublist.refl _)
  · rename_i hany
    exact step_of_add (c := .addRemote rec) h (fun _ => Cmd.noConfusion) (if_neg hany) rec false

theorem licenseUpdateRemote_step {s : Cluster} (h : Inv s) (rec : ResRec) :
    (IdsLast s (.updateRemote rec) → Inv (licenseUpdateRemote s rec)) ∧
      (Distinct (licenseUpdateRemote s rec) ∧
        KeepsIds s (.updateRemote rec) (licenseUpdateRemote s rec) ↔
        IdsLast s (.updateRemote rec)) := by
  unfold licenseUpdateRemote
  split
  · rename_i hany
    refine step_of_sublist h (fun _ => Cmd.noConfusion) (if_pos hany) rfl ?_
    have hkeys := modify_ids rec.licenseName (f := fun e => handleConsumed e rec)
      (fun _ => rfl) (fun _ hne => hne) s.list
    exact hkeys ▸ List.Sublist.refl _
  · rename_i hany
    exact step_of_add (c := .updateRemote rec) h (fun _ => Cmd.noConfusion) (if_neg hany) rec false

theorem licenseRemoveRemote_step {s : Cluster} (h : Inv s) (rec : ResRec) :
    (IdsLast s (.removeRemote rec) → Inv (licenseRemoveRemote s rec)) ∧
      (Distinct (licenseRemoveRemote s rec) ∧
        KeepsIds s (.removeRemote rec) (licenseRemoveRemote s rec) ↔
        IdsLast s (.removeRemote rec)) :=
  step_of_sublist h (fun _ => Cmd.noConfusion) rfl rfl (List.eraseP_sublist.map idAndSource)

/-! ## `license_sync_remote` -/

theorem syncSweep_sublist (l : List License) :
    ((syncSweep l).map idAndSource).Sublist (l.map idAndSource) := by
  induction l with
  | nil => exact List.Sublist.refl _
  | cons e es ih =>
    rw [syncSweep]
    cases hremote : e.remote with
    | no => exact ih.cons_cons _
    | yes => exact ih.cons _
    | synced =>
      have hkey : idAndSource { e with remote := .yes } = idAndSource e := by
        rw [idAndSource, idAndSource, hremote]
        rfl
      rw [map_cons, map_cons, hkey]
      exact ih.cons_cons _

/-- An entry that the records had stays. -/
theorem licId_mem_syncSweep (h : e ∈ l) (hremote : e.remote = .synced) :
    ∃ e' ∈ syncSweep l, e'.licId = e.licId := by
  induction l with
  | nil => exact absurd h not_mem_nil
  | cons x xs ih =>
    rw [syncSweep]
    rcases List.mem_cons.mp h with rfl | h
    · rw [hremote]
      exact ⟨_, mem_cons_self, rfl⟩
    · obtain ⟨e', he', hid⟩ := ih h
      cases x.remote with
      | no => exact ⟨e', mem_cons_of_mem _ he', hid⟩
      | yes => exact ⟨e', he', hid⟩
      | synced => exact ⟨e', mem_cons_of_mem _ he', hid⟩

/-- What a record does to the list: nothing to the ids, or an entry with the next id. -/
theorem syncRec_cases (s : Cluster) (rec : ResRec) :
    ((syncRec s rec).nextLicId = s.nextLicId ∧
        (syncRec s rec).list.map idAndSource = s.list.map idAndSource) ∨
      syncRec s rec = addResRec s.list s.nextLicId rec true := by
  unfold syncRec
  split
  · split
    · refine Or.inl ⟨rfl, modify_ids rec.licenseName ?_ ?_ s.list⟩
      · exact fun _ => rfl
      · exact fun _ _ hno => Remote.noConfusion hno
    · exact Or.inr rfl
  · exact Or.inl ⟨rfl, rfl⟩

/-- An entry that the records had stays through the other records. -/
theorem synced_mem_syncRec {s : Cluster} {rec : ResRec} {e : License} (h : e ∈ s.list)
    (hremote : e.remote = .synced) :
    ∃ e' ∈ (syncRec s rec).list, e'.remote = .synced ∧ e'.licId = e.licId := by
  unfold syncRec
  split
  · split
    · show ∃ e' ∈ modifyFirst _ _ s.list, _
      rcases modifyFirst_cases (isRemoteRec rec.licenseName)
        (fun e => handleConsumed { e with remote := .synced } rec) s.list with
        ⟨-, heq⟩ | ⟨l₁, a, l₂, hl, -, -, heq⟩
      · rw [heq]
        exact ⟨e, h, hremote, rfl⟩
      · rw [heq]
        rw [hl] at h
        rcases List.mem_append.mp h with h | h
        · exact ⟨e, mem_append_left _ h, hremote, rfl⟩
        · rcases List.mem_cons.mp h with rfl | h
          · exact ⟨_, mem_append_right _ mem_cons_self, rfl, rfl⟩
          · exact ⟨e, mem_append_right _ (mem_cons_of_mem _ h), hremote, rfl⟩
    · exact ⟨e, mem_append_left _ h, hremote, rfl⟩
  · exact ⟨e, h, hremote, rfl⟩

theorem synced_mem_foldl (recs : List ResRec) {s : Cluster} (h : e ∈ s.list)
    (hremote : e.remote = .synced) :
    ∃ e' ∈ (recs.foldl syncRec s).list, e'.remote = .synced ∧ e'.licId = e.licId := by
  induction recs generalizing s e with
  | nil => exact ⟨e, h, hremote, rfl⟩
  | cons rec recs ih =>
    obtain ⟨e', he', hremote', hid⟩ := @synced_mem_syncRec _ rec _ h hremote
    obtain ⟨e'', he'', hremote'', hid'⟩ := ih he' hremote'
    exact ⟨e'', he'', hremote'', hid'.trans hid⟩

theorem length_le_foldl (recs : List ResRec) (s : Cluster) :
    s.list.length ≤ (recs.foldl syncRec s).list.length := by
  induction recs generalizing s with
  | nil => exact Nat.le_refl _
  | cons rec recs ih =>
    refine Nat.le_trans ?_ (ih (syncRec s rec))
    rcases syncRec_cases s rec with ⟨-, hkeys⟩ | hadd
    · have hlen := congrArg List.length hkeys
      rw [length_map, length_map] at hlen
      exact Nat.le_of_eq hlen.symm
    · rw [hadd, addResRec_list, length_append]
      exact Nat.le_add_right _ _

/-- The records: the ids they take, and the invariant when these last. -/
theorem foldl_syncRec_inv (recs : List ResRec) {s : Cluster} (h : Inv s)
    (hfits : s.nextLicId.toNat + ((recs.foldl syncRec s).list.length - s.list.length) ≤ 65534) :
    Inv (recs.foldl syncRec s) ∧ (recs.foldl syncRec s).nextLicId.toNat
      = s.nextLicId.toNat + ((recs.foldl syncRec s).list.length - s.list.length) := by
  induction recs generalizing s with
  | nil => exact ⟨h, by rw [foldl_nil, Nat.sub_self, Nat.add_zero]⟩
  | cons rec recs ih =>
    rw [foldl_cons] at hfits ⊢
    have hlen := length_le_foldl recs (syncRec s rec)
    rcases syncRec_cases s rec with ⟨hnext, hkeys⟩ | hadd
    · have hlen' := congrArg List.length hkeys
      rw [length_map, length_map] at hlen'
      have hinv := h.of_sublist hnext (hkeys ▸ List.Sublist.refl _)
      rw [← hlen', ← hnext] at hfits ⊢
      exact ih hinv hfits
    · have hlen' : (syncRec s rec).list.length = s.list.length + 1 := by
        rw [hadd, addResRec_list, length_append]
        rfl
      have hinv : Inv (syncRec s rec) := by
        rw [hadd]
        exact addResRec_inv h rec true (by omega)
      have hsucc := toNat_succ (n := s.nextLicId) (by omega)
      have hnext : (syncRec s rec).nextLicId.toNat = s.nextLicId.toNat + 1 := by
        rw [hadd]
        exact hsucc
      have hrest := ih hinv (by omega)
      exact ⟨hrest.1, by rw [hrest.2]; omega⟩

/-- The ids lasted when the entries of the records have one. -/
theorem foldl_syncRec_fits (recs : List ResRec) {s : Cluster} (hle : s.nextLicId.toNat ≤ 65534)
    (hwrap : s.nextLicId.toNat + ((recs.foldl syncRec s).list.length - s.list.length) ≤ 65535)
    (hids : ∀ e ∈ (recs.foldl syncRec s).list, e.remote = .synced → e.licId ≠ noVal16) :
    s.nextLicId.toNat + ((recs.foldl syncRec s).list.length - s.list.length) ≤ 65534 := by
  induction recs generalizing s with
  | nil => rwa [foldl_nil, Nat.sub_self, Nat.add_zero]
  | cons rec recs ih =>
    rw [foldl_cons] at hwrap hids ⊢
    have hlen := length_le_foldl recs (syncRec s rec)
    rcases syncRec_cases s rec with ⟨hnext, hkeys⟩ | hadd
    · have hlen' := congrArg List.length hkeys
      rw [length_map, length_map] at hlen'
      rw [← hlen', ← hnext] at hwrap ⊢
      exact ih (hnext ▸ hle) hwrap hids
    · have hlen' : (syncRec s rec).list.length = s.list.length + 1 := by
        rw [hadd, addResRec_list, length_append]
        rfl
      have hmem : newRemote s.nextLicId rec true ∈ (syncRec s rec).list := by
        rw [hadd]
        exact mem_append_right s.list (mem_singleton_self _)
      obtain ⟨e, he, hremote, hid⟩ := synced_mem_foldl recs hmem rfl
      have hne := hids e he hremote
      rw [hid] at hne
      have hlt : s.nextLicId.toNat ≠ 65534 := fun heq => hne (UInt16.toNat_inj.mp heq)
      have hsucc := toNat_succ (n := s.nextLicId) (by omega)
      have hnext : (syncRec s rec).nextLicId.toNat = s.nextLicId.toNat + 1 := by
        rw [hadd]
        exact hsucc
      have hrest := ih (s := syncRec s rec) (by omega) (by omega) hids
      omega

theorem licenseSyncRemote_step {s : Cluster} (h : Inv s) (recs : Option (List ResRec))
    (hstep : licenseSyncRemote s recs = some s') :
    (IdsLast s (.syncRemote recs) → Inv s') ∧
      (Distinct s' ∧ KeepsIds s (.syncRemote recs) s' ↔ IdsLast s (.syncRemote recs)) := by
  cases recs with
  | none =>
    unfold licenseSyncRemote at hstep
    cases hl : s.licenses with
    | none =>
      rw [hl] at hstep
      cases hstep
    | some l =>
      rw [hl] at hstep
      obtain rfl := Option.some.inj hstep
      have hlist : s.list = l := by rw [Cluster.list, hl]; rfl
      refine step_of_sublist h (fun _ => Cmd.noConfusion) rfl rfl ?_
      rw [hlist]
      exact syncSweep_sublist l
  | some recs =>
    obtain rfl := Option.some.inj hstep
    obtain ⟨start, hstart⟩ : ∃ start, start = { s with licenses := some s.list } := ⟨_, rfl⟩
    have hlist : start.list = s.list := by rw [hstart]; rfl
    have hnext : start.nextLicId = s.nextLicId := by rw [hstart]
    have hinv : Inv start := h.of_sublist hnext (hlist ▸ List.Sublist.refl _)
    have hneeded : idsNeeded s (.syncRemote (some recs))
        = (recs.foldl syncRec start).list.length - start.list.length := by
      rw [idsNeeded, hstart]
      rfl
    rw [idsLast_iff fun _ => Cmd.noConfusion, keepsIds_iff fun _ => Cmd.noConfusion, hneeded, ← hstart,
      ← hnext]
    have hswept : start.nextLicId.toNat
          + ((recs.foldl syncRec start).list.length - start.list.length) ≤ 65534 →
        Inv { recs.foldl syncRec start with
          licenses := some (syncSweep (recs.foldl syncRec start).list) } := fun hfits =>
      (foldl_syncRec_inv recs hinv hfits).1.of_sublist rfl (syncSweep_sublist _)
    refine ⟨hswept, ?_, fun hfits => ⟨(hswept hfits).distinct, (foldl_syncRec_inv recs hinv hfits).2⟩⟩
    rintro ⟨hdistinct, hwrap⟩
    have hlt := (recs.foldl syncRec start).nextLicId.toNat_lt
    have hwrap' : (recs.foldl syncRec start).nextLicId.toNat = start.nextLicId.toNat
        + ((recs.foldl syncRec start).list.length - start.list.length) := hwrap
    refine foldl_syncRec_fits recs hinv.next_le (by omega) fun e he hremote => ?_
    obtain ⟨e', he', hid⟩ := licId_mem_syncSweep he hremote
    rw [← hid]
    exact hdistinct.1 e' he'

/-! ## The run -/

theorem exec_step {s : Cluster} (h : Inv s) (hstep : exec s c = some s') :
    (IdsLast s c → Inv s') ∧ (Distinct s' ∧ KeepsIds s c s' ↔ IdsLast s c) := by
  cases c with
  | update conf =>
    obtain rfl := Option.some.inj hstep
    exact licenseUpdate_step h conf
  | addRemote rec =>
    obtain rfl := Option.some.inj hstep
    exact licenseAddRemote_step h rec
  | updateRemote rec =>
    obtain rfl := Option.some.inj hstep
    exact licenseUpdateRemote_step h rec
  | removeRemote rec =>
    obtain rfl := Option.some.inj hstep
    exact licenseRemoveRemote_step h rec
  | syncRemote recs => exact licenseSyncRemote_step h recs hstep

/-- The number of entries of a configuration. -/
theorem idsMissing_confList (conf : Config) : idsMissing (confList conf) = (confList conf).length :=
  List.countP_eq_length.mpr fun _ hm => decide_eq_true (confList_licId hm).1

theorem licenseInit_list (conf : Config) :
    (licenseInit conf).list = (setIds (confList conf) 0).1 ∧
      (licenseInit conf).nextLicId = (setIds (confList conf) 0).2 :=
  setLicenseIds_list { licenses := conf.map (List.map ConfEntry.license), nextLicId := 0 }

/-- The state after `license_init`, when the configuration has not more entries than
there are ids. -/
theorem licenseInit_inv {conf : Config} (hfits : (confList conf).length ≤ 65534) :
    Inv (licenseInit conf) := by
  have hstart : Inv { licenses := none, nextLicId := 0 } :=
    { ids :=
        { lt := fun k hk => absurd hk not_mem_nil
          nodup := nodup_nil
          locals_first := List.Pairwise.nil }
      next_le := by decide }
  have hlist : (updateList conf []).getD [] = confList conf := rfl
  have hmissing : (0 : UInt16).toNat + idsMissing ((updateList conf []).getD []) ≤ 65534 := by
    rw [hlist, idsMissing_confList]
    show 0 + _ ≤ _
    omega
  exact hstart.setIds_inv conf hmissing

/-- License identity holds along the runs whose configuration and steps need no more
ids than there are, whose updates find a list when they bring entries, and in which no
two old entries match one record. -/
theorem identityContract_iff (conf : Config) (cmds : List Cmd) :
    IdentityContract conf cmds ↔
      (confList conf).length ≤ 65534 ∧ Guarded exec IdsLast (licenseInit conf) cmds := by
  have hrule : (confList conf).length ≤ 65534 →
      (Always exec Distinct (licenseInit conf) cmds ∧ EachStep exec KeepsIds (licenseInit conf) cmds ↔
        Guarded exec IdsLast (licenseInit conf) cmds) := by
    intro hfits
    refine Lib.Run.always_eachStep_iff (I := Inv) ?_ ?_ (licenseInit_inv hfits)
    · exact fun _ hinv => hinv.distinct
    · exact fun _ _ _ hinv hstep => exec_step hinv hstep
  obtain ⟨hlist, hnext⟩ := licenseInit_list conf
  have hcount := setIds_next (confList conf) 0
  rw [idsMissing_confList, show (0 : UInt16).toNat = 0 from rfl, Nat.zero_add] at hcount
  constructor
  · intro h
    have hwrap := h.init_not_wrapped
    rw [hnext, hcount] at hwrap
    have hfits : (confList conf).length ≤ 65534 := by
      have hids := h.distinct.start.1
      rw [hlist] at hids
      have hmissing := @setIds_fits _ 0 (by decide) ?_ hids
      · rw [idsMissing_confList, show (0 : UInt16).toNat = 0 from rfl, Nat.zero_add] at hmissing
        exact hmissing
      · rw [idsMissing_confList, show (0 : UInt16).toNat = 0 from rfl]
        omega
    exact ⟨hfits, (hrule hfits).mp ⟨h.distinct, h.keeps_ids⟩⟩
  · rintro ⟨hfits, hguard⟩
    obtain ⟨hdistinct, hkeeps⟩ := (hrule hfits).mpr hguard
    refine ⟨hdistinct, hkeeps, ?_⟩
    rw [hnext, hcount, Nat.mod_eq_of_lt (by omega)]

/-- The license `matlab`, of which there are ten. -/
def matlab : ConfEntry where
  name := "matlab"
  nodes := none
  opOr := false
  total := 10
  mode := 0

/-- Licenses are configured where there were none. -/
def firstLicenses : List Cmd := [.update (some [matlab])]

/-- The entry has no id. -/
theorem identityContract_fails : ¬ IdentityContract none firstLicenses := by
  intro h
  exact (h.distinct.2 _ rfl).1 matlab.license List.mem_cons_self rfl

end Slurm.Licenses
