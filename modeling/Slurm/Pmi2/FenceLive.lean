import Slurm.Pmi2.FenceContract

/-!
# A fence does not get stuck

* `forwarded_of_waiting`: where all messages have arrived, every stepd has forwarded the round
  that its tasks wait for.
* `fence_live`: in every run, while all tasks wait some message is under way.
-/

namespace Slurm.Pmi2

open Lib.Forest Lib.Run Finset

variable {n : Nat} {st : Step n} {s : Net n}

/-- A task can go on, or a message is under way. -/
def Live (st : Step n) (s : Net n) : Prop :=
  (∃ v, ∃ t < st.ltasks v, s.blocked v t = false) ∨ s.resps ≠ [] ∨
    ∃ i < s.fences.length, i ∉ s.delivered

theorem delivered_of_forwarded {v : Fin n} {r : Nat}
    (hall : ∀ i < s.fences.length, i ∈ s.delivered) (h : Forwarded s v r) : Delivered s v r := by
  obtain ⟨m, hm, hv⟩ := h
  obtain ⟨i, hi, hget⟩ := List.getElem_of_mem hm
  exact ⟨i, hall i hi, m, List.getElem?_eq_some_iff.mpr ⟨hi, hget⟩, hv⟩

theorem forwarded_of_waiting {r : Nat} (h : FenceContract st s) (hr : 1 ≤ r)
    (hfenced : ∀ v, ∀ t < st.ltasks v, r ≤ s.fenced v t)
    (hall : ∀ i < s.fences.length, i ∈ s.delivered) (v : Fin n) : Forwarded s v r := by
  classical
  by_contra hv
  -- a deepest stepd that has not
  obtain ⟨u, hu, hdeep⟩ := exists_max_image (Finset.univ.filter fun v => ¬Forwarded s v r)
    st.tree.depth ⟨v, by simpa using hv⟩
  simp only [Finset.mem_filter, mem_univ, true_and] at hu hdeep
  refine hu (h.forwards u r hr (hfenced u) fun c hc => delivered_of_forwarded hall ?_)
  by_contra hnot
  exact absurd (hdeep c hnot) (Nat.not_le.mpr (st.tree.depth_lt c u hc))

theorem exists_child (hn : 0 < n) (st : Step n) : (st.tree.children none).Nonempty := by
  obtain ⟨u, -, hmin⟩ := exists_min_image Finset.univ st.tree.depth ⟨⟨0, hn⟩, mem_univ _⟩
  refine ⟨u, mem_children.mpr ?_⟩
  cases hu : st.tree.parent u with
  | none => rfl
  | some w => exact absurd (hmin w (mem_univ w)) (Nat.not_le.mpr (st.tree.depth_lt u w hu))

theorem Inv.live (h : Inv st ∅ s) (hn : 0 < n) : Live st s := by
  by_contra hstuck
  simp only [Live, not_or, not_exists, not_and, not_not] at hstuck
  obtain ⟨hblocked, hresps, hall⟩ := hstuck
  have hcontract := h.fenceContract
  have hfenced : ∀ v, ∀ t < st.ltasks v, s.answers.length + 1 ≤ s.fenced v t := by
    intro v t ht
    have hhandled : ¬s.handled v < s.answers.length := by
      intro hlt
      obtain ⟨m, hm, -⟩ := hcontract.responds v hlt
      rw [hresps] at hm
      cases hm
    rw [(h.stepd v).fenced t ht, Bool.eq_true_of_not_eq_false (hblocked v t ht)]
    exact Nat.succ_le_succ (Nat.le_of_not_lt hhandled)
  have hanswered := hcontract.answers (s.answers.length + 1) (exists_child hn st) fun c _ =>
    delivered_of_forwarded hall (forwarded_of_waiting hcontract (Nat.le_add_left 1 _) hfenced hall c)
  exact absurd hanswered (Nat.not_succ_le_self _)

/-- Tasks do not all wait for a message that nobody sends. -/
theorem fence_live (hn : 0 < n) (st : Step n) {as : List (Action n)}
    (hallowed : Guarded (exec st) (Allowed st) (Net.init st) as) :
    Always (exec st) (Live st) (Net.init st) as :=
  (always_of_guarded (fun _ _ _ hinv hguard hexec => hinv.exec hguard hexec) (inv_init st)
    hallowed).imp fun _ hinv => hinv.live hn

theorem fence_live_twoTasks : Always (exec twoTasks) (Live twoTasks) (Net.init twoTasks)
    [.fence 0 0, .put 0 1 ([1#8], [2#8]), .fence 0 1, .deliver 0, .respond 0] :=
  fence_live (by decide) twoTasks (by decide +kernel)

end Slurm.Pmi2
