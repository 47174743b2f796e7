import FramePlan.Proofs.PassGraph.Order

/-!
# When there is an order

Working passes off stops when nothing is ready. If passes are left then, each of them waits for
another one that is left, so some of them wait for themselves.

* `PassGraph.ready_exhausted` — enough passes are worked off for the frontier to come to its end.
* `PassGraph.order_cases` — there is an order just when no pass precedes itself.
-/

namespace FramePlan

namespace PassGraph

variable {g : PassGraph} {f : Frontier}

theorem advance_of_ready_nil (h : f.ready = []) : g.advance f = f := by
  rw [advance, Frontier.take?, h]

theorem advanceBy_of_ready_nil (h : f.ready = []) (n : Nat) : g.advanceBy n f = f := by
  induction n with
  | zero => rfl
  | succ n ih => rw [advanceBy, advance_of_ready_nil h, ih]

theorem length_done_advance (hclosed : g.Closed) (h : g.InStep f) (hready : f.ready ≠ []) :
    (g.advance f).done.length = f.done.length + 1 := by
  rw [advance, Frontier.take?]
  cases hf : f.ready with
  | nil => exact absurd hf hready
  | cons p rest =>
      obtain ⟨hp, htaken⟩ := h.1.take hf
      obtain ⟨hdone, _⟩ := htaken.complete hclosed (by simp) hp
      exact (congrArg List.length hdone).trans (List.length_append ..)

/-- After some rounds nothing is ready, or each round completed a pass. -/
theorem ready_or_length_advanceBy (hclosed : g.Closed) (n : Nat) (h : g.InStep f) :
    (g.advanceBy n f).ready = [] ∨ (g.advanceBy n f).done.length = f.done.length + n := by
  induction n generalizing f with
  | zero => exact Or.inr rfl
  | succ n ih =>
      by_cases hready : f.ready = []
      · rw [advanceBy_of_ready_nil hready]
        exact Or.inl hready
      · refine (ih (inStep_advance hclosed h)).imp id fun hlength => ?_
        rw [advanceBy, hlength, length_done_advance hclosed h hready]
        omega

theorem inStep_start : g.InStep (.start g g.passes.toList) :=
  ⟨Frontier.Sound.start g.passes.nodup_toList fun _ => IdSet.mem_toList, Respects.nil⟩

/-- Passes are worked off until nothing is ready. -/
theorem ready_exhausted (hclosed : g.Closed) (hshort : g.exhausted.done.length ≠ g.passCount) :
    g.exhausted.ready = [] := by
  apply (ready_or_length_advanceBy hclosed g.passCount inStep_start).resolve_right
  intro hlength
  exact hshort (hlength.trans (Nat.zero_add _))

/-- If none of several passes precedes itself, some pass among them is preceded by none of them. -/
theorem exists_first {ps : List PassId} (hacyclic : ∀ p ∈ ps, ¬ g.Precedes p p) (hps : ps ≠ []) :
    ∃ p ∈ ps, ∀ q ∈ ps, ¬ g.Precedes q p := by
  induction ps with
  | nil => exact absurd rfl hps
  | cons p rest ih =>
      by_cases hrest : rest = []
      · subst hrest
        refine ⟨p, List.mem_cons_self, fun q hq => ?_⟩
        rw [List.mem_singleton.mp hq]
        exact hacyclic p List.mem_cons_self
      · obtain ⟨m, hm, hfirst⟩ := ih (fun q hq => hacyclic q (List.mem_cons_of_mem p hq)) hrest
        by_cases hpm : g.Precedes p m
        · refine ⟨p, List.mem_cons_self, fun q hq hqp => ?_⟩
          rcases List.mem_cons.mp hq with rfl | hq
          · exact hacyclic q List.mem_cons_self hqp
          · exact hfirst q hq (hqp.trans hpm)
        · refine ⟨m, List.mem_cons_of_mem p hm, fun q hq => ?_⟩
          rcases List.mem_cons.mp hq with rfl | hq
          · exact hpm
          · exact hfirst q hq

theorem sound_exhausted (hclosed : g.Closed) : g.exhausted.Sound g g.exhausted.done :=
  (inStep_advanceBy hclosed g.passCount inStep_start).1

/-- When nothing is ready, a pass that is left waits for another one that is left. -/
theorem exists_missing {p : PassId} (hclosed : g.Closed) (hready : g.exhausted.ready = [])
    (hp : p ∈ g.passes) (hdone : p ∉ g.exhausted.done) :
    ∃ a, g.hasEdge a p ∧ a ∉ g.exhausted.done := by
  by_contra hnone
  simp only [not_exists, not_and, not_not] at hnone
  have hreached := ((sound_exhausted hclosed).reached p).mpr ⟨hp, hnone⟩
  rw [hready] at hreached
  exact hreached.elim List.not_mem_nil hdone

theorem length_done_of_forall (hclosed : g.Closed) (hall : ∀ p ∈ g.passes, p ∈ g.exhausted.done) :
    g.exhausted.done.length = g.passCount := by
  have hsound := sound_exhausted hclosed
  have hle := (g.passes.nodup_toList.subperm fun p hp =>
    hall p (IdSet.mem_toList.mp hp)).length_le
  have hge := (hsound.done_nodup.subperm fun p hp =>
    IdSet.mem_toList.mpr (hsound.mem_passes hp)).length_le
  rw [length_passes] at hle hge
  exact Nat.le_antisymm hge hle

/-- **Without cycles every pass is worked off.** -/
theorem length_done_exhausted (hclosed : g.Closed) (hacyclic : ∀ p, ¬ g.Precedes p p) :
    g.exhausted.done.length = g.passCount := by
  by_contra hshort
  have hready := ready_exhausted hclosed hshort
  have hnonempty : g.passes.toList.filter (fun p => p ∉ g.exhausted.done) ≠ [] := by
    intro hnil
    refine hshort (length_done_of_forall hclosed fun p hp => ?_)
    simpa using List.filter_eq_nil_iff.mp hnil p (IdSet.mem_toList.mpr hp)
  obtain ⟨p, hp, hfirst⟩ := exists_first (fun p _ => hacyclic p) hnonempty
  obtain ⟨hpass, hdone⟩ := List.mem_filter.mp hp
  obtain ⟨a, hedge, ha⟩ := exists_missing hclosed hready (IdSet.mem_toList.mp hpass)
    (by simpa using hdone)
  refine hfirst a (List.mem_filter.mpr ⟨?_, by simpa using ha⟩) (.of_hasEdge hedge)
  exact IdSet.mem_toList.mpr (mem_passes_of_hasEdge hedge)

/-- **There is an order just when no pass precedes itself**; otherwise some passes are left over. -/
theorem order_cases (hclosed : g.Closed) :
    (∃ order, g.order = .ok order ∧ ∀ p, ¬ g.Precedes p p) ∨
      ∃ remaining, g.order = .error (.notADag remaining) ∧ ∃ p, g.Precedes p p := by
  by_cases hlength : g.exhausted.done.length = g.passCount
  · have hok : g.order = .ok g.exhausted.done := if_pos hlength
    obtain ⟨_, hmem, hrespects⟩ := order_ok hclosed hok
    refine Or.inl ⟨_, hok, fun p hp => ?_⟩
    obtain ⟨a, hedge, _⟩ := Relation.TransGen.head'_iff.mp hp
    have hp' := (hmem p).mpr (mem_passes_of_hasEdge hedge)
    exact Nat.lt_irrefl _ (hrespects.idxOf_lt hp' hp)
  · refine Or.inr ⟨_, if_neg hlength, ?_⟩
    by_contra hnone
    exact hlength (length_done_exhausted hclosed fun p hp => hnone ⟨p, hp⟩)

end PassGraph

end FramePlan
