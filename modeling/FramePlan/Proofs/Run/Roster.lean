import FramePlan.Proofs.Plan.Basic
import FramePlan.Run.Dispatch

/-!
# The roster of the dispatch

`Dispatch.Roster` is what the dispatch knows about passes alone, whichever calls fail or panic: the
frontier is right about the passes that have begun, and those that run have begun and are not done.
Each kind of turn keeps it, whether or not the turn goes well.

* `Dispatch.Roster.begin`, `Dispatch.Roster.finish` and their failing counterparts — what each turn
  keeps.
* `Dispatch.Roster.progress` — if each pass that has begun runs or is done, then some pass is ready
  or runs until all are done.
-/

namespace FramePlan

variable {σ η : Type}

namespace Dispatch

/-- The passes that run. -/
def runningPasses (d : Dispatch σ η) : List PassId := d.running.map (·.1)

theorem map_eraseP_running {d : Dispatch σ η} {p : PassId} :
    (d.running.eraseP fun x => x.1 = p).map (·.1) = d.runningPasses.erase p := by
  unfold runningPasses
  rw [List.erase_eq_eraseP', List.eraseP_map]
  rfl

section Fail

variable {d : Dispatch σ η} {err : RunError}

@[simp]
theorem fail_frontier : (d.fail err).frontier = d.frontier := rfl

@[simp]
theorem fail_users : (d.fail err).users = d.users := rfl

@[simp]
theorem fail_running : (d.fail err).running = d.running := rfl

@[simp]
theorem fail_lost : (d.fail err).lost = d.lost := rfl

theorem runningPasses_fail : (d.fail err).runningPasses = d.runningPasses := rfl

theorem fail_error_ne_none : (d.fail err).error ≠ none := by simp [fail]

end Fail

/-- The frontier is right about the passes that have begun; those that run have begun, and are not
done. -/
structure Roster (plan : Plan) (begun : List PassId) (d : Dispatch σ η) : Prop where
  frontier : d.frontier.Sound plan.graph begun
  running_nodup : d.runningPasses.Nodup
  running : ∀ p ∈ d.runningPasses, p ∈ begun ∧ p ∉ d.frontier.done

namespace Roster

variable {frame : Frame} {plan : Plan} {begun rest : List PassId} {d e : Dispatch σ η} {p : PassId}

theorem start (hf : plan.Fits frame) (s : σ) :
    Roster plan [] (Dispatch.start plan s : Dispatch σ η) where
  frontier := Frontier.Sound.start hf.order_nodup fun _ => hf.mem_passes.symm
  running_nodup := List.nodup_nil
  running _ hp := absurd hp List.not_mem_nil

theorem mem_order (h : Roster plan begun d) (hf : plan.Fits frame) (hp : p ∈ begun) :
    p ∈ plan.order := hf.mem_passes.mp (h.frontier.mem_passes hp)

theorem length_begun_le (h : Roster plan begun d) (hf : plan.Fits frame) :
    begun.length ≤ plan.passCount := by
  rw [← Plan.Fits.length_order]
  apply (h.frontier.taken_nodup.subperm _).length_le
  exact fun _ hp => h.mem_order hf hp

/-- The pass at the head of the queue has not begun, and its predecessors are complete. -/
theorem fresh (h : Roster plan begun d) (hf : plan.Fits frame)
    (hready : d.frontier.ready = p :: rest) :
    p ∈ plan.order ∧ p ∉ begun ∧ p ∉ d.frontier.done ∧
      ∀ a, plan.graph.hasEdge a p → a ∈ d.frontier.done := by
  have hmem : p ∈ d.frontier.ready := hready ▸ List.mem_cons_self ..
  obtain ⟨hpass, hpreds⟩ := (h.frontier.reached p).mp (Or.inl hmem)
  have hbegun := (h.frontier.take hready).1
  exact ⟨hf.mem_passes.mp hpass, hbegun, fun hdone => hbegun (h.frontier.done_taken p hdone),
    hpreds⟩

/-! ### The turns -/

theorem begin (h : Roster plan begun d) (hready : d.frontier.ready = p :: rest)
    (hfrontier : e.frontier = { d.frontier with ready := rest })
    (hrunning : e.runningPasses = d.runningPasses ++ [p]) : Roster plan (begun ++ [p]) e := by
  obtain ⟨hbegun, hsound⟩ := h.frontier.take hready
  refine ⟨hfrontier ▸ hsound, ?_, fun q hq => ?_⟩
  · rw [hrunning]
    apply List.nodup_append.mpr
    refine ⟨h.running_nodup, List.nodup_singleton p, fun a ha b hb hab => ?_⟩
    cases List.mem_singleton.mp hb
    exact hbegun (hab ▸ (h.running a ha).1)
  · rw [hfrontier]
    rw [hrunning] at hq
    rcases List.mem_append.mp hq with hq | hq
    · exact ⟨List.mem_append_left _ (h.running q hq).1, (h.running q hq).2⟩
    · cases List.mem_singleton.mp hq
      exact ⟨List.mem_append_right _ hq, fun hdone => hbegun (h.frontier.done_taken p hdone)⟩

/-- A pass that fails to begin counts as begun all the same. -/
theorem fail_begin (h : Roster plan begun d) (hready : d.frontier.ready = p :: rest)
    (hfrontier : e.frontier = { d.frontier with ready := rest })
    (hrunning : e.runningPasses = d.runningPasses) : Roster plan (begun ++ [p]) e := by
  refine ⟨hfrontier ▸ (h.frontier.take hready).2, hrunning ▸ h.running_nodup, fun q hq => ?_⟩
  rw [hrunning] at hq
  rw [hfrontier]
  exact ⟨List.mem_append_left _ (h.running q hq).1, (h.running q hq).2⟩

theorem finish (h : Roster plan begun d) (hf : plan.Fits frame) (hp : p ∈ d.runningPasses)
    (hfrontier : e.frontier = d.frontier.complete plan.graph p)
    (hrunning : e.runningPasses = d.runningPasses.erase p) :
    Roster plan begun e ∧ e.frontier.done = d.frontier.done ++ [p] := by
  obtain ⟨hbegun, hdone⟩ := h.running p hp
  obtain ⟨hcompleted, hsound⟩ := h.frontier.complete hf.closed hbegun hdone
  have hdone' : e.frontier.done = d.frontier.done ++ [p] := by rw [hfrontier, hcompleted]
  refine ⟨⟨hfrontier ▸ hsound, hrunning ▸ h.running_nodup.erase p, fun q hq => ?_⟩, hdone'⟩
  rw [hrunning] at hq
  obtain ⟨hne, hq⟩ := h.running_nodup.mem_erase_iff.mp hq
  obtain ⟨hqbegun, hqdone⟩ := h.running q hq
  refine ⟨hqbegun, ?_⟩
  rw [hdone', List.mem_append, List.mem_singleton]
  exact fun hmem => hmem.elim hqdone hne

/-- A pass that fails to finish is not done, and runs no more. -/
theorem fail_finish (h : Roster plan begun d) (hfrontier : e.frontier = d.frontier)
    (hrunning : e.runningPasses = d.runningPasses.erase p) : Roster plan begun e := by
  refine ⟨hfrontier ▸ h.frontier, hrunning ▸ h.running_nodup.erase p, fun q hq => ?_⟩
  rw [hrunning] at hq
  rw [hfrontier]
  exact h.running q (List.mem_of_mem_erase hq)

/-! ### Progress -/

/-- **If each pass that has begun runs or is done, then some pass is ready or runs until all passes
are done.** -/
theorem progress (h : Roster plan begun d) (hf : plan.Fits frame)
    (haccounted : ∀ p ∈ begun, p ∈ d.frontier.done ∨ p ∈ d.runningPasses)
    (hleft : d.frontier.done.length < plan.passCount) :
    d.frontier.ready ≠ [] ∨ d.runningPasses ≠ [] := by
  by_contra hstuck
  obtain ⟨hnotReady, hnotRunning⟩ := not_or.mp hstuck
  have hready : d.frontier.ready = [] := not_not.mp hnotReady
  have hrunning : d.runningPasses = [] := not_not.mp hnotRunning
  -- A pass whose predecessors are done was reached, so it has begun, and is done itself.
  have hall : ∀ p ∈ plan.order, p ∈ d.frontier.done := by
    apply hf.respects.forall_of_predecessors (P := (· ∈ d.frontier.done))
    intro p hp hpreds
    have hreached := (h.frontier.reached p).mpr ⟨hf.mem_passes.mpr hp, hpreds⟩
    rw [hready] at hreached
    have hbegun := hreached.resolve_left List.not_mem_nil
    have hended := haccounted p hbegun
    rw [hrunning] at hended
    exact hended.resolve_right List.not_mem_nil
  have hlength := (hf.order_nodup.subperm hall).length_le
  rw [Plan.Fits.length_order] at hlength
  omega

end Roster

end Dispatch

end FramePlan
