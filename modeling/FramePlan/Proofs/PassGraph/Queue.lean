import FramePlan.Proofs.PassGraph.Acyclic

/-!
# The order of passes is a queue

The pass that has been ready the longest is worked off next, and what becomes ready queues up
behind the others. So the passes that are done and after them those that are ready make up a
beginning of the order, however far the frontier is.

* `PassGraph.queue_advance` — the queue only grows, and only at its end.
* `PassGraph.start_of_order` — the sources come in the same order in the order of passes.
* `PassGraph.Leads.head` — on the way to the order, its next pass is at the head of the queue.
-/

namespace FramePlan

namespace Frontier

/-- The passes that are done, and after them those that are ready. -/
def queue (f : Frontier) : List PassId := f.done ++ f.ready

theorem queue_arrive (f : Frontier) (q : PassId) : f.queue <+: (f.arrive q).queue := by
  rw [arrive]
  split
  · next n _ =>
    by_cases hzero : n = 0
    · simp only [queue, hzero, if_true, ← List.append_assoc]
      exact List.prefix_append ..
    · simp only [queue, hzero, if_false]
      exact List.prefix_refl _
  · exact List.prefix_refl _

theorem queue_foldl_arrive (f : Frontier) (qs : List PassId) :
    f.queue <+: (qs.foldl arrive f).queue := by
  induction qs generalizing f with
  | nil => exact List.prefix_refl _
  | cons q qs ih => exact (queue_arrive f q).trans (ih (f.arrive q))

end Frontier

namespace PassGraph

variable {g : PassGraph} {f : Frontier} {order : List PassId}

/-- **The queue only grows, and only at its end.** -/
theorem queue_advance : f.queue <+: (g.advance f).queue := by
  rw [advance, Frontier.take?]
  cases hready : f.ready with
  | nil => exact List.prefix_refl _
  | cons p rest =>
      have htaken : f.queue = Frontier.queue
          { f with ready := rest, done := f.done ++ [p] } := by
        simp [Frontier.queue, hready]
      rw [htaken]
      exact Frontier.queue_foldl_arrive _ _

theorem queue_advanceBy (n : Nat) : f.queue <+: (g.advanceBy n f).queue := by
  induction n generalizing f with
  | zero => exact List.prefix_refl _
  | succ n ih => exact queue_advance.trans ih

theorem done_exhausted (h : g.order = .ok order) : g.exhausted.done = order := by
  rw [PassGraph.order] at h
  split at h
  · cases h
    rfl
  · cases h

/-- When all passes are done, none is ready. -/
theorem ready_of_order (hclosed : g.Closed) (h : g.order = .ok order) :
    g.exhausted.ready = [] := by
  have hsound := sound_exhausted hclosed
  obtain ⟨_, hmem, _⟩ := order_ok hclosed h
  apply List.eq_nil_iff_forall_not_mem.mpr
  intro p hp
  have hpass := ((hsound.reached p).mp (Or.inl hp)).1
  have hdone : p ∈ g.exhausted.done := (done_exhausted h).symm ▸ (hmem p).mpr hpass
  exact (List.nodup_append.mp hsound.nodup).2.2 p hp p hdone rfl

theorem queue_exhausted (hclosed : g.Closed) (h : g.order = .ok order) :
    g.exhausted.queue = order := by
  rw [Frontier.queue, ready_of_order hclosed h, List.append_nil, done_exhausted h]

/-- The sources of the graph come in the same order in the order of passes. -/
theorem start_of_order (hclosed : g.Closed) (h : g.order = .ok order) :
    Frontier.start g order = .start g g.passes.toList := by
  obtain ⟨hnodup, hmem, _⟩ := order_ok hclosed h
  have hprefix : (Frontier.start g g.passes.toList).queue <+: order :=
    queue_exhausted hclosed h ▸ queue_advanceBy g.passCount
  obtain ⟨rest, hrest⟩ := hprefix
  rw [Frontier.queue, Frontier.start, List.nil_append] at hrest
  have hnone : rest.filter (fun p => g.inDegree p = 0) = [] := by
    apply List.filter_eq_nil_iff.mpr
    intro p hp hsource
    have hpass := (hmem p).mp (hrest ▸ List.mem_append_right _ hp)
    have hfirst : p ∈ g.passes.toList.filter fun p => g.inDegree p = 0 :=
      List.mem_filter.mpr ⟨IdSet.mem_toList.mpr hpass, hsource⟩
    rw [← hrest] at hnodup
    exact (List.nodup_append.mp hnodup).2.2 p hfirst p hp rfl
  have hready : order.filter (fun p => g.inDegree p = 0) =
      g.passes.toList.filter fun p => g.inDegree p = 0 := by
    rw [← hrest, List.filter_append, hnone, List.append_nil, List.filter_filter]
    simp only [Bool.and_self]
  rw [Frontier.start, Frontier.start, hready]

/-- Working passes off from the frontier leads to the order. -/
def Leads (g : PassGraph) (f : Frontier) : Prop := ∃ n, g.advanceBy n f = g.exhausted

namespace Leads

theorem start : g.Leads (.start g g.passes.toList) := ⟨g.passCount, rfl⟩

theorem queue_prefix (h : g.Leads f) (hclosed : g.Closed) (horder : g.order = .ok order) :
    f.queue <+: order := by
  obtain ⟨n, hn⟩ := h
  rw [← queue_exhausted hclosed horder, ← hn]
  exact queue_advanceBy n

/-- **The next pass of the order is at the head of the queue.** -/
theorem head {pre post : List PassId} {p q : PassId} {rest : List PassId} (h : g.Leads f)
    (hclosed : g.Closed) (horder : g.order = .ok (pre ++ p :: post)) (hdone : f.done = pre)
    (hready : f.ready = q :: rest) : q = p := by
  obtain ⟨later, hlater⟩ := h.queue_prefix hclosed horder
  rw [Frontier.queue, hdone, hready, List.append_assoc, List.append_cancel_left_eq] at hlater
  exact (List.cons_eq_cons.mp hlater).1

theorem advance {p : PassId} {rest : List PassId} (h : g.Leads f) (hclosed : g.Closed)
    (horder : g.order = .ok order) (hready : f.ready = p :: rest) :
    g.Leads (Frontier.complete g { f with ready := rest } p) := by
  have hadvance : g.advance f = Frontier.complete g { f with ready := rest } p := by
    rw [PassGraph.advance, Frontier.take?, hready]
  rw [← hadvance]
  obtain ⟨n, hn⟩ := h
  cases n with
  | zero =>
      -- The frontier would be at its end, where nothing is ready.
      have hnone := ready_of_order hclosed horder
      rw [← hn] at hnone
      cases hready.symm.trans hnone
  | succ n => exact ⟨n, hn⟩

end Leads

end PassGraph

end FramePlan
