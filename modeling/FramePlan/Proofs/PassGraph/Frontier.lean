import FramePlan.PassGraph.Frontier
import FramePlan.Proofs.PassGraph.Edges

/-!
# The frontier keeps count

`Frontier.Sound` is what a frontier says about the graph while passes are taken from it and
completed: each count is the number of missing predecessors, and a pass is ready or was taken just
when it misses none. Taking the longest ready pass and completing a taken one keep it.

* `Frontier.Sound.start`, `Frontier.Sound.take`, `Frontier.Sound.complete` — the three steps.
* `Frontier.Sound.waiting_pos` — each successor of a pass that is completed waits for at least one.
-/

namespace FramePlan

namespace Frontier

variable {g : PassGraph} {f : Frontier} {p q : PassId}

/-- Arrivals at different passes count each of them down by one, and make those ready that come
down to zero. -/
theorem foldl_arrive (left : PassId → Nat) {qs : List PassId} (hnodup : qs.Nodup)
    (h : ∀ q ∈ qs, f.waiting.get? q = some (left q + 1)) :
    (qs.foldl arrive f).done = f.done ∧
      (∀ x, (qs.foldl arrive f).waiting.get? x =
        if x ∈ qs then some (left x) else f.waiting.get? x) ∧
      (qs.foldl arrive f).ready = f.ready ++ qs.filter fun x => left x = 0 := by
  induction qs generalizing f with
  | nil => simp
  | cons q qs ih =>
      obtain ⟨hq, hqs⟩ := List.nodup_cons.mp hnodup
      have harrive : arrive f q = { f with
          waiting := f.waiting.insert q (left q)
          ready := if left q = 0 then f.ready ++ [q] else f.ready } := by
        unfold arrive
        rw [h q (by simp)]
      have hrest : ∀ x ∈ qs, (arrive f q).waiting.get? x = some (left x + 1) := by
        intro x hx
        have hne : x ≠ q := fun heq => hq (heq ▸ hx)
        rw [harrive]
        exact (IdMap.get?_insert_of_ne hne).trans (h x (by simp [hx]))
      obtain ⟨hdone, hwaiting, hready⟩ := ih hqs hrest
      refine ⟨by rw [List.foldl_cons, hdone, harrive], fun x => ?_, ?_⟩
      · rw [List.foldl_cons, hwaiting, harrive]
        by_cases hx : x = q
        · subst hx
          simp [hq]
        · simp [hx, IdMap.get?_insert]
      · rw [List.foldl_cons, hready, harrive, List.filter_cons]
        by_cases hzero : left q = 0 <;> simp [hzero]

/-- The frontier is right about the graph when the given passes were taken from it. -/
structure Sound (g : PassGraph) (taken : List PassId) (f : Frontier) : Prop where
  waiting : ∀ q ∈ g.passes, f.waiting.get? q = some (g.missing f.done q)
  reached : ∀ q, q ∈ f.ready ∨ q ∈ taken ↔ q ∈ g.passes ∧ ∀ a, g.hasEdge a q → a ∈ f.done
  nodup : (f.ready ++ taken).Nodup
  done_taken : ∀ p ∈ f.done, p ∈ taken
  done_nodup : f.done.Nodup

namespace Sound

variable {taken : List PassId}

theorem start {ps : List PassId} (hps : ps.Nodup) (hmem : ∀ p, p ∈ ps ↔ p ∈ g.passes) :
    Sound g [] (Frontier.start g ps) where
  waiting q hq := by
    show g.inDegrees.get? q = some (g.missing [] q)
    simp [PassGraph.inDegrees, IdMap.get?_tabulate, hq, PassGraph.missing_nil]
  reached q := by
    show q ∈ ps.filter _ ∨ q ∈ [] ↔ _
    rw [List.mem_filter, hmem]
    simp [← PassGraph.missing_nil, PassGraph.missing_eq_zero_iff, Frontier.start]
  nodup := by
    show (ps.filter _ ++ []).Nodup
    rw [List.append_nil]
    exact hps.filter _
  done_taken p hp := absurd hp List.not_mem_nil
  done_nodup := List.nodup_nil

theorem mem_passes (h : Sound g taken f) (hp : p ∈ taken) : p ∈ g.passes :=
  ((h.reached p).mp (Or.inr hp)).1

theorem taken_nodup (h : Sound g taken f) : taken.Nodup := (List.nodup_append.mp h.nodup).2.1

/-- Whatever precedes a taken pass is done. -/
theorem done_of_precedes (h : Sound g taken f) (hpq : g.Precedes p q) (hq : q ∈ taken) :
    p ∈ f.done :=
  PassGraph.Precedes.mem_of_closed (· ∈ taken) (fun q hq => ((h.reached q).mp (Or.inr hq)).2)
    h.done_taken hpq hq

/-- The pass that has been ready the longest is taken. -/
theorem take {rest : List PassId} (h : Sound g taken f) (hready : f.ready = p :: rest) :
    p ∉ taken ∧ Sound g (taken ++ [p]) { f with ready := rest } := by
  have hnodup := h.nodup
  rw [hready, List.cons_append, List.nodup_cons, List.mem_append, not_or] at hnodup
  obtain ⟨⟨_, hp⟩, hrest⟩ := hnodup
  refine ⟨hp, h.waiting, fun q => ?_, ?_, fun q hq => ?_, h.done_nodup⟩
  · rw [← h.reached, hready, List.mem_append, List.mem_singleton]
    show q ∈ rest ∨ q ∈ taken ∨ q = p ↔ q ∈ p :: rest ∨ q ∈ taken
    rw [List.mem_cons]
    constructor
    · rintro (hq | hq | hq)
      · exact Or.inl (Or.inr hq)
      · exact Or.inr hq
      · exact Or.inl (Or.inl hq)
    · rintro ((hq | hq) | hq)
      · exact Or.inr (Or.inr hq)
      · exact Or.inl hq
      · exact Or.inr (Or.inl hq)
  · show (rest ++ (taken ++ [p])).Nodup
    have hperm : (p :: (rest ++ taken)).Perm (rest ++ (taken ++ [p])) := by
      rw [← List.append_assoc]
      exact (List.perm_append_singleton p _).symm
    have hold := h.nodup
    rw [hready] at hold
    exact hperm.nodup hold
  · exact List.mem_append_left _ (h.done_taken q hq)

/-- Each successor of a taken pass that is not done yet waits for at least one pass. -/
theorem waiting_pos (h : Sound g taken f) (hclosed : g.Closed) (hdone : p ∉ f.done)
    (hpq : g.hasEdge p q) :
    f.waiting.get? q = some (g.missing (f.done ++ [p]) q + 1) := by
  rw [h.waiting q (hclosed p q hpq), PassGraph.missing_complete hdone hpq]

/-- A taken pass is completed. -/
theorem complete (h : Sound g taken f) (hclosed : g.Closed) (hp : p ∈ taken)
    (hdone : p ∉ f.done) :
    (f.complete g p).done = f.done ++ [p] ∧ Sound g taken (f.complete g p) := by
  obtain ⟨hd, hw, hr⟩ := foldl_arrive (f := { f with done := f.done ++ [p] })
    (g.missing (f.done ++ [p])) (g.successors p).nodup_toList fun q hq =>
      h.waiting_pos hclosed hdone (PassGraph.hasEdge_iff.mpr hq)
  replace hd : (f.complete g p).done = f.done ++ [p] := hd
  have hedge : ∀ q, q ∈ (g.successors p).toList ↔ g.hasEdge p q := fun q =>
    PassGraph.hasEdge_iff.symm
  have hready : ∀ q, q ∈ (f.complete g p).ready ↔
      q ∈ f.ready ∨ g.hasEdge p q ∧ g.missing (f.done ++ [p]) q = 0 := by
    intro q
    show q ∈ ((g.successors p).toList.foldl arrive { f with done := f.done ++ [p] }).ready ↔ _
    rw [hr, List.mem_append, List.mem_filter, hedge, decide_eq_true_eq]
  -- A successor was not reached before: it missed `p`.
  have hfresh : ∀ q, g.hasEdge p q → ¬ (q ∈ f.ready ∨ q ∈ taken) := fun q hq hreached =>
    hdone (((h.reached q).mp hreached).2 p hq)
  refine ⟨hd, fun q hq => ?_, fun q => ?_, ?_, fun q hq => ?_, ?_⟩
  · show ((g.successors p).toList.foldl arrive { f with done := f.done ++ [p] }).waiting.get? q = _
    rw [hw, hd]
    by_cases hpq : g.hasEdge p q
    · rw [if_pos ((hedge q).mpr hpq)]
    · rw [if_neg fun hq => hpq ((hedge q).mp hq), PassGraph.missing_of_not_hasEdge hpq]
      exact h.waiting q hq
  · rw [hready, hd]
    constructor
    · rintro ((hq | ⟨hpq, hzero⟩) | hq)
      · obtain ⟨hpass, hpreds⟩ := (h.reached q).mp (Or.inl hq)
        exact ⟨hpass, fun a ha => List.mem_append_left _ (hpreds a ha)⟩
      · exact ⟨hclosed p q hpq, PassGraph.missing_eq_zero_iff.mp hzero⟩
      · obtain ⟨hpass, hpreds⟩ := (h.reached q).mp (Or.inr hq)
        exact ⟨hpass, fun a ha => List.mem_append_left _ (hpreds a ha)⟩
    · rintro ⟨hpass, hpreds⟩
      by_cases hpq : g.hasEdge p q
      · exact Or.inl (Or.inr ⟨hpq, PassGraph.missing_eq_zero_iff.mpr hpreds⟩)
      · have hold : ∀ a, g.hasEdge a q → a ∈ f.done := by
          intro a ha
          refine (List.mem_append.mp (hpreds a ha)).resolve_right fun hap => hpq ?_
          exact List.mem_singleton.mp hap ▸ ha
        exact ((h.reached q).mpr ⟨hpass, hold⟩).imp Or.inl id
  · show (((g.successors p).toList.foldl arrive
      { f with done := f.done ++ [p] }).ready ++ taken).Nodup
    rw [hr]
    obtain ⟨hreadyNodup, htaken, hdisjoint⟩ := List.nodup_append.mp h.nodup
    have hnew : ((g.successors p).toList.filter fun x =>
        decide (g.missing (f.done ++ [p]) x = 0)).Nodup := (g.successors p).nodup_toList.filter _
    have hnewFresh : ∀ q ∈ (g.successors p).toList.filter fun x =>
        decide (g.missing (f.done ++ [p]) x = 0), ¬ (q ∈ f.ready ∨ q ∈ taken) := fun q hq =>
      hfresh q ((hedge q).mp (List.mem_filter.mp hq).1)
    refine List.nodup_append.mpr ⟨List.nodup_append.mpr ⟨hreadyNodup, hnew, ?_⟩, htaken, ?_⟩
    · intro a ha b hb hab
      exact hnewFresh b hb (Or.inl (hab ▸ ha))
    · intro a ha b hb hab
      rcases List.mem_append.mp ha with ha | ha
      · exact hdisjoint a ha b hb hab
      · exact hnewFresh a ha (Or.inr (hab ▸ hb))
  · rw [hd] at hq
    rcases List.mem_append.mp hq with hq | hq
    · exact h.done_taken q hq
    · exact List.mem_singleton.mp hq ▸ hp
  · rw [hd]
    exact List.nodup_append.mpr ⟨h.done_nodup, List.nodup_singleton p, fun a ha b hb hab =>
      hdone (List.mem_singleton.mp hb ▸ hab ▸ ha)⟩

end Sound

end Frontier

end FramePlan
