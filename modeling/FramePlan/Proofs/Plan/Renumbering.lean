import FramePlan.Proofs.Frame.Renumbering
import FramePlan.Proofs.PassGraph.Leftover
import FramePlan.Proofs.Plan.Matching

/-!
# Plans under another order of registration

In which order the passes of a frame are registered decides their ids and the order of the plan. It
decides nothing else: frames that differ by the order of their passes only have plans that differ
by the ids of the passes, or fail for the same reason.

* `PassGraph.Renumbers.trapped_iff` — the passes on a cycle or behind one, under their other ids.
* `Plan.renumbers_of_ofFrame` — what two plans have in common.
* `Plan.ofFrame_equivariant` — how planning ends for the one frame and for the other.
-/

namespace FramePlan

variable {π : Equiv.Perm PassId}

/-! ### Graphs -/

namespace PassGraph

variable {g g' : PassGraph} {p q : PassId}

/-- The other graph has the same edges, under other ids. -/
def Renumbers (π : Equiv.Perm PassId) (g g' : PassGraph) : Prop :=
  ∀ a b, g'.hasEdge (π a) (π b) = g.hasEdge a b

namespace Renumbers

theorem symm (h : g.Renumbers π g') : g'.Renumbers π.symm g := by
  intro a b
  rw [← h, π.apply_symm_apply, π.apply_symm_apply]

theorem precedes (h : g.Renumbers π g') (hpq : g.Precedes p q) : g'.Precedes (π p) (π q) :=
  Relation.TransGen.lift π (fun a b hab => (h a b).trans hab) p q hpq

theorem trapped (h : g.Renumbers π g') (hp : g.Trapped p) : g'.Trapped (π p) := by
  obtain ⟨c, hcycle, rfl | hcp⟩ := hp
  · exact ⟨π c, h.precedes hcycle, Or.inl rfl⟩
  · exact ⟨π c, h.precedes hcycle, Or.inr (h.precedes hcp)⟩

theorem trapped_iff (h : g.Renumbers π g') : g'.Trapped (π p) ↔ g.Trapped p := by
  refine ⟨fun hp => ?_, h.trapped⟩
  have hback := h.symm.trapped hp
  rwa [π.symm_apply_apply] at hback

end Renumbers

end PassGraph

namespace Plan

variable {frame other : Frame} {plan plan' : Plan}

/-! ### Plans -/

/-- The other plan is for the same passes under other ids. -/
structure Renumbers (π : Equiv.Perm PassId) (plan plan' : Plan) : Prop where
  graph : plan.graph.Renumbers π plan'.graph
  writer : ∀ r, (plan'.usage.usage r).writer = (plan.usage.usage r).writer.map π
  readers : ∀ r p, π p ∈ (plan'.usage.usage r).readers ↔ p ∈ (plan.usage.usage r).readers
  copyIn : ∀ r, (plan'.usage.usage r).copyIn = (plan.usage.usage r).copyIn.map π
  /-- The same resources are referred to. -/
  keys : plan'.usage.uses.keys = plan.usage.uses.keys
  copiesIn : plan'.usage.copiesIn = plan.usage.copiesIn
  copiesOut : plan'.usage.copiesOut = plan.usage.copiesOut
  moves : plan'.moves = plan.moves
  prologue : plan'.prologue = plan.prologue

/-- Before any pass, the same happens in either plan. -/
theorem prologue_eq (h : frame.Matches π other) (hf : plan.Fits frame) (hf' : plan'.Fits other)
    (hmoves : plan'.moves = plan.moves) : plan'.prologue = plan.prologue := by
  have hconstructs : plan'.prologue.constructs = plan.prologue.constructs := by
    refine IdSet.eq_of_mem_iff (hf'.prologue ▸ Events.ascending_constructs)
      (hf.prologue ▸ Events.ascending_constructs) fun r => ?_
    rw [hf'.mem_prologue_constructs, hf.mem_prologue_constructs, hmoves, h.touched_iff]
  have hdestructs : plan'.prologue.destructs = plan.prologue.destructs := by
    refine IdSet.eq_of_mem_iff (hf'.prologue ▸ Events.ascending_destructs)
      (hf.prologue ▸ Events.ascending_destructs) fun r => ?_
    simp only [hf'.mem_prologue_destructs, hf.mem_prologue_destructs, hmoves, h.touched_iff]
  have hmoved : plan'.prologue.moves = plan.prologue.moves := by
    have hnodup' : plan'.prologue.moves.Nodup := hf'.prologue ▸ Events.nodup_moves
    have hnodup : plan.prologue.moves.Nodup := hf.prologue ▸ Events.nodup_moves
    have hperm := (List.perm_ext_iff_of_nodup hnodup' hnodup).mpr fun m => by
      rw [hf'.mem_prologue_moves, hf.mem_prologue_moves, hmoves, h.touched_iff]
    have hasc' : plan'.prologue.moves.Pairwise (·.src.index < ·.src.index) :=
      hf'.prologue ▸ Events.ascending_moves
    have hasc : plan.prologue.moves.Pairwise (·.src.index < ·.src.index) :=
      hf.prologue ▸ Events.ascending_moves
    refine List.Perm.eq_of_pairwise ?_ hasc' hasc hperm
    exact fun a b _ _ hab hba => absurd hab (Nat.lt_asymm hba)
  cases hprologue : plan.prologue
  cases hprologue' : plan'.prologue
  rw [hprologue, hprologue'] at hconstructs hdestructs hmoved
  cases hconstructs
  cases hdestructs
  cases hmoved
  rfl

/-- **Two plans have all in common** but the ids and the order of their passes. -/
theorem renumbers_of_ofFrame (h : frame.Matches π other) (hdeclared : frame.Declared)
    (hdeclared' : other.Declared) {t t' : UsageTable} {moves moves' : MoveTable}
    (hfound : Findings frame t moves) (hfound' : Findings other t' moves')
    (hplan : ofFrame frame = .ok plan) (hplan' : ofFrame other = .ok plan') :
    plan.Renumbers π plan' := by
  obtain ⟨husage, hmoves, hgraph⟩ := hfound.of_ok hplan
  obtain ⟨husage', hmoves', hgraph'⟩ := hfound'.of_ok hplan'
  have hsame : plan'.moves = plan.moves := by rw [hmoves', hmoves, moves_eq h hfound hfound']
  obtain ⟨hin, hout⟩ := copies_eq h (UsageTable.describesCopies_of_ofFrame hfound.collected)
    (UsageTable.describesCopies_of_ofFrame hfound'.collected)
  have husages := usage_matches h hfound.describes hfound'.describes
  refine ⟨?_, ?_, ?_, ?_, ?_, ?_, ?_, hsame, ?_⟩
  · rw [hgraph, hgraph']
    exact hasEdge_eq h hfound hfound'
  · rw [husage, husage']
    exact fun r => (husages r).1
  · rw [husage, husage']
    exact fun r => (husages r).2.2
  · rw [husage, husage']
    exact fun r => (husages r).2.1
  · rw [husage, husage']
    exact keys_eq h hfound.describes hfound'.describes
  · rw [husage, husage', hin]
  · rw [husage, husage', hout]
  · exact prologue_eq h (fits_of_ofFrame hdeclared hplan) (fits_of_ofFrame hdeclared' hplan') hsame

end Plan

/-! ### How planning ends -/

/-- Two passes claim one output, or a copy claims it twice. -/
inductive PlanError.IsClash : PlanError → Prop
  | writers {r : ResourceId} {p q : PassId} : IsClash (.multipleWriters r p q)
  | copyIns {r : ResourceId} {p q : PassId} : IsClash (.multipleCopyIns r p q)

theorem PlanError.isClash_clash (kind : PassKind) (r : ResourceId) (p q : PassId) :
    (PlanError.clash kind r p q).IsClash := by
  cases kind with
  | general => exact .writers
  | copy => exact .copyIns

namespace Plan

variable {frame other : Frame} {plan plan' : Plan}

/-- The ends of planning that say the same, be it of passes under other ids. -/
inductive Corresponds (π : Equiv.Perm PassId) : Except PlanError Plan → Except PlanError Plan → Prop
  | ok {plan plan' : Plan} : plan.Renumbers π plan' → Corresponds π (.ok plan) (.ok plan')
  | clash {e e' : PlanError} : e.IsClash → e'.IsClash → Corresponds π (.error e) (.error e')
  | moveCycle {r : ResourceId} : Corresponds π (.error (.moveCycle r)) (.error (.moveCycle r))
  | notADag {remaining remaining' : List PassId} : (∀ p, π p ∈ remaining' ↔ p ∈ remaining) →
      Corresponds π (.error (.notADag remaining)) (.error (.notADag remaining'))

/-- Once only the order is left to be found, either frame has a plan or neither has. -/
theorem corresponds_of_findings (h : frame.Matches π other) (hdeclared : frame.Declared)
    (hdeclared' : other.Declared) {t t' : UsageTable} {moves moves' : MoveTable}
    (hfound : Findings frame t moves) (hfound' : Findings other t' moves')
    (hwriter : frame.SingleWriter) (hcopy : frame.SingleCopy) (hstraight : frame.MovesAcyclic) :
    Corresponds π (ofFrame frame) (ofFrame other) := by
  have hdecided := (verdict_ofFrame hdeclared).decided
  have hdecided' := (verdict_ofFrame hdeclared').decided
  have hwriter' : other.SingleWriter := h.singleWriter hwriter
  have hcopy' : other.SingleCopy := h.singleCopy hcopy
  have hstraight' := h.movesAcyclic_iff.mpr hstraight
  by_cases hacyclic : frame.HazardsAcyclic
  · obtain ⟨plan, hplan⟩ := hdecided.ok_iff.mpr ⟨hwriter, hcopy, hstraight, hacyclic⟩
    obtain ⟨plan', hplan'⟩ := hdecided'.ok_iff.mpr
      ⟨hwriter', hcopy', hstraight', h.hazardsAcyclic_iff.mpr hacyclic⟩
    rw [hplan, hplan']
    exact .ok (renumbers_of_ofFrame h hdeclared hdeclared' hfound hfound' hplan hplan')
  · obtain ⟨remaining, herror⟩ := hdecided.notADag hwriter hcopy hstraight hacyclic
    obtain ⟨remaining', herror'⟩ := hdecided'.notADag hwriter' hcopy' hstraight'
      (mt h.hazardsAcyclic_iff.mp hacyclic)
    obtain ⟨_, heq, _, hmem⟩ := PassGraph.order_error hfound.closed (hfound.of_error herror)
    obtain ⟨_, heq', _, hmem'⟩ := PassGraph.order_error hfound'.closed (hfound'.of_error herror')
    cases heq
    cases heq'
    rw [herror, herror']
    refine .notADag fun p => ?_
    rw [hmem', hmem, PassGraph.Renumbers.trapped_iff (hasEdge_eq h hfound hfound')]

/-- Frames that differ by the order of their passes only fail for the same reason, or have plans
that differ by the ids of the passes. -/
theorem corresponds_of_renumbers (hrenumbers : frame.Renumbers π other)
    (hdeclared : frame.Declared) (hdeclared' : other.Declared) :
    Corresponds π (ofFrame frame) (ofFrame other) := by
  have h := hrenumbers.matches
  by_cases hsingle : frame.SingleWriter ∧ frame.SingleCopy
  · obtain ⟨hwriter, hcopy⟩ := hsingle
    by_cases hstraight : frame.MovesAcyclic
    · obtain ⟨t, moves, hfound⟩ := exists_findings hdeclared hwriter hcopy hstraight
      obtain ⟨t', moves', hfound'⟩ := exists_findings hdeclared' (h.singleWriter hwriter)
        (h.singleCopy hcopy) (h.movesAcyclic_iff.mpr hstraight)
      exact corresponds_of_findings h hdeclared hdeclared' hfound hfound' hwriter hcopy hstraight
    · obtain ⟨r, herror, herror'⟩ := moveCycle_eq h hdeclared hdeclared' hwriter hcopy hstraight
      rw [herror, herror']
      exact .moveCycle
  · have hsingle' : ¬ (other.SingleWriter ∧ other.SingleCopy) := by
      rwa [h.singleWriter_iff, h.singleCopy_iff]
    obtain ⟨p, pass, i, r, first, _, _, _, herror⟩ :=
      (verdict_ofFrame hdeclared).decided.clash hsingle
    obtain ⟨p', pass', i', r', first', _, _, _, herror'⟩ :=
      (verdict_ofFrame hdeclared').decided.clash hsingle'
    rw [herror, herror']
    exact .clash (PlanError.isClash_clash _ _ _ _) (PlanError.isClash_clash _ _ _ _)

/-- **Planning does not depend on the order in which passes are registered**: the passes of a
declared frame can be registered in any order, and whatever frame has them in that order, planning
it ends as planning the first one does, up to the ids of the passes. -/
theorem ofFrame_equivariant (hdeclared : frame.Declared) (hπ : frame.Permutes π) :
    frame.Renumbers π (frame.reordered π) ∧
      ∀ other : Frame, other.Declared → frame.Renumbers π other →
        Corresponds π (ofFrame frame) (ofFrame other) :=
  ⟨hdeclared.consistent.renumbers_reordered hπ, fun _ hdeclared' h =>
    corresponds_of_renumbers h hdeclared hdeclared'⟩

/-- The mask is cut and the draft is tinted the other way round. -/
def swapped : Equiv.Perm PassId := Equiv.swap ⟨1⟩ ⟨2⟩

/-- The relay with two of its passes swapped has a plan for the same passes. -/
theorem ofFrame_equivariant_relay :
    (∃ plan', ofFrame (Frame.relay.reordered swapped) = .ok plan' ∧
      Plan.relay.Renumbers swapped plan') ∧
    (Frame.relay.reordered swapped).passes.map (·.name) = ["draw", "tint", "cut", "show"] := by
  have hdeclared : Frame.relay.Declared := ⟨_, _, rfl⟩
  have hswapped : Frame.relay.Permutes swapped := by
    intro p
    have hfour : Frame.relay.passes.length = 4 := rfl
    rw [hfour, swapped, Equiv.swap_apply_def]
    split
    · next hp => exact iff_of_true (by decide) (hp ▸ by decide)
    · split
      · next hp => exact iff_of_true (by decide) (hp ▸ by decide)
      · rfl
  obtain ⟨hrenumbers, hcorresponds⟩ := ofFrame_equivariant hdeclared hswapped
  have hends := hcorresponds (Frame.relay.reordered swapped) ⟨_, _, rfl⟩ hrenumbers
  rw [ofFrame_relay] at hends
  refine ⟨?_, by decide⟩
  cases hplan : ofFrame (Frame.relay.reordered swapped) with
  | ok plan' =>
      rw [hplan] at hends
      cases hends with
      | ok h => exact ⟨plan', rfl, h⟩
  | error e =>
      rw [hplan] at hends
      cases hends

end Plan

end FramePlan
