import FramePlan.Proofs.Plan.Script

/-!
# What the graph of a plan orders

A plan has edges between a few representative passes only: between the writer, the readers and the
copy-in of a resource, and from the last users of a moved resource to the first users of what it is
moved into. The paths of the graph order far more than that.

* `Plan.HandsOn` — storage gets from one resource to another by moves of the plan.
* `Plan.Fits.precedes_of_handsOn` — the passes along such a chain of moves follow each other.
* `Plan.hazards_ordered` — every two passes whose uses of storage do not commute are ordered.
-/

namespace FramePlan

namespace Plan

/-- The storage of `a` comes to `b`, by one or more moves of the plan. -/
def HandsOn (plan : Plan) : ResourceId → ResourceId → Prop :=
  Relation.TransGen fun s d => plan.moves.forward.get? s = some d

/-- Two passes are ordered by the graph whenever their uses of storage do not commute. -/
structure HazardsOrdered (plan : Plan) (frame : Frame) : Prop where
  /-- Two passes share a resource that one of them outputs. -/
  conflict : ∀ {p q r}, p ≠ q → frame.Touches p r → frame.Touches q r →
    frame.Outputs p r ∨ frame.Outputs q r → plan.graph.Precedes p q ∨ plan.graph.Precedes q p
  writer_first : ∀ {writer p r}, frame.Writes writer r → frame.Reads p r →
    plan.graph.Precedes writer p
  copyIn_last : ∀ {p copy r}, frame.Writes p r ∨ frame.Reads p r → frame.CopiesInto copy r →
    plan.graph.Precedes p copy
  /-- The storage of one resource comes to another. -/
  handsOn : ∀ {a b p q}, plan.HandsOn a b → frame.Touches p a → frame.Touches q b →
    plan.graph.Precedes p q
  apart : ∀ {a b p}, plan.HandsOn a b → ¬ (frame.Touches p a ∧ frame.Touches p b)
  positions : ∀ {a b p q}, plan.HandsOn a b → frame.Touches p a → frame.Touches q b →
    plan.order.idxOf p < plan.order.idxOf q
  spans : ∀ {a b}, plan.HandsOn a b → frame.Touched a → frame.Touched b →
    ∃ before after, plan.span? a = some before ∧ plan.span? b = some after ∧
      before.last < after.first

namespace Fits

variable {plan : Plan} {frame : Frame} {p q : PassId} {a b r : ResourceId}

theorem writer_precedes_reader (h : plan.Fits frame) (hp : frame.Writes p r)
    (hq : frame.Reads q r) : plan.graph.Precedes p q := by
  rw [h.graph]
  exact PassGraph.writer_precedes_reader h.usage hp hq

theorem user_precedes_copyIn (h : plan.Fits frame) (hp : frame.Writes p r ∨ frame.Reads p r)
    (hq : frame.CopiesInto q r) : plan.graph.Precedes p q := by
  rw [h.graph]
  rcases hp with hwrites | hreads
  · exact PassGraph.writer_precedes_copyIn h.usage hwrites hq
  · exact PassGraph.reader_precedes_copyIn h.usage hreads hq

/-- **Passes along a chain of moves follow each other**: each resource on the way has a user, which
comes after all users of the one before. -/
theorem precedes_of_handsOn (h : plan.Fits frame) (hab : plan.HandsOn a b)
    (hp : frame.Touches p a) (hq : frame.Touches q b) : plan.graph.Precedes p q := by
  induction hab generalizing q with
  | single hmove => exact h.move_precedes hmove hp hq
  | tail hchain hmove ih =>
      obtain ⟨s, _, hs⟩ := Relation.TransGen.tail'_iff.mp hchain
      obtain ⟨m, hm⟩ := h.touched_of_inner (h.forward_iff.mp hs) hmove
      exact (ih hm).trans (h.move_precedes hmove hm hq)

theorem idxOf_lt_of_handsOn (h : plan.Fits frame) (hab : plan.HandsOn a b)
    (hp : frame.Touches p a) (hq : frame.Touches q b) :
    plan.order.idxOf p < plan.order.idxOf q :=
  h.respects.idxOf_lt (h.mem_order_of_touches hq) (h.precedes_of_handsOn hab hp hq)

/-- The spans along a chain of moves follow each other. -/
theorem spans_of_handsOn (h : plan.Fits frame) (hab : plan.HandsOn a b) (ha : frame.Touched a)
    (hb : frame.Touched b) : ∃ before after, plan.span? a = some before ∧
      plan.span? b = some after ∧ before.last < after.first := by
  obtain ⟨before, hbefore⟩ := h.exists_span_iff.mpr ha
  obtain ⟨after, hafter⟩ := h.exists_span_iff.mpr hb
  obtain ⟨⟨l, hl, hlast⟩, _⟩ := h.last_spec hbefore
  obtain ⟨⟨f, hf, hfirst⟩, _⟩ := h.first_spec hafter
  refine ⟨before, after, hbefore, hafter, ?_⟩
  rw [← hlast, ← hfirst]
  exact h.idxOf_lt_of_handsOn hab hl hf

end Fits

/-- **Every storage hazard is ordered by the graph of a plan.** -/
theorem hazards_ordered {frame : Frame} {plan : Plan} (hdeclared : frame.Declared)
    (hplan : ofFrame frame = .ok plan) : plan.HazardsOrdered frame := by
  have hf := fits_of_ofFrame hdeclared hplan
  refine ⟨fun hne hp hq houtput => ?_, hf.writer_precedes_reader, hf.user_precedes_copyIn,
    hf.precedes_of_handsOn, fun hab hp => ?_, hf.idxOf_lt_of_handsOn, hf.spans_of_handsOn⟩
  · rcases houtput with hp' | hq'
    · exact hf.conflict hne hp' hq
    · exact (hf.conflict (Ne.symm hne) hq' hp).symm
  · exact hf.not_precedes_self (hf.mem_order_of_touches hp.1)
      (hf.precedes_of_handsOn hab hp.1 hp.2)

/-- The relay hands the draft on to the final picture, so the mask is cut before it is shown. -/
theorem hazards_ordered_relay : relay.HazardsOrdered Frame.relay ∧ relay.HandsOn ⟨0⟩ ⟨2⟩ ∧
    relay.graph.Precedes ⟨1⟩ ⟨3⟩ := by
  have hordered := hazards_ordered ⟨_, _, rfl⟩ ofFrame_relay
  have hhands : relay.HandsOn ⟨0⟩ ⟨2⟩ := Relation.TransGen.single rfl
  exact ⟨hordered, hhands, hordered.handsOn hhands ⟨_, rfl, by decide⟩ ⟨_, rfl, by decide⟩⟩

end Plan

end FramePlan
