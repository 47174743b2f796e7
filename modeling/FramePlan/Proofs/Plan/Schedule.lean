import FramePlan.Proofs.PassGraph.Rank
import FramePlan.Proofs.Plan.Events

/-!
# Positions in a plan

A plan gives each pass a position, and each resource that passes use a span of positions. Neither is
found by looking at all passes: the order comes from a queue, and a span is read off the writer, the
readers and the copy-in of the resource. Here both are said in closed form.

* `Plan.spans_tight` — a span is the hull of the positions of all passes that use the resource.
* `Plan.order_ranked` — the place of a pass is decided by the last pass that it waits for.
-/

namespace FramePlan

namespace Plan

variable {plan : Plan} {frame : Frame} {r : ResourceId} {p : PassId} {k : Nat}

namespace Fits

theorem position?_eq_some (h : plan.Fits frame) :
    plan.position? p = some k ↔ plan.order[k]? = some p := by
  rw [position?, List.idxOf?_eq_some_iff, List.getElem?_eq_some_iff]
  constructor
  · rintro ⟨hk, hp, _⟩
    exact ⟨hk, hp⟩
  · rintro ⟨hk, hp⟩
    refine ⟨hk, hp, fun j hjk hj => ?_⟩
    have heq := (List.Nodup.getElem_inj_iff h.order_nodup).mp (hj.trans hp.symm)
    exact Nat.ne_of_lt hjk heq

theorem position?_of_mem (h : plan.Fits frame) (hp : p ∈ plan.order) :
    plan.position? p = some (plan.order.idxOf p) :=
  h.position?_eq_some.mpr (List.getElem?_idxOf hp)

end Fits

/-! ### Spans -/

/-- Positions are those in the order, and the span of a resource is the hull of all its uses. -/
structure SpansTight (plan : Plan) (frame : Frame) : Prop where
  position_iff : ∀ {p k}, plan.position? p = some k ↔ plan.order[k]? = some p
  /-- The passes that have a position are those of the frame. -/
  positioned : ∀ {p}, (∃ k, plan.position? p = some k) ↔ ∃ pass, frame.pass? p = some pass
  users_iff : ∀ {r p}, p ∈ (plan.usage.usage r).users ↔ frame.Touches p r
  /-- A resource that passes use has a span from the first of them to the last. -/
  touched : ∀ {r}, frame.Touched r → ∃ span, plan.span? r = some span ∧
    plan.FirstUse frame r span.first ∧ plan.LastUse frame r span.last
  untouched : ∀ {r}, ¬ frame.Touched r →
    plan.span? r = none ∧ plan.firstPass? r = none ∧ plan.lastPass? r = none
  /-- The passes at the ends of a span are found. -/
  firstPass : ∀ {r span}, plan.span? r = some span → ∃ p, plan.firstPass? r = some p ∧
    plan.position? p = some span.first
  lastPass : ∀ {r span}, plan.span? r = some span → ∃ p, plan.lastPass? r = some p ∧
    plan.position? p = some span.last

/-- **The span of a resource is the hull of the positions of all passes that use it.** -/
theorem spans_tight (hdeclared : frame.Declared) (hplan : ofFrame frame = .ok plan) :
    plan.SpansTight frame := by
  have hf := fits_of_ofFrame hdeclared hplan
  constructor
  case position_iff => exact hf.position?_eq_some
  case positioned =>
    intro p
    simp only [hf.position?_eq_some]
    rw [← List.mem_iff_getElem?, hf.mem_order_iff_pass?]
  case users_iff => exact hf.usage.mem_users
  case touched =>
    intro r hr
    obtain ⟨span, hspan⟩ := hf.exists_span_iff.mpr hr
    exact ⟨span, hspan, hf.firstUse_of_span hspan, hf.lastUse_of_span hspan⟩
  case untouched =>
    intro r hr
    have hnone : plan.span? r = none := hf.get?_spans_eq_none_iff.mpr hr
    refine ⟨hnone, ?_, ?_⟩
    · rw [firstPass?, hnone]
      rfl
    · rw [lastPass?, hnone]
      rfl
  case firstPass =>
    intro r span hspan
    obtain ⟨p, hp, _⟩ := (hf.firstUse_of_span hspan).touches
    refine ⟨p, ?_, hf.position?_eq_some.mpr hp⟩
    rw [firstPass?, hspan]
    exact hp
  case lastPass =>
    intro r span hspan
    obtain ⟨p, hp, _⟩ := (hf.lastUse_of_span hspan).touches
    refine ⟨p, ?_, hf.position?_eq_some.mpr hp⟩
    rw [lastPass?, hspan]
    exact hp

/-- In the relay, the mask is used from the pass that cuts it to the one that shows it. -/
theorem spans_tight_relay : relay.SpansTight Frame.relay ∧ Frame.relay.Touched ⟨1⟩ ∧
    relay.FirstUse Frame.relay ⟨1⟩ 1 ∧ relay.LastUse Frame.relay ⟨1⟩ 3 := by
  have htight := spans_tight ⟨_, _, rfl⟩ ofFrame_relay
  have htouched : Frame.relay.Touched ⟨1⟩ := ⟨⟨1⟩, _, rfl, by decide⟩
  obtain ⟨span, hspan, hfirst, hlast⟩ := htight.touched htouched
  have hmask : relay.span? ⟨1⟩ = some ⟨1, 3⟩ := by decide
  cases hspan.symm.trans hmask
  exact ⟨htight, htouched, hfirst, hlast⟩

/-! ### Order -/

/-- **The place of a pass is decided by the last pass that it waits for**, and then by its id. -/
theorem order_ranked (hdeclared : frame.Declared) (hplan : ofFrame frame = .ok plan) :
    plan.graph.Ranked plan.order ∧ ∀ p, p ∈ plan.order ↔ ∃ pass, frame.pass? p = some pass := by
  have hf := fits_of_ofFrame hdeclared hplan
  exact ⟨PassGraph.ranked_of_order hf.closed (order_of_ofFrame hplan), fun p =>
    hf.mem_order_iff_pass?⟩

/-- Passes are registered in another order than they can run in: what is shown is cut later. -/
def latecomer : Frame := .ofDeclarations "latecomer"
  [.resource "draft", .resource "mask", .pass ⟨.general, "show", [⟨1⟩], []⟩,
    .pass ⟨.general, "cut", [⟨0⟩], [⟨1⟩]⟩, .pass ⟨.general, "tint", [⟨0⟩], []⟩,
    .pass ⟨.general, "draw", [], [⟨0⟩]⟩]

/-- The plan of that frame. -/
def late : Plan :=
  match ofFrame latecomer with
  | .ok plan => plan
  | .error _ => .empty

/-- Drawing waits for nothing and comes first; cutting and tinting wait for it alone and come by id;
showing waits for cutting, and some path of two edges leads to it. -/
theorem order_ranked_latecomer : ofFrame latecomer = .ok late ∧ late.graph.Ranked late.order ∧
    late.order = [⟨3⟩, ⟨1⟩, ⟨2⟩, ⟨0⟩] ∧ ∃ d, 2 ≤ d ∧ IsGreatest (late.graph.pathLengths ⟨0⟩) d := by
  have hplan : ofFrame latecomer = .ok late := rfl
  obtain ⟨hranked, hmem⟩ := order_ranked ⟨_, _, rfl⟩ hplan
  obtain ⟨d, hd⟩ := hranked.exists_longest ((hmem ⟨0⟩).mpr ⟨_, rfl⟩)
  have htwo : late.graph.EndsPath 2 ⟨0⟩ := .snoc (.snoc (.nil ⟨3⟩) (a := ⟨3⟩) rfl) (a := ⟨1⟩) rfl
  exact ⟨hplan, hranked, by decide, d, hd.2 htwo, hd⟩

end Plan

end FramePlan
