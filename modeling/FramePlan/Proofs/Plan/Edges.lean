import FramePlan.Proofs.Plan.Outcome
import FramePlan.Proofs.Plan.Schedule

/-!
# The edges of a plan, and its copies

The graph of a plan has an edge for each of five reasons that lie in the declarations of the passes
and the moves, and no others. A copy reads its source, so the writer of the source comes before
it, and so do the general passes that read the source. What is left to come after a copy are other
copies, so the last use of the source is one of them.

* `Frame.hazard_iff` — the five reasons.
* `Plan.edges_exact` — the passes and the edges of the graph.
* `Plan.copies_last` — a copy is the final use of its source.
-/

namespace FramePlan

namespace Frame

variable {frame : Frame} {p q : PassId} {s : ResourceId}

/-- The pass is general and has the resource among its inputs. -/
def ReadsGenerally (frame : Frame) (p : PassId) (s : ResourceId) : Prop :=
  ∃ pass, frame.pass? p = some pass ∧ pass.kind = .general ∧ s ∈ pass.inputs

/-- The pass is a copy and has the resource among its inputs. -/
def CopiesFrom (frame : Frame) (p : PassId) (s : ResourceId) : Prop :=
  ∃ pass, frame.pass? p = some pass ∧ pass.kind = .copy ∧ s ∈ pass.inputs

theorem CopiesFrom.reads (h : frame.CopiesFrom p s) : frame.Reads p s := by
  obtain ⟨pass, hpass, -, hs⟩ := h
  exact ⟨pass, hpass, hs⟩

theorem ReadsGenerally.reads (h : frame.ReadsGenerally p s) : frame.Reads p s := by
  obtain ⟨pass, hpass, -, hs⟩ := h
  exact ⟨pass, hpass, hs⟩

/-- A general pass or a copy uses the resource, among its inputs or among its outputs. -/
theorem general_or_copy (h : frame.Touches p s) :
    (frame.ReadsGenerally p s ∨ frame.Writes p s) ∨
      frame.CopiesFrom p s ∨ frame.CopiesInto p s := by
  obtain ⟨pass, hpass, hs⟩ := h
  rw [Pass.mem_resources] at hs
  cases hkind : pass.kind with
  | general =>
      exact Or.inl (hs.imp (fun hin => ⟨pass, hpass, hkind, hin⟩) fun hout =>
        ⟨pass, hpass, hkind, hout⟩)
  | copy =>
      exact Or.inr (hs.imp (fun hin => ⟨pass, hpass, hkind, hin⟩) fun hout =>
        ⟨pass, hpass, hkind, hout⟩)

/-- There are five reasons why a pass has to come before another. -/
theorem hazard_iff : frame.Hazard p q ↔ ∃ x, frame.Writes p x ∧ frame.Reads q x ∨
    frame.Reads p x ∧ frame.CopiesInto q x ∨
    frame.Writes p x ∧ (∀ reader, ¬ frame.Reads reader x) ∧ frame.CopiesInto q x ∨
    frame.ReadsGenerally p x ∧ frame.CopiesFrom q x ∨
    ∃ y, frame.Survives x y ∧ frame.UsesLast p x ∧ frame.UsesFirst q y := by
  constructor
  · intro h
    cases h with
    | written hp hq => exact ⟨_, Or.inl ⟨hp, hq⟩⟩
    | copied hp hq => exact ⟨_, Or.inr (Or.inl ⟨hp, hq⟩)⟩
    | overwritten hp hnone hq => exact ⟨_, Or.inr (Or.inr (Or.inl ⟨hp, hnone, hq⟩))⟩
    | copySource hp hgeneral hr hq hcopy hr' =>
        exact ⟨_, Or.inr (Or.inr (Or.inr (Or.inl ⟨⟨_, hp, hgeneral, hr⟩, _, hq, hcopy, hr'⟩)))⟩
    | moved hmove hp hq => exact ⟨_, Or.inr (Or.inr (Or.inr (Or.inr ⟨_, hmove, hp, hq⟩)))⟩
  · rintro ⟨x, ⟨hp, hq⟩ | ⟨hp, hq⟩ | ⟨hp, hnone, hq⟩ |
      ⟨⟨_, hp, hgeneral, hr⟩, _, hq, hcopy, hr'⟩ | ⟨_, hmove, hp, hq⟩⟩
    · exact .written hp hq
    · exact .copied hp hq
    · exact .overwritten hp hnone hq
    · exact .copySource hp hgeneral hr hq hcopy hr'
    · exact .moved hmove hp hq

end Frame

namespace Plan

variable {frame : Frame} {plan : Plan}

/-! ### Edges -/

/-- A plan is made of what is found out about its frame. -/
theorem findings_of_ofFrame (hdeclared : frame.Declared) (hplan : ofFrame frame = .ok plan) :
    Findings frame plan.usage plan.moves ∧ plan.graph = .ofHazards frame plan.usage plan.moves := by
  have hverdict := verdict_ofFrame hdeclared
  rw [hplan] at hverdict
  cases hverdict with
  | ok h =>
      obtain ⟨usage, moves, hfound⟩ :=
        exists_findings hdeclared h.single_writer h.single_copy h.moves_acyclic
      obtain ⟨rfl, rfl, hgraph⟩ := hfound.of_ok hplan
      exact ⟨hfound, hgraph⟩

/-- The graph has the passes of the frame, and an edge for each reason that there is for one. -/
structure EdgesExactly (plan : Plan) (frame : Frame) : Prop where
  mem_passes : ∀ {p}, p ∈ plan.graph.passes ↔ ∃ pass, frame.pass? p = some pass
  hasEdge_iff : ∀ {a b}, plan.graph.hasEdge a b ↔ ∃ x, frame.Writes a x ∧ frame.Reads b x ∨
    frame.Reads a x ∧ frame.CopiesInto b x ∨
    frame.Writes a x ∧ (∀ reader, ¬ frame.Reads reader x) ∧ frame.CopiesInto b x ∨
    frame.ReadsGenerally a x ∧ frame.CopiesFrom b x ∨
    ∃ y, plan.moves.forward.get? x = some y ∧ frame.UsesLast a x ∧ frame.UsesFirst b y
  /-- The moves of the plan are those that survive. -/
  moves_iff : ∀ {s d}, plan.moves.forward.get? s = some d ↔ frame.Survives s d

/-- **The graph of a plan has exactly the edges that the declarations ask for.** -/
theorem edges_exact (hdeclared : frame.Declared) (hplan : ofFrame frame = .ok plan) :
    plan.EdgesExactly frame := by
  have hf := fits_of_ofFrame hdeclared hplan
  obtain ⟨hfound, hgraph⟩ := findings_of_ofFrame hdeclared hplan
  refine ⟨hf.mem_passes.trans hf.mem_order_iff_pass?, fun {a b} => ?_, hfound.forward_iff⟩
  rw [hgraph, hfound.hasEdge_iff, Frame.hazard_iff]
  simp only [hfound.forward_iff]

/-- A plate is etched and inspected, a proof is pulled from it, and both are printed; then the plate
is handed over to the archive. -/
def press : Frame := .ofDeclarations "press"
  [.resource "plate", .resource "proof", .resource "print", .resource "poster",
    .resource "archive", .pass ⟨.general, "etch", [], [⟨0⟩]⟩,
    .pass ⟨.general, "inspect", [⟨0⟩], []⟩, .pass ⟨.copy, "pull", [⟨0⟩], [⟨1⟩]⟩,
    .pass ⟨.copy, "print", [⟨0⟩, ⟨1⟩], [⟨2⟩, ⟨3⟩]⟩, .pass ⟨.general, "store", [⟨4⟩], []⟩,
    .move ⟨⟨4⟩, ⟨0⟩⟩]

/-- The plan of that frame. -/
def pressed : Plan :=
  match ofFrame press with
  | .ok plan => plan
  | .error _ => .empty

/-- The proof is pulled anew after it was printed, and the archive waits for all readers of the
plate. -/
theorem edges_exact_press : ofFrame press = .ok pressed ∧ pressed.EdgesExactly press ∧
    pressed.graph.edges = [(⟨0⟩, ⟨1⟩), (⟨0⟩, ⟨2⟩), (⟨0⟩, ⟨3⟩), (⟨1⟩, ⟨2⟩), (⟨1⟩, ⟨3⟩), (⟨1⟩, ⟨4⟩),
      (⟨2⟩, ⟨4⟩), (⟨3⟩, ⟨2⟩), (⟨3⟩, ⟨4⟩)] := by
  have hplan : ofFrame press = .ok pressed := rfl
  exact ⟨hplan, edges_exact ⟨_, _, rfl⟩ hplan, by decide⟩

/-! ### Copies -/

/-- **A general pass that uses the source of a copy comes before the copy.** -/
theorem precedes_copy {c p : PassId} {s : ResourceId} (hdeclared : frame.Declared)
    (hplan : ofFrame frame = .ok plan) (hc : frame.CopiesFrom c s)
    (hp : frame.ReadsGenerally p s ∨ frame.Writes p s) :
    plan.graph.Precedes p c ∧ plan.order.idxOf p < plan.order.idxOf c := by
  have hf := fits_of_ofFrame hdeclared hplan
  obtain ⟨hfound, hgraph⟩ := findings_of_ofFrame hdeclared hplan
  have hedge : plan.graph.hasEdge p c := by
    rw [hgraph, hfound.hasEdge_iff, Frame.hazard_iff]
    rcases hp with hreads | hwrites
    · exact ⟨s, Or.inr (Or.inr (Or.inr (Or.inl ⟨hreads, hc⟩)))⟩
    · exact ⟨s, Or.inl ⟨hwrites, hc.reads⟩⟩
  exact ⟨.of_hasEdge hedge, hf.respects.idxOf_lt_of_hasEdge
    (hf.mem_order_of_touches hc.reads.touches) hedge⟩

/-- Each copy is the final use of its sources. -/
structure CopiesLast (plan : Plan) (frame : Frame) : Prop where
  /-- The general passes that use a source come before the copy, by a path of the graph. -/
  before : ∀ {c s p}, frame.CopiesFrom c s → frame.ReadsGenerally p s ∨ frame.Writes p s →
    plan.graph.Precedes p c ∧ ∃ i k, plan.position? p = some i ∧ plan.position? c = some k ∧ i < k
  /-- The last pass that uses a source copies from it or into it, and does not come before the
  copy. -/
  last : ∀ {c s}, frame.CopiesFrom c s → ∃ p k span,
    plan.lastPass? s = some p ∧ (frame.CopiesFrom p s ∨ frame.CopiesInto p s) ∧
      plan.position? c = some k ∧ plan.span? s = some span ∧ k ≤ span.last

/-- **A copy is the final use of its source.** -/
theorem copies_last (hdeclared : frame.Declared) (hplan : ofFrame frame = .ok plan) :
    plan.CopiesLast frame := by
  have hf := fits_of_ofFrame hdeclared hplan
  refine ⟨fun {c s p} hc hp => ?_, fun {c s} hc => ?_⟩
  · obtain ⟨hprecedes, hlt⟩ := precedes_copy hdeclared hplan hc hp
    have htouches : frame.Touches p s :=
      Frame.touches_iff.mpr (hp.imp Frame.ReadsGenerally.reads Or.inl)
    exact ⟨hprecedes, _, _, hf.position?_of_mem (hf.mem_order_of_touches htouches),
      hf.position?_of_mem (hf.mem_order_of_touches hc.reads.touches), hlt⟩
  · obtain ⟨span, hspan⟩ := hf.exists_span_iff.mpr ⟨c, hc.reads.touches⟩
    obtain ⟨⟨p, hp, hlast⟩, hle⟩ := hf.last_spec hspan
    have hlec := hle c hc.reads.touches
    have hcopy : frame.CopiesFrom p s ∨ frame.CopiesInto p s := by
      -- A general pass that uses the source comes before the copy, so it is not the last.
      rcases Frame.general_or_copy hp with hgeneral | hcopy
      · have := (precedes_copy hdeclared hplan hc hgeneral).2
        omega
      · exact hcopy
    have hpass : plan.lastPass? s = plan.order[span.last]? := by
      rw [lastPass?, span?, hspan]
      rfl
    rw [← hlast, List.getElem?_idxOf (hf.mem_order_of_touches hp)] at hpass
    exact ⟨p, _, span, hpass, hcopy,
      hf.position?_of_mem (hf.mem_order_of_touches hc.reads.touches), hspan, hlec⟩

/-- The proof is copied from before it is copied into, which is its last use; the plate is copied
from twice, after it was etched and inspected. -/
theorem copies_last_press : ofFrame press = .ok pressed ∧ pressed.CopiesLast press ∧
    press.CopiesFrom ⟨3⟩ ⟨1⟩ ∧ pressed.lastPass? ⟨1⟩ = some ⟨2⟩ ∧ press.CopiesInto ⟨2⟩ ⟨1⟩ ∧
      pressed.graph.Precedes ⟨0⟩ ⟨2⟩ ∧ pressed.graph.Precedes ⟨1⟩ ⟨3⟩ := by
  have hplan : ofFrame press = .ok pressed := rfl
  have hlast := copies_last ⟨_, _, rfl⟩ hplan
  have hpull : press.CopiesFrom ⟨2⟩ ⟨0⟩ := ⟨_, rfl, rfl, by decide⟩
  have hprint : press.CopiesFrom ⟨3⟩ ⟨0⟩ := ⟨_, rfl, rfl, by decide⟩
  exact ⟨hplan, hlast, ⟨_, rfl, rfl, by decide⟩, by decide, ⟨_, rfl, rfl, by decide⟩,
    (hlast.before hpull (.inr ⟨_, rfl, rfl, by decide⟩)).1,
    (hlast.before hprint (.inl ⟨_, rfl, rfl, by decide⟩)).1⟩

end Plan

end FramePlan
