import FramePlan.Plan.Basic
import FramePlan.Proofs.Frame.Registration
import FramePlan.Proofs.Lifetime
import FramePlan.Proofs.MoveChain
import FramePlan.Proofs.PassGraph.Order

/-!
# What a plan says about its frame

`Plan.Fits` collects what the phases of planning guarantee together; the executors are proved
right about every plan that fits its frame.

* `Plan.fits_of_ofFrame` — the plan of a declared frame fits it.
* `Plan.Fits.conflict`, `Plan.Fits.move_precedes` — the order of passes that share storage.
* `Plan.Fits.mem_constructs`, `Plan.Fits.mem_moves`, `Plan.Fits.mem_destructs` — the events around
  a pass, by the passes that come before it.
-/

namespace FramePlan

namespace Plan

/-- The placements by which a plan distributes its events. -/
def placements (plan : Plan) : IdMap .resource Placement :=
  plan.usage.uses.map fun r _ => Placement.ofResource plan.spans plan.moves r

/-- The events around the pass at a position. -/
def eventsAt (plan : Plan) (k : Nat) : Events := .inSlot plan.placements (.pass k)

theorem get?_placements {plan : Plan} {r : ResourceId} {placement : Placement} :
    plan.placements.get? r = some placement ↔
      plan.usage.uses.contains r ∧ placement = Placement.ofResource plan.spans plan.moves r := by
  unfold placements
  rw [IdMap.get?_map, IdMap.contains]
  cases plan.usage.uses.get? r with
  | none => simp
  | some u => simp [eq_comm]

/-- The plan orders all passes of the frame by their hazards, and places its events by that
order. -/
structure Fits (plan : Plan) (frame : Frame) : Prop where
  wellFormed : frame.WellFormed
  usage : plan.usage.Describes frame
  moves : MoveTable.Collapsed plan.usage.isTouched frame.moves plan.moves
  graph : plan.graph = .ofHazards frame plan.usage plan.moves
  order_nodup : plan.order.Nodup
  mem_order : ∀ {p}, p ∈ plan.order ↔ p.index < frame.passes.length
  respects : plan.graph.Respects plan.order
  spans : plan.spans = Span.table plan.usage plan.order
  prologue : plan.prologue = .inSlot plan.placements .prologue
  schedule : plan.schedule =
    plan.order.zipIdx.map fun (p, k) => ⟨p, plan.eventsAt k⟩

theorem order_ofOrder {usage : UsageTable} {moves : MoveTable} {graph : PassGraph}
    {order : List PassId} : (ofOrder usage moves graph order).order = order := by
  unfold ofOrder Plan.order
  simp only [List.map_map]
  exact List.zipIdx_map_fst 0 order

/-- **The plan of a declared frame fits it.** -/
theorem fits_of_ofFrame {frame : Frame} {plan : Plan} (hdeclared : frame.Declared)
    (h : ofFrame frame = .ok plan) : plan.Fits frame := by
  have hwell := hdeclared.wellFormed
  obtain ⟨usage, husage, h⟩ := except_bind_ok.mp h
  obtain ⟨table, htable, h⟩ := except_bind_ok.mp h
  obtain ⟨chains, hchains, h⟩ := except_bind_ok.mp h
  obtain ⟨order, horder, h⟩ := except_bind_ok.mp h
  cases h
  have hdescribes := UsageTable.describes_of_ofFrame hwell.copy_balanced husage
  obtain ⟨hnodup, hmem, hrespects⟩ :=
    PassGraph.order_ok (PassGraph.closed_ofHazards hdescribes) horder
  refine ⟨hwell, hdescribes, MoveTable.collapsed_of_chains _ htable hchains, rfl, ?_, ?_, ?_, ?_,
    rfl, ?_⟩
  · rw [order_ofOrder]
    exact hnodup
  · intro p
    rw [order_ofOrder, hmem, PassGraph.mem_passes_ofHazards hdescribes]
  · rw [order_ofOrder]
    exact hrespects
  · rw [order_ofOrder]
    rfl
  · rw [order_ofOrder]
    rfl

/-- A plan keeps the order that was found for its graph. -/
theorem order_of_ofFrame {frame : Frame} {plan : Plan} (h : ofFrame frame = .ok plan) :
    plan.graph.order = .ok plan.order := by
  obtain ⟨usage, _, h⟩ := except_bind_ok.mp h
  obtain ⟨table, _, h⟩ := except_bind_ok.mp h
  obtain ⟨chains, _, h⟩ := except_bind_ok.mp h
  obtain ⟨order, horder, h⟩ := except_bind_ok.mp h
  cases h
  rw [order_ofOrder]
  exact horder

/-- A plan keeps the uses that were collected. -/
theorem usage_of_ofFrame {frame : Frame} {plan : Plan} (h : ofFrame frame = .ok plan) :
    UsageTable.ofFrame frame = .ok plan.usage := by
  obtain ⟨usage, husage, h⟩ := except_bind_ok.mp h
  obtain ⟨table, _, h⟩ := except_bind_ok.mp h
  obtain ⟨chains, _, h⟩ := except_bind_ok.mp h
  obtain ⟨order, _, h⟩ := except_bind_ok.mp h
  cases h
  exact husage

/-- The moves that are placed in a slot lead to where the plan says. -/
theorem forward_of_mem_inSlot {plan : Plan} {slot : Slot} {m : Move}
    (h : m ∈ (Events.inSlot plan.placements slot).moves) :
    plan.moves.forward.get? m.src = some m.dst := by
  obtain ⟨placement, hplacement, hexit⟩ := Events.mem_moves.mp h
  obtain ⟨_, rfl⟩ := get?_placements.mp hplacement
  exact (Placement.exit_ofResource_moveTo.mp hexit).1

/-- The events of a pass are found if the order has no pass twice. -/
theorem events?_of_mem {plan : Plan} (hnodup : plan.order.Nodup) {scheduled : ScheduledPass}
    (h : scheduled ∈ plan.schedule) : plan.events? scheduled.pass = some scheduled.events := by
  unfold events?
  unfold order at hnodup
  generalize plan.schedule = schedule at hnodup h
  induction schedule with
  | nil => cases h
  | cons first rest ih =>
      obtain ⟨hfirst, hrest⟩ := List.nodup_cons.mp hnodup
      rcases List.mem_cons.mp h with rfl | hmem
      · simp
      · have hne : first.pass ≠ scheduled.pass := fun heq =>
          hfirst (List.mem_map.mpr ⟨scheduled, hmem, heq.symm⟩)
        rw [List.find?_cons_of_neg (by simpa using hne)]
        exact ih hrest hmem

namespace Fits

variable {plan : Plan} {frame : Frame} {p q : PassId} {r s d : ResourceId}

/-! ### Passes -/

theorem mem_order_iff_pass? (h : plan.Fits frame) :
    p ∈ plan.order ↔ ∃ pass, frame.pass? p = some pass :=
  h.mem_order.trans Frame.exists_pass_iff.symm

theorem mem_order_of_touches (h : plan.Fits frame) (hp : frame.Touches p r) : p ∈ plan.order := by
  obtain ⟨pass, hpass, _⟩ := hp
  exact h.mem_order_iff_pass?.mpr ⟨pass, hpass⟩

theorem length_order : plan.order.length = plan.passCount := by
  unfold order passCount
  exact List.length_map _

theorem passCount_eq (h : plan.Fits frame) : frame.passes.length = plan.passCount := by
  rw [← length_order]
  have hfirst : (NodeId.firstN .pass frame.passes.length).Nodup :=
    (IdSet.firstN .pass frame.passes.length).nodup_toList
  have hperm : (NodeId.firstN .pass frame.passes.length).Perm plan.order := by
    refine (List.perm_ext_iff_of_nodup hfirst h.order_nodup).mpr fun p => ?_
    rw [NodeId.mem_firstN, h.mem_order]
  rw [← hperm.length_eq]
  simp [NodeId.firstN]

theorem index_lt_iff (h : plan.Fits frame) : p.index < plan.passCount ↔ p ∈ plan.order := by
  rw [h.mem_order, h.passCount_eq]

theorem closed (h : plan.Fits frame) : plan.graph.Closed := by
  rw [h.graph]
  exact PassGraph.closed_ofHazards h.usage

theorem mem_passes (h : plan.Fits frame) : p ∈ plan.graph.passes ↔ p ∈ plan.order := by
  rw [h.graph, PassGraph.mem_passes_ofHazards h.usage, h.mem_order]

/-- The events around a pass are those of its position. -/
theorem events?_eq (h : plan.Fits frame) (hp : p ∈ plan.order) :
    plan.events? p = some (plan.eventsAt (plan.order.idxOf p)) := by
  have hmem : (⟨p, plan.eventsAt (plan.order.idxOf p)⟩ : ScheduledPass) ∈ plan.schedule := by
    rw [h.schedule]
    refine List.mem_map.mpr ⟨(p, plan.order.idxOf p), ?_, rfl⟩
    rw [List.mk_mem_zipIdx_iff_getElem?]
    exact List.getElem?_idxOf hp
  exact events?_of_mem h.order_nodup hmem

/-! ### Precedence -/

theorem conflict (h : plan.Fits frame) (hne : p ≠ q) (hp : frame.Outputs p r)
    (hq : frame.Touches q r) : plan.graph.Precedes p q ∨ plan.graph.Precedes q p := by
  rw [h.graph]
  exact PassGraph.ofHazards_conflict h.usage hne hp hq

theorem move_precedes (h : plan.Fits frame) (hmove : plan.moves.forward.get? s = some d)
    (hp : frame.Touches p s) (hq : frame.Touches q d) : plan.graph.Precedes p q := by
  rw [h.graph]
  exact PassGraph.ofHazards_move h.usage hmove hp hq

theorem not_precedes_self (h : plan.Fits frame) (hp : p ∈ plan.order) :
    ¬ plan.graph.Precedes p p := fun hpp =>
  Nat.lt_irrefl _ (h.respects.idxOf_lt hp hpp)

/-! ### Moves -/

theorem forward_iff (h : plan.Fits frame) :
    plan.moves.forward.get? s = some d ↔ plan.moves.backward.get? d = some s :=
  h.moves.paired s d

theorem isTouched_iff (h : plan.Fits frame) : plan.usage.isTouched r ↔ frame.Touched r :=
  h.usage.isTouched_iff

/-- A resource between two moves is used. -/
theorem touched_of_inner (h : plan.Fits frame) (hs : plan.moves.backward.get? r = some s)
    (hd : plan.moves.forward.get? r = some d) : frame.Touched r :=
  h.isTouched_iff.mp (h.moves.inner_matters (h.forward_iff.mpr hs) hd)

theorem contains_of_touched (h : plan.Fits frame) (hr : frame.Touched r) :
    plan.usage.uses.contains r := h.usage.contains_iff.mpr (Or.inl hr)

theorem contains_of_forward (h : plan.Fits frame) (hr : plan.moves.forward.get? s = some d) :
    plan.usage.uses.contains s ∧ plan.usage.uses.contains d := by
  obtain ⟨hs, hd⟩ := h.moves.ends hr
  exact ⟨h.usage.contains_iff.mpr (Or.inr hs), h.usage.contains_iff.mpr (Or.inr hd)⟩

/-- What the plan refers to is registered in the frame. -/
theorem hasResource_of_contains (h : plan.Fits frame) (hr : plan.usage.uses.contains r) :
    frame.hasResource r := by
  rcases h.usage.contains_iff.mp hr with ⟨p, hp⟩ | ⟨m, hm, rfl | rfl⟩
  · exact h.wellFormed.hasResource_of_touches hp
  · exact (h.wellFormed.move_ends m hm).1
  · exact (h.wellFormed.move_ends m hm).2

/-! ### Spans -/

theorem get?_spans (h : plan.Fits frame) :
    plan.spans.get? r = Span.ofUsage plan.order.idxOf (plan.usage.usage r) := by
  rw [h.spans, Span.get?_table]

theorem exists_span_iff (h : plan.Fits frame) :
    (∃ span, plan.spans.get? r = some span) ↔ frame.Touched r := by
  rw [h.get?_spans]
  constructor
  · rintro ⟨span, hspan⟩
    by_contra hnone
    rw [Span.ofUsage_eq_none fun p hp => hnone ⟨p, h.usage.mem_users.mp hp⟩] at hspan
    cases hspan
  · rintro ⟨p, hp⟩
    exact Span.exists_ofUsage (h.usage.mem_users.mpr hp)

theorem get?_spans_eq_none_iff (h : plan.Fits frame) :
    plan.spans.get? r = none ↔ ¬ frame.Touched r := by
  rw [← h.exists_span_iff, ← Option.isSome_iff_exists, Option.not_isSome_iff_eq_none]

/-- The span of a resource begins at the first pass that touches it. -/
theorem first_spec (h : plan.Fits frame) {span : Span} (hspan : plan.spans.get? r = some span) :
    (∃ p, frame.Touches p r ∧ plan.order.idxOf p = span.first) ∧
      ∀ p, frame.Touches p r → span.first ≤ plan.order.idxOf p := by
  rw [h.get?_spans] at hspan
  obtain ⟨⟨f, hf, hfirst⟩, hle⟩ := Span.first_ofUsage hspan
  refine ⟨⟨f, PassGraph.touches_of_mem_firstUsers h.usage hf, hfirst⟩, fun p hp => ?_⟩
  obtain ⟨f, hf, hfp⟩ := PassGraph.exists_firstUser h.usage plan.moves hp
  rcases hfp with rfl | hfp
  · exact hle f hf
  · rw [← h.graph] at hfp
    exact Nat.le_trans (hle f hf) (Nat.le_of_lt
      (h.respects.idxOf_lt (h.mem_order_of_touches hp) hfp))

/-- The span of a resource ends at the last pass that touches it. -/
theorem last_spec (h : plan.Fits frame) {span : Span} (hspan : plan.spans.get? r = some span) :
    (∃ p, frame.Touches p r ∧ plan.order.idxOf p = span.last) ∧
      ∀ p, frame.Touches p r → plan.order.idxOf p ≤ span.last := by
  rw [h.get?_spans] at hspan
  obtain ⟨⟨l, hl, hlast⟩, hle⟩ := Span.last_ofUsage hspan
  have htouch := PassGraph.touches_of_mem_finalUsers h.usage hl
  refine ⟨⟨l, htouch, hlast⟩, fun p hp => ?_⟩
  obtain ⟨l, hl, hpl⟩ := PassGraph.exists_finalUser h.usage plan.moves hp
  rcases hpl with rfl | hpl
  · exact hle p hl
  · rw [← h.graph] at hpl
    have hl' := h.mem_order_of_touches (PassGraph.touches_of_mem_finalUsers h.usage hl)
    exact Nat.le_trans (Nat.le_of_lt (h.respects.idxOf_lt hl' hpl)) (hle l hl)

/-! ### Positions in the order -/

section Position

variable {pre post : List PassId}

theorem notMem_pre (h : plan.Fits frame) (hsplit : plan.order = pre ++ p :: post) : p ∉ pre := by
  have hnodup := h.order_nodup
  rw [hsplit] at hnodup
  intro hp
  exact (List.nodup_append.mp hnodup).2.2 p hp p (List.mem_cons_self ..) rfl

theorem idxOf_self (h : plan.Fits frame) (hsplit : plan.order = pre ++ p :: post) :
    plan.order.idxOf p = pre.length := by
  rw [hsplit, List.idxOf_append_of_notMem (h.notMem_pre hsplit), List.idxOf_cons_self]
  rfl

theorem idxOf_lt_iff (hsplit : plan.order = pre ++ p :: post) :
    plan.order.idxOf q < pre.length ↔ q ∈ pre := by
  rw [hsplit]
  constructor
  · intro hlt
    by_contra hq
    rw [List.idxOf_append_of_notMem hq] at hlt
    omega
  · intro hq
    rw [List.idxOf_append_of_mem hq]
    exact List.idxOf_lt_length_of_mem hq

theorem mem_order_of_snoc (hsplit : plan.order = pre ++ p :: post) (hq : q ∈ pre ++ [p]) :
    q ∈ plan.order := by
  rw [hsplit, List.append_cons]
  exact List.mem_append_left _ hq

/-- What has to come before a pass comes before it in the order. -/
theorem mem_pre_of_precedes (h : plan.Fits frame) (hsplit : plan.order = pre ++ p :: post)
    (hq : plan.graph.Precedes q p) : q ∈ pre := by
  have hlt := h.respects.idxOf_lt (hsplit ▸ by simp) hq
  rw [h.idxOf_self hsplit] at hlt
  exact (idxOf_lt_iff hsplit).mp hlt

theorem idxOf_eq_iff (h : plan.Fits frame) (hsplit : plan.order = pre ++ p :: post)
    (hq : q ∈ plan.order) : plan.order.idxOf q = pre.length ↔ q = p := by
  rw [← h.idxOf_self hsplit]
  exact List.idxOf_inj hq

/-- The pass at a position is the first to touch a resource. -/
theorem first_eq_iff (h : plan.Fits frame) (hsplit : plan.order = pre ++ p :: post) {span : Span}
    (hspan : plan.spans.get? r = some span) :
    span.first = pre.length ↔ frame.Touches p r ∧ ∀ q ∈ pre, ¬ frame.Touches q r := by
  obtain ⟨⟨f, hf, hfirst⟩, hle⟩ := h.first_spec hspan
  constructor
  · intro heq
    rw [heq] at hfirst hle
    cases (h.idxOf_eq_iff hsplit (h.mem_order_of_touches hf)).mp hfirst
    refine ⟨hf, fun q hq htouch => ?_⟩
    have := hle q htouch
    have := (idxOf_lt_iff hsplit).mpr hq
    omega
  · rintro ⟨hp, hnone⟩
    have hub := hle p hp
    rw [h.idxOf_self hsplit] at hub
    have hlb : ¬ plan.order.idxOf f < pre.length := fun hlt =>
      hnone f ((idxOf_lt_iff hsplit).mp hlt) hf
    omega

/-- The pass at a position is the last to touch a resource. -/
theorem last_eq_iff (h : plan.Fits frame) (hsplit : plan.order = pre ++ p :: post) {span : Span}
    (hspan : plan.spans.get? r = some span) :
    span.last = pre.length ↔ frame.Touches p r ∧ frame.Released (pre ++ [p]) r := by
  obtain ⟨⟨l, hl, hlast⟩, hle⟩ := h.last_spec hspan
  constructor
  · intro heq
    rw [heq] at hlast hle
    cases (h.idxOf_eq_iff hsplit (h.mem_order_of_touches hl)).mp hlast
    refine ⟨hl, fun q hq => ?_⟩
    rcases Nat.lt_or_eq_of_le (hle q hq) with hlt | heq
    · exact List.mem_append_left _ ((idxOf_lt_iff hsplit).mp hlt)
    · rw [(h.idxOf_eq_iff hsplit (h.mem_order_of_touches hq)).mp heq]
      exact List.mem_append_right _ (List.mem_singleton.mpr rfl)
  · rintro ⟨hp, hreleased⟩
    have hlb := hle p hp
    rw [h.idxOf_self hsplit] at hlb
    rcases List.mem_append.mp (hreleased l hl) with hpre | hpl
    · have := (idxOf_lt_iff hsplit).mpr hpre
      omega
    · cases List.mem_singleton.mp hpl
      rw [← hlast, h.idxOf_self hsplit]

theorem lastSlot_eq_prologue_iff (h : plan.Fits frame) :
    Placement.lastSlot plan.spans r = .prologue ↔ ¬ frame.Touched r := by
  rw [← h.get?_spans_eq_none_iff]
  unfold Placement.lastSlot
  cases plan.spans.get? r <;> simp

theorem lastSlot_eq_pass_iff (h : plan.Fits frame) (hsplit : plan.order = pre ++ p :: post) :
    Placement.lastSlot plan.spans r = .pass pre.length ↔
      frame.Touches p r ∧ frame.Released (pre ++ [p]) r := by
  unfold Placement.lastSlot
  cases hspan : plan.spans.get? r with
  | some span =>
      rw [← h.last_eq_iff hsplit hspan]
      simp
  | none =>
      have hnone := h.get?_spans_eq_none_iff.mp hspan
      simp only [Option.map_none, Option.getD_none, reduceCtorEq, false_iff]
      exact fun htouch => hnone ⟨p, htouch.1⟩

/-! ### Events -/

theorem mem_prologue_constructs (h : plan.Fits frame) : r ∈ plan.prologue.constructs ↔
    plan.moves.backward.get? r = none ∧ ¬ frame.Touched r ∧
      ∃ d, plan.moves.forward.get? r = some d := by
  rw [h.prologue, Events.mem_constructs, ← h.get?_spans_eq_none_iff]
  simp only [get?_placements, and_assoc, exists_and_left, exists_eq_left,
    Placement.construct_ofResource, reduceCtorEq, and_false, exists_false, false_or, and_true]
  constructor
  · exact And.right
  · rintro ⟨hback, hspan, d, hd⟩
    exact ⟨(h.contains_of_forward hd).1, hback, hspan, d, hd⟩

theorem mem_prologue_moves (h : plan.Fits frame) {m : Move} : m ∈ plan.prologue.moves ↔
    plan.moves.forward.get? m.src = some m.dst ∧ ¬ frame.Touched m.src := by
  rw [h.prologue, Events.mem_moves]
  simp only [get?_placements, and_assoc, exists_and_left, exists_eq_left,
    Placement.exit_ofResource_moveTo, eq_comm (a := Slot.prologue), h.lastSlot_eq_prologue_iff]
  constructor
  · exact And.right
  · rintro ⟨hd, hnone⟩
    exact ⟨(h.contains_of_forward hd).1, hd, hnone⟩

theorem mem_prologue_destructs (h : plan.Fits frame) : r ∈ plan.prologue.destructs ↔
    plan.moves.forward.get? r = none ∧ ¬ frame.Touched r ∧
      ∃ s, plan.moves.backward.get? r = some s ∧ ¬ frame.Touched s := by
  rw [h.prologue, Events.mem_destructs]
  simp only [get?_placements, and_assoc, exists_and_left, exists_eq_left,
    Placement.exit_ofResource_destruct, eq_comm (a := Slot.prologue), h.lastSlot_eq_prologue_iff,
    h.exists_span_iff, h.get?_spans_eq_none_iff]
  constructor
  · rintro ⟨_, hd, ⟨htouched, hnone⟩ | hrest⟩
    · exact absurd htouched hnone
    · exact ⟨hd, hrest⟩
  · rintro ⟨hd, hnone, s, hs, hsnone⟩
    exact ⟨(h.contains_of_forward (h.forward_iff.mpr hs)).2, hd, Or.inr ⟨hnone, s, hs, hsnone⟩⟩

/-- Around a pass, those resources are constructed that no pass before it touches. -/
theorem mem_constructs (h : plan.Fits frame) (hsplit : plan.order = pre ++ p :: post) :
    r ∈ (plan.eventsAt pre.length).constructs ↔
      plan.moves.backward.get? r = none ∧ frame.Touches p r ∧
        ∀ q ∈ pre, ¬ frame.Touches q r := by
  rw [eventsAt, Events.mem_constructs]
  simp only [get?_placements, and_assoc, exists_and_left, exists_eq_left,
    Placement.construct_ofResource, reduceCtorEq, and_false, or_false, Slot.pass.injEq]
  constructor
  · rintro ⟨_, hback, span, hspan, heq⟩
    exact ⟨hback, (h.first_eq_iff hsplit hspan).mp heq.symm⟩
  · rintro ⟨hback, htouch⟩
    obtain ⟨span, hspan⟩ := h.exists_span_iff.mpr ⟨p, htouch.1⟩
    exact ⟨h.contains_of_touched ⟨p, htouch.1⟩, hback, span, hspan,
      ((h.first_eq_iff hsplit hspan).mpr htouch).symm⟩

/-- Around a pass, those resources are moved that no pass after it touches. -/
theorem mem_moves (h : plan.Fits frame) (hsplit : plan.order = pre ++ p :: post) {m : Move} :
    m ∈ (plan.eventsAt pre.length).moves ↔
      plan.moves.forward.get? m.src = some m.dst ∧
        frame.Touches p m.src ∧ frame.Released (pre ++ [p]) m.src := by
  rw [eventsAt, Events.mem_moves]
  simp only [get?_placements, and_assoc, exists_and_left, exists_eq_left,
    Placement.exit_ofResource_moveTo, eq_comm (a := Slot.pass pre.length),
    h.lastSlot_eq_pass_iff hsplit]
  constructor
  · exact And.right
  · rintro ⟨hd, hlast⟩
    exact ⟨(h.contains_of_forward hd).1, hd, hlast⟩

/-- Around a pass, those resources are destructed that no pass after it touches, and the untouched
destinations of what is moved there. -/
theorem mem_destructs (h : plan.Fits frame) (hsplit : plan.order = pre ++ p :: post) :
    r ∈ (plan.eventsAt pre.length).destructs ↔
      plan.moves.forward.get? r = none ∧
        (frame.Touches p r ∧ frame.Released (pre ++ [p]) r ∨
          ¬ frame.Touched r ∧ ∃ s, plan.moves.backward.get? r = some s ∧
            frame.Touches p s ∧ frame.Released (pre ++ [p]) s) := by
  rw [eventsAt, Events.mem_destructs]
  simp only [get?_placements, and_assoc, exists_and_left, exists_eq_left,
    Placement.exit_ofResource_destruct, eq_comm (a := Slot.pass pre.length),
    h.lastSlot_eq_pass_iff hsplit, h.exists_span_iff, h.get?_spans_eq_none_iff]
  constructor
  · rintro ⟨_, hd, ⟨_, hlast⟩ | hrest⟩
    · exact ⟨hd, Or.inl hlast⟩
    · exact ⟨hd, Or.inr hrest⟩
  · rintro ⟨hd, hlast | ⟨hnone, s, hs, hlast⟩⟩
    · exact ⟨h.contains_of_touched ⟨p, hlast.1⟩, hd, Or.inl ⟨⟨p, hlast.1⟩, hlast⟩⟩
    · exact ⟨(h.contains_of_forward (h.forward_iff.mpr hs)).2, hd, Or.inr ⟨hnone, s, hs, hlast⟩⟩

end Position

end Fits

end Plan

end FramePlan
