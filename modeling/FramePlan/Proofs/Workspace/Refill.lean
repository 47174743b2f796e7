import FramePlan.Plan.Refill
import FramePlan.Proofs.MovePruning
import FramePlan.Proofs.PassGraph.Leftover
import FramePlan.Proofs.Plan.Schedule
import FramePlan.Proofs.Workspace.Agenda

/-!
# Planning in place is planning

Each phase of planning in place does what a part of planning does, and the workspace then holds
what was found so far. So a workspace that is planned in ends up with the plan of the frame, and
nothing else, whatever it held before; and if the frame has no plan, it ends up empty, though it was
written to by then.

* `Workspace.fill_ok`, `Workspace.fill_error` — the phases from an empty workspace, beside
  `Plan.ofFrame`.
* `Workspace.toPlan_ofPlan` — a plan is read back as it was written down.
* `Workspace.refill_exact` — planning in any workspace.
-/

namespace FramePlan

namespace Workspace

variable {frame : Frame} {plan : Plan} {t : UsageTable} {moves : MoveTable} {graph : PassGraph}
  {order : List PassId} {cause : PlanError} {r : ResourceId}

/-! ### Moves, edges and order -/

/-- The workspace in which uses, moves, edges and an order are taken down. -/
def ordered (t : UsageTable) (moves : MoveTable) (graph : PassGraph) (order : List PassId) :
    Workspace :=
  { collected t with moves, graph, order }

theorem foldl_addCollapsed {matters : ResourceId → Bool} {chains : List (List ResourceId)} :
    chains.foldl (fun moves chain => moves.addCollapsed matters [chain]) moves =
      moves.addCollapsed matters chains := by
  induction chains generalizing moves with
  | nil => rfl
  | cons chain chains ih =>
      rw [List.foldl_cons, ih]
      unfold MoveTable.addCollapsed
      rw [← List.foldl_append, ← List.flatMap_append]
      rfl

theorem addChains_eq (chains : List (List ResourceId)) :
    chains.forM addChain (ordered t moves graph order) =
      .ok () (ordered t (moves.addCollapsed t.isTouched chains) graph order) := by
  have hround : ∀ chain ∈ chains, ∀ moves, addChain chain (ordered t moves graph order) =
      .ok () (ordered t (moves.addCollapsed t.isTouched [chain]) graph order) := by
    intro chain _ moves
    have htable : (ordered t moves graph order).table = t := table_collected
    exact congrArg (fun table : UsageTable => EStateM.Result.ok ()
      (ordered t (moves.addCollapsed table.isTouched [chain]) graph order)) htable
  rw [← foldl_addCollapsed]
  exact forM_of_round (fun moves => ordered t moves graph order)
    (fun moves chain => moves.addCollapsed t.isTouched [chain]) hround

/-- **The second phase takes down the moves that remain**, or stops with the error that stands
against the moves. -/
theorem resolveMoves_eq : resolveMoves frame (collected t) =
    match MoveTable.resolve t.isTouched frame.moves with
    | .ok moves => .ok () (ordered t moves (.edgeless 0) [])
    | .error cause => .error (.refused cause) (collected t) := by
  unfold resolveMoves MoveTable.resolve
  cases MoveTable.ofMoves frame.moves with
  | error cause => rfl
  | ok table =>
      show (orRefuse table.chains >>= fun chains => chains.forM addChain) (collected t) =
        match table.chains >>= fun chains =>
            .ok (MoveTable.addCollapsed t.isTouched ∅ chains) with
        | .ok moves => _
        | .error cause => _
      cases table.chains with
      | error cause => rfl
      | ok chains => exact addChains_eq chains

/-- **The third phase takes down the hazards of the frame.** -/
theorem buildEdges_eq : buildEdges frame (ordered t moves graph order) =
    .ok () (ordered t moves (.ofHazards frame t moves) order) := by
  have htable : ∀ graph, (ordered t moves graph order).table = t := fun _ => table_collected
  have hround : ∀ edge ∈ Hazard.edges frame t moves, ∀ graph,
      addEdge edge (ordered t moves graph order) =
        .ok () (ordered t moves (graph.addEdge edge.1 edge.2) order) := fun _ _ _ => rfl
  show (Hazard.edges frame (ordered t moves _ order).table moves).forM addEdge
    (ordered t moves (.edgeless frame.passes.length) order) = _
  rw [htable]
  exact forM_of_round (fun graph => ordered t moves graph order)
    (fun graph (edge : PassId × PassId) => graph.addEdge edge.1 edge.2) hround

/-- **The fourth phase takes down the order**, or none and stops. -/
theorem sortPasses_eq : sortPasses (ordered t moves graph order) =
    match graph.order with
    | .ok found => .ok () (ordered t moves graph found)
    | .error cause => .error (.refused cause) (ordered t moves graph []) := by
  have hsort : (ordered t moves graph order).graph.sortInto
      (ordered t moves graph order).order = _ := graph.sortInto_eq order
  unfold sortPasses
  rw [get_bind, hsort]
  cases graph.order <;> rfl

/-! ### Positions and events -/

theorem completeOrder (hf : plan.Fits frame) : CompleteOrder plan.order :=
  ⟨hf.order_nodup, fun {p} => by rw [Plan.Fits.length_order, hf.index_lt_iff]⟩

/-- The records that a plan is written down in are those of its usages, with their spans. -/
theorem spanned_uses (hf : plan.Fits frame) :
    (plan.usage.uses.map fun _ u => UseRecord.ofUsage u).map
        (fun _ record => record.spanned plan.order.idxOf) = (ofPlan plan).uses := by
  ext1 r
  unfold ofPlan
  rw [IdMap.get?_map, IdMap.get?_map, IdMap.get?_map]
  cases hget : plan.usage.uses.get? r with
  | none => rfl
  | some u =>
      have husage : plan.usage.usage r = u := congrArg (Option.getD · Usage.none) hget
      have hspan : plan.span? r = Span.ofUsage plan.order.idxOf u := by
        rw [← husage]
        exact hf.get?_spans
      rw [hspan]
      exact congrArg some (UseRecord.spanned_ofUsage plan.order.idxOf u)

theorem inRange_record (hf : plan.Fits frame) :
    InRange plan.order.length ((collected plan.usage).record r) := by
  have hlt : ∀ {p : PassId}, frame.Touches p r → p.index < plan.order.length := fun hp =>
    (completeOrder hf).mem.mp (hf.mem_order_of_touches hp)
  rw [record_collected]
  refine ⟨fun p hp => hlt ?_, fun p hp => hlt ?_, fun p hp => hlt ?_⟩
  · exact hf.usage.mem_users.mp (Usage.mem_users.mpr (Or.inl hp))
  · exact hf.usage.mem_users.mp (Usage.mem_users.mpr (Or.inr (Or.inl hp)))
  · exact hf.usage.mem_users.mp (Usage.mem_users.mpr (Or.inr (Or.inr hp)))

theorem positions_ofPlan (hf : plan.Fits frame) :
    positionsOf plan.order = (ofPlan plan).positions := by
  unfold positionsOf ofPlan
  rw [Plan.Fits.length_order]
  refine List.map_congr_left fun p hp => ?_
  rw [hf.position?_of_mem (hf.index_lt_iff.mp (NodeId.mem_firstN.mp hp))]
  rfl

/-- When spans are noted, nothing but the events is missing from the plan. -/
theorem withEvents_blank (hf : plan.Fits frame) :
    { ordered plan.usage plan.moves plan.graph plan.order with
      positions := positionsOf plan.order
      agendas := .replicate plan.order.length .blank
      uses := (ofPlan plan).uses } = withEvents plan fun _ => .blank := by
  have hagendas : List.replicate plan.order.length Agenda.blank =
      (NodeId.firstN .pass plan.passCount).map fun _ => .blank := by
    rw [Plan.Fits.length_order, List.map_const', NodeId.firstN, List.length_map, List.length_range]
  rw [positions_ofPlan hf, hagendas]
  rfl

/-- **The fifth phase takes down the spans and the events of the plan.** -/
theorem assignLifetimes_eq (hf : plan.Fits frame) :
    assignLifetimes (ordered plan.usage plan.moves plan.graph plan.order) =
      .ok () (ofPlan plan) := by
  let placed : Workspace := { ordered plan.usage plan.moves plan.graph plan.order with
    positions := positionsOf plan.order
    agendas := .replicate plan.order.length .blank }
  have hpositions : assignPositions (ordered plan.usage plan.moves plan.graph plan.order) = _ :=
    assignPositions_eq (completeOrder hf)
  have hspans : placed.uses.keys.toList.forM assignSpan placed = _ :=
    assignSpans_eq rfl fun r => inRange_record hf
  have hkeys : placed.uses.keys = plan.usage.uses.keys := IdMap.keys_map
  have hevents := placeAll_eq hf
  refine (bind_of_ok hpositions).trans ?_
  show (placed.uses.keys.toList.forM assignSpan >>= fun _ => placed.uses.keys.toList.forM place)
    placed = _
  refine (bind_of_ok hspans).trans ?_
  rw [hkeys, ← hevents, ← withEvents_blank hf, ← spanned_uses hf]
  rfl

/-! ### All phases -/

/-- What is left to do when the uses are taken down. -/
theorem fill_of_usage (husage : UsageTable.ofFrame frame = .ok t) : fill frame empty =
    (resolveMoves frame >>= fun _ => buildEdges frame >>= fun _ => sortPasses >>= fun _ =>
      assignLifetimes) (collected t) := by
  have hcollect := collectUses_mirrors frame
  rw [husage] at hcollect
  exact bind_of_ok hcollect

/-- What is left to do when the hazards are taken down. -/
theorem fill_of_moves (husage : UsageTable.ofFrame frame = .ok t)
    (hmoves : MoveTable.resolve t.isTouched frame.moves = .ok moves) : fill frame empty =
      (sortPasses >>= fun _ => assignLifetimes)
        (ordered t moves (.ofHazards frame t moves) []) := by
  have hresolve : resolveMoves frame (collected t) = _ := resolveMoves_eq
  rw [hmoves] at hresolve
  rw [fill_of_usage husage, bind_of_ok hresolve, bind_of_ok buildEdges_eq]

/-- **If the frame has a plan, an empty workspace is filled with it.** -/
theorem fill_ok (hdeclared : frame.Declared) (h : Plan.ofFrame frame = .ok plan) :
    fill frame empty = .ok () (ofPlan plan) := by
  have hlifetimes := assignLifetimes_eq (Plan.fits_of_ofFrame hdeclared h)
  have hsort : sortPasses (ordered plan.usage plan.moves plan.graph []) = _ := sortPasses_eq
  rw [Plan.order_of_ofFrame h] at hsort
  rw [Plan.ofFrame_eq_resolve] at h
  obtain ⟨usage, husage, h⟩ := except_bind_ok.mp h
  obtain ⟨moves, hmoves, h⟩ := except_bind_ok.mp h
  obtain ⟨order, _, h⟩ := except_bind_ok.mp h
  cases h
  rw [fill_of_moves husage hmoves]
  exact (bind_of_ok hsort).trans hlifetimes

/-- If something stands against the moves, then a move is declared. -/
theorem written_of_moves (hdescribes : t.Describes frame)
    (h : MoveTable.resolve t.isTouched frame.moves = .error cause) :
    (collected t).Written := by
  have hmoves : frame.moves ≠ [] := by
    intro hnil
    rw [hnil] at h
    cases h
  obtain ⟨m, hm⟩ := List.exists_mem_of_ne_nil _ hmoves
  exact written_collected (hdescribes.contains_iff.mpr (Or.inr ⟨m, hm, Or.inl rfl⟩))

/-- If the passes have no order, then some of them touch a resource. -/
theorem written_of_order (hdescribes : t.Describes frame)
    (h : (PassGraph.ofHazards frame t moves).order = .error cause) :
    (collected t).Written := by
  rcases PassGraph.order_cases (PassGraph.closed_ofHazards hdescribes) with
    ⟨_, hok, _⟩ | ⟨_, _, p, hcycle⟩
  · cases hok.symm.trans h
  · obtain ⟨q, hpq, _⟩ := Relation.TransGen.head'_iff.mp hcycle
    obtain ⟨⟨r, hr⟩, _⟩ := PassGraph.touches_of_hasEdge hdescribes hpq
    exact written_collected (hdescribes.contains_iff.mpr (Or.inl ⟨p, hr⟩))

/-- **If the frame has no plan, the phases stop with the reason**, when something was written. -/
theorem fill_error (hdeclared : frame.Declared) (h : Plan.ofFrame frame = .error cause) :
    ∃ left, fill frame empty = .error (.refused cause) left ∧ left.Written := by
  rw [Plan.ofFrame_eq_resolve] at h
  cases husage : UsageTable.ofFrame frame with
  | error e =>
      have hcollect := collectUses_mirrors frame
      rw [husage] at h hcollect
      cases h
      obtain ⟨left, hleft, hwritten⟩ := hcollect
      exact ⟨left, bind_of_error hleft, hwritten⟩
  | ok t =>
      have hdescribes := UsageTable.describes_of_ofFrame hdeclared.wellFormed.copy_balanced husage
      rw [husage] at h
      change (MoveTable.resolve t.isTouched frame.moves >>= fun moves => _) = _ at h
      cases hmoves : MoveTable.resolve t.isTouched frame.moves with
      | error e =>
          have hresolve : resolveMoves frame (collected t) = _ := resolveMoves_eq
          rw [hmoves] at h hresolve
          cases h
          rw [fill_of_usage husage]
          exact ⟨_, bind_of_error hresolve, written_of_moves hdescribes hmoves⟩
      | ok moves =>
          have hsort : sortPasses (ordered t moves (.ofHazards frame t moves) []) = _ :=
            sortPasses_eq
          rw [hmoves] at h
          change ((PassGraph.ofHazards frame t moves).order >>= fun order => _) = _ at h
          rw [fill_of_moves husage hmoves]
          cases horder : (PassGraph.ofHazards frame t moves).order with
          | ok order =>
              rw [horder] at h
              cases h
          | error e =>
              rw [horder] at h hsort
              cases h
              exact ⟨_, bind_of_error hsort, written_of_order hdescribes horder⟩

/-! ### Plans that are read back -/

theorem table_ofPlan : (ofPlan plan).table = plan.usage := by
  have huses : (ofPlan plan).uses.map (fun _ record => record.usage) = plan.usage.uses := by
    ext1 r
    unfold ofPlan
    rw [IdMap.get?_map, IdMap.get?_map]
    cases plan.usage.uses.get? r with
    | none => rfl
    | some u => exact congrArg some (UseRecord.usage_ofUsage u)
  unfold table
  rw [huses]
  rfl

/-- The destinations of the moves are found again. -/
theorem events_ofEvents {events : Events}
    (h : ∀ m ∈ events.moves, plan.moves.forward.get? m.src = some m.dst) :
    (ofPlan plan).events (.ofEvents events) = events := by
  obtain ⟨constructs, ms, destructs⟩ := events
  have hmoves : (ms.map (·.src)).filterMap (fun src =>
      (plan.moves.forward.get? src).map fun dst => (⟨dst, src⟩ : Move)) = ms := by
    rw [List.filterMap_map]
    refine Eq.trans (List.filterMap_congr fun m hm => ?_) List.filterMap_some
    exact congrArg (Option.map fun dst => (⟨dst, m.src⟩ : Move)) (h m hm)
  exact congrArg (Events.mk constructs · destructs) hmoves

theorem spans_ofPlan (hf : plan.Fits frame) :
    ((ofPlan plan).uses.filterMap fun _ record => do
      return (⟨← record.first, ← record.last⟩ : Span)) = plan.spans := by
  ext1 r
  unfold ofPlan
  rw [IdMap.get?_filterMap, IdMap.get?_map]
  cases hget : plan.usage.uses.get? r with
  | none =>
      rw [hf.spans, Span.table, IdMap.get?_filterMap, hget]
      rfl
  | some u =>
      show (do return (⟨← (plan.spans.get? r).map _, ← (plan.spans.get? r).map _⟩ : Span)) = _
      cases plan.spans.get? r <;> rfl

/-- The agenda of a pass has the events around it. -/
theorem agenda_ofPlan (hf : plan.Fits frame) {scheduled : ScheduledPass}
    (h : scheduled ∈ plan.schedule) :
    (ofPlan plan).agendas[scheduled.pass.index]? = some (.ofEvents scheduled.events) := by
  have hlt : scheduled.pass.index < plan.passCount :=
    hf.index_lt_iff.mpr (List.mem_map.mpr ⟨scheduled, h, rfl⟩)
  unfold ofPlan
  rw [List.getElem?_map, NodeId.getElem?_firstN, if_pos hlt, Option.map_some,
    Plan.events?_of_mem hf.order_nodup h]
  rfl

/-- **A plan is read back as it was written down.** -/
theorem toPlan_ofPlan (hf : plan.Fits frame) : (ofPlan plan).toPlan = plan := by
  have hprologue : (ofPlan plan).events (ofPlan plan).prologue = plan.prologue := by
    apply events_ofEvents
    rw [hf.prologue]
    exact fun _ hm => Plan.forward_of_mem_inSlot hm
  have hforward : ∀ scheduled ∈ plan.schedule, ∀ m ∈ scheduled.events.moves,
      plan.moves.forward.get? m.src = some m.dst := by
    intro scheduled hmem
    rw [hf.schedule] at hmem
    obtain ⟨_, _, rfl⟩ := List.mem_map.mp hmem
    exact fun _ hm => Plan.forward_of_mem_inSlot hm
  have hschedule : (ofPlan plan).order.map (fun p => (⟨p, (ofPlan plan).events
      ((ofPlan plan).agendas[p.index]?.getD .blank)⟩ : ScheduledPass)) = plan.schedule := by
    show (plan.schedule.map (·.pass)).map _ = _
    rw [List.map_map]
    refine Eq.trans (List.map_congr_left fun scheduled hmem => ?_) (List.map_id _)
    show ScheduledPass.mk scheduled.pass ((ofPlan plan).events
      ((ofPlan plan).agendas[scheduled.pass.index]?.getD .blank)) = scheduled
    rw [agenda_ofPlan hf hmem, Option.getD_some, events_ofEvents (hforward scheduled hmem)]
  unfold toPlan
  rw [table_ofPlan, hprologue, hschedule, spans_ofPlan hf]
  rfl

/-! ### Planning in any workspace -/

theorem refill_of_ok (hdeclared : frame.Declared) (h : Plan.ofFrame frame = .ok plan)
    (ws : Workspace) : refill frame ws = .ok () (ofPlan plan) := by
  have hfill : fill frame ws.reset = .ok () (ofPlan plan) := fill_ok hdeclared h
  unfold refill
  rw [hfill]

theorem refill_of_error (hdeclared : frame.Declared) (h : Plan.ofFrame frame = .error cause)
    (ws : Workspace) : refill frame ws = .error (.refused cause) empty := by
  obtain ⟨left, hleft, _⟩ := fill_error hdeclared h
  have hfill : fill frame ws.reset = .error (.refused cause) left := hleft
  unfold refill
  rw [hfill]
  rfl

/-- **What a new workspace ends up with is the plan of the frame**, if there is one. -/
theorem ofFrame_eq_ok (hdeclared : frame.Declared) {ws : Workspace} :
    ofFrame frame = .ok ws ↔ ∃ plan, Plan.ofFrame frame = .ok plan ∧ ws = ofPlan plan := by
  unfold ofFrame
  cases h : Plan.ofFrame frame with
  | ok plan =>
      rw [refill_of_ok hdeclared h]
      simp [eq_comm]
  | error cause =>
      rw [refill_of_error hdeclared h]
      simp

/-- How planning in place ends, whatever the workspace at hand holds. -/
structure RefillsExactly (frame : Frame) : Prop where
  /-- The plan of the frame is left, in every field. -/
  ok : ∀ {plan}, Plan.ofFrame frame = .ok plan → ∀ ws, refill frame ws = .ok () (ofPlan plan)
  /-- Nothing is left, and the reason is the same. -/
  error : ∀ {cause}, Plan.ofFrame frame = .error cause →
    ∀ ws, refill frame ws = .error (.refused cause) empty
  /-- By then something was written. -/
  written : ∀ {cause}, Plan.ofFrame frame = .error cause →
    ∀ ws : Workspace, ∃ left, fill frame ws.reset = .error (.refused cause) left ∧ left.Written
  /-- A workspace that is used again ends up like a new one. -/
  fresh : ∀ ws, refill frame ws =
    match ofFrame frame with
    | .ok filled => .ok () filled
    | .error stop => .error stop empty
  /-- A plan that is used again ends up like a new one. -/
  plan : ∀ old, Plan.refill frame old =
    match Plan.ofFrame frame with
    | .ok plan => (.ok (), plan)
    | .error cause => (.error cause, .empty)

/-- **Planning in place is planning**, whatever the workspace at hand holds, and leaves the plan or
nothing. -/
theorem refill_exact (hdeclared : frame.Declared) : RefillsExactly frame := by
  refine ⟨fun h => refill_of_ok hdeclared h, fun h => refill_of_error hdeclared h,
    fun h _ => fill_error hdeclared h, fun ws => ?_, fun old => ?_⟩
  · unfold ofFrame
    cases h : Plan.ofFrame frame with
    | ok plan => rw [refill_of_ok hdeclared h ws, refill_of_ok hdeclared h empty]
    | error cause => rw [refill_of_error hdeclared h ws, refill_of_error hdeclared h empty]
  · unfold Plan.refill
    cases h : Plan.ofFrame frame with
    | ok plan =>
        rw [refill_of_ok hdeclared h]
        simp only [toPlan_ofPlan (Plan.fits_of_ofFrame hdeclared h)]
    | error cause =>
        rw [refill_of_error hdeclared h]
        rfl

/-- Two passes wait for each other: each reads what the other writes. -/
def standoff : Frame := .ofDeclarations "standoff"
  [.resource "front", .resource "back", .pass ⟨.general, "near", [⟨0⟩], [⟨1⟩]⟩,
    .pass ⟨.general, "far", [⟨1⟩], [⟨0⟩]⟩]

/-- What is left of another frame makes no difference to the relay. The standoff is refused when its
uses and edges were written, and nothing of the relay or of the standoff is left. -/
theorem refill_exact_standoff :
    refill Frame.relay { empty with
        order := [⟨7⟩], positions := [3], agendas := [⟨[⟨0⟩], [], []⟩] } =
        .ok () (ofPlan Plan.relay) ∧
      Plan.ofFrame standoff = .error (.notADag [⟨0⟩, ⟨1⟩]) ∧
      refill standoff (ofPlan Plan.relay) = .error (.refused (.notADag [⟨0⟩, ⟨1⟩])) empty ∧
      ∃ left, fill standoff (ofPlan Plan.relay).reset =
        .error (.refused (.notADag [⟨0⟩, ⟨1⟩])) left ∧ left.Written := by
  have hrelay := refill_exact (⟨_, _, rfl⟩ : Frame.relay.Declared)
  have hstandoff := refill_exact (⟨_, _, rfl⟩ : standoff.Declared)
  have herror : Plan.ofFrame standoff = .error (.notADag [⟨0⟩, ⟨1⟩]) := rfl
  exact ⟨hrelay.ok Plan.ofFrame_relay _, herror, hstandoff.error herror _,
    hstandoff.written herror _⟩

end Workspace

end FramePlan
