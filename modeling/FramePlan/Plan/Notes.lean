import FramePlan.Note
import FramePlan.Plan.Basic

/-!
# What is logged about planning

Each chain of moves from which resources were left out is noted, and at last whether the frame has
a plan.
-/

namespace FramePlan

namespace Plan

/-- A note on a chain of moves, if resources were left out of it. -/
def collapseNote? (matters : ResourceId → Bool) (chain : List ResourceId) : Option Note :=
  let kept := MoveChain.collapse matters chain
  if kept.length < chain.length then
    some ⟨.trace,
      s!"FrameGraph: collapsed move chain of {chain.length} resources to {kept.length}"⟩
  else
    none

/-- The notes on all chains of moves of a frame, if its uses and moves do not conflict. -/
def collapseNotes (frame : Frame) : List Note :=
  match UsageTable.ofFrame frame, MoveTable.ofMoves frame.moves >>= MoveTable.chains with
  | .ok usage, .ok chains => chains.filterMap (collapseNote? usage.isTouched)
  | _, _ => []

/-- The note on the outcome of planning a frame. -/
def outcomeNote (frame : Frame) : Except PlanError Plan → Note
  | .ok plan =>
    ⟨.debug, s!"FrameGraph '{frame.name}': compiled {plan.passCount} passes, " ++
      s!"{plan.usage.uses.size} resources, {plan.moves.size} moves, {plan.graph.edgeCount} edges"⟩
  | .error e => ⟨.debug, s!"FrameGraph '{frame.name}': compilation failed: {e.message}"⟩

/-- What is logged when a frame is planned with that outcome. -/
def notes (frame : Frame) (outcome : Except PlanError Plan) : List Note :=
  collapseNotes frame ++ [outcomeNote frame outcome]

end Plan

end FramePlan
