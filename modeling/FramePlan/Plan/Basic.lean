import FramePlan.Lifetime
import FramePlan.PassGraph.Hazard
import FramePlan.PassGraph.Order

/-!
# Plans

A plan of a frame is an order of its passes together with what happens to resources before, around
and between them. `Plan.ofFrame` makes the plan of a frame, or says why there is none; conflicts
between declarations are found before cycles of passes.
-/

namespace FramePlan

/-- A pass and the events around it. -/
structure ScheduledPass where
  pass : PassId
  events : Events
deriving DecidableEq

/-- The order in which a frame runs. -/
structure Plan where
  /-- Which passes use which resources. -/
  usage : UsageTable
  /-- The moves between resources that matter. -/
  moves : MoveTable
  /-- Which passes wait for which. -/
  graph : PassGraph
  /-- The spans of the resources that passes use. -/
  spans : IdMap .resource Span
  /-- What happens before any pass. -/
  prologue : Events
  /-- The passes in the order in which they run, each with its events. -/
  schedule : List ScheduledPass
deriving DecidableEq

namespace Plan

/-- The plan of nothing. -/
def empty : Plan where
  usage := ∅
  moves := ∅
  graph := .edgeless 0
  spans := ∅
  prologue := .none
  schedule := []

/-- The passes in the order in which they run. -/
def order (plan : Plan) : List PassId := plan.schedule.map (·.pass)

/-- How many passes run. -/
def passCount (plan : Plan) : Nat := plan.schedule.length

/-- Whether no pass runs. -/
def isEmpty (plan : Plan) : Bool := plan.schedule.isEmpty

/-- The position of a pass in the order. -/
def position? (plan : Plan) (p : PassId) : Option Nat := plan.order.idxOf? p

/-- The events around a pass. -/
def events? (plan : Plan) (p : PassId) : Option Events :=
  (plan.schedule.find? fun scheduled => scheduled.pass = p).map (·.events)

/-- The span of a resource. -/
def span? (plan : Plan) (r : ResourceId) : Option Span := plan.spans.get? r

/-- The first pass that uses a resource. -/
def firstPass? (plan : Plan) (r : ResourceId) : Option PassId := do
  plan.order[(← plan.span? r).first]?

/-- The last pass that uses a resource. -/
def lastPass? (plan : Plan) (r : ResourceId) : Option PassId := do
  plan.order[(← plan.span? r).last]?

/-- The plan in which the passes come in a given order. -/
def ofOrder (usage : UsageTable) (moves : MoveTable) (graph : PassGraph) (order : List PassId) :
    Plan :=
  let spans := Span.table usage order
  let placements := usage.uses.map fun r _ => Placement.ofResource spans moves r
  { usage, moves, graph, spans
    prologue := .inSlot placements .prologue
    schedule := order.zipIdx.map fun (p, k) => ⟨p, .inSlot placements (.pass k)⟩ }

/-- The plan of a frame. -/
def ofFrame (frame : Frame) : Except PlanError Plan := do
  let usage ← UsageTable.ofFrame frame
  let chains ← (← MoveTable.ofMoves frame.moves).chains
  let moves := MoveTable.addCollapsed usage.isTouched ∅ chains
  let graph := PassGraph.ofHazards frame usage moves
  return ofOrder usage moves graph (← graph.order)

end Plan

end FramePlan
