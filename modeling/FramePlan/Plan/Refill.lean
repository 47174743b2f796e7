import FramePlan.Plan.Workspace

/-!
# Plans that are used again

A plan is filled anew in a workspace, so what it held before leaves no trace, and if the frame has
no plan, an empty one is left.
-/

namespace FramePlan

namespace Plan

/-- Fills a plan anew. If the frame has no plan, the plan is left empty. No look-up of a declared
frame is out of range. -/
def refill (frame : Frame) (plan : Plan) : Except PlanError Unit × Plan :=
  match Workspace.refill frame (.ofPlan plan) with
  | .ok _ ws => (.ok (), ws.toPlan)
  | .error (.refused cause) left => (.error cause, left.toPlan)
  | .error (.outOfRange _) left => (.ok (), left.toPlan)

end Plan

end FramePlan
