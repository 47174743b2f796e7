import FramePlan.NodeId

/-!
# Why a frame has no plan

Either two declarations of the frame contradict each other, or the passes wait for one another.
-/

namespace FramePlan

/-- Why a frame has no plan. -/
inductive PlanError where
  /-- Two general passes write the resource. -/
  | multipleWriters (resource : ResourceId) (first second : PassId)
  /-- The resource is the destination of two copies. -/
  | multipleCopyIns (resource : ResourceId) (first second : PassId)
  /-- The resource is the source of two moves. -/
  | moveOutConflict (resource firstDst secondDst : ResourceId)
  /-- The resource is the destination of two moves. -/
  | moveInConflict (resource firstSrc secondSrc : ResourceId)
  /-- The resource would be moved into itself in the end. -/
  | moveCycle (resource : ResourceId)
  /-- The passes that can never start, as each waits for another of them. -/
  | notADag (remaining : List PassId)
deriving DecidableEq

namespace PlanError

/-- The wording of each cause. -/
def message : PlanError → String
  | multipleWriters resource first second =>
    s!"resource {resource} is written by both pass {first} and pass {second}"
  | multipleCopyIns resource first second =>
    s!"resource {resource} is copied into by both pass {first} and pass {second}"
  | moveOutConflict resource firstDst secondDst =>
    s!"resource {resource} is moved into both {firstDst} and {secondDst}"
  | moveInConflict resource firstSrc secondSrc =>
    s!"resource {resource} receives moves from both {firstSrc} and {secondSrc}"
  | moveCycle resource => s!"resource {resource} is part of a move cycle"
  | notADag remaining =>
    s!"pass graph is not a DAG: {remaining.length} passes are part of or behind a cycle"

end PlanError

end FramePlan
