import FramePlan.NodeId

/-!
# Why storage refuses a call
-/

namespace FramePlan

/-- Why storage refuses a call. -/
inductive StorageError where
  | unregistered (resource : ResourceId)
  | notConstructed (resource : ResourceId)
  | alreadyConstructed (resource : ResourceId)
  | allocationFailed (reason : String)
  | unknownPass (pass : PassId)
deriving DecidableEq

namespace StorageError

/-- The wording of each cause. -/
def message : StorageError → String
  | unregistered resource => s!"resource {resource} is not registered with the backend"
  | notConstructed resource => s!"resource {resource} is not constructed"
  | alreadyConstructed resource => s!"resource {resource} is already constructed"
  | allocationFailed reason => s!"allocation failed: {reason}"
  | unknownPass pass => s!"pass {pass} is not part of the graph"

end StorageError

end FramePlan
