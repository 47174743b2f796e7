import FramePlan.Storage.Error

/-!
# Why a run stops early
-/

namespace FramePlan

/-- Why storage does not do what a run asks for. -/
inductive StorageFault where
  /-- The call is refused. -/
  | refused (error : StorageError)
  /-- The call panics. -/
  | panicked (text : String)
deriving DecidableEq

/-- Why the work of a pass does not succeed. -/
inductive WorkFault where
  | failed (text : String)
  | panicked (text : String)
deriving DecidableEq

/-- Why a plan cannot be run on a frame. -/
inductive Mismatch where
  /-- The frame and the plan have different numbers of passes. -/
  | passCount (frame plan : Nat)
  /-- The plan has a pass that the frame does not have. -/
  | unknownPass (pass : PassId)
  /-- The plan has no events for a pass. -/
  | noEvents (pass : PassId)
  /-- A resource is moved, but the plan does not say where to. -/
  | noDestination (resource : ResourceId)
  /-- There are passes left, but none of them is ready and none runs. -/
  | stalled
deriving DecidableEq

/-- The wording of each cause. -/
def Mismatch.message : Mismatch → String
  | passCount frame plan => s!"graph has {frame} passes, result has {plan}"
  | unknownPass pass => s!"pass {pass} is not in the graph"
  | noEvents pass => s!"pass {pass} has no events"
  | noDestination resource => s!"resource {resource} is moved without a destination"
  | stalled => "no pass is ready but the frame is incomplete"

/-- Why a run stops early. -/
inductive RunError where
  /-- Storage refused a call. -/
  | storage (error : StorageError)
  /-- The work of a pass failed. -/
  | passFailed (pass : PassId) (name text : String)
  /-- The plan is not a plan of the frame. -/
  | mismatch (cause : Mismatch)
  /-- A worker of a parallel run was lost to a panic. -/
  | workerPanicked
  /-- A panic, of storage or of the work of a pass, that no worker held up. -/
  | panicked (text : String)
deriving DecidableEq

namespace RunError

/-- The wording of each cause; a panic has its own. -/
def message : RunError → String
  | storage error => s!"backend error: {error.message}"
  | passFailed pass name text => s!"pass {pass} `{name}` failed: {text}"
  | mismatch cause => s!"compile result does not match the graph: {cause.message}"
  | workerPanicked => "pass work panicked on a worker thread"
  | panicked text => text

/-- A fault of storage stops the run. -/
def ofFault : StorageFault → RunError
  | .refused error => storage error
  | .panicked text => panicked text

end RunError

end FramePlan
