import FramePlan.Plan.Basic
import FramePlan.Run.Host

/-!
# Sequential runs

The passes of a plan run one at a time in its order. Around each pass, its constructs come first,
then the pass gets its handles and does its work, and then come its moves and its destructs. The
first call that does not succeed is the last one that is made.
-/

namespace FramePlan

namespace Run

variable {σ η : Type}

/-- A plan is for frames with the same number of passes. -/
def checkPassCount (frame : Frame) (plan : Plan) : EStateM RunError σ Unit :=
  if frame.passes.length = plan.passCount then pure ()
  else throw (.mismatch (.passCount frame.passes.length plan.passCount))

/-- The pass of a frame that a plan refers to. -/
def lookUpPass (frame : Frame) (p : PassId) : EStateM RunError σ Pass :=
  match frame.pass? p with
  | some pass => pure pass
  | none => throw (.mismatch (.unknownPass p))

/-- The events that a plan has around a pass. -/
def lookUpEvents (plan : Plan) (p : PassId) : EStateM RunError σ Events :=
  match plan.events? p with
  | some events => pure events
  | none => throw (.mismatch (.noEvents p))

/-- The resource that a plan moves the storage of a resource to. -/
def lookUpDestination (plan : Plan) (r : ResourceId) : EStateM RunError σ ResourceId :=
  match plan.moves.forward.get? r with
  | some dst => pure dst
  | none => throw (.mismatch (.noDestination r))

/-- Does the work of a pass. A failure is logged; a panic is answered by `onPanic`. -/
def doWork (host : Host σ η) (onPanic : String → EStateM RunError σ Unit) (p : PassId)
    (pass : Pass) (handles : IdMap .resource η) : EStateM RunError σ Unit := fun s =>
  match host.work p pass handles s with
  | .ok _ s => .ok () s
  | .error (.failed text) s =>
    .error (.passFailed p pass.name text)
      (host.log ⟨.warn, s!"Pass '{pass.name}' failed: {text}"⟩ s)
  | .error (.panicked text) s => onPanic text s

/-- Runs one pass with the events around it. -/
def runPass (host : Host σ η) (frame : Frame) (scheduled : ScheduledPass) :
    EStateM RunError σ Unit := do
  let p := scheduled.pass
  let events := scheduled.events
  let pass ← lookUpPass frame p
  host.constructAll events.constructs
  let handles ← (host.request p).adaptExcept .ofFault
  doWork host (fun text => throw (.panicked text)) p pass handles
  host.moveAll events.moves
  host.destructAll events.destructs

/-- Runs every pass of a plan in order. -/
def sequential (host : Host σ η) (frame : Frame) (plan : Plan) : EStateM RunError σ Unit := do
  checkPassCount frame plan
  modify (host.log ⟨.debug, s!"Executor: running '{frame.name}' ({plan.passCount} passes)"⟩)
  host.applyPrologue plan.prologue
  plan.schedule.forM (runPass host frame)

end Run

end FramePlan
