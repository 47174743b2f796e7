import FramePlan.Run.Parallel

/-!
# Runs that look everything up

A run has the events around a pass at hand, and the destination of each move. The runs here keep
the order of the passes and the sources of the moves only: they ask the plan for the rest when they
come to it, and where it has no answer they stop because the plan is not one of the frame. For the
plan of a frame they are the runs that do not ask.
-/

namespace FramePlan

variable {σ η : Type}

namespace Host

/-- Moves the storage of resources to where the plan says, one after another. -/
def moveOnAll (host : Host σ η) (plan : Plan) (sources : List ResourceId) :
    EStateM RunError σ Unit :=
  sources.forM fun src => do
    let dst ← Run.lookUpDestination plan src
    (host.move ⟨dst, src⟩).adaptExcept .ofFault

/-- Applies the events that come before any pass. -/
def lookUpPrologue (host : Host σ η) (plan : Plan) : EStateM RunError σ Unit := do
  host.constructAll plan.prologue.constructs
  host.moveOnAll plan (plan.prologue.moves.map (·.src))
  host.destructAll plan.prologue.destructs

end Host

namespace Lookup

/-- Runs one pass with the events that the plan has around it. -/
def runPass (host : Host σ η) (frame : Frame) (plan : Plan) (p : PassId) :
    EStateM RunError σ Unit := do
  let pass ← Run.lookUpPass frame p
  let events ← Run.lookUpEvents plan p
  host.constructAll events.constructs
  let handles ← (host.request p).adaptExcept .ofFault
  Run.doWork host (fun text => throw (.panicked text)) p pass handles
  host.moveOnAll plan (events.moves.map (·.src))
  host.destructAll events.destructs

/-- Runs every pass of a plan in order. -/
def sequential (host : Host σ η) (frame : Frame) (plan : Plan) : EStateM RunError σ Unit := do
  Run.checkPassCount frame plan
  modify (host.log ⟨.debug, s!"Executor: running '{frame.name}' ({plan.passCount} passes)"⟩)
  host.lookUpPrologue plan
  plan.order.forM (runPass host frame plan)

/-- What comes before any worker starts. -/
def openParallel (workers : WorkerCount) (host : Host σ η) (frame : Frame) (plan : Plan) :
    EStateM RunError σ Unit := do
  Run.checkPassCount frame plan
  modify (host.log ⟨.debug, s!"ParallelExecutor: running '{frame.name}' " ++
    s!"({plan.passCount} passes, {workers.count} workers)"⟩)
  host.lookUpPrologue plan

/-- Runs every pass of a plan on at most the given number of workers, which ask the plan for
destinations only. -/
def parallel (workers : WorkerCount) (host : Host σ η) (frame : Frame) (plan : Plan) :
    EStateM RunError σ Unit := do
  openParallel workers host frame plan
  Run.dispatchParallel workers host frame plan

end Lookup

end FramePlan
