import FramePlan.Run.Dispatch

/-!
# Parallel runs

A parallel run is a sequence of steps of a dispatch. Which step comes next is up to the workers;
the run that is computed here lets each pass that begins finish at once, so that at any time at most
one pass runs.
-/

namespace FramePlan

/-- The number of workers of a parallel run, of which there is at least one. -/
structure WorkerCount where
  count : Nat
  pos : 0 < count

/-- As many workers as asked for, but at least one. -/
def WorkerCount.atLeastOne (n : Nat) : WorkerCount := ⟨max n 1, by omega⟩

namespace Dispatch

variable {σ η : Type}

/-- Lets a pass that runs finish. -/
def finishFirst (host : Host σ η) (frame : Frame) (plan : Plan) (d : Dispatch σ η) :
    Dispatch σ η :=
  match d.running with
  | [] => d
  | running :: _ => d.finish host frame plan running

/-- Lets `workers` workers begin and finish at most `n` passes, one at a time. -/
def drive (host : Host σ η) (frame : Frame) (plan : Plan) (workers : Nat) :
    Nat → Dispatch σ η → Dispatch σ η
  | 0, d => d
  | n + 1, d =>
    if workers ≤ d.lost then d
    else
      match d.begin? host frame plan with
      | some begun => drive host frame plan workers n (begun.finishFirst host frame plan)
      | none => (d.stall? plan).getD d

end Dispatch

namespace Run

variable {σ η : Type}

/-- What comes before any worker starts: the plan is checked and its prologue is applied. -/
def openParallel (workers : WorkerCount) (host : Host σ η) (frame : Frame) (plan : Plan) :
    EStateM RunError σ Unit := do
  checkPassCount frame plan
  modify (host.log ⟨.debug, s!"ParallelExecutor: running '{frame.name}' " ++
    s!"({plan.passCount} passes, {workers.count} workers)"⟩)
  host.applyPrologue plan.prologue

/-- The dispatch that the workers leave behind. -/
def lastDispatch (workers : WorkerCount) (host : Host σ η) (frame : Frame) (plan : Plan) (s : σ) :
    Dispatch σ η :=
  (Dispatch.start plan s).drive host frame plan (min workers.count plan.passCount)
    (plan.passCount + 1)

/-- Lets workers begin and finish passes. -/
def dispatchParallel (workers : WorkerCount) (host : Host σ η) (frame : Frame) (plan : Plan) :
    EStateM RunError σ Unit := fun s =>
  let d := lastDispatch workers host frame plan s
  match d.outcome with
  | .ok _ => .ok () d.host
  | .error e => .error e d.host

/-- Runs every pass of a plan on at most the given number of workers. -/
def parallel (workers : WorkerCount) (host : Host σ η) (frame : Frame) (plan : Plan) :
    EStateM RunError σ Unit := do
  openParallel workers host frame plan
  dispatchParallel workers host frame plan

end Run

end FramePlan
