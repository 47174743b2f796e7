import FramePlan.Run.Sequential

/-!
# Dispatch of passes to workers

Workers share one dispatch, and touch it one at a time. A worker *begins* the pass that has been
ready the longest: it constructs the resources that no pass used before and gets the handles of the
pass. It then does the work of the pass, while others use the dispatch. At last it *finishes* the
pass: each resource that no pass needs any more is moved or destructed, and the passes that waited
for this one may become ready. The plan's events around passes are not used; when a resource is
released follows from counting the passes that are still to use it.

After the first error no pass begins, but those that run finish. When no pass is ready, none runs
and some are left, the dispatch is stalled. A panic of storage ends its worker and leaves no error.
-/

namespace FramePlan

variable {σ η : Type}

/-- What the workers of a parallel run share. -/
structure Dispatch (σ η : Type) where
  /-- The state of the host. -/
  host : σ
  /-- Which passes are complete, and which are ready. -/
  frontier : Frontier
  /-- How many passes that use a resource are not complete yet. -/
  users : IdMap .resource Nat
  /-- The resources that were constructed by a beginning pass. -/
  constructed : IdSet .resource
  /-- The passes that run, with their handles, in the order in which they began. -/
  running : List (PassId × IdMap .resource η)
  /-- The first error. -/
  error : Option RunError
  /-- How many workers were lost to a panic. -/
  lost : Nat

namespace Dispatch

/-- No pass has begun. -/
def start (plan : Plan) (host : σ) : Dispatch σ η where
  host
  frontier := .start plan.graph plan.order
  users := plan.usage.uses.map fun _ u => u.users.size
  constructed := ∅
  running := []
  error := none
  lost := 0

/-- Lets the host act. -/
def withHost {α : Type} (act : EStateM RunError σ α) : EStateM RunError (Dispatch σ η) α :=
  fun d =>
    match act d.host with
    | .ok a host => .ok a { d with host }
    | .error e host => .error e { d with host }

/-- Constructs a resource that a pass is about to use, unless it is moved into or was constructed
before. -/
def constructNew (host : Host σ η) (plan : Plan) (r : ResourceId) :
    EStateM RunError (Dispatch σ η) Unit := do
  let d ← get
  if plan.moves.backward.contains r ∨ r ∈ d.constructed then
    pure ()
  else
    set { d with constructed := d.constructed.insert r }
    withHost ((host.construct r).adaptExcept .ofFault)

/-- Begins a pass. -/
def beginPass (host : Host σ η) (frame : Frame) (plan : Plan) (p : PassId) :
    EStateM RunError (Dispatch σ η) Unit := do
  let pass ← Run.lookUpPass frame p
  pass.resources.toList.forM (constructNew host plan)
  let handles ← withHost ((host.request p).adaptExcept .ofFault)
  modify fun d => { d with running := d.running ++ [(p, handles)] }

/-- One of the passes that use a resource is complete. After the last one the storage goes to where
the resource is moved to, and on from there if no pass is left to use that either, or is
released. -/
def releaseUse (host : Host σ η) (plan : Plan) (r : ResourceId) :
    EStateM RunError (Dispatch σ η) Unit := do
  let d ← get
  let left := d.users.getD r 1 - 1
  let users := d.users.insert r left
  set { d with users }
  if left > 0 then
    pure ()
  else if plan.moves.forward.contains r then
    let dst ← Run.lookUpDestination plan r
    withHost ((host.move ⟨dst, r⟩).adaptExcept .ofFault)
    if users.getD dst 0 = 0 then
      withHost ((host.destruct dst).adaptExcept .ofFault)
  else
    withHost ((host.destruct r).adaptExcept .ofFault)

/-- A panic of the work of a pass is logged, and leaves an error instead of ending the worker. -/
def holdUpPanic (host : Host σ η) (pass : Pass) : EStateM RunError σ Unit := fun s =>
  .error .workerPanicked (host.log ⟨.warn, s!"Pass '{pass.name}' panicked"⟩ s)

/-- Does the work of a running pass and finishes it. -/
def finishPass (host : Host σ η) (frame : Frame) (plan : Plan)
    (running : PassId × IdMap .resource η) : EStateM RunError (Dispatch σ η) Unit := do
  let (p, handles) := running
  modify fun d => { d with running := d.running.eraseP fun e => e.1 = p }
  let pass ← Run.lookUpPass frame p
  withHost (Run.doWork host (fun _ => holdUpPanic host pass) p pass handles)
  pass.resources.toList.forM (releaseUse host plan)
  modify fun d => { d with frontier := d.frontier.complete plan.graph p }

/-- Keeps the error, unless there is one already. -/
def fail (d : Dispatch σ η) (e : RunError) : Dispatch σ η :=
  { d with error := d.error.or (some e) }

/-- What is left when a worker is done with what it attempted. -/
def settle : EStateM.Result RunError (Dispatch σ η) Unit → Dispatch σ η
  | .ok _ d => d
  | .error (.panicked _) d => { d with lost := d.lost + 1 }
  | .error e d => d.fail e

/-- Whether no further pass begins: there is an error, or all passes are complete. -/
def isOver (plan : Plan) (d : Dispatch σ η) : Bool :=
  d.error.isSome || d.frontier.done.length = plan.passCount

/-- A worker takes the pass that has been ready the longest, and begins it. -/
def begin? (host : Host σ η) (frame : Frame) (plan : Plan) (d : Dispatch σ η) :
    Option (Dispatch σ η) :=
  if d.isOver plan then
    none
  else
    d.frontier.take?.map fun (p, frontier) =>
      settle (beginPass host frame plan p { d with frontier })

/-- A worker finishes a pass that runs. -/
def finish (host : Host σ η) (frame : Frame) (plan : Plan) (d : Dispatch σ η)
    (running : PassId × IdMap .resource η) : Dispatch σ η :=
  settle (finishPass host frame plan running d)

/-- A worker finds that some passes are left, but none is ready and none runs. -/
def stall? (plan : Plan) (d : Dispatch σ η) : Option (Dispatch σ η) :=
  if d.isOver plan ∨ d.frontier.ready ≠ [] ∨ d.running ≠ [] then none
  else some (d.fail (.mismatch .stalled))

/-- How a run ends, given the dispatch that its workers leave behind. -/
def outcome (d : Dispatch σ η) : Except RunError Unit :=
  match d.error with
  | some e => .error e
  | none => if d.lost = 0 then .ok () else .error .workerPanicked

end Dispatch

end FramePlan
