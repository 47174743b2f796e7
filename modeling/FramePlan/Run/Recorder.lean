import FramePlan.Plan.Script
import FramePlan.Run.Host

/-!
# Recorded runs

A recorder stands between a run and its host. It records every call of the run and can keep one of
them from the host: the call numbered so fails, or panics, after it was recorded. Calls to storage
are numbered from zero; the work of passes is recorded but not numbered.
-/

namespace FramePlan

/-- A call that a run makes. -/
inductive Call (η : Type) where
  | construct (resource : ResourceId)
  | move (move : Move)
  | destruct (resource : ResourceId)
  | request (pass : PassId)
  | work (pass : PassId) (name : String) (handles : IdMap .resource η)
deriving DecidableEq

/-- What a call is made for: the call, without the handles that are passed to work. -/
def Call.action {η : Type} : Call η → Action
  | construct r => .construct r
  | move m => .move m
  | destruct r => .destruct r
  | request p => .request p
  | work p _ _ => .work p

/-- The calls that do not get through to the host. -/
structure Trips where
  /-- The number of the call that fails. -/
  failure : Option Nat
  /-- The number of the call that panics. -/
  panic : Option Nat
deriving DecidableEq

/-- The state of a host, and the calls that were made to it. -/
structure Recorded (σ η : Type) where
  host : σ
  /-- The number of the next call to storage. -/
  next : Nat
  /-- The calls, oldest first. -/
  calls : Array (Call η)

namespace Recorded

variable {σ η : Type}

/-- No call is kept from the host. -/
def noTrips : Trips := ⟨none, none⟩

/-- No call was made. -/
def start (host : σ) : Recorded σ η := ⟨host, 0, #[]⟩

/-- What the recorded calls were made for. -/
def actions (s : Recorded σ η) : List Action := s.calls.toList.map Call.action

/-- Lets the host act. -/
def withHost {ε α : Type} (act : EStateM ε σ α) : EStateM ε (Recorded σ η) α := fun s =>
  match act s.host with
  | .ok a host => .ok a { s with host }
  | .error e host => .error e { s with host }

/-- Records a call to storage, and lets it through to the host unless it is tripped. -/
def storageCall {α : Type} (trips : Trips) (call : Call η) (act : EStateM StorageFault σ α) :
    EStateM StorageFault (Recorded σ η) α := fun s =>
  let n := s.next
  let s := { s with next := n + 1, calls := s.calls.push call }
  if trips.panic = some n then
    .error (.panicked s!"backend panicked at call {n}") s
  else if trips.failure = some n then
    .error (.refused (.allocationFailed s!"tripped at call {n}")) s
  else
    withHost act s

/-- A host whose calls are recorded. -/
def recorder (trips : Trips) (host : Host σ η) : Host (Recorded σ η) η where
  construct r := storageCall trips (.construct r) (host.construct r)
  move m := storageCall trips (.move m) (host.move m)
  destruct r := storageCall trips (.destruct r) (host.destruct r)
  request p := storageCall trips (.request p) (host.request p)
  work p pass handles := fun s =>
    withHost (host.work p pass handles) { s with calls := s.calls.push (.work p pass.name handles) }
  log note s := { s with host := host.log note s.host }

end Recorded

end FramePlan
