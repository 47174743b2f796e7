import FramePlan.Run.Parallel
import FramePlan.Run.Recorder

/-!
# Audited runs

An auditor stands between a run and its host. It lets every call through, and takes down which call
it was and whether it returned. So it can be said of a run that nothing failed in it, and which
passes did their work, without a word about what the run makes of that.
-/

namespace FramePlan

variable {σ η : Type}

/-- The pass whose work a call is, if it is that. -/
def Call.worked? : Call η → Option PassId
  | .work p _ _ => some p
  | _ => none

/-- A call that was made, and whether it returned. -/
structure CallEntry (η : Type) where
  call : Call η
  returned : Bool
deriving DecidableEq

/-- The state of a host, and the calls that were made to it. -/
structure Audited (σ η : Type) where
  host : σ
  /-- The calls, oldest first. -/
  entries : List (CallEntry η)

namespace Audited

/-- No call was made. -/
def start (host : σ) : Audited σ η := ⟨host, []⟩

/-- Whether all calls returned. -/
def faultless (s : Audited σ η) : Bool := s.entries.all (·.returned)

/-- The passes that did their work, well or not, oldest first. -/
def worked (s : Audited σ η) : List PassId := s.entries.filterMap (·.call.worked?)

/-- Makes a call, and takes down how it ended. -/
def attest {ε α : Type} (call : Call η) (act : EStateM ε σ α) : EStateM ε (Audited σ η) α :=
  fun s =>
    match act s.host with
    | .ok a host => .ok a ⟨host, s.entries ++ [⟨call, true⟩]⟩
    | .error e host => .error e ⟨host, s.entries ++ [⟨call, false⟩]⟩

/-- A host whose calls are audited. -/
def auditor (host : Host σ η) : Host (Audited σ η) η where
  construct r := attest (.construct r) (host.construct r)
  move m := attest (.move m) (host.move m)
  destruct r := attest (.destruct r) (host.destruct r)
  request p := attest (.request p) (host.request p)
  work p pass handles := attest (.work p pass.name handles) (host.work p pass handles)
  log note s := { s with host := host.log note s.host }

end Audited

namespace Run

/-- The calls of a parallel run, and the state in which it leaves the host. -/
def audit (workers : WorkerCount) (host : Host σ η) (frame : Frame) (plan : Plan) (s : σ) :
    Audited σ η :=
  match parallel workers (Audited.auditor host) frame plan (.start s) with
  | .ok _ u => u
  | .error _ u => u

end Run

end FramePlan
