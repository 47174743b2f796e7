import FramePlan.Lifetime
import FramePlan.Run.Error
import FramePlan.Storage.Basic

/-!
# What a run acts on

A run knows when resources come to their storage and when passes work; what it means to construct a
resource or to do the work of a pass is up to its *host*. Every call takes the state of the host and
leaves a new one, also when it does not succeed. Pooled storage is one host.
-/

namespace FramePlan

/-- What a run acts on: the owner of storage, the work of the passes, and the log. -/
structure Host (σ η : Type) where
  /-- Gives a resource its storage. -/
  construct : ResourceId → EStateM StorageFault σ Unit
  /-- Hands the storage of one resource over to another. -/
  move : Move → EStateM StorageFault σ Unit
  /-- Takes the storage of a resource away. -/
  destruct : ResourceId → EStateM StorageFault σ Unit
  /-- Prepares the storage of a pass, and gives the handle of each of its resources. -/
  request : PassId → EStateM StorageFault σ (IdMap .resource η)
  /-- Does the work of a pass. -/
  work : PassId → Pass → IdMap .resource η → EStateM WorkFault σ Unit
  /-- Logs a note. -/
  log : Note → σ → σ

/-- Pooled storage as the host of the runs of a frame, where the work of a pass has no effect but
can be set to fail or to panic. -/
def Storage.host {κ η ς τ : Type} [DecidableEq κ] [DecidableEq ς] (frame : Frame)
    (allocate : κ → EStateM StorageError τ η) (faults : IdMap .pass WorkFault) :
    Host (Storage κ η ς τ) η where
  construct r := (construct allocate frame r).adaptExcept .refused
  move m := (move frame m).adaptExcept .refused
  destruct r := (destruct frame r).adaptExcept .refused
  request p := (request frame p).adaptExcept .refused
  work p _ _ :=
    match faults.get? p with
    | some fault => throw fault
    | none => pure ()
  log note s := s.log note

namespace Host

variable {σ η : Type}

/-- Constructs resources one after another. -/
def constructAll (host : Host σ η) (rs : List ResourceId) : EStateM RunError σ Unit :=
  rs.forM fun r => (host.construct r).adaptExcept .ofFault

/-- Makes moves one after another. -/
def moveAll (host : Host σ η) (ms : List Move) : EStateM RunError σ Unit :=
  ms.forM fun m => (host.move m).adaptExcept .ofFault

/-- Destructs resources one after another. -/
def destructAll (host : Host σ η) (rs : List ResourceId) : EStateM RunError σ Unit :=
  rs.forM fun r => (host.destruct r).adaptExcept .ofFault

/-- Applies the events that come before any pass. -/
def applyPrologue (host : Host σ η) (events : Events) : EStateM RunError σ Unit := do
  host.constructAll events.constructs
  host.moveAll events.moves
  host.destructAll events.destructs

end Host

end FramePlan
