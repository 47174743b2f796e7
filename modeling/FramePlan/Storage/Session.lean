import FramePlan.Storage.Basic

/-!
# Sessions with storage

The users of storage call it in whatever order they like, and go on after a call that was refused.
A session is what comes of such a sequence of calls: the storage they leave behind, and what they
took out of it.

* `Session.performAll` — the calls are made one after another.
-/

namespace FramePlan

variable {κ η ς τ : Type}

/-- A call to storage. -/
inductive StorageCall (κ η ς : Type) where
  | registerImported (resource : ResourceId) (handle : η) (external : ς)
  | registerTemporal (resource : ResourceId) (key : κ)
  | registerPassState (pass : PassId) (resource : ResourceId) (state : ς)
  | construct (frame : Frame) (resource : ResourceId)
  | destruct (frame : Frame) (resource : ResourceId)
  | move (frame : Frame) (move : Move)
  | request (frame : Frame) (pass : PassId)
  | takeTransitions
  | releasePool
deriving DecidableEq

/-- Storage, and what was taken out of it. -/
structure Session (κ η ς τ : Type) where
  storage : Storage κ η ς τ
  /-- The handles of the instances that were taken out of the pool, each with its key. -/
  returned : List (κ × η)
  /-- The transitions that were taken out, oldest first. -/
  taken : List (Transition ς)

namespace Session

/-- Nothing is registered, and the allocator is in the given state. -/
def start (supply : τ) : Session κ η ς τ := ⟨.empty supply, [], []⟩

/-- Lets storage act, and goes on with what it leaves behind, also if it refuses to. -/
def act {α : Type} (s : Session κ η ς τ) (call : EStateM StorageError (Storage κ η ς τ) α) :
    Session κ η ς τ :=
  match call s.storage with
  | .ok _ storage => { s with storage }
  | .error _ storage => { s with storage }

/-- The transitions that were recorded so far, taken out or not, oldest first. -/
def transitions (s : Session κ η ς τ) : List (Transition ς) :=
  s.taken ++ s.storage.transitions.toList

variable [DecidableEq κ] [DecidableEq ς]

/-- Makes a call. -/
def perform (allocate : κ → EStateM StorageError τ η) (s : Session κ η ς τ) :
    StorageCall κ η ς → Session κ η ς τ
  | .registerImported r handle external =>
    { s with storage := s.storage.registerImported r handle external }
  | .registerTemporal r key => { s with storage := s.storage.registerTemporal r key }
  | .registerPassState p r state => { s with storage := s.storage.registerPassState p r state }
  | .construct frame r => s.act (Storage.construct allocate frame r)
  | .destruct frame r => s.act (Storage.destruct frame r)
  | .move frame m => s.act (Storage.move frame m)
  | .request frame p => s.act (Storage.request frame p)
  | .takeTransitions =>
    let (taken, storage) := s.storage.takeTransitions
    { s with storage, taken := s.taken ++ taken.toList }
  | .releasePool =>
    let (returned, storage) := s.storage.releasePool
    { s with storage, returned := s.returned ++ returned }

/-- Makes calls one after another. -/
def performAll (allocate : κ → EStateM StorageError τ η) (s : Session κ η ς τ)
    (calls : List (StorageCall κ η ς)) : Session κ η ς τ :=
  calls.foldl (perform allocate) s

end Session

end FramePlan
