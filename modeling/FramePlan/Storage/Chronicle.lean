import FramePlan.Storage.Session

/-!
# Chronicles of sessions

Storage does not know its instances by name: an instance goes from resource to resource, into the
pool and out of it, and what is recorded of it names only the resource that it was bound to. A
chronicle numbers the instances in the order in which they came in and follows each of them through
the calls of a session. Nothing that storage does depends on it.

* `Chronicle.follow` — one call.
* `Chronicle.followAll` — the calls of a session.
-/

namespace FramePlan

variable {κ η ς τ : Type}

/-- Where each instance is, and what was recorded of it. -/
structure Chronicle (κ η ς : Type) where
  /-- The handle of each instance, and what becomes of it in the end. The instances are numbered by
  their places in this list. -/
  arrivals : List (η × Origin κ ς)
  /-- The instance of each resource. -/
  bound : IdMap .resource Nat
  /-- The instances that wait to be used again. -/
  pool : FreeLists κ Nat
  /-- The imported instances that were returned. -/
  restored : List Nat
  /-- The instances that were taken out of the pool. -/
  returned : List Nat
  /-- What was recorded, each time with the instance that the resource had then, oldest first. -/
  records : List (Nat × Transition ς)

namespace Chronicle

/-- No instance has come in. -/
def empty : Chronicle κ η ς := ⟨[], ∅, ∅, [], [], []⟩

/-- What was recorded of an instance, oldest first. -/
def recordsOf (c : Chronicle κ η ς) (i : Nat) : List (Transition ς) :=
  (c.records.filter fun e => e.1 = i).map (·.2)

/-- All instances, each at the place where it is. -/
def places (c : Chronicle κ η ς) : List Nat :=
  c.bound.entries.map (·.2) ++ c.pool.entries.map (·.2) ++ c.restored ++ c.returned

/-! ### Single events -/

/-- A new instance is bound. -/
def arrive (c : Chronicle κ η ς) (r : ResourceId) (owner : η × Origin κ ς) : Chronicle κ η ς :=
  { c with
    arrivals := c.arrivals ++ [owner]
    bound := c.bound.insert r c.arrivals.length }

/-- The transitions are recorded of the instances that their resources have. -/
def ascribe (c : Chronicle κ η ς) (transitions : List (Transition ς)) : Chronicle κ η ς :=
  { c with records := c.records ++
      transitions.filterMap fun t => (c.bound.get? t.resource).map fun i => (i, t) }

/-- A resource that is registered so comes to an instance with the handle. -/
def construct [DecidableEq κ] (c : Chronicle κ η ς) (r : ResourceId) (handle : η) :
    Registration κ η ς → Chronicle κ η ς
  | .imported _ external => c.arrive r (handle, .imported external)
  | .temporal key =>
    match c.pool.acquire? key with
    | some (i, pool) => { c with bound := c.bound.insert r i, pool }
    | none => c.arrive r (handle, .temporal key)

/-- A resource gives its instance up. -/
def destruct (c : Chronicle κ η ς) (r : ResourceId) (i : Nat) : Origin κ ς → Chronicle κ η ς
  | .imported _ => { c with bound := c.bound.erase r, restored := c.restored ++ [i] }
  | .temporal key => { c with bound := c.bound.erase r, pool := c.pool.release key i }

/-- What was recorded between two storages. -/
def news (s t : Storage κ η ς τ) : List (Transition ς) :=
  t.transitions.toList.drop s.transitions.size

/-! ### Calls -/

variable [DecidableEq κ]

/-- Follows a call that was made to the first storage and left the second behind. -/
def follow (c : Chronicle κ η ς) (s t : Storage κ η ς τ) : StorageCall κ η ς → Chronicle κ η ς
  | .construct _ r =>
    match s.bound.get? r, t.bound.get? r, s.registrations.get? r with
    | none, some binding, some registration => c.construct r binding.held.handle registration
    | _, _, _ => c
  | .destruct _ r =>
    match s.bound.get? r, c.bound.get? r with
    | some binding, some i => (c.ascribe (news s t)).destruct r i binding.origin
    | _, _ => c
  | .move _ m =>
    match c.bound.get? m.dst, c.bound.get? m.src with
    | none, some i => { c with bound := (c.bound.erase m.src).insert m.dst i }
    | _, _ => c
  | .request .. => c.ascribe (news s t)
  | .releasePool => { c with pool := ∅, returned := c.returned ++ c.pool.entries.map (·.2) }
  | .registerImported .. | .registerTemporal .. | .registerPassState .. | .takeTransitions => c

/-- Follows calls that are made one after another. -/
def followAll [DecidableEq ς] (allocate : κ → EStateM StorageError τ η) :
    Session κ η ς τ → Chronicle κ η ς → List (StorageCall κ η ς) → Chronicle κ η ς
  | _, c, [] => c
  | s, c, call :: calls =>
    followAll allocate (s.perform allocate call)
      (c.follow s.storage (s.perform allocate call).storage call) calls

end Chronicle

end FramePlan
