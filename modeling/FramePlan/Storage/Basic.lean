import FramePlan.Frame.Basic
import FramePlan.FreeLists
import FramePlan.Note
import FramePlan.Storage.Error

/-!
# Pooled storage

Storage binds an instance, that is a handle and the state the instance is in, to each constructed
resource. A resource is registered before it is constructed, in one of two ways:

* an *imported* resource is owned elsewhere: it is bound to the handle of its registration, and
  returned to its external state when it is destructed;
* a *temporal* resource lives for a part of the frame: construction reuses an instance that was
  released under the same key before it asks the allocator for a new one, and destruction releases
  the instance.

A pass can require resources to be in certain states while it runs; each change of a state is
recorded. A call that fails does not change which instance is bound to which resource.
-/

namespace FramePlan

variable {κ η ς τ : Type}

/-- A piece of storage. -/
structure Instance (η ς : Type) where
  /-- What passes get to see of the instance. -/
  handle : η
  /-- The state of the instance, if it was ever in one. -/
  state : Option ς
deriving DecidableEq

/-- How a resource comes to its instance. -/
inductive Registration (κ η ς : Type) where
  | imported (handle : η) (external : ς)
  | temporal (key : κ)
deriving DecidableEq

/-- What becomes of a bound instance in the end. -/
inductive Origin (κ ς : Type) where
  /-- The instance is returned in that state. -/
  | imported (external : ς)
  /-- The instance is released under that key. -/
  | temporal (key : κ)
deriving DecidableEq

/-- An instance that is bound to a resource. -/
structure Binding (κ η ς : Type) where
  held : Instance η ς
  origin : Origin κ ς
deriving DecidableEq

/-- A recorded change of the state of a bound instance. -/
structure Transition (ς : Type) where
  /-- The resource that the instance was bound to. -/
  resource : ResourceId
  /-- The pass that required the new state, or none if an imported instance was returned. -/
  pass : Option PassId
  /-- The state before, if there was one. -/
  before : Option ς
  /-- The state after. -/
  after : ς
deriving DecidableEq

/-- How often instances came and went. -/
structure Stats where
  /-- Instances made by the allocator. -/
  allocated : Nat
  /-- Constructions that were served by a released instance. -/
  reused : Nat
  /-- Temporal instances that were released. -/
  recycled : Nat
  /-- Instances that were moved from one resource to another. -/
  moved : Nat
deriving DecidableEq

/-- Registrations, bound and released instances, and a record of what happened to them. -/
structure Storage (κ η ς τ : Type) where
  registrations : IdMap .resource (Registration κ η ς)
  /-- The states that passes require of resources. -/
  passStates : IdMap .pass (IdMap .resource ς)
  bound : IdMap .resource (Binding κ η ς)
  pool : FreeLists κ (Instance η ς)
  /-- The state of the allocator. -/
  supply : τ
  /-- The recorded changes of states, oldest first. -/
  transitions : Array (Transition ς)
  stats : Stats
  /-- What was logged, oldest first. -/
  journal : Array Note

namespace Storage

/-- Storage in which nothing is registered, with an allocator in the given state. -/
def empty (supply : τ) : Storage κ η ς τ where
  registrations := ∅
  passStates := ∅
  bound := ∅
  pool := ∅
  supply
  transitions := #[]
  stats := ⟨0, 0, 0, 0⟩
  journal := #[]

/-! ### Registration -/

/-- The resource is imported: bound to a handle, which is in the external state. -/
def registerImported (s : Storage κ η ς τ) (r : ResourceId) (handle : η) (external : ς) :
    Storage κ η ς τ :=
  { s with registrations := s.registrations.insert r (.imported handle external) }

/-- The resource is temporal, its instances are pooled under a key. -/
def registerTemporal (s : Storage κ η ς τ) (r : ResourceId) (key : κ) : Storage κ η ς τ :=
  { s with registrations := s.registrations.insert r (.temporal key) }

/-- The pass requires the resource to be in a state. -/
def registerPassState (s : Storage κ η ς τ) (p : PassId) (r : ResourceId) (state : ς) :
    Storage κ η ς τ :=
  { s with passStates := s.passStates.insert p ((s.passStates.getD p ∅).insert r state) }

/-! ### Queries -/

/-- Whether a resource is registered as imported. -/
def isImported (s : Storage κ η ς τ) (r : ResourceId) : Bool :=
  match s.registrations.get? r with
  | some (.imported ..) => true
  | _ => false

/-- Whether an instance is bound to a resource. -/
def isConstructed (s : Storage κ η ς τ) (r : ResourceId) : Bool := s.bound.contains r

/-- The handle that is bound to a resource. -/
def handle? (s : Storage κ η ς τ) (r : ResourceId) : Option η :=
  (s.bound.get? r).map (·.held.handle)

/-- The state of the instance that is bound to a resource. -/
def state? (s : Storage κ η ς τ) (r : ResourceId) : Option ς :=
  (s.bound.get? r).bind (·.held.state)

/-- The state that a pass requires of a resource. -/
def requiredState? (s : Storage κ η ς τ) (p : PassId) (r : ResourceId) : Option ς :=
  (s.passStates.get? p).bind (·.get? r)

/-- How many released instances there are. -/
def pooledCount (s : Storage κ η ς τ) : Nat := s.pool.size

/-- How many resources have an instance. -/
def constructedCount (s : Storage κ η ς τ) : Nat := s.bound.size

/-- One line with the counts of what is stored. -/
def summary (s : Storage κ η ς τ) : String :=
  s!"PooledBackend \x7b registered: {s.registrations.size}, bound: {s.bound.size}, " ++
    s!"pooled: {s.pool.size}, stats: BackendStats \x7b allocated: {s.stats.allocated}, " ++
    s!"reused: {s.stats.reused}, recycled: {s.stats.recycled}, moved: {s.stats.moved} \x7d, .. \x7d"

/-! ### Records -/

/-- Logs a note. -/
def log (s : Storage κ η ς τ) (note : Note) : Storage κ η ς τ :=
  { s with journal := s.journal.push note }

/-- Logs what happens to a resource. -/
def trace (s : Storage κ η ς τ) (text : String) : Storage κ η ς τ :=
  s.log ⟨.trace, s!"PooledBackend: {text}"⟩

/-- The pass of a transition, as it is logged. -/
def passLabel : Option PassId → String
  | some p => s!"Some({p.index})"
  | none => "None"

/-- Records a change of a state. -/
def record (s : Storage κ η ς τ) (t : Transition ς) : Storage κ η ς τ :=
  let s := s.trace s!"transitioning resource {t.resource} for pass {passLabel t.pass}"
  { s with transitions := s.transitions.push t }

/-- Takes the recorded transitions out. -/
def takeTransitions (s : Storage κ η ς τ) : Array (Transition ς) × Storage κ η ς τ :=
  (s.transitions, { s with transitions := #[] })

/-- Takes the logged notes out. -/
def takeJournal (s : Storage κ η ς τ) : Array Note × Storage κ η ς τ :=
  (s.journal, { s with journal := #[] })

/-- Takes every released instance out of the pool; only keys and handles are left of them. -/
def releasePool (s : Storage κ η ς τ) : List (κ × η) × Storage κ η ς τ :=
  let (entries, pool) := s.pool.drain
  (entries.map fun e => (e.1, e.2.handle), { s with pool })

/-! ### Events of resources -/

/-- Binds an instance to a resource. -/
def bind (s : Storage κ η ς τ) (r : ResourceId) (binding : Binding κ η ς) : Storage κ η ς τ :=
  { s with bound := s.bound.insert r binding }

/-- Takes the binding of a resource away. -/
def unbind (s : Storage κ η ς τ) (r : ResourceId) : Storage κ η ς τ :=
  { s with bound := s.bound.erase r }

/-- One more instance was acquired, from the pool or from the allocator. -/
def countAcquired (s : Storage κ η ς τ) (isReused : Bool) : Storage κ η ς τ :=
  if isReused then { s with stats.reused := s.stats.reused + 1 }
  else { s with stats.allocated := s.stats.allocated + 1 }

/-- Binds an instance to a resource that has none. -/
def construct [DecidableEq κ] (allocate : κ → EStateM StorageError τ η) (frame : Frame)
    (r : ResourceId) : EStateM StorageError (Storage κ η ς τ) Unit := fun s =>
  if s.bound.contains r then
    .error (.alreadyConstructed r) s
  else
    let label := frame.resourceLabel r
    match s.registrations.get? r with
    | none => .error (.unregistered r) s
    | some (.imported handle external) =>
      let s := s.trace s!"binding imported resource '{label}'"
      .ok () (s.bind r ⟨⟨handle, some external⟩, .imported external⟩)
    | some (.temporal key) =>
      let create (key : κ) : EStateM StorageError τ (Instance η ς) :=
        return ⟨← allocate key, none⟩
      match s.pool.acquireOrCreate key create s.supply with
      | .error e supply => .error e { s with supply }
      | .ok (acquired, pool) supply =>
        let s := { s with pool, supply }
        let s := s.trace <|
          if acquired.isReused then s!"reusing pooled instance for '{label}'"
          else s!"allocating instance for '{label}'"
        .ok () ((s.countAcquired acquired.isReused).bind r ⟨acquired.value, .temporal key⟩)

/-- Takes the instance of a resource away: an imported one is returned in its external state, a
temporal one is released under its key. -/
def destruct [DecidableEq ς] (frame : Frame) (r : ResourceId) :
    EStateM StorageError (Storage κ η ς τ) Unit := fun s =>
  match s.bound.get? r with
  | none => .error (.notConstructed r) s
  | some binding =>
    let label := frame.resourceLabel r
    let s := s.unbind r
    match binding.origin with
    | .imported external =>
      let s := s.trace s!"restoring imported resource '{label}'"
      .ok () (if binding.held.state = some external then s
        else s.record ⟨r, none, binding.held.state, external⟩)
    | .temporal key =>
      let s := s.trace s!"recycling instance of '{label}'"
      .ok () { s with
        pool := s.pool.release key binding.held
        stats.recycled := s.stats.recycled + 1 }

/-- Binds the instance of one resource to another, which has none so far. -/
def move (frame : Frame) (m : Move) : EStateM StorageError (Storage κ η ς τ) Unit := fun s =>
  if s.bound.contains m.dst then
    .error (.alreadyConstructed m.dst) s
  else
    match s.bound.get? m.src with
    | none => .error (.notConstructed m.src) s
    | some binding =>
      let s := s.trace s!"moving '{frame.resourceLabel m.src}' into '{frame.resourceLabel m.dst}'"
      .ok () (({ s with stats.moved := s.stats.moved + 1 }.unbind m.src).bind m.dst binding)

/-! ### Requests -/

/-- The instance of a resource, brought into the state that a pass requires. -/
def prepare [DecidableEq ς] (p : PassId) (r : ResourceId) :
    EStateM StorageError (Storage κ η ς τ) η := fun s =>
  match s.bound.get? r with
  | none => .error (.notConstructed r) s
  | some binding =>
    match s.requiredState? p r with
    | none => .ok binding.held.handle s
    | some state =>
      if binding.held.state = some state then
        .ok binding.held.handle s
      else
        let s := s.bind r { binding with held.state := some state }
        .ok binding.held.handle (s.record ⟨r, some p, binding.held.state, state⟩)

/-- The handles of all resources of a pass, each brought into the state that the pass requires. The
resources are prepared in ascending order up to the first one without an instance. -/
def request [DecidableEq ς] (frame : Frame) (p : PassId) :
    EStateM StorageError (Storage κ η ς τ) (IdMap .resource η) :=
  match frame.pass? p with
  | none => throw (.unknownPass p)
  | some pass => do
    let handles ← pass.resources.toList.mapM fun r => return (r, ← prepare p r)
    return .ofList handles

end Storage

end FramePlan
