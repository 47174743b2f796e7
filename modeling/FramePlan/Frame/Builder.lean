import FramePlan.Frame.Declaration

/-!
# Registration in place

`Frame.addResource` and its siblings make one frame of another. Here a frame is at hand, and a call
changes it where it stands: it looks at the frame as far as it has to, stops if something is
wrong, and else writes one field after the other. What a call that stops has written stays.

An id has 32 bits, so a frame can tell no more than `Frame.idCount` nodes of a kind apart.
-/

namespace FramePlan

namespace Frame

/-- How many nodes of a kind there are ids for. -/
def idCount : Nat := 4294967296

/-- The id of the node that is registered after so many others. -/
def nextId (k : NodeKind) (count : Nat) : NodeId k := ⟨count % idCount⟩

/-- There are ids left for one more node of each kind. -/
structure Small (frame : Frame) : Prop where
  resources : frame.resources.length < idCount
  passes : frame.passes.length < idCount
  moves : frame.moves.length < idCount

instance (frame : Frame) : Decidable frame.Small :=
  decidable_of_iff (frame.resources.length < idCount ∧ frame.passes.length < idCount ∧
    frame.moves.length < idCount)
    ⟨fun ⟨hr, hp, hm⟩ => ⟨hr, hp, hm⟩, fun ⟨hr, hp, hm⟩ => ⟨hr, hp, hm⟩⟩

/-! ### Registration -/

/-- Stops if the resource is not registered. -/
def checkResource (resource : ResourceId) : EStateM FrameError Frame Unit := do
  if (← get).hasResource resource then
    pure ()
  else
    throw (.unknownResource resource)

/-- Registers a resource under a name that no resource has. -/
def registerResource (name : String) : EStateM FrameError Frame ResourceId := do
  if (← get).resourceIds.contains name then
    throw (.duplicateResource name)
  else
    let id := nextId .resource (← get).resources.length
    modify fun frame => { frame with resourceIds := frame.resourceIds.add name id }
    modify fun frame => { frame with resources := frame.resources ++ [name] }
    pure id

/-- Registers a pass whose name is neither empty nor taken, and whose resources are registered. -/
def registerPass (pass : Pass) : EStateM FrameError Frame PassId := do
  if pass.name = "" then
    throw .emptyPassName
  else if (← get).passIds.contains pass.name then
    throw (.duplicatePass pass.name)
  else if pass.isCopy ∧ pass.inputs.length ≠ pass.outputs.length then
    throw (.copyArity pass.name pass.inputs.length pass.outputs.length)
  else
    (pass.inputs ++ pass.outputs).forM checkResource
    let id := nextId .pass (← get).passes.length
    modify fun frame => { frame with passIds := frame.passIds.add pass.name id }
    modify fun frame => { frame with passes := frame.passes ++ [pass] }
    pure id

/-- Registers a move between two registered resources that are not yet at that end of a move. -/
def registerMove (move : Move) : EStateM FrameError Frame MoveId := do
  checkResource move.dst
  checkResource move.src
  if move.dst = move.src then
    throw (.selfMove move.src)
  else if (← get).movesOut.contains move.src then
    throw (.alreadyMovedOut move.src)
  else if (← get).movesIn.contains move.dst then
    throw (.alreadyMovedInto move.dst)
  else
    let id := nextId .move (← get).moves.length
    modify fun frame => { frame with movesOut := frame.movesOut.insert move.src id }
    modify fun frame => { frame with movesIn := frame.movesIn.insert move.dst id }
    modify fun frame => { frame with moves := frame.moves ++ [move] }
    pure id

/-! ### Sequences of calls -/

/-- One call, whatever id it returns. -/
def call : Declaration → EStateM FrameError Frame Unit
  | .resource name => discard (registerResource name)
  | .pass pass => discard (registerPass pass)
  | .move move => discard (registerMove move)
  | .clear => modify clear

/-- The frame that one call leaves, be it refused or not. -/
def afterCall (frame : Frame) (d : Declaration) : Frame :=
  match call d frame with
  | .ok _ next => next
  | .error _ next => next

/-- The frame that a sequence of calls leaves. -/
def afterCalls (frame : Frame) (ds : List Declaration) : Frame := ds.foldl afterCall frame

end Frame

end FramePlan
