import FramePlan.IdMap
import FramePlan.Frame.NameTable
import FramePlan.Frame.Node

/-!
# Frames

A frame declares the work of one frame: resources, passes that read and write them, and moves of
storage between them. Nodes are registered one at a time; a registration is checked against what
is registered already, and a refused one changes nothing. Conflicts between passes (two writers,
cycles) are no concern of a registration: they are found when the frame is planned.
-/

namespace FramePlan

/-- Why a frame refuses a registration or a look-up. -/
inductive FrameError where
  | duplicateResource (name : String)
  | duplicatePass (name : String)
  | emptyPassName
  | copyArity (pass : String) (inputs outputs : Nat)
  | unknownResource (resource : ResourceId)
  | unknownResourceName (name : String)
  | unknownPassName (name : String)
  | alreadyMovedOut (resource : ResourceId)
  | alreadyMovedInto (resource : ResourceId)
  | selfMove (resource : ResourceId)
deriving DecidableEq

namespace FrameError

/-- The wording of each cause. -/
def message : FrameError → String
  | duplicateResource name => s!"resource `{name}` is already registered"
  | duplicatePass name => s!"pass `{name}` is already registered"
  | emptyPassName => "pass name must not be empty"
  | copyArity pass inputs outputs =>
    s!"copy pass `{pass}` has {inputs} inputs but {outputs} outputs"
  | unknownResource resource => s!"resource {resource} is not registered"
  | unknownResourceName name => s!"unknown resource name `{name}`"
  | unknownPassName name => s!"unknown pass name `{name}`"
  | alreadyMovedOut resource => s!"resource {resource} is already moved out"
  | alreadyMovedInto resource => s!"resource {resource} is already moved into"
  | selfMove resource => s!"resource {resource} cannot be moved into itself"

end FrameError

/-- The declared work of one frame. -/
structure Frame where
  /-- The name of the frame. -/
  name : String
  /-- The names of the resources, in registration order. -/
  resources : List String
  /-- The passes, in registration order. -/
  passes : List Pass
  /-- The moves, in registration order. -/
  moves : List Move
  /-- The resources by name. -/
  resourceIds : NameTable .resource
  /-- The passes by name. -/
  passIds : NameTable .pass
  /-- The move that takes the storage of a resource away. -/
  movesOut : IdMap .resource MoveId
  /-- The move that gives a resource its storage. -/
  movesIn : IdMap .resource MoveId
deriving DecidableEq

namespace Frame

/-- The frame of that name without nodes. -/
def empty (name : String) : Frame where
  name := name
  resources := []
  passes := []
  moves := []
  resourceIds := ∅
  passIds := ∅
  movesOut := ∅
  movesIn := ∅

/-- The frame without its nodes; it keeps its name. -/
def clear (frame : Frame) : Frame := empty frame.name

/-- Whether the frame has no nodes at all. -/
def isEmpty (frame : Frame) : Bool :=
  frame.resources.isEmpty && frame.passes.isEmpty && frame.moves.isEmpty

/-! ### Registration -/

/-- Registers a resource under a name that no resource has. -/
def addResource (frame : Frame) (name : String) : Except FrameError (ResourceId × Frame) :=
  if frame.resourceIds.contains name then
    .error (.duplicateResource name)
  else
    let id : ResourceId := ⟨frame.resources.length⟩
    .ok (id, { frame with
      resources := frame.resources ++ [name]
      resourceIds := frame.resourceIds.add name id })

/-- Whether a resource of that id is registered. -/
def hasResource (frame : Frame) (resource : ResourceId) : Bool :=
  resource.index < frame.resources.length

/-- Registers a pass. Its name is neither empty nor taken, a copy has as many outputs as inputs,
and all the resources it names are registered; the first of these that fails is the answer, and of
several unknown resources the first input, or else the first output. -/
def addPass (frame : Frame) (pass : Pass) : Except FrameError (PassId × Frame) :=
  if pass.name = "" then
    .error .emptyPassName
  else if frame.passIds.contains pass.name then
    .error (.duplicatePass pass.name)
  else if pass.isCopy ∧ pass.inputs.length ≠ pass.outputs.length then
    .error (.copyArity pass.name pass.inputs.length pass.outputs.length)
  else match (pass.inputs ++ pass.outputs).find? (fun r => !frame.hasResource r) with
    | some r => .error (.unknownResource r)
    | none =>
      let id : PassId := ⟨frame.passes.length⟩
      .ok (id, { frame with
        passes := frame.passes ++ [pass]
        passIds := frame.passIds.add pass.name id })

/-- Registers a move between two different registered resources, of which the source is not moved
out and the destination not moved into so far. -/
def addMove (frame : Frame) (move : Move) : Except FrameError (MoveId × Frame) :=
  if !frame.hasResource move.dst then
    .error (.unknownResource move.dst)
  else if !frame.hasResource move.src then
    .error (.unknownResource move.src)
  else if move.dst = move.src then
    .error (.selfMove move.src)
  else if frame.movesOut.contains move.src then
    .error (.alreadyMovedOut move.src)
  else if frame.movesIn.contains move.dst then
    .error (.alreadyMovedInto move.dst)
  else
    let id : MoveId := ⟨frame.moves.length⟩
    .ok (id, { frame with
      moves := frame.moves ++ [move]
      movesOut := frame.movesOut.insert move.src id
      movesIn := frame.movesIn.insert move.dst id })

/-! ### Look-ups -/

/-- The name of a resource. -/
def resource? (frame : Frame) (resource : ResourceId) : Option String :=
  frame.resources[resource.index]?

/-- The pass of an id. -/
def pass? (frame : Frame) (pass : PassId) : Option Pass := frame.passes[pass.index]?

/-- The move of an id. -/
def move? (frame : Frame) (move : MoveId) : Option Move := frame.moves[move.index]?

/-- The resource of a name. -/
def findResource (frame : Frame) (name : String) : Except FrameError ResourceId :=
  match frame.resourceIds.find? name with
  | some id => .ok id
  | none => .error (.unknownResourceName name)

/-- The resources of several names; the first unknown name is the answer if there is one. -/
def findResources (frame : Frame) (names : List String) : Except FrameError (List ResourceId) :=
  names.mapM frame.findResource

/-- The pass of a name. -/
def findPass (frame : Frame) (name : String) : Except FrameError PassId :=
  match frame.passIds.find? name with
  | some id => .ok id
  | none => .error (.unknownPassName name)

/-- Every pass with its id, in registration order. -/
def passEntries (frame : Frame) : List (PassId × Pass) :=
  frame.passes.zipIdx.map fun (pass, i) => (⟨i⟩, pass)

/-- How a resource is called in messages: by its name, or by nothing if it is not registered. -/
def resourceLabel (frame : Frame) (resource : ResourceId) : String :=
  (frame.resource? resource).getD ""

theorem mem_passEntries {frame : Frame} {p : PassId} {pass : Pass} :
    (p, pass) ∈ frame.passEntries ↔ frame.pass? p = some pass := by
  unfold passEntries pass?
  rw [List.mem_map]
  constructor
  · rintro ⟨⟨q, i⟩, hmem, heq⟩
    cases heq
    exact List.mem_zipIdx_iff_getElem?.1 hmem
  · intro h
    exact ⟨(pass, p.index), List.mem_zipIdx_iff_getElem?.2 h, rfl⟩

end Frame

end FramePlan
