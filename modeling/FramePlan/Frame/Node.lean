import FramePlan.IdSet

/-!
# Nodes of a frame

A *resource* is a named storage slot. A *pass* is a named unit of work that declares the resources
it reads and the resources it writes. A *move* hands the storage of one resource over to another
once the first is no longer used.
-/

namespace FramePlan

/-- The work that a pass does. -/
inductive PassKind where
  /-- Any work: it reads every input and writes every output. -/
  | general
  /-- A copy by position: input `i` is copied into output `i`. -/
  | copy
deriving DecidableEq

/-- A unit of work and the resources it declares. -/
structure Pass where
  /-- What the pass does with its resources. -/
  kind : PassKind
  /-- The name of the pass. -/
  name : String
  /-- The resources that the pass reads, in the order of declaration. -/
  inputs : List ResourceId
  /-- The resources that the pass writes, in the order of declaration. -/
  outputs : List ResourceId
deriving DecidableEq

namespace Pass

/-- Whether the pass does any work of its own. -/
def isGeneral (pass : Pass) : Bool := pass.kind = .general

/-- Whether the pass only copies. -/
def isCopy (pass : Pass) : Bool := pass.kind = .copy

/-- The pairs of source and destination of a copy pass; a general pass has none. -/
def copyPairs (pass : Pass) : List (ResourceId × ResourceId) :=
  match pass.kind with
  | .general => []
  | .copy => pass.inputs.zip pass.outputs

/-- Every resource that the pass touches. -/
def resources (pass : Pass) : IdSet .resource := .ofList (pass.inputs ++ pass.outputs)

theorem mem_resources {pass : Pass} {r : ResourceId} :
    r ∈ pass.resources ↔ r ∈ pass.inputs ∨ r ∈ pass.outputs := by
  simp [resources]

end Pass

/-- The storage of `src` is handed over to `dst` once `src` is no longer used. -/
structure Move where
  /-- The resource that receives the storage. -/
  dst : ResourceId
  /-- The resource that gives up its storage. -/
  src : ResourceId
deriving DecidableEq

end FramePlan
