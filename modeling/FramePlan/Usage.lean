import FramePlan.Frame.Basic
import FramePlan.Plan.Error

/-!
# Use of resources

The usage of a resource is the one general pass that writes it, the passes that read it (a copy
reads its sources), and the one copy pass that copies into it. `UsageTable.ofFrame` collects it
over the passes in registration order and refuses a frame with two writers of one resource, or two
copies into one. A pass may name a resource twice among its outputs; a copy may not, as that would
be two copies into it.
-/

namespace FramePlan

/-- Which passes use a resource, and how. -/
structure Usage where
  /-- The general pass that writes the resource. -/
  writer : Option PassId
  /-- The passes that read the resource. -/
  readers : IdSet .pass
  /-- The copy pass that copies into the resource. -/
  copyIn : Option PassId
deriving DecidableEq

namespace Usage

/-- No pass uses the resource. -/
def none : Usage := ⟨.none, ∅, .none⟩

/-- Whether any pass uses the resource. -/
def isTouched (usage : Usage) : Bool :=
  usage.writer.isSome || !usage.readers.isEmpty || usage.copyIn.isSome

/-- Every pass that uses the resource. -/
def users (usage : Usage) : IdSet .pass :=
  .ofList (usage.writer.toList ++ usage.readers.toList ++ usage.copyIn.toList)

/-- The passes that use the resource last: its copy-in, or else its readers, or else its writer. -/
def finalUsers (usage : Usage) : List PassId :=
  match usage.copyIn with
  | some p => [p]
  | .none => if usage.readers.isEmpty then usage.writer.toList else usage.readers.toList

/-- The passes that use the resource first: its writer, or else its readers, or else its copy-in. -/
def firstUsers (usage : Usage) : List PassId :=
  match usage.writer with
  | some p => [p]
  | .none => if usage.readers.isEmpty then usage.copyIn.toList else usage.readers.toList

theorem mem_users {usage : Usage} {p : PassId} :
    p ∈ usage.users ↔ usage.writer = some p ∨ p ∈ usage.readers ∨ usage.copyIn = some p := by
  simp [users, IdSet.mem_toList]

end Usage

/-- The usage of every resource that a frame's passes and moves refer to, and what is copied
where. -/
structure UsageTable where
  /-- The usage of each resource that is referred to. -/
  uses : IdMap .resource Usage
  /-- The source that is copied into each copy destination. -/
  copiesIn : IdMap .resource ResourceId
  /-- The destinations that each copy source is copied into. -/
  copiesOut : IdMap .resource (IdSet .resource)
deriving DecidableEq

namespace UsageTable

/-- Nothing is referred to. -/
def empty : UsageTable := ⟨∅, ∅, ∅⟩

instance : EmptyCollection UsageTable := ⟨empty⟩

/-- The usage of a resource. -/
def usage (table : UsageTable) (r : ResourceId) : Usage := table.uses.getD r .none

/-- Whether any pass uses the resource. -/
def isTouched (table : UsageTable) (r : ResourceId) : Bool := (table.usage r).isTouched

/-- The table with the usage of one resource changed. -/
def update (table : UsageTable) (r : ResourceId) (change : Usage → Usage) : UsageTable :=
  { table with uses := table.uses.insert r (change (table.usage r)) }

theorem usage_update {table : UsageTable} {r s : ResourceId} {change : Usage → Usage} :
    (table.update r change).usage s =
      if s = r then change (table.usage r) else table.usage s := IdMap.getD_insert

/-- The pass reads the resource. -/
def addReader (p : PassId) (table : UsageTable) (r : ResourceId) : UsageTable :=
  table.update r fun u => { u with readers := u.readers.insert p }

/-- The general pass writes the resource, which no other pass does. -/
def addWriter (p : PassId) (table : UsageTable) (r : ResourceId) : Except PlanError UsageTable :=
  match (table.usage r).writer with
  | some first =>
    if first = p then .ok table else .error (.multipleWriters r first p)
  | none => .ok (table.update r fun u => { u with writer := some p })

/-- The copy pass copies the first resource into the second, which no other copy does. -/
def addCopy (p : PassId) (table : UsageTable) (copied : ResourceId × ResourceId) :
    Except PlanError UsageTable :=
  let (src, dst) := copied
  let table := table.addReader p src
  match (table.usage dst).copyIn with
  | some first => .error (.multipleCopyIns dst first p)
  | none =>
    let table := table.update dst fun u => { u with copyIn := some p }
    .ok { table with
      copiesIn := table.copiesIn.insert dst src
      copiesOut := table.copiesOut.insert src ((table.copiesOut.getD src ∅).insert dst) }

/-- The table with the uses of one pass added. -/
def addPass (table : UsageTable) (entry : PassId × Pass) : Except PlanError UsageTable :=
  let (p, pass) := entry
  match pass.kind with
  | .general => pass.outputs.foldlM (addWriter p) (pass.inputs.foldl (addReader p) table)
  | .copy => pass.copyPairs.foldlM (addCopy p) table

/-- Both ends of a move are referred to, whether or not a pass uses them. -/
def addMove (table : UsageTable) (move : Move) : UsageTable :=
  (table.update move.src id).update move.dst id

/-- The uses of all passes of a frame, and entries for the ends of all its moves. -/
def ofFrame (frame : Frame) : Except PlanError UsageTable :=
  (frame.passEntries.foldlM addPass ∅).map fun table => frame.moves.foldl addMove table

end UsageTable

end FramePlan
