import FramePlan.MoveChain
import FramePlan.PassGraph.Basic
import FramePlan.Usage

/-!
# Hazards

Two passes that use one piece of storage in ways that do not commute have to run in a fixed order:

* a resource is written before it is read, and copied into after it was read (or written, if no
  pass reads it);
* a copy is the last use of its source, so the general passes that read the source come before it;
* storage is moved after the last use of the source and before the first use of the destination.
-/

namespace FramePlan

namespace Hazard

/-- The order of the passes that use one resource. -/
def ofUsage (usage : Usage) : List (PassId × PassId) :=
  let readers := usage.readers.toList
  let written := match usage.writer with
    | some writer => readers.map fun reader => (writer, reader)
    | none => []
  let copied := match usage.copyIn with
    | some copy =>
      readers.map (fun reader => (reader, copy)) ++
        (if readers.isEmpty then usage.writer.toList.map fun writer => (writer, copy) else [])
    | none => []
  written ++ copied

/-- The general passes that read a source of a copy pass come before the copy. -/
def ofCopies (frame : Frame) (table : UsageTable) : List (PassId × PassId) :=
  (frame.passEntries.filter fun e => e.2.isCopy).flatMap fun (copy, pass) =>
    pass.inputs.flatMap fun src =>
      ((table.usage src).readers.toList.filter fun reader =>
        (frame.pass? reader).any Pass.isGeneral).map fun reader => (reader, copy)

/-- The last users of what is moved come before the first users of what it is moved into. -/
def ofMove (table : UsageTable) (src dst : ResourceId) : List (PassId × PassId) :=
  (table.usage src).finalUsers.flatMap fun a => (table.usage dst).firstUsers.map fun b => (a, b)

/-- Every pair of passes whose order matters, of which the first comes first. -/
def edges (frame : Frame) (table : UsageTable) (moves : MoveTable) : List (PassId × PassId) :=
  table.uses.entries.flatMap (fun e => ofUsage e.2) ++ ofCopies frame table ++
    moves.forward.entries.flatMap fun (src, dst) => ofMove table src dst

end Hazard

/-- The graph of a frame's passes, by the hazards between them. -/
def PassGraph.ofHazards (frame : Frame) (table : UsageTable) (moves : MoveTable) : PassGraph :=
  (edgeless frame.passes.length).addEdges (Hazard.edges frame table moves)

end FramePlan
