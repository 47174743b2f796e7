import FramePlan.Frame.Node
import FramePlan.IdMap
import FramePlan.Plan.Error

/-!
# Chains of moves

A resource gives its storage to at most one other and receives storage from at most one, so moves
form chains, and a chain that closes is an error. A chain may lead through resources that no pass
uses; a plan leaves those out and hands the storage over to the next resource that matters.

* `MoveTable.ofMoves` — the moves keyed by either end.
* `MoveTable.chains` — every chain from its first to its last resource, or the smallest resource
  on a cycle.
* `MoveTable.collapse` — the moves that remain when unused inner resources are left out.
-/

namespace FramePlan

/-- Moves, keyed by either end. -/
structure MoveTable where
  /-- The destination of each source. -/
  forward : IdMap .resource ResourceId
  /-- The source of each destination. -/
  backward : IdMap .resource ResourceId
deriving DecidableEq

namespace MoveTable

/-- No moves. -/
def empty : MoveTable := ⟨∅, ∅⟩

instance : EmptyCollection MoveTable := ⟨empty⟩

/-- The table with one more move. -/
def add (table : MoveTable) (src dst : ResourceId) : MoveTable :=
  ⟨table.forward.insert src dst, table.backward.insert dst src⟩

/-- The table with one more move, whose source is not moved out and whose destination is not moved
into so far. -/
def addMove (table : MoveTable) (move : Move) : Except PlanError MoveTable :=
  match table.forward.get? move.src, table.backward.get? move.dst with
  | some first, _ => .error (.moveOutConflict move.src first move.dst)
  | none, some first => .error (.moveInConflict move.dst first move.src)
  | none, none => .ok (table.add move.src move.dst)

/-- The moves of a list, keyed by either end. -/
def ofMoves (moves : List Move) : Except PlanError MoveTable := moves.foldlM addMove ∅

/-- How many moves there are. -/
def size (table : MoveTable) : Nat := table.forward.size

/-- The resources that storage goes to from `r`, one after another, in at most `n` moves. -/
def follow (table : MoveTable) : Nat → ResourceId → List ResourceId
  | 0, _ => []
  | n + 1, r =>
    match table.forward.get? r with
    | none => []
    | some next => next :: table.follow n next

/-- The sources that receive no storage themselves. -/
def starts (table : MoveTable) : List ResourceId :=
  table.forward.keys.toList.filter fun r => !table.backward.contains r

/-- The chain that begins at `r`. No chain has more moves than there are. -/
def chainFrom (table : MoveTable) (r : ResourceId) : List ResourceId :=
  r :: table.follow table.size r

/-- How many moves the chains from the starts are made of. -/
def reached (table : MoveTable) : Nat :=
  (table.starts.flatMap fun r => (table.chainFrom r).dropLast).length

/-- The smallest source that no chain from a start comes by. -/
def unreached? (table : MoveTable) : Option ResourceId :=
  table.forward.keys.toList.find? fun r =>
    table.starts.all fun start => !(table.chainFrom start).dropLast.contains r

/-- Every chain, in the order of their starts. A move that no chain from a start reaches lies on a
cycle. -/
def chains (table : MoveTable) : Except PlanError (List (List ResourceId)) :=
  let cyclic := if table.reached = table.size then none else table.unreached?
  match cyclic with
  | some r => .error (.moveCycle r)
  | none => .ok (table.starts.map table.chainFrom)

end MoveTable

namespace MoveChain

/-- What follows the start of a chain, without the resources before the last that do not matter. -/
def keepInner (matters : ResourceId → Bool) : List ResourceId → List ResourceId
  | [] => []
  | [last] => [last]
  | r :: next :: rest =>
    if matters r then r :: keepInner matters (next :: rest) else keepInner matters (next :: rest)

/-- A chain without the inner resources that do not matter. -/
def collapse (matters : ResourceId → Bool) : List ResourceId → List ResourceId
  | [] => []
  | start :: rest => start :: keepInner matters rest

/-- The moves of a chain, as pairs of source and destination. -/
def moves (chain : List ResourceId) : List (ResourceId × ResourceId) := chain.zip chain.tail

end MoveChain

namespace MoveTable

/-- The table with the moves that remain of some chains added. -/
def addCollapsed (matters : ResourceId → Bool) (table : MoveTable)
    (chains : List (List ResourceId)) : MoveTable :=
  (chains.flatMap fun chain => MoveChain.moves (MoveChain.collapse matters chain)).foldl
    (fun t m => t.add m.1 m.2) table

end MoveTable

end FramePlan
