import FramePlan.PassGraph.Basic

/-!
# The frontier of a pass graph

Passes are worked off from the sources of the graph onwards. The frontier keeps which passes are
done, how many predecessors each pass still waits for, and which passes are ready: those whose last
predecessor is done, in the order in which that happened. The order of a plan and the dispatch of
passes to workers both move this frontier forward.
-/

namespace FramePlan

/-- How far the passes of a graph are worked off. -/
structure Frontier where
  /-- The passes that are done, in the order in which they were completed. -/
  done : List PassId
  /-- How many predecessors of each pass are not done yet. -/
  waiting : IdMap .pass Nat
  /-- The passes that wait for nothing and were not taken yet, the longest ready first. -/
  ready : List PassId
deriving DecidableEq

namespace Frontier

/-- Nothing is done; of the given passes, those without predecessors are ready, in the given
order. -/
def start (g : PassGraph) (passes : List PassId) : Frontier where
  done := []
  waiting := g.inDegrees
  ready := passes.filter fun p => g.inDegree p = 0

/-- One predecessor of `q` is done; `q` is ready if that was the last one. -/
def arrive (f : Frontier) (q : PassId) : Frontier :=
  match f.waiting.get? q with
  | some (n + 1) =>
    { f with
      waiting := f.waiting.insert q n
      ready := if n = 0 then f.ready ++ [q] else f.ready }
  | _ => f

/-- The pass `p` is done, and its successors, in ascending order, no longer wait for it. -/
def complete (g : PassGraph) (f : Frontier) (p : PassId) : Frontier :=
  (g.successors p).toList.foldl arrive { f with done := f.done ++ [p] }

/-- Takes the pass that has been ready the longest. -/
def take? (f : Frontier) : Option (PassId × Frontier) :=
  match f.ready with
  | [] => none
  | p :: rest => some (p, { f with ready := rest })

/-- The passes that wait for some pass that is not done, in ascending order. -/
def blocked (f : Frontier) : List PassId :=
  (f.waiting.entries.filter fun e => e.2 ≠ 0).map (·.1)

end Frontier

end FramePlan
