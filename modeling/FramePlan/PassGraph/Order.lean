import FramePlan.PassGraph.Frontier
import FramePlan.Plan.Error

/-!
# The order of passes

The passes are ordered by working them off one at a time, always the one that has been ready the
longest, where the sources of the graph become ready first and in ascending order. The passes that
are never ready lie on a cycle or behind one.

`PassGraph.order` is the order as a value; `PassGraph.sortInto` puts it into a list that is used
again from frame to frame.
-/

namespace FramePlan

namespace PassGraph

/-- Works off the pass that has been ready the longest. -/
def advance (g : PassGraph) (f : Frontier) : Frontier :=
  match f.take? with
  | none => f
  | some (p, rest) => rest.complete g p

/-- Works off at most `n` passes. -/
def advanceBy (g : PassGraph) : Nat → Frontier → Frontier
  | 0, f => f
  | n + 1, f => g.advanceBy n (g.advance f)

/-- The frontier when no pass is ready any more. -/
def exhausted (g : PassGraph) : Frontier :=
  g.advanceBy g.passCount (.start g g.passes.toList)

/-- The passes in the order in which they are worked off, if all of them can be. -/
def order (g : PassGraph) : Except PlanError (List PassId) :=
  let f := g.exhausted
  if f.done.length = g.passCount then .ok f.done else .error (.notADag f.blocked)

/-! ### Orders that are put into a list at hand -/

/-- Works off at most `n` passes and puts each of them at the end of the list at hand. -/
def drain (g : PassGraph) : Nat → Frontier → EStateM PlanError (List PassId) Frontier
  | 0, f => pure f
  | n + 1, f =>
    match f.take? with
    | none => pure f
    | some (p, rest) => do
      modify (· ++ [p])
      g.drain n (rest.complete g p)

/-- Puts the passes into the list at hand, in order and in place of what it held. If they have no
order, the list ends up empty. -/
def sortInto (g : PassGraph) : EStateM PlanError (List PassId) Unit := do
  set ([] : List PassId)
  let f ← g.drain g.passCount (.start g g.passes.toList)
  if (← get).length = g.passCount then
    pure ()
  else
    set ([] : List PassId)
    throw (.notADag f.blocked)

end PassGraph

end FramePlan
