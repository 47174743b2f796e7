import FramePlan.PassGraph.Order

/-!
# Counting down in a list

The order of passes can be found with one list of counts, where the count of a pass is found by its
id: it is raised for each edge that leads to the pass, and lowered whenever a predecessor of the
pass is taken from the queue. Two things could go wrong with that: the list may have no count for a
pass, and a count may be lowered that is zero already. Either stops the countdown. The queue is
worked off for as long as it holds a pass.

* `Countdown.prepare` — the counts of a graph, and the passes that wait for nothing.
* `Countdown.rounds` — passes are taken from the queue one after another.
* `Countdown.sort` — the order of the passes, or those that are left over.
-/

namespace FramePlan

/-- Why counting down stops. -/
inductive CountFault where
  /-- There is no count at that index. -/
  | outOfRange (index : Nat)
  /-- The count of the pass is zero and cannot be lowered. -/
  | underflow (pass : PassId)
deriving DecidableEq

/-- How far the passes of a graph are counted down. -/
structure Countdown where
  /-- The passes that were taken from the queue. -/
  order : List PassId
  /-- How many predecessors of each pass were not taken yet, by the id of the pass. -/
  counts : List Nat
  /-- The passes whose count is zero and that were not taken yet, the longest waiting first. -/
  queue : List PassId
deriving DecidableEq

namespace Countdown

/-- The count of a pass, which has to be there. -/
def countOf (p : PassId) : EStateM CountFault Countdown Nat := do
  match (← get).counts[p.index]? with
  | some n => pure n
  | none => throw (.outOfRange p.index)

/-- Gives a pass another count. -/
def setCount (p : PassId) (n : Nat) : EStateM CountFault Countdown Unit :=
  modify fun c => { c with counts := c.counts.set p.index n }

/-- Puts a pass at the end of the queue. -/
def enqueue (p : PassId) : EStateM CountFault Countdown Unit :=
  modify fun c => { c with queue := c.queue ++ [p] }

/-- An edge leads to the pass. -/
def raise (p : PassId) : EStateM CountFault Countdown Unit := do
  setCount p ((← countOf p) + 1)

/-- A pass that waits for nothing is ready from the start. -/
def seed (p : PassId) : EStateM CountFault Countdown Unit := do
  if (← countOf p) = 0 then enqueue p else pure ()

/-- Counts the edges of a graph, and queues the passes that none leads to. -/
def prepare (g : PassGraph) : EStateM CountFault Countdown Unit := do
  set (⟨[], .replicate g.passCount 0, []⟩ : Countdown)
  g.edges.forM fun edge => raise edge.2
  g.passes.toList.forM seed

/-- A predecessor of the pass was taken from the queue; the pass joins it if that was the last. -/
def lower (p : PassId) : EStateM CountFault Countdown Unit := do
  match ← countOf p with
  | 0 => throw (.underflow p)
  | n + 1 => do
    setCount p n
    if n = 0 then enqueue p else pure ()

/-- Takes a pass from the queue, if there is one, and lowers the counts of its successors. -/
def round (g : PassGraph) : EStateM CountFault Countdown Unit := do
  match (← get).queue with
  | [] => pure ()
  | p :: rest => do
    modify fun c => { c with order := c.order ++ [p], queue := rest }
    (g.successors p).toList.forM lower

/-- Takes at most `n` passes from the queue. -/
def rounds (g : PassGraph) : Nat → EStateM CountFault Countdown Unit
  | 0 => pure ()
  | n + 1 => do
    round g
    rounds g n

/-- The passes whose count is not zero, in ascending order. -/
def remaining (g : PassGraph) : EStateM CountFault Countdown (List PassId) := do
  let counts ← g.passes.toList.mapM countOf
  return (g.passes.toList.zip counts).filterMap fun e => if e.2 = 0 then none else some e.1

/-- The passes in the order in which they are taken from the queue in at most `n` rounds, or those
that are left over. -/
def sort (g : PassGraph) (n : Nat) :
    EStateM CountFault Countdown (Except PlanError (List PassId)) := do
  prepare g
  rounds g n
  let c ← get
  if c.order.length = g.passCount then
    return .ok c.order
  else
    return .error (.notADag (← remaining g))

end Countdown

end FramePlan
