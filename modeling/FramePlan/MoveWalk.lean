import FramePlan.MoveChain

/-!
# Walking along moves

The chain of a start is found by walking from it along the moves, for as long as another one begins
where the walk is. Nothing counts the turns, so a walk that comes into a cycle goes on forever.

* `MoveWalk.step?` — one turn, if there is one.
* `MoveWalk.after` — where a walk is after a number of turns, if it takes as many.
* `MoveWalk.EndsAfter` — how many turns a walk takes.
-/

namespace FramePlan

/-- A walk along moves. -/
structure MoveWalk where
  /-- The resources that it came by so far. -/
  chain : List ResourceId
  /-- The resource that it is at. -/
  current : ResourceId
deriving DecidableEq

namespace MoveWalk

/-- The walk begins at the resource. -/
def start (r : ResourceId) : MoveWalk := ⟨[r], r⟩

/-- Goes on by the move from the resource that the walk is at, if there is one. -/
def step? (table : MoveTable) (walk : MoveWalk) : Option MoveWalk :=
  (table.forward.get? walk.current).map fun next => ⟨walk.chain ++ [next], next⟩

/-- The walk after exactly `n` turns, if it takes as many. -/
def after (table : MoveTable) : Nat → MoveWalk → Option MoveWalk
  | 0, walk => some walk
  | n + 1, walk => (walk.step? table).bind (after table n)

/-- The walk is over after exactly `n` turns, and the other one is how it ends. -/
def EndsAfter (table : MoveTable) (walk : MoveWalk) (n : Nat) (last : MoveWalk) : Prop :=
  walk.after table n = some last ∧ last.step? table = none

instance {table : MoveTable} {walk last : MoveWalk} {n : Nat} :
    Decidable (walk.EndsAfter table n last) := inferInstanceAs (Decidable (_ ∧ _))

end MoveWalk

end FramePlan
