import FramePlan.NodeId

/-!
# Searching for ids

A search looks for an id in a list of ids in ascending order. It ends at the index of the id or, if
the id is missing, at the index where the id has to be put so that the order stays as it is.

* `IdSearch` — any search that looks at nothing but ids.
* `IdSearch.halving` — the one that keeps one half of what is left, again and again.
-/

namespace FramePlan

/-- Where the search for an id ends. -/
inductive Spot where
  /-- The id is at this index. -/
  | taken (index : Nat)
  /-- The id is missing, and belongs at this index. -/
  | free (index : Nat)
deriving DecidableEq

/-- Where the search ends next to the id at an index, by how that compares with the one that is
searched for. -/
def Spot.ofCompare (n : Nat) : Ordering → Spot
  | .lt => .free (n + 1)
  | .eq => .taken n
  | .gt => .free n

/-- A way to search a list of ids for one of them. -/
abbrev IdSearch (k : NodeKind) := List (NodeId k) → NodeId k → Spot

namespace IdSearch

variable {k : NodeKind}

/-- Halves a range of `size` ids that begins at `base` until one id is left, and returns its index.
The second half is kept, unless it begins with a larger id than the one that is searched for. -/
def narrow (ids : List (NodeId k)) (i : NodeId k) (base size : Nat) : Nat :=
  if 1 < size then
    let half := size / 2
    if ids[base + half]?.any (i.index < ·.index) then
      narrow ids i base (size - half)
    else
      narrow ids i (base + half) (size - half)
  else
    base
termination_by size

/-- Compares the id with the one that is left when the list has been halved. -/
def halving : IdSearch k := fun ids i =>
  let base := narrow ids i 0 ids.length
  match ids[base]? with
  | none => .free base
  | some j => .ofCompare base (compare j i)

end IdSearch

end FramePlan
