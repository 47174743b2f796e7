/-!
# Ids of frame nodes

A frame holds three kinds of nodes: resources, passes and moves. Each node is named by its
position in the order of registration, and ids of different kinds are different types, so a pass
cannot be mistaken for a resource.
-/

namespace FramePlan

/-- What an id names. -/
inductive NodeKind where
  | resource
  | pass
  | move
deriving DecidableEq

/-- The id of a node: its position among the nodes of its kind, in registration order. -/
@[ext]
structure NodeId (k : NodeKind) where
  /-- Position in registration order, from zero. -/
  index : Nat
deriving DecidableEq

/-- The id of a resource. -/
abbrev ResourceId := NodeId .resource

/-- The id of a pass. -/
abbrev PassId := NodeId .pass

/-- The id of a move. -/
abbrev MoveId := NodeId .move

namespace NodeId

variable {k : NodeKind}

/-- Ids are ordered by position. -/
instance : Ord (NodeId k) := ⟨fun a b => compare a.index b.index⟩

/-- An id is written as a hash sign and its position. -/
def text (i : NodeId k) : String := s!"#{i.index}"

instance : ToString (NodeId k) := ⟨text⟩

/-- The ids of the first `n` nodes, in order. -/
def firstN (k : NodeKind) (n : Nat) : List (NodeId k) := (List.range n).map NodeId.mk

theorem mem_firstN {n : Nat} {i : NodeId k} : i ∈ firstN k n ↔ i.index < n := by
  constructor
  · intro h
    obtain ⟨j, hj, rfl⟩ := List.mem_map.1 h
    exact List.mem_range.1 hj
  · intro h
    exact List.mem_map.2 ⟨i.index, List.mem_range.2 h, rfl⟩

theorem pairwise_firstN (n : Nat) : (firstN k n).Pairwise (·.index < ·.index) :=
  List.pairwise_map.2 List.pairwise_lt_range

theorem getElem?_firstN {n : Nat} (i : NodeId k) :
    (firstN k n)[i.index]? = if i.index < n then some i else none := by
  rw [firstN, List.getElem?_map]
  split
  · next hi => rw [List.getElem?_range hi, Option.map_some]
  · next hi => rw [List.getElem?_eq_none (by simpa using hi), Option.map_none]

end NodeId

end FramePlan
