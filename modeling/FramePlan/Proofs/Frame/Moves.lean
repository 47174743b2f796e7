import FramePlan.Proofs.Frame.Index

/-!
# What registration guarantees about moves

A move is refused if its source is moved out or its destination is moved into already. So the moves
of a declared frame have different sources and different destinations.

* `Frame.Declared.movesApart` — the moves of a declared frame have no end in common.
-/

namespace FramePlan

namespace Frame

/-- The moves have different sources and different destinations, and the indexes by source and by
destination are of these moves. -/
structure MovesApart (frame : Frame) : Prop where
  src_nodup : (frame.moves.map (·.src)).Nodup
  dst_nodup : (frame.moves.map (·.dst)).Nodup
  movesOut : ∀ r, frame.movesOut.contains r ↔ r ∈ frame.moves.map (·.src)
  movesIn : ∀ r, frame.movesIn.contains r ↔ r ∈ frame.moves.map (·.dst)

theorem Consistent.movesApart {frame : Frame} (h : frame.Consistent) : frame.MovesApart where
  src_nodup := h.movesOut.nodup
  dst_nodup := h.movesIn.nodup
  movesOut _ := h.movesOut.isSome_iff
  movesIn _ := h.movesIn.isSome_iff

theorem Declared.movesApart {frame : Frame} (h : frame.Declared) : frame.MovesApart :=
  h.consistent.movesApart

end Frame

end FramePlan
