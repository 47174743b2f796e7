import FramePlan.Proofs.Copies
import FramePlan.Proofs.Frame.Matching
import FramePlan.Proofs.Plan.Outcome

/-!
# Planning frames that match

What planning finds out about a frame is decided by what its passes declare and by which moves there
are. So for frames that match it finds the same, up to the ids of the passes.

* `Plan.usage_matches`, `Plan.keys_eq`, `Plan.copies_eq` — the use of resources.
* `Plan.moves_eq`, `Plan.hasEdge_eq` — the moves that remain, and which passes wait for which.
* `Plan.moveCycle_eq` — the resource that moves lead back to.
-/

namespace FramePlan

namespace Plan

variable {π : Equiv.Perm PassId} {frame other : Frame} {t t' : UsageTable}
  {moves moves' : MoveTable}

/-- Pass ids that correspond one by one are the same up to renumbering. -/
theorem eq_map_of_iff {o o' : Option PassId} (h : ∀ p, o' = some (π p) ↔ o = some p) :
    o' = o.map π := by
  cases o with
  | some p => exact (h p).mpr rfl
  | none =>
      refine Option.eq_none_iff_forall_ne_some.mpr fun q hq => ?_
      have hback := (h (π.symm q)).mp (by rw [π.apply_symm_apply, hq])
      cases hback

theorem usage_matches (h : frame.Matches π other)
    (ht : t.Describes frame) (ht' : t'.Describes other) (r : ResourceId) :
    (t'.usage r).writer = (t.usage r).writer.map π ∧
      (t'.usage r).copyIn = (t.usage r).copyIn.map π ∧
      ∀ p, π p ∈ (t'.usage r).readers ↔ p ∈ (t.usage r).readers := by
  refine ⟨eq_map_of_iff fun p => ?_, eq_map_of_iff fun p => ?_, fun p => ?_⟩
  · rw [ht'.writer_iff, ht.writer_iff, h.writes_iff]
  · rw [ht'.copyIn_iff, ht.copyIn_iff, h.copiesInto_iff]
  · rw [ht'.mem_readers, ht.mem_readers, h.reads_iff]

theorem keys_eq (h : frame.Matches π other) (ht : t.Describes frame) (ht' : t'.Describes other) :
    t'.uses.keys = t.uses.keys := by
  refine IdSet.ext fun r => ?_
  rw [IdMap.mem_keys, ← IdMap.contains_iff, ht'.contains_iff, IdMap.mem_keys, ← IdMap.contains_iff,
    ht.contains_iff]
  exact or_congr h.touched_iff (exists_congr fun m => and_congr_left' (h.mem_moves m))

theorem copies_eq (h : frame.Matches π other) (ht : t.DescribesCopies frame)
    (ht' : t'.DescribesCopies other) :
    t'.copiesIn = t.copiesIn ∧ t'.copiesOut = t.copiesOut := by
  refine ⟨IdMap.ext fun d => Option.ext fun s => ?_, IdMap.ext fun s => Option.ext fun ds => ?_⟩
  · rw [ht'.copiesIn_iff, ht.copiesIn_iff, h.exists_copies_iff]
  · simp only [ht'.get?_copiesOut, ht.get?_copiesOut, h.exists_copies_iff]

theorem moves_eq (h : frame.Matches π other)
    (hfound : Findings frame t moves) (hfound' : Findings other t' moves') : moves' = moves := by
  have hforward : moves'.forward = moves.forward := by
    refine IdMap.ext fun s => Option.ext fun d => ?_
    rw [hfound'.forward_iff, hfound.forward_iff, h.survives_iff]
  have hbackward : moves'.backward = moves.backward := by
    refine IdMap.ext fun d => Option.ext fun s => ?_
    rw [← hfound'.paired, ← hfound.paired, hforward]
  obtain ⟨forward, backward⟩ := moves
  obtain ⟨forward', backward'⟩ := moves'
  cases hforward
  cases hbackward
  rfl

/-- The same passes wait for each other, under their other ids. -/
theorem hasEdge_eq (h : frame.Matches π other) (hfound : Findings frame t moves)
    (hfound' : Findings other t' moves') (a b : PassId) :
    (PassGraph.ofHazards other t' moves').hasEdge (π a) (π b) =
      (PassGraph.ofHazards frame t moves).hasEdge a b := by
  rw [Bool.eq_iff_iff, hfound'.hasEdge_iff, hfound.hasEdge_iff, h.hazard_iff]

/-- Moves that lead back lead back to the same resource. -/
theorem moveCycle_eq (h : frame.Matches π other) (hdeclared : frame.Declared)
    (hdeclared' : other.Declared) (hwriter : frame.SingleWriter) (hcopy : frame.SingleCopy)
    (hback : ¬ frame.MovesAcyclic) :
    ∃ r, ofFrame frame = .error (.moveCycle r) ∧ ofFrame other = .error (.moveCycle r) := by
  obtain ⟨r, hr, hleast, herror⟩ :=
    (verdict_ofFrame hdeclared).decided.moveCycle hwriter hcopy hback
  obtain ⟨r', hr', hleast', herror'⟩ := (verdict_ofFrame hdeclared').decided.moveCycle
    (h.singleWriter hwriter) (h.singleCopy hcopy) (mt h.movesAcyclic_iff.mp hback)
  rw [h.moves_eq] at hr' hleast'
  cases (NodeId.ext (Nat.le_antisymm (hleast r' hr') (hleast' r hr)) : r = r')
  exact ⟨r, herror, herror'⟩

end Plan

end FramePlan
