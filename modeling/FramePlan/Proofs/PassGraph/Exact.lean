import FramePlan.Frame.Conflict
import FramePlan.Proofs.PassGraph.Hazard

/-!
# The edges are the hazards

The graph of a frame has an edge just where the order of two passes matters.

* `UsageTable.Describes.mem_finalUsers`, `UsageTable.Describes.mem_firstUsers` — the users of a
  resource between which an edge is drawn for a move.
* `PassGraph.hasEdge_iff_hazard` — the edges are the hazards of the frame.
-/

namespace FramePlan

namespace UsageTable.Describes

variable {t : UsageTable} {frame : Frame} {p : PassId} {r : ResourceId}

theorem writer_eq_none_iff (h : t.Describes frame) :
    (t.usage r).writer = none ↔ ∀ q, ¬ frame.Writes q r := by
  rw [Option.eq_none_iff_forall_ne_some]
  exact forall_congr' fun q => not_congr h.writer_iff

theorem copyIn_eq_none_iff (h : t.Describes frame) :
    (t.usage r).copyIn = none ↔ ∀ q, ¬ frame.CopiesInto q r := by
  rw [Option.eq_none_iff_forall_ne_some]
  exact forall_congr' fun q => not_congr h.copyIn_iff

theorem mem_finalUsers (h : t.Describes frame) :
    p ∈ (t.usage r).finalUsers ↔ frame.UsesLast p r := by
  rw [Usage.mem_finalUsers, h.copyIn_iff, h.copyIn_eq_none_iff, h.writer_iff]
  simp only [h.mem_readers]
  rfl

theorem mem_firstUsers (h : t.Describes frame) :
    p ∈ (t.usage r).firstUsers ↔ frame.UsesFirst p r := by
  rw [Usage.mem_firstUsers, h.writer_iff, h.writer_eq_none_iff, h.copyIn_iff]
  simp only [h.mem_readers]
  rfl

end UsageTable.Describes

namespace PassGraph

variable {frame : Frame} {t : UsageTable} {moves : MoveTable} {p q : PassId} {r : ResourceId}
  (h : t.Describes frame)

include h

theorem hazard_of_mem_ofUsage (hpq : (p, q) ∈ Hazard.ofUsage (t.usage r)) : frame.Hazard p q := by
  rcases Hazard.mem_ofUsage.mp hpq with ⟨hp, hq⟩ | ⟨hq, hp | ⟨hnone, hp⟩⟩
  · exact .written (h.writer_iff.mp hp) (h.mem_readers.mp hq)
  · exact .copied (h.mem_readers.mp hp) (h.copyIn_iff.mp hq)
  · exact .overwritten (h.writer_iff.mp hp) (fun x hx => hnone x (h.mem_readers.mpr hx))
      (h.copyIn_iff.mp hq)

/-- **The graph of a frame has an edge for each hazard, and no others.** -/
theorem hasEdge_iff_hazard
    (hmoves : ∀ s d, moves.forward.get? s = some d ↔ frame.Survives s d) :
    (ofHazards frame t moves).hasEdge p q ↔ frame.Hazard p q := by
  constructor
  · intro hedge
    rcases Hazard.mem_edges.mp (hasEdge_ofHazards.mp hedge) with
      ⟨r, v, hv, hpq⟩ | hpq | ⟨s, d, hsd, hpq⟩
    · have husage : t.usage r = v := congrArg (Option.getD · Usage.none) hv
      exact hazard_of_mem_ofUsage h (husage ▸ hpq)
    · obtain ⟨r, pass, copy, hpass, hgeneral, hreader, hcopy, hkind, hr⟩ :=
        Hazard.mem_ofCopies.mp hpq
      obtain ⟨pass', hpass', hr'⟩ := h.mem_readers.mp hreader
      cases hpass.symm.trans hpass'
      exact .copySource hpass hgeneral hr' hcopy hkind hr
    · obtain ⟨hp, hq⟩ := Hazard.mem_ofMove.mp hpq
      exact .moved ((hmoves s d).mp hsd) (h.mem_finalUsers.mp hp) (h.mem_firstUsers.mp hq)
  · intro hhazard
    cases hhazard with
    | written hp hq =>
        exact hasEdge_of_usage (Hazard.mem_ofUsage.mpr
          (Or.inl ⟨h.writer_iff.mpr hp, h.mem_readers.mpr hq⟩))
    | copied hp hq =>
        exact hasEdge_of_usage (Hazard.mem_ofUsage.mpr
          (Or.inr ⟨h.copyIn_iff.mpr hq, Or.inl (h.mem_readers.mpr hp)⟩))
    | overwritten hp hnone hq =>
        refine hasEdge_of_usage (Hazard.mem_ofUsage.mpr
          (Or.inr ⟨h.copyIn_iff.mpr hq, Or.inr ⟨fun x hx => ?_, h.writer_iff.mpr hp⟩⟩))
        exact hnone x (h.mem_readers.mp hx)
    | copySource hpass hgeneral hr hcopy hkind hr' =>
        refine hasEdge_ofHazards.mpr (Hazard.mem_edges.mpr (Or.inr (Or.inl ?_)))
        exact Hazard.mem_ofCopies.mpr
          ⟨_, _, _, hpass, hgeneral, h.mem_readers.mpr ⟨_, hpass, hr⟩, hcopy, hkind, hr'⟩
    | moved hsd hp hq =>
        refine hasEdge_ofHazards.mpr (Hazard.mem_edges.mpr (Or.inr (Or.inr ?_)))
        exact ⟨_, _, (hmoves _ _).mpr hsd,
          Hazard.mem_ofMove.mpr ⟨h.mem_finalUsers.mpr hp, h.mem_firstUsers.mpr hq⟩⟩

end PassGraph

end FramePlan
