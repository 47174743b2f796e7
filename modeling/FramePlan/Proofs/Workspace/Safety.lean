import FramePlan.Proofs.PassGraph.Countdown
import FramePlan.Proofs.Workspace.Refill

/-!
# Planning is safe

While a frame is planned in place, lists are looked up by the ids of passes and by positions, counts
are lowered, and the moves of a chain are one less than its resources. For a declared frame every
look-up finds its entry and nothing is taken from zero, also if the frame has no plan: the ids that
edges have are those of its passes, and the order that the positions come from has each pass once.

* `Workspace.covers_of_hazards` — the edges of a frame are between its passes.
* `Workspace.planning_safe` — nothing goes wrong, for every declared frame and any workspace.
-/

namespace FramePlan

namespace MoveTable

variable {table : MoveTable} {r : ResourceId}

/-- A chain from a start has a move. -/
theorem two_le_length_chainFrom (hr : r ∈ table.starts) : 2 ≤ (table.chainFrom r).length := by
  obtain ⟨⟨d, hd⟩, -⟩ := mem_starts.mp hr
  have hsize : 0 < table.size := List.length_pos_of_mem (IdMap.mem_entries.mpr hd)
  obtain ⟨n, hn⟩ := Nat.exists_eq_succ_of_ne_zero (Nat.ne_of_gt hsize)
  rw [chainFrom, hn, follow, hd]
  simp

end MoveTable

namespace Workspace

variable {frame : Frame} {t : UsageTable} {moves : MoveTable} {ws u : Workspace}

/-- The first three phases: when they are over, the edges are found. -/
def findEdges (frame : Frame) : EStateM Stop Workspace Unit := do
  collectUses frame
  resolveMoves frame
  buildEdges frame

/-- The edges that are found are the hazards of the frame. -/
theorem graph_of_findEdges (h : findEdges frame empty = .ok () u) :
    ∃ t moves, UsageTable.ofFrame frame = .ok t ∧ u.graph = .ofHazards frame t moves := by
  have hcollect := collectUses_mirrors frame
  unfold findEdges at h
  cases husage : UsageTable.ofFrame frame with
  | error cause =>
      rw [husage] at hcollect
      obtain ⟨left, hleft, -⟩ := hcollect
      cases (bind_of_error hleft).symm.trans h
  | ok t =>
      rw [husage] at hcollect
      replace h := (bind_of_ok hcollect).symm.trans h
      have hresolve : resolveMoves frame (collected t) = _ := resolveMoves_eq
      cases hmoves : MoveTable.resolve t.isTouched frame.moves with
      | error cause =>
          rw [hmoves] at hresolve
          cases (bind_of_error hresolve).symm.trans h
      | ok moves =>
          rw [hmoves] at hresolve
          cases ((bind_of_ok hresolve).trans buildEdges_eq).symm.trans h
          exact ⟨t, moves, rfl, rfl⟩

/-- **The edges of a frame are between its passes.** -/
theorem covers_of_hazards (h : t.Describes frame) :
    Countdown.Covers frame.passes.length (.ofHazards frame t moves) where
  passes := IdSet.ext fun p => by rw [PassGraph.mem_passes_ofHazards h, IdSet.mem_firstN]
  edges a b hab := (PassGraph.mem_passes_ofHazards h).mp (PassGraph.closed_ofHazards h a b hab)

/-- Planning a frame looks up nothing that is not there, and takes nothing from zero. -/
structure PlansSafely (frame : Frame) : Prop where
  /-- No list lacks an entry, whatever the workspace at hand holds. -/
  in_range : ∀ ws i left, refill frame ws ≠ .error (.outOfRange i) left
  /-- There is a move on every chain that is walked. -/
  chains : ∀ table, MoveTable.ofMoves frame.moves = .ok table →
    ∀ r ∈ table.starts, 2 ≤ (table.chainFrom r).length
  /-- When the edges are found, the passes can be counted down along them. -/
  counts : ∀ (ws u : Workspace), findEdges frame ws.reset = .ok () u →
    Countdown.CountsDown frame.passes.length u.graph

/-- **Nothing goes wrong while a declared frame is planned**, whether or not it has a plan. -/
theorem planning_safe (hdeclared : frame.Declared) : PlansSafely frame := by
  refine ⟨fun ws i left hstop => ?_, fun table _ r hr => MoveTable.two_le_length_chainFrom hr,
    fun ws u hu => ?_⟩
  · cases hplan : Plan.ofFrame frame with
    | ok plan => cases (refill_of_ok hdeclared hplan ws).symm.trans hstop
    | error cause => cases (refill_of_error hdeclared hplan ws).symm.trans hstop
  · obtain ⟨t, moves, husage, hgraph⟩ := graph_of_findEdges (u := u) hu
    rw [hgraph]
    exact Countdown.counts_down (covers_of_hazards
      (UsageTable.describes_of_ofFrame hdeclared.wellFormed.copy_balanced husage))

/-- The standoff has no order, but its passes are counted down safely: none is ever queued. -/
theorem planning_safe_standoff : standoff.Declared ∧ PlansSafely standoff ∧
    ∃ u, findEdges standoff (ofPlan Plan.relay).reset = .ok () u ∧
      Countdown.CountsDown 2 u.graph ∧ u.graph.order = .error (.notADag [⟨0⟩, ⟨1⟩]) := by
  have hsafe := planning_safe (⟨_, _, rfl⟩ : standoff.Declared)
  exact ⟨⟨_, _, rfl⟩, hsafe, _, rfl, hsafe.counts _ _ rfl, rfl⟩

end Workspace

end FramePlan
