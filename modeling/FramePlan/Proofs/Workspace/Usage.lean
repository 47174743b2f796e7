import FramePlan.Proofs.Copies
import FramePlan.Proofs.Workspace.Refill

/-!
# The uses of a frame

When a frame is planned, its workspace says who uses which resource, no more and no less than what
the passes and the moves declare, and what is copied where.

* `Workspace.uses_exact` — every part of it, for every frame that has a plan.
-/

namespace FramePlan

/-- The pairs of a copy pass are its inputs and outputs at the same positions. -/
theorem Pass.mem_copyPairs {pass : Pass} {s d : ResourceId} : (s, d) ∈ pass.copyPairs ↔
    pass.kind = .copy ∧ ∃ i : Nat, pass.inputs[i]? = some s ∧ pass.outputs[i]? = some d := by
  unfold copyPairs
  cases hkind : pass.kind with
  | general => simp
  | copy =>
      rw [List.mem_iff_getElem?]
      simp [List.getElem?_zip_eq_some]

namespace Workspace

variable {frame : Frame} {plan : Plan} {r : ResourceId}

/-- The record of a resource has its usage. -/
theorem record_ofPlan : ((ofPlan plan).record r).writer = (plan.usage.usage r).writer ∧
    ((ofPlan plan).record r).readers = (plan.usage.usage r).readers.toList ∧
      ((ofPlan plan).record r).copyIn = (plan.usage.usage r).copyIn := by
  unfold record ofPlan IdMap.getD UsageTable.usage IdMap.getD
  rw [IdMap.get?_map]
  cases plan.usage.uses.get? r <;> exact ⟨rfl, rfl, rfl⟩

theorem contains_ofPlan : (ofPlan plan).uses.contains r ↔ plan.usage.uses.contains r := by
  unfold ofPlan IdMap.contains
  rw [IdMap.get?_map, Option.isSome_map]

theorem users_ofPlan : ((ofPlan plan).record r).users = (plan.usage.usage r).users := by
  obtain ⟨hwriter, hreaders, hcopyIn⟩ := record_ofPlan (r := r)
  rw [UseRecord.users, Usage.users, hwriter, hreaders, hcopyIn]

/-- The workspace says who uses the resources of the frame. -/
structure UsesExactly (frame : Frame) (ws : Workspace) : Prop where
  /-- A resource has an entry if a pass names it or a move begins or ends with it. -/
  contains_iff : ∀ {r}, ws.uses.contains r ↔
    (∃ p pass, frame.pass? p = some pass ∧ (r ∈ pass.inputs ∨ r ∈ pass.outputs)) ∨
      ∃ m ∈ frame.moves, r = m.src ∨ r = m.dst
  writer_iff : ∀ {r p}, (ws.record r).writer = some p ↔
    ∃ pass, frame.pass? p = some pass ∧ pass.kind = .general ∧ r ∈ pass.outputs
  readers_ascending : ∀ r, (ws.record r).readers.Pairwise (·.index < ·.index)
  mem_readers : ∀ {r p}, p ∈ (ws.record r).readers ↔
    ∃ pass, frame.pass? p = some pass ∧ r ∈ pass.inputs
  copyIn_iff : ∀ {r p}, (ws.record r).copyIn = some p ↔
    ∃ pass, frame.pass? p = some pass ∧ pass.kind = .copy ∧ r ∈ pass.outputs
  /-- The users of a resource are the passes that name it among their resources. -/
  mem_users : ∀ {r p}, p ∈ (ws.record r).users ↔
    ∃ pass, frame.pass? p = some pass ∧ r ∈ pass.resources
  /-- A source is copied to the output at the position at which it is an input. -/
  copiesIn_iff : ∀ {s d}, ws.copiesIn.get? d = some s ↔ ∃ p pass, ∃ i : Nat,
    frame.pass? p = some pass ∧ pass.kind = .copy ∧ pass.inputs[i]? = some s ∧
      pass.outputs[i]? = some d
  /-- The other way round, a source has an entry if it is copied anywhere. -/
  contains_copiesOut : ∀ {s}, ws.copiesOut.contains s ↔ ∃ d, ws.copiesIn.get? d = some s
  /-- The entry has all its destinations, of which there are some. -/
  copiesOut : ∀ {s ds}, ws.copiesOut.get? s = some ds →
    (∃ d, d ∈ ds) ∧ ∀ d, d ∈ ds ↔ ws.copiesIn.get? d = some s
  /-- The plan of the frame has the same uses. -/
  plan : ∃ plan, Plan.ofFrame frame = .ok plan ∧ plan.usage = ws.table

/-- **The uses that are taken down are those of the frame**, and so are the copies. -/
theorem uses_exact (hdeclared : frame.Declared) {ws : Workspace} (h : ofFrame frame = .ok ws) :
    UsesExactly frame ws := by
  obtain ⟨plan, hplan, rfl⟩ := (ofFrame_eq_ok hdeclared).mp h
  have hdescribes := (Plan.fits_of_ofFrame hdeclared hplan).usage
  have hcopies := UsageTable.describesCopies_of_ofFrame (Plan.usage_of_ofFrame hplan)
  have hin : (ofPlan plan).copiesIn = plan.usage.copiesIn := rfl
  have hout : (ofPlan plan).copiesOut = plan.usage.copiesOut := rfl
  refine ⟨fun {r} => ?_, fun {r p} => ?_, fun r => ?_, fun {r p} => ?_, fun {r p} => ?_,
    fun {r p} => ?_, fun {s d} => ?_, fun {s} => ?_, fun {s ds} hget => ?_, plan, hplan, table_ofPlan.symm⟩
  · rw [contains_ofPlan, hdescribes.contains_iff]
    simp only [Frame.Touches, Pass.mem_resources]
  · rw [record_ofPlan.1, hdescribes.writer_iff]
    rfl
  · rw [record_ofPlan.2.1]
    exact (plan.usage.usage r).readers.ascending
  · rw [record_ofPlan.2.1, IdSet.mem_toList, hdescribes.mem_readers]
    rfl
  · rw [record_ofPlan.2.2, hdescribes.copyIn_iff]
    rfl
  · rw [users_ofPlan, hdescribes.mem_users]
    rfl
  · rw [hin, hcopies.copiesIn_iff]
    simp only [Frame.Copies, Pass.mem_copyPairs, exists_and_left]
  · rw [hin, hout, hcopies.contains_copiesOut]
    simp only [hcopies.copiesIn_iff]
  · rw [hout] at hget
    obtain ⟨⟨d, hd⟩, hmem⟩ := hcopies.get?_copiesOut.mp hget
    refine ⟨⟨d, (hmem d).mpr hd⟩, fun d => ?_⟩
    rw [hin, hmem, hcopies.copiesIn_iff]

/-- A drawing is looked at, by a pass that names it twice, and copied to two pages by one pass; an
empty tray takes the place of a bin. -/
def copier : Frame := .ofDeclarations "copier"
  [.resource "drawing", .resource "left", .resource "right", .resource "bin", .resource "tray",
    .pass ⟨.general, "draw", [], [⟨0⟩]⟩, .pass ⟨.general, "look", [⟨0⟩, ⟨0⟩], []⟩,
    .pass ⟨.copy, "print", [⟨0⟩, ⟨0⟩], [⟨1⟩, ⟨2⟩]⟩, .move ⟨⟨4⟩, ⟨3⟩⟩]

/-- The workspace of that frame. -/
def copied : Workspace :=
  match ofFrame copier with
  | .ok ws => ws
  | .error _ => empty

/-- The drawing has two readers, each of them once, and two destinations; the bin has a record, but
no users. -/
theorem uses_exact_copier : ofFrame copier = .ok copied ∧ UsesExactly copier copied ∧
    (copied.record ⟨0⟩).readers = [⟨1⟩, ⟨2⟩] ∧
      copied.copiesOut.get? ⟨0⟩ = some (.ofList [⟨1⟩, ⟨2⟩]) ∧ copied.uses.contains ⟨3⟩ ∧
        copied.record ⟨3⟩ = .blank := by
  have hcopied : ofFrame copier = .ok copied := rfl
  exact ⟨hcopied, uses_exact ⟨_, _, rfl⟩ hcopied, by decide, by decide, by decide, by decide⟩

end Workspace

end FramePlan
