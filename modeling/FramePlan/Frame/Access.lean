import FramePlan.Frame.Basic

/-!
# Access to resources

What the passes of a frame do to its resources, as relations between the two. A general pass reads
its inputs and writes its outputs; a copy pass reads its inputs and copies into its outputs.

* `Frame.touches_iff` — a pass touches the resources that it reads, writes or copies into.
-/

namespace FramePlan

namespace Frame

/-- The pass has the resource among its inputs. -/
def Reads (frame : Frame) (p : PassId) (r : ResourceId) : Prop :=
  ∃ pass, frame.pass? p = some pass ∧ r ∈ pass.inputs

/-- The pass is general and has the resource among its outputs. -/
def Writes (frame : Frame) (p : PassId) (r : ResourceId) : Prop :=
  ∃ pass, frame.pass? p = some pass ∧ pass.kind = .general ∧ r ∈ pass.outputs

/-- The pass is a copy and has the resource among its outputs. -/
def CopiesInto (frame : Frame) (p : PassId) (r : ResourceId) : Prop :=
  ∃ pass, frame.pass? p = some pass ∧ pass.kind = .copy ∧ r ∈ pass.outputs

/-- The pass has the resource among its outputs, whatever it does with them. -/
def Outputs (frame : Frame) (p : PassId) (r : ResourceId) : Prop :=
  ∃ pass, frame.pass? p = some pass ∧ r ∈ pass.outputs

/-- The pass copies `src` into `dst`. -/
def Copies (frame : Frame) (p : PassId) (src dst : ResourceId) : Prop :=
  ∃ pass, frame.pass? p = some pass ∧ (src, dst) ∈ pass.copyPairs

/-- The pass uses the resource in some way. -/
def Touches (frame : Frame) (p : PassId) (r : ResourceId) : Prop :=
  ∃ pass, frame.pass? p = some pass ∧ r ∈ pass.resources

/-- Some pass uses the resource. -/
def Touched (frame : Frame) (r : ResourceId) : Prop := ∃ p, frame.Touches p r

/-- When the given passes are complete, none is left to use the resource. -/
def Released (frame : Frame) (done : List PassId) (r : ResourceId) : Prop :=
  ∀ p, frame.Touches p r → p ∈ done

/-- Some move hands the storage of `src` over to `dst`. -/
def Moves (frame : Frame) (src dst : ResourceId) : Prop := ⟨dst, src⟩ ∈ frame.moves

theorem exists_pass_iff {frame : Frame} {p : PassId} :
    (∃ pass, frame.pass? p = some pass) ↔ p.index < frame.passes.length := by
  rw [← Option.isSome_iff_exists, pass?, isSome_getElem?]

theorem pass?_of_not_lt {frame : Frame} {p : PassId} (hp : ¬ p.index < frame.passes.length) :
    frame.pass? p = none := List.getElem?_eq_none (Nat.le_of_not_lt hp)

/-- What a pass touches is read off its declaration. -/
theorem touches_iff_mem {frame : Frame} {p : PassId} {pass : Pass} {r : ResourceId}
    (hpass : frame.pass? p = some pass) : frame.Touches p r ↔ r ∈ pass.resources := by
  constructor
  · rintro ⟨other, hother, hr⟩
    cases hpass.symm.trans hother
    exact hr
  · intro hr
    exact ⟨pass, hpass, hr⟩

theorem touches_iff {frame : Frame} {p : PassId} {r : ResourceId} :
    frame.Touches p r ↔ frame.Reads p r ∨ frame.Writes p r ∨ frame.CopiesInto p r := by
  constructor
  · rintro ⟨pass, hp, hr⟩
    rcases Pass.mem_resources.1 hr with hr | hr
    · exact .inl ⟨pass, hp, hr⟩
    · cases hk : pass.kind with
      | general => exact .inr (.inl ⟨pass, hp, hk, hr⟩)
      | copy => exact .inr (.inr ⟨pass, hp, hk, hr⟩)
  · rintro (⟨pass, hp, hr⟩ | ⟨pass, hp, _, hr⟩ | ⟨pass, hp, _, hr⟩)
    · exact ⟨pass, hp, Pass.mem_resources.2 (.inl hr)⟩
    · exact ⟨pass, hp, Pass.mem_resources.2 (.inr hr)⟩
    · exact ⟨pass, hp, Pass.mem_resources.2 (.inr hr)⟩

theorem Reads.touches {frame : Frame} {p : PassId} {r : ResourceId} (h : frame.Reads p r) :
    frame.Touches p r := touches_iff.mpr (.inl h)

theorem Outputs.touches {frame : Frame} {p : PassId} {r : ResourceId} (h : frame.Outputs p r) :
    frame.Touches p r := by
  obtain ⟨pass, hpass, hr⟩ := h
  exact ⟨pass, hpass, Pass.mem_resources.2 (.inr hr)⟩

theorem outputs_iff {frame : Frame} {p : PassId} {r : ResourceId} :
    frame.Outputs p r ↔ frame.Writes p r ∨ frame.CopiesInto p r := by
  constructor
  · rintro ⟨pass, hp, hr⟩
    cases hk : pass.kind with
    | general => exact .inl ⟨pass, hp, hk, hr⟩
    | copy => exact .inr ⟨pass, hp, hk, hr⟩
  · rintro (⟨pass, hp, _, hr⟩ | ⟨pass, hp, _, hr⟩)
    · exact ⟨pass, hp, hr⟩
    · exact ⟨pass, hp, hr⟩

end Frame

end FramePlan
