import FramePlan.Frame.Conflict
import Mathlib.Data.List.Nodup
import Mathlib.Logic.Equiv.Basic

/-!
# Frames that declare the same

Little of a declaration matters to a plan: of a pass, what it does with which resources, and of the
moves, which there are. Nothing depends on the order in which a pass names its resources or in which
moves are registered, and the order in which passes are registered only decides their ids. Frames
match when they declare the same passes, be it under other ids, and the same moves.

* `Frame.Matches.declares_iff` — what is true of a pass is true of the pass that it matches.
* `Frame.Matches.hazard_iff`, `Frame.Matches.survives_iff` — hazards and moves that remain.
* `Frame.Matches.singleWriter_iff`, `Frame.Matches.hazardsAcyclic_iff` — what stands against a plan.
-/

namespace FramePlan

/-- Passes that do the same with the same resources, however they name them. -/
structure Pass.Alike (pass other : Pass) : Prop where
  kind : other.kind = pass.kind
  mem_inputs : ∀ r, r ∈ other.inputs ↔ r ∈ pass.inputs
  mem_outputs : ∀ r, r ∈ other.outputs ↔ r ∈ pass.outputs
  mem_copyPairs : ∀ c, c ∈ other.copyPairs ↔ c ∈ pass.copyPairs
  /-- A general pass may name an output again, but a copy claims it again. -/
  nodup_outputs : pass.kind = .copy → (other.outputs.Nodup ↔ pass.outputs.Nodup)

namespace Pass.Alike

variable {pass other : Pass} {r : ResourceId} {kind : PassKind}

theorem refl (pass : Pass) : pass.Alike pass where
  kind := rfl
  mem_inputs _ := Iff.rfl
  mem_outputs _ := Iff.rfl
  mem_copyPairs _ := Iff.rfl
  nodup_outputs _ := Iff.rfl

theorem symm (h : pass.Alike other) : other.Alike pass where
  kind := h.kind.symm
  mem_inputs r := (h.mem_inputs r).symm
  mem_outputs r := (h.mem_outputs r).symm
  mem_copyPairs c := (h.mem_copyPairs c).symm
  nodup_outputs hcopy := (h.nodup_outputs (h.kind.symm.trans hcopy)).symm

theorem kind_iff (h : pass.Alike other) : other.kind = kind ↔ pass.kind = kind := by rw [h.kind]

theorem mem_resources (h : pass.Alike other) : r ∈ other.resources ↔ r ∈ pass.resources := by
  rw [Pass.mem_resources, Pass.mem_resources, h.mem_inputs, h.mem_outputs]

end Pass.Alike

namespace Frame

variable {frame other : Frame} {π : Equiv.Perm PassId} {p q : PassId} {r s d : ResourceId}

/-- No two copies, and no two outputs of one copy, are the same. -/
theorem singleCopy_iff_nodup : frame.SingleCopy ↔
    (∀ {p q r}, frame.CopiesInto p r → frame.CopiesInto q r → p = q) ∧
      ∀ {p pass}, frame.pass? p = some pass → pass.kind = .copy → pass.outputs.Nodup := by
  constructor
  · intro hsingle
    refine ⟨?_, fun {p pass} hpass hcopy => List.nodup_iff_getElem?_ne_getElem?.mpr ?_⟩
    · rintro p q r ⟨pass, hp, hcopy, hr⟩ ⟨other, hq, hcopy', hr'⟩
      obtain ⟨i, hi⟩ := List.mem_iff_getElem?.mp hr
      obtain ⟨j, hj⟩ := List.mem_iff_getElem?.mp hr'
      exact (hsingle ⟨pass, hp, hcopy, hi⟩ ⟨other, hq, hcopy', hj⟩).1
    · intro i j hij hj heq
      have hsome : pass.outputs[j]? = some pass.outputs[j] := List.getElem?_eq_getElem hj
      have hsame := hsingle ⟨pass, hpass, hcopy, heq.trans hsome⟩ ⟨pass, hpass, hcopy, hsome⟩
      exact Nat.ne_of_lt hij hsame.2
  · rintro ⟨hsingle, hnodup⟩ p q i j r ⟨pass, hp, hcopy, hi⟩ ⟨other, hq, hcopy', hj⟩
    cases hsingle ⟨pass, hp, hcopy, List.mem_of_getElem? hi⟩
      ⟨other, hq, hcopy', List.mem_of_getElem? hj⟩
    cases hp.symm.trans hq
    have hlt := (List.getElem?_eq_some_iff.mp hi).1
    exact ⟨rfl, (List.getElem?_inj hlt (hnodup hp hcopy)).mp (hi.trans hj.symm)⟩

/-- The other frame has passes that do the same, under other ids, and the same moves. -/
structure Matches (π : Equiv.Perm PassId) (frame other : Frame) : Prop where
  pass? : ∀ p, Option.Rel Pass.Alike (frame.pass? p) (other.pass? (π p))
  mem_moves : ∀ m, m ∈ other.moves ↔ m ∈ frame.moves

namespace Matches

theorem symm (h : frame.Matches π other) : other.Matches π.symm frame where
  pass? p := by
    have hrel := h.pass? (π.symm p)
    rw [π.apply_symm_apply] at hrel
    generalize frame.pass? (π.symm p) = o at hrel ⊢
    generalize other.pass? p = o' at hrel ⊢
    cases hrel with
    | some halike => exact .some halike.symm
    | none => exact .none
  mem_moves m := (h.mem_moves m).symm

/-- Each pass has one that does the same. -/
theorem exists_alike (h : frame.Matches π other) {pass : Pass} (hpass : frame.pass? p = some pass) :
    ∃ pass', other.pass? (π p) = some pass' ∧ pass.Alike pass' := by
  have hrel := h.pass? p
  rw [hpass] at hrel
  generalize other.pass? (π p) = o at hrel ⊢
  cases hrel with
  | some halike => exact ⟨_, rfl, halike⟩

/-- **What the passes of the one frame declare, those of the other do**, under their other ids. -/
theorem declares_iff (h : frame.Matches π other) {P : Pass → Prop}
    (hP : ∀ {pass pass' : Pass}, pass.Alike pass' → (P pass' ↔ P pass)) :
    (∃ pass, other.pass? (π p) = some pass ∧ P pass) ↔
      ∃ pass, frame.pass? p = some pass ∧ P pass := by
  have hrel := h.pass? p
  generalize frame.pass? p = o at hrel ⊢
  generalize other.pass? (π p) = o' at hrel ⊢
  cases hrel with
  | some halike => simp [hP halike]
  | none => simp

/-! ### What passes do -/

theorem reads_iff (h : frame.Matches π other) : other.Reads (π p) r ↔ frame.Reads p r :=
  h.declares_iff fun halike => halike.mem_inputs r

theorem writes_iff (h : frame.Matches π other) : other.Writes (π p) r ↔ frame.Writes p r :=
  h.declares_iff fun halike => and_congr halike.kind_iff (halike.mem_outputs r)

theorem copiesInto_iff (h : frame.Matches π other) :
    other.CopiesInto (π p) r ↔ frame.CopiesInto p r :=
  h.declares_iff fun halike => and_congr halike.kind_iff (halike.mem_outputs r)

theorem copies_iff (h : frame.Matches π other) : other.Copies (π p) s d ↔ frame.Copies p s d :=
  h.declares_iff fun halike => halike.mem_copyPairs (s, d)

theorem touches_iff (h : frame.Matches π other) : other.Touches (π p) r ↔ frame.Touches p r :=
  h.declares_iff fun halike => halike.mem_resources

/-- What some pass does, some pass does under its other id. -/
theorem exists_copies_iff (h : frame.Matches π other) :
    (∃ p, other.Copies p s d) ↔ ∃ p, frame.Copies p s d :=
  (π.exists_congr fun _ => h.copies_iff.symm).symm

theorem touched_iff (h : frame.Matches π other) : other.Touched r ↔ frame.Touched r :=
  (π.exists_congr fun _ => h.touches_iff.symm).symm

/-- What no pass does, no pass does under its other id. -/
theorem not_reads_iff (h : frame.Matches π other) :
    (∀ q, ¬ other.Reads q r) ↔ ∀ q, ¬ frame.Reads q r :=
  (π.forall_congr fun _ => not_congr h.reads_iff.symm).symm

theorem not_writes_iff (h : frame.Matches π other) :
    (∀ q, ¬ other.Writes q r) ↔ ∀ q, ¬ frame.Writes q r :=
  (π.forall_congr fun _ => not_congr h.writes_iff.symm).symm

theorem not_copiesInto_iff (h : frame.Matches π other) :
    (∀ q, ¬ other.CopiesInto q r) ↔ ∀ q, ¬ frame.CopiesInto q r :=
  (π.forall_congr fun _ => not_congr h.copiesInto_iff.symm).symm

theorem usesLast_iff (h : frame.Matches π other) :
    other.UsesLast (π p) r ↔ frame.UsesLast p r := by
  rw [UsesLast, UsesLast, h.copiesInto_iff, h.not_copiesInto_iff, h.reads_iff, h.not_reads_iff,
    h.writes_iff]

theorem usesFirst_iff (h : frame.Matches π other) :
    other.UsesFirst (π p) r ↔ frame.UsesFirst p r := by
  rw [UsesFirst, UsesFirst, h.writes_iff, h.not_writes_iff, h.reads_iff, h.not_reads_iff,
    h.copiesInto_iff]

/-! ### Moves -/

theorem moves_eq (h : frame.Matches π other) : other.Moves = frame.Moves := by
  funext s d
  exact propext (h.mem_moves ⟨d, s⟩)

theorem carries (h : frame.Matches π other) (hsd : frame.Carries s d) : other.Carries s d := by
  induction hsd with
  | single hmove => exact .single (h.moves_eq ▸ hmove)
  | through hmove hunused _ ih =>
      exact .through (h.moves_eq ▸ hmove) (fun htouch => hunused (h.touched_iff.mp htouch)) ih

theorem survives (h : frame.Matches π other) (hsd : frame.Survives s d) :
    other.Survives s d where
  carries := h.carries hsd.carries
  source := by
    rw [h.touched_iff, h.moves_eq]
    exact hsd.source
  destination := by
    rw [h.touched_iff, h.moves_eq]
    exact hsd.destination

/-- The same moves remain. -/
theorem survives_iff (h : frame.Matches π other) : other.Survives s d ↔ frame.Survives s d :=
  ⟨h.symm.survives, h.survives⟩

/-! ### Hazards -/

theorem hazard (h : frame.Matches π other) (hpq : frame.Hazard p q) :
    other.Hazard (π p) (π q) := by
  cases hpq with
  | written hp hq => exact .written (h.writes_iff.mpr hp) (h.reads_iff.mpr hq)
  | copied hp hq => exact .copied (h.reads_iff.mpr hp) (h.copiesInto_iff.mpr hq)
  | overwritten hp hnone hq =>
      exact .overwritten (h.writes_iff.mpr hp) (h.not_reads_iff.mpr hnone)
        (h.copiesInto_iff.mpr hq)
  | @copySource pass copy r hpass hgeneral hr hcopy hkind hr' =>
      have hinput : ∀ {kind : PassKind} {pass pass' : Pass}, pass.Alike pass' →
          (pass'.kind = kind ∧ r ∈ pass'.inputs ↔ pass.kind = kind ∧ r ∈ pass.inputs) :=
        fun halike => and_congr halike.kind_iff (halike.mem_inputs r)
      obtain ⟨_, hpass', hgeneral', hr⟩ := (h.declares_iff hinput).mpr ⟨pass, hpass, hgeneral, hr⟩
      obtain ⟨_, hcopy', hkind', hr'⟩ := (h.declares_iff hinput).mpr ⟨copy, hcopy, hkind, hr'⟩
      exact .copySource hpass' hgeneral' hr hcopy' hkind' hr'
  | moved hsd hp hq =>
      exact .moved (h.survives hsd) (h.usesLast_iff.mpr hp) (h.usesFirst_iff.mpr hq)

/-- The same passes wait for each other, under their other ids. -/
theorem hazard_iff (h : frame.Matches π other) :
    other.Hazard (π p) (π q) ↔ frame.Hazard p q := by
  refine ⟨fun hpq => ?_, h.hazard⟩
  have hback := h.symm.hazard hpq
  rwa [π.symm_apply_apply, π.symm_apply_apply] at hback

/-! ### What stands against a plan -/

theorem singleWriter (h : frame.Matches π other) (hframe : frame.SingleWriter) :
    other.SingleWriter := fun hp hq =>
  π.symm.injective (hframe (h.symm.writes_iff.mpr hp) (h.symm.writes_iff.mpr hq))

theorem singleWriter_iff (h : frame.Matches π other) :
    other.SingleWriter ↔ frame.SingleWriter :=
  ⟨h.symm.singleWriter, h.singleWriter⟩

theorem singleCopy (h : frame.Matches π other) (hframe : frame.SingleCopy) :
    other.SingleCopy := by
  obtain ⟨hsingle, hnodup⟩ := singleCopy_iff_nodup.mp hframe
  refine singleCopy_iff_nodup.mpr ⟨fun hp hq => ?_, fun {p pass} hpass hcopy => ?_⟩
  · exact π.symm.injective (hsingle (h.symm.copiesInto_iff.mpr hp) (h.symm.copiesInto_iff.mpr hq))
  · obtain ⟨pass', hpass', halike⟩ := h.symm.exists_alike hpass
    exact (halike.nodup_outputs hcopy).mp (hnodup hpass' (halike.kind_iff.mpr hcopy))

theorem singleCopy_iff (h : frame.Matches π other) : other.SingleCopy ↔ frame.SingleCopy :=
  ⟨h.symm.singleCopy, h.singleCopy⟩

theorem movesAcyclic_iff (h : frame.Matches π other) :
    other.MovesAcyclic ↔ frame.MovesAcyclic := by
  rw [MovesAcyclic, MovesAcyclic, h.moves_eq]

theorem hazardsAcyclic (h : frame.Matches π other) (hframe : frame.HazardsAcyclic) :
    other.HazardsAcyclic := fun p hp =>
  hframe (π.symm p) (Relation.TransGen.lift π.symm (fun _ _ => h.symm.hazard) p p hp)

theorem hazardsAcyclic_iff (h : frame.Matches π other) :
    other.HazardsAcyclic ↔ frame.HazardsAcyclic :=
  ⟨h.symm.hazardsAcyclic, h.hazardsAcyclic⟩

end Matches

end Frame

end FramePlan
