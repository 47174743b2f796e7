import FramePlan.Frame.Access
import Mathlib.Logic.Relation

/-!
# What stands against a plan

Why a frame may have no plan, said of its declarations alone: outputs that are claimed twice, moves
that lead back to where they began, and passes that wait for themselves.

* `Frame.Clash` — an output is claimed already; `Frame.FirstClash` is the one that is found first.
* `Frame.Survives` — the moves that remain when unused resources are left out.
* `Frame.Hazard` — the pairs of passes whose order matters.
* `Frame.Plannable` — nothing stands against a plan.
-/

namespace FramePlan

namespace Frame

/-! ### Outputs claimed twice -/

/-- The output of a pass at a position is claimed already: by an earlier pass of the same kind, or
by a copy itself at an earlier position. -/
inductive Clash (frame : Frame) : PassId → Nat → ResourceId → PassId → Prop
  | earlierPass {p first : PassId} {pass other : Pass} {i : Nat} {r : ResourceId} :
      frame.pass? p = some pass → pass.outputs[i]? = some r →
      frame.pass? first = some other → first.index < p.index → other.kind = pass.kind →
      r ∈ other.outputs → Clash frame p i r first
  | samePass {p : PassId} {pass : Pass} {i j : Nat} {r : ResourceId} :
      frame.pass? p = some pass → pass.outputs[i]? = some r → pass.kind = .copy → j < i →
      pass.outputs[j]? = some r → Clash frame p i r p

/-- Of all claimed outputs, the first one of the first pass that has any. -/
structure FirstClash (frame : Frame) (p : PassId) (i : Nat) (r : ResourceId) (first : PassId) :
    Prop where
  clash : frame.Clash p i r first
  least : ∀ {q j s f}, frame.Clash q j s f → p.index < q.index ∨ p = q ∧ i ≤ j

/-- The copy pass copies into the resource at a position. -/
def CopiesIntoAt (frame : Frame) (p : PassId) (i : Nat) (r : ResourceId) : Prop :=
  ∃ pass, frame.pass? p = some pass ∧ pass.kind = .copy ∧ pass.outputs[i]? = some r

/-- No resource is written by two general passes. -/
def SingleWriter (frame : Frame) : Prop :=
  ∀ {p q r}, frame.Writes p r → frame.Writes q r → p = q

/-- No resource is copied into twice, neither by two passes nor by one. -/
def SingleCopy (frame : Frame) : Prop :=
  ∀ {p q i j r}, frame.CopiesIntoAt p i r → frame.CopiesIntoAt q j r → p = q ∧ i = j

/-! ### Moves that remain -/

/-- Storage gets from one resource to another, and no pass uses the resources in between. -/
inductive Carries (frame : Frame) : ResourceId → ResourceId → Prop
  | single {s d : ResourceId} : frame.Moves s d → Carries frame s d
  | through {s r d : ResourceId} : frame.Moves s r → ¬ frame.Touched r → Carries frame r d →
      Carries frame s d

/-- A move that remains: neither end could be left out, as it is used or has no move beyond it. -/
structure Survives (frame : Frame) (s d : ResourceId) : Prop where
  carries : frame.Carries s d
  source : frame.Touched s ∨ ∀ r, ¬ frame.Moves r s
  destination : frame.Touched d ∨ ∀ r, ¬ frame.Moves d r

/-! ### Passes whose order matters -/

/-- The pass is the copy into the resource, or one of its readers if there is no copy, or its writer
if there are no readers either. -/
def UsesLast (frame : Frame) (p : PassId) (r : ResourceId) : Prop :=
  frame.CopiesInto p r ∨ (∀ q, ¬ frame.CopiesInto q r) ∧
    (frame.Reads p r ∨ (∀ q, ¬ frame.Reads q r) ∧ frame.Writes p r)

/-- The pass is the writer of the resource, or one of its readers if there is no writer, or the copy
into it if there are no readers either. -/
def UsesFirst (frame : Frame) (p : PassId) (r : ResourceId) : Prop :=
  frame.Writes p r ∨ (∀ q, ¬ frame.Writes q r) ∧
    (frame.Reads p r ∨ (∀ q, ¬ frame.Reads q r) ∧ frame.CopiesInto p r)

/-- The first pass has to come before the second. -/
inductive Hazard (frame : Frame) : PassId → PassId → Prop
  | written {p q : PassId} {r : ResourceId} : frame.Writes p r → frame.Reads q r →
      Hazard frame p q
  | copied {p q : PassId} {r : ResourceId} : frame.Reads p r → frame.CopiesInto q r →
      Hazard frame p q
  | overwritten {p q : PassId} {r : ResourceId} : frame.Writes p r → (∀ x, ¬ frame.Reads x r) →
      frame.CopiesInto q r → Hazard frame p q
  | copySource {p q : PassId} {pass copy : Pass} {r : ResourceId} : frame.pass? p = some pass →
      pass.kind = .general → r ∈ pass.inputs → frame.pass? q = some copy → copy.kind = .copy →
      r ∈ copy.inputs → Hazard frame p q
  | moved {p q : PassId} {s d : ResourceId} : frame.Survives s d → frame.UsesLast p s →
      frame.UsesFirst q d → Hazard frame p q

/-! ### Frames that have a plan -/

/-- No storage comes back to where it was moved from. -/
def MovesAcyclic (frame : Frame) : Prop := ∀ r, ¬ Relation.TransGen frame.Moves r r

/-- No pass has to come before itself. -/
def HazardsAcyclic (frame : Frame) : Prop := ∀ p, ¬ Relation.TransGen frame.Hazard p p

/-- Nothing stands against a plan. -/
structure Plannable (frame : Frame) : Prop where
  single_writer : frame.SingleWriter
  single_copy : frame.SingleCopy
  moves_acyclic : frame.MovesAcyclic
  hazards_acyclic : frame.HazardsAcyclic

end Frame

end FramePlan
