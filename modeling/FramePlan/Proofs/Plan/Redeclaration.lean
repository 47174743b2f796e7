import FramePlan.Proofs.Frame.Redeclaration
import FramePlan.Proofs.IdMap
import FramePlan.Proofs.Plan.Matching

/-!
# Plans of frames that are declared otherwise

Neither the order in which moves are registered matters, nor in which order and how often a pass
names its resources: whatever frame is declared in that way has the same plan, or the same error. If
outputs are claimed twice, the same pass is found to claim one again, but which of its outputs is
found first depends on their order.

* `Plan.ofFrame_eq_of_matches` — the same plan, as long as no output is claimed twice.
* `Plan.Agrees` — results that say the same, up to which output is claimed twice.
* `Plan.ofFrame_redeclared` — a frame can be declared otherwise, and planning it ends the same.
-/

namespace FramePlan

namespace Plan

variable {frame other : Frame} {t t' : UsageTable} {moves moves' : MoveTable}

/-! ### The same plan -/

theorem usageTable_eq (h : frame.Matches (Equiv.refl PassId) other)
    (hfound : Findings frame t moves) (hfound' : Findings other t' moves') : t' = t := by
  obtain ⟨hin, hout⟩ := copies_eq h (UsageTable.describesCopies_of_ofFrame hfound.collected)
    (UsageTable.describesCopies_of_ofFrame hfound'.collected)
  have husage : ∀ r, t'.usage r = t.usage r := by
    intro r
    obtain ⟨hwriter, hcopyIn, hreaders⟩ := usage_matches h hfound.describes hfound'.describes r
    rw [Equiv.coe_refl, Option.map_id] at hwriter hcopyIn
    have hsame : (t'.usage r).readers = (t.usage r).readers := IdSet.ext hreaders
    cases hu : t.usage r
    cases hu' : t'.usage r
    rw [hu, hu'] at hwriter hcopyIn hsame
    cases hwriter
    cases hcopyIn
    cases hsame
    rfl
  have huses : t'.uses = t.uses := IdMap.ext_getD
    (fun r => by rw [keys_eq h hfound.describes hfound'.describes]) husage
  obtain ⟨uses, copiesIn, copiesOut⟩ := t
  obtain ⟨uses', copiesIn', copiesOut'⟩ := t'
  cases huses
  cases hin
  cases hout
  rfl

theorem graph_eq (h : frame.Matches (Equiv.refl PassId) other)
    (hfound : Findings frame t moves) (hfound' : Findings other t' moves') :
    PassGraph.ofHazards other t' moves' = .ofHazards frame t moves := by
  refine PassGraph.eq_of_hasEdge (fun p => ?_) (hasEdge_eq h hfound hfound')
  rw [PassGraph.mem_passes_ofHazards hfound'.describes,
    PassGraph.mem_passes_ofHazards hfound.describes, ← Frame.exists_pass_iff,
    ← Frame.exists_pass_iff]
  simpa using h.declares_iff (P := fun _ => True) fun _ => Iff.rfl

/-- **Frames that match in place have the same plan**, or the same error, as long as no output is
claimed twice. -/
theorem ofFrame_eq_of_matches (h : frame.Matches (Equiv.refl PassId) other)
    (hdeclared : frame.Declared) (hdeclared' : other.Declared) (hwriter : frame.SingleWriter)
    (hcopy : frame.SingleCopy) : ofFrame other = ofFrame frame := by
  by_cases hstraight : frame.MovesAcyclic
  · obtain ⟨t, moves, hfound⟩ := exists_findings hdeclared hwriter hcopy hstraight
    obtain ⟨t', moves', hfound'⟩ := exists_findings hdeclared' (h.singleWriter hwriter)
      (h.singleCopy hcopy) (h.movesAcyclic_iff.mpr hstraight)
    rw [hfound'.ofFrame_eq, hfound.ofFrame_eq, graph_eq h hfound hfound',
      usageTable_eq h hfound hfound', moves_eq h hfound hfound']
  · obtain ⟨r, herror, herror'⟩ := moveCycle_eq h hdeclared hdeclared' hwriter hcopy hstraight
    rw [herror, herror']

/-! ### Results that say the same -/

/-- The results are the same, or in both the same pass claims an output that is claimed already. -/
inductive Agrees : Except PlanError Plan → Except PlanError Plan → Prop
  | same (result : Except PlanError Plan) : Agrees result result
  | multipleWriters {r r' : ResourceId} {first first' second : PassId} :
      Agrees (.error (.multipleWriters r first second)) (.error (.multipleWriters r' first' second))
  | multipleCopyIns {r r' : ResourceId} {first first' second : PassId} :
      Agrees (.error (.multipleCopyIns r first second)) (.error (.multipleCopyIns r' first' second))

theorem Agrees.clash (kind : PassKind) {r r' : ResourceId} {first first' second : PassId} :
    Agrees (.error (.clash kind r first second)) (.error (.clash kind r' first' second)) := by
  cases kind with
  | general => exact .multipleWriters
  | copy => exact .multipleCopyIns

/-- The first pass that claims an output again comes first in any such frame. -/
theorem agrees_of_matches (h : frame.Matches (Equiv.refl PassId) other)
    (hdeclared : frame.Declared) (hdeclared' : other.Declared) :
    Agrees (ofFrame frame) (ofFrame other) := by
  by_cases hsingle : frame.SingleWriter ∧ frame.SingleCopy
  · rw [ofFrame_eq_of_matches h hdeclared hdeclared' hsingle.1 hsingle.2]
    exact .same _
  have hsingle' : ¬ (other.SingleWriter ∧ other.SingleCopy) := by
    rwa [h.singleWriter_iff, h.singleCopy_iff]
  obtain ⟨p, pass, i, r, first, hfirst, _, hpass, herror⟩ :=
    (verdict_ofFrame hdeclared).decided.clash hsingle
  obtain ⟨p', pass', i', r', first', hfirst', _, hpass', herror'⟩ :=
    (verdict_ofFrame hdeclared').decided.clash hsingle'
  have hle := hfirst.index_le (h.clashes_iff.mp ⟨i', r', first', hfirst'.clash⟩)
  have hle' := hfirst'.index_le (h.clashes_iff.mpr ⟨i, r, first, hfirst.clash⟩)
  cases (NodeId.ext (Nat.le_antisymm hle hle') : p = p')
  obtain ⟨_, hpass'', halike⟩ := h.exists_alike hpass
  cases hpass'.symm.trans hpass''
  rw [herror, herror', halike.kind]
  exact .clash pass.kind

/-- **Declaration order and repetition do not matter.** The nodes of a declared frame can be
declared otherwise, in any order of the calls in which a node comes after the resources that it
refers to: every call is accepted. And whatever frame has them so declared, planning it ends the
same. -/
theorem ofFrame_redeclared {passes : List Pass} {moves : List Move} (hdeclared : frame.Declared)
    (h : frame.Redeclares passes moves) :
    (∀ name ds, Frame.Introduces ds frame.resources passes moves →
      ∃ other, (Frame.empty name).declareAll ds = (other, []) ∧
        other.Holds frame.resources passes moves) ∧
    ∀ other : Frame, other.Declared → other.passes = passes → other.moves = moves →
      Agrees (ofFrame frame) (ofFrame other) :=
  ⟨fun name _ hds => (h.registrable hdeclared.consistent).accepted hds name,
    fun _ hdeclared' hpasses hmoves =>
      agrees_of_matches (h.matches hpasses hmoves) hdeclared hdeclared'⟩

/-- Two sketches are printed, and the prints are shown. -/
def album : Frame := .ofDeclarations "album"
  [.resource "fox", .resource "hare", .resource "fox print", .resource "hare print",
    .resource "left", .resource "right", .pass ⟨.general, "draw", [], [⟨0⟩, ⟨1⟩]⟩,
    .pass ⟨.copy, "print", [⟨0⟩, ⟨1⟩], [⟨2⟩, ⟨3⟩]⟩, .pass ⟨.general, "show", [⟨4⟩, ⟨5⟩], []⟩,
    .move ⟨⟨4⟩, ⟨2⟩⟩, .move ⟨⟨5⟩, ⟨3⟩⟩]

/-- The passes of the album declared otherwise. -/
def albumPasses : List Pass :=
  [⟨.general, "draw", [], [⟨1⟩, ⟨0⟩, ⟨1⟩]⟩, ⟨.copy, "print", [⟨1⟩, ⟨0⟩], [⟨3⟩, ⟨2⟩]⟩,
    ⟨.general, "show", [⟨5⟩, ⟨4⟩, ⟨4⟩], []⟩]

/-- The album declared otherwise has the same plan. -/
theorem ofFrame_redeclared_album : ∃ other plan,
    (Frame.empty "album").declareAll
      (Frame.inOrder album.resources albumPasses album.moves.reverse) = (other, []) ∧
    other ≠ album ∧ ofFrame album = .ok plan ∧ ofFrame other = .ok plan := by
  have hdeclared : album.Declared := ⟨_, _, rfl⟩
  have hredeclares : album.Redeclares albumPasses album.moves.reverse := by
    refine ⟨.cons ?_ (.cons ?_ (.cons ?_ .nil)), List.reverse_perm _⟩
    · refine .general (fun _ => Iff.rfl) fun r => ?_
      simp only [List.mem_cons, List.not_mem_nil]
      tauto
    · exact @Pass.Redeclares.copy "print" [(⟨0⟩, ⟨2⟩), (⟨1⟩, ⟨3⟩)] _ (List.Perm.swap ..)
    · exact .general (fun r => by simp [or_comm]) fun _ => Iff.rfl
  obtain ⟨haccepted, hagrees⟩ := ofFrame_redeclared hdeclared hredeclares
  obtain ⟨other, hcalls, hholds⟩ := haccepted "album" _
    (Frame.introduces_inOrder (by decide) (by decide))
  have hsame := hagrees other ⟨_, _, congrArg Prod.fst hcalls.symm⟩ hholds.passes hholds.moves
  obtain ⟨plan, hplan⟩ : ∃ plan, ofFrame album = .ok plan := ⟨_, rfl⟩
  refine ⟨other, plan, hcalls, fun heq => ?_, hplan, ?_⟩
  · have hpasses : albumPasses = album.passes := hholds.passes ▸ congrArg Frame.passes heq
    exact absurd hpasses (by decide)
  · rw [hplan] at hsame
    generalize ofFrame other = result at hsame
    cases hsame
    rfl

/-- Which of two outputs is found to be claimed twice depends on their order. -/
example :
    ofFrame (.ofDeclarations "clash" [.resource "fox", .resource "hare",
      .pass ⟨.general, "draw", [], [⟨0⟩, ⟨1⟩]⟩, .pass ⟨.general, "redraw", [], [⟨0⟩, ⟨1⟩]⟩]) =
      .error (.multipleWriters ⟨0⟩ ⟨0⟩ ⟨1⟩) ∧
    ofFrame (.ofDeclarations "clash" [.resource "fox", .resource "hare",
      .pass ⟨.general, "draw", [], [⟨0⟩, ⟨1⟩]⟩, .pass ⟨.general, "redraw", [], [⟨1⟩, ⟨0⟩]⟩]) =
      .error (.multipleWriters ⟨1⟩ ⟨0⟩ ⟨1⟩) := ⟨rfl, rfl⟩

end Plan

end FramePlan
