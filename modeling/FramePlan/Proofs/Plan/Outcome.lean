import FramePlan.Proofs.Clash
import FramePlan.Proofs.Frame.Moves
import FramePlan.Proofs.MoveSurvival
import FramePlan.Proofs.PassGraph.Acyclic
import FramePlan.Proofs.PassGraph.Exact
import FramePlan.Proofs.Plan.Script

/-!
# How planning ends

A declared frame has a plan when nothing stands against it. Otherwise the error says what does:
outputs that are claimed twice are found before cycles of moves, and these before cycles of passes.
Two moves with a common end are never found, as no such moves are registered.

* `Plan.exists_findings` — what planning finds before it orders the passes, if it gets that far.
* `Plan.verdict_ofFrame` — planning ends in one of four ways, each for its reason.
* `Plan.ofFrame_decided` — which of them it is is decided by the declarations.
-/

namespace FramePlan

namespace Frame

variable {frame : Frame} {p first f : PassId} {i : Nat} {r : ResourceId}

/-- The first clash is with one pass only: two others would clash before. -/
theorem FirstClash.first_unique (h : frame.FirstClash p i r first) (hf : frame.Clash p i r f) :
    f = first := by
  have earlier : ∀ {a b : PassId} {pass other : Pass}, frame.pass? a = some pass →
      frame.pass? b = some other → other.kind = pass.kind → r ∈ pass.outputs →
      r ∈ other.outputs → b.index < p.index → ¬ a.index < b.index := by
    intro a b pass other ha hb hkind hr hr' hbp hab
    obtain ⟨j, hj⟩ := List.mem_iff_getElem?.mp hr'
    rcases h.least (.earlierPass hb hj ha hab hkind.symm hr) with hlt | ⟨rfl, _⟩
    · exact Nat.lt_asymm hlt hbp
    · exact Nat.lt_irrefl _ hbp
  have mixed : ∀ {a : PassId} {pass other : Pass} {j : Nat}, frame.pass? p = some pass →
      frame.pass? a = some other → a.index < p.index → other.kind = pass.kind →
      r ∈ other.outputs → pass.outputs[j]? = some r → ¬ j < i := by
    intro a pass other j hp ha hlt hkind hr hj hji
    rcases h.least (.earlierPass hp hj ha hlt hkind hr) with hlt | ⟨_, hle⟩
    · exact Nat.lt_irrefl _ hlt
    · exact Nat.not_lt_of_le hle hji
  cases h.clash with
  | earlierPass hp _ hfirst hlt hkind hr =>
      cases hf with
      | earlierPass hp' _ hf hlt' hkind' hr' =>
          cases hp.symm.trans hp'
          exact NodeId.ext (Nat.le_antisymm
            (Nat.le_of_not_lt (earlier hfirst hf (hkind'.trans hkind.symm) hr hr' hlt'))
            (Nat.le_of_not_lt (earlier hf hfirst (hkind.trans hkind'.symm) hr' hr hlt)))
      | samePass hp' _ _ hji hj =>
          cases hp.symm.trans hp'
          exact absurd hji (mixed hp hfirst hlt hkind hr hj)
  | samePass hp _ _ hji hj =>
      cases hf with
      | earlierPass hp' _ hf hlt' hkind' hr' =>
          cases hp.symm.trans hp'
          exact absurd hji (mixed hp hf hlt' hkind' hr' hj)
      | samePass _ _ _ _ _ => rfl

end Frame

namespace Plan

variable {frame : Frame}

/-- The ways in which planning can end, each with what it says of the declarations. -/
inductive Verdict (frame : Frame) : Except PlanError Plan → Prop
  | clash {p first : PassId} {pass : Pass} {i : Nat} {r : ResourceId} :
      frame.FirstClash p i r first → frame.pass? p = some pass →
      Verdict frame (.error (.clash pass.kind r first p))
  | moveCycle {r : ResourceId} : frame.SingleWriter → frame.SingleCopy →
      Relation.TransGen frame.Moves r r →
      (∀ x, Relation.TransGen frame.Moves x x → r.index ≤ x.index) →
      Verdict frame (.error (.moveCycle r))
  | notADag {remaining : List PassId} : frame.SingleWriter → frame.SingleCopy →
      frame.MovesAcyclic → ¬ frame.HazardsAcyclic → Verdict frame (.error (.notADag remaining))
  | ok {plan : Plan} : frame.Plannable → Verdict frame (.ok plan)

/-- What is left of planning once usage and chains are found. -/
theorem ofFrame_of_chains {usage : UsageTable} {table : MoveTable}
    {chains : List (List ResourceId)} (husage : UsageTable.ofFrame frame = .ok usage)
    (htable : MoveTable.ofMoves frame.moves = .ok table) (hchains : table.chains = .ok chains) :
    ofFrame frame =
      (PassGraph.ofHazards frame usage (.addCollapsed usage.isTouched ∅ chains)).order >>=
        fun order => .ok (ofOrder usage (.addCollapsed usage.isTouched ∅ chains)
          (.ofHazards frame usage (.addCollapsed usage.isTouched ∅ chains)) order) := by
  rw [Plan.ofFrame, husage, htable]
  show (table.chains >>= fun chains => _) = _
  rw [hchains]
  rfl

/-- What is found out about a frame before its passes are ordered. -/
structure Findings (frame : Frame) (usage : UsageTable) (moves : MoveTable) : Prop where
  collected : UsageTable.ofFrame frame = .ok usage
  describes : usage.Describes frame
  forward_iff : ∀ {s d}, moves.forward.get? s = some d ↔ frame.Survives s d
  paired : moves.Paired
  /-- Only the order of the passes is left to be found. -/
  ofFrame_eq : ofFrame frame = (PassGraph.ofHazards frame usage moves).order >>= fun order =>
    .ok (ofOrder usage moves (.ofHazards frame usage moves) order)

theorem findings_of_chains {usage : UsageTable} {table : MoveTable} (hwell : frame.WellFormed)
    (husage : UsageTable.ofFrame frame = .ok usage)
    (htable : MoveTable.ofMoves frame.moves = .ok table)
    (hchains : table.chains = .ok (table.starts.map table.chainFrom))
    (hacyclic : ∀ r, ¬ table.OnCycle r) : ∃ moves, Findings frame usage moves := by
  have hdescribes := UsageTable.describes_of_ofFrame hwell.copy_balanced husage
  refine ⟨_, husage, hdescribes, fun {s d} => ?_, ?_, ofFrame_of_chains husage htable hchains⟩
  · exact MoveTable.forward_iff_survives htable hacyclic fun r => hdescribes.isTouched_iff
  · exact (MoveTable.collapsed_of_chains _ htable hchains).paired

namespace Findings

variable {usage : UsageTable} {moves : MoveTable} {p q : PassId}

theorem hasEdge_iff (h : Findings frame usage moves) :
    (PassGraph.ofHazards frame usage moves).hasEdge p q ↔ frame.Hazard p q :=
  PassGraph.hasEdge_iff_hazard h.describes fun _ _ => h.forward_iff

theorem closed (h : Findings frame usage moves) : (PassGraph.ofHazards frame usage moves).Closed :=
  PassGraph.closed_ofHazards h.describes

theorem precedes_eq (h : Findings frame usage moves) :
    (PassGraph.ofHazards frame usage moves).Precedes = Relation.TransGen frame.Hazard := by
  have hedges : (fun a b => (PassGraph.ofHazards frame usage moves).hasEdge a b = true) =
      frame.Hazard := funext fun a => funext fun b => propext h.hasEdge_iff
  rw [← hedges]
  rfl

/-- A plan is made of what is found out. -/
theorem of_ok (h : Findings frame usage moves) {plan : Plan} (hplan : ofFrame frame = .ok plan) :
    plan.usage = usage ∧ plan.moves = moves ∧ plan.graph = .ofHazards frame usage moves := by
  rw [h.ofFrame_eq] at hplan
  obtain ⟨order, _, hplan⟩ := except_bind_ok.mp hplan
  cases hplan
  exact ⟨rfl, rfl, rfl⟩

/-- An error is that of the order. -/
theorem of_error (h : Findings frame usage moves) {e : PlanError}
    (herror : ofFrame frame = .error e) :
    (PassGraph.ofHazards frame usage moves).order = .error e := by
  rw [h.ofFrame_eq] at herror
  cases horder : (PassGraph.ofHazards frame usage moves).order with
  | ok order =>
      rw [horder] at herror
      cases herror
  | error e' =>
      rw [horder] at herror
      cases herror
      rfl

end Findings

/-- **Planning ends in one of four ways**, each for a reason that lies in the declarations. -/
theorem verdict_ofFrame (hdeclared : frame.Declared) : Verdict frame (ofFrame frame) := by
  have hwell := hdeclared.wellFormed
  have hapart := hdeclared.movesApart
  obtain ⟨table, htable⟩ := MoveTable.ofMoves_ok hapart.src_nodup hapart.dst_nodup
  rcases UsageTable.ofFrame_cases hwell with
    ⟨⟨usage, husage⟩, hnone⟩ | ⟨p, pass, i, r, first, hclash, hpass, herror⟩
  · obtain ⟨hwriter, hcopy⟩ := Frame.no_clash_iff.mp hnone
    rcases (MoveTable.paired_of_ofMoves htable).chains_cases with
      ⟨hchains, hacyclic⟩ | ⟨r, hchains, hcycle, hleast⟩
    · have hstraight : frame.MovesAcyclic := fun r hr =>
        hacyclic r ((MoveTable.onCycle_iff htable).mpr hr)
      obtain ⟨moves, hfound⟩ := findings_of_chains hwell husage htable hchains hacyclic
      rw [hfound.ofFrame_eq]
      rcases PassGraph.order_cases hfound.closed with
        ⟨order, horder, hordered⟩ | ⟨remaining, horder, p, hp⟩
      · rw [horder]
        rw [hfound.precedes_eq] at hordered
        exact .ok ⟨hwriter, hcopy, hstraight, hordered⟩
      · rw [horder]
        rw [hfound.precedes_eq] at hp
        exact .notADag hwriter hcopy hstraight fun h => h p hp
    · rw [Plan.ofFrame, husage, htable]
      show Verdict frame (table.chains >>= fun chains => _)
      rw [hchains]
      exact .moveCycle hwriter hcopy ((MoveTable.onCycle_iff htable).mp hcycle) fun x hx =>
        hleast x ((MoveTable.onCycle_iff htable).mpr hx)
  · rw [Plan.ofFrame, herror]
    exact .clash hclash hpass

/-- As long as no output is claimed twice and no moves lead back, only the order is left to be
found. -/
theorem exists_findings (hdeclared : frame.Declared) (hwriter : frame.SingleWriter)
    (hcopy : frame.SingleCopy) (hstraight : frame.MovesAcyclic) :
    ∃ usage moves, Findings frame usage moves := by
  have hwell := hdeclared.wellFormed
  have hapart := hdeclared.movesApart
  obtain ⟨table, htable⟩ := MoveTable.ofMoves_ok hapart.src_nodup hapart.dst_nodup
  rcases UsageTable.ofFrame_cases hwell with
    ⟨⟨usage, husage⟩, _⟩ | ⟨p, _, i, r, first, hclash, _⟩
  · rcases (MoveTable.paired_of_ofMoves htable).chains_cases with
      ⟨hchains, hacyclic⟩ | ⟨r, _, hcycle, _⟩
    · exact ⟨usage, findings_of_chains hwell husage htable hchains hacyclic⟩
    · exact absurd ((MoveTable.onCycle_iff htable).mp hcycle) (hstraight r)
  · exact absurd hclash.clash (Frame.no_clash_iff.mpr ⟨hwriter, hcopy⟩ p i r first)

/-- How planning a frame ends, read off its declarations. -/
structure Decided (frame : Frame) (result : Except PlanError Plan) : Prop where
  ok_iff : (∃ plan, result = .ok plan) ↔ frame.Plannable
  /-- The first clash is the error, with the one pass that claimed the output before. -/
  clash : ¬ (frame.SingleWriter ∧ frame.SingleCopy) → ∃ p pass i r first,
    frame.FirstClash p i r first ∧ (∀ f, frame.Clash p i r f → f = first) ∧
      frame.pass? p = some pass ∧ result = .error (.clash pass.kind r first p)
  /-- The smallest resource on a cycle of moves is the error. -/
  moveCycle : frame.SingleWriter → frame.SingleCopy → ¬ frame.MovesAcyclic →
    ∃ r, Relation.TransGen frame.Moves r r ∧
      (∀ x, Relation.TransGen frame.Moves x x → r.index ≤ x.index) ∧
      result = .error (.moveCycle r)
  notADag : frame.SingleWriter → frame.SingleCopy → frame.MovesAcyclic →
    ¬ frame.HazardsAcyclic → ∃ remaining, result = .error (.notADag remaining)
  no_moveOutConflict : ∀ r d d', result ≠ .error (.moveOutConflict r d d')
  no_moveInConflict : ∀ r s s', result ≠ .error (.moveInConflict r s s')

/-- The reasons exclude each other. -/
theorem Verdict.decided {result : Except PlanError Plan} (h : Verdict frame result) :
    Decided frame result := by
  have hno : ∀ {e : PlanError} {P : Prop}, ¬ P →
      ((∃ plan : Plan, (.error e : Except PlanError Plan) = .ok plan) ↔ P) := fun hP =>
    iff_of_false nofun hP
  cases h with
  | @clash p first pass i r hclash hpass =>
      have hnot : ¬ (frame.SingleWriter ∧ frame.SingleCopy) := fun hsingle =>
        Frame.no_clash_iff.mpr hsingle p i r first hclash.clash
      refine ⟨hno fun h => hnot ⟨h.single_writer, h.single_copy⟩, fun _ => ?_,
        fun hw hc => absurd ⟨hw, hc⟩ hnot, fun hw hc => absurd ⟨hw, hc⟩ hnot,
        fun r d d' heq => ?_, fun r s s' heq => ?_⟩
      · exact ⟨p, pass, i, r, first, hclash, fun f hf => hclash.first_unique hf, hpass, rfl⟩
      · cases hkind : pass.kind <;> rw [hkind] at heq <;> cases heq
      · cases hkind : pass.kind <;> rw [hkind] at heq <;> cases heq
  | @moveCycle r hwriter hcopy hcycle hleast =>
      exact ⟨hno fun h => h.moves_acyclic r hcycle, fun h => absurd ⟨hwriter, hcopy⟩ h,
        fun _ _ _ => ⟨r, hcycle, hleast, rfl⟩, fun _ _ h => absurd hcycle (h r),
        nofun, nofun⟩
  | @notADag remaining hwriter hcopy hmoves hcycle =>
      exact ⟨hno fun h => hcycle h.hazards_acyclic, fun h => absurd ⟨hwriter, hcopy⟩ h,
        fun _ _ h => absurd hmoves h, fun _ _ _ _ => ⟨remaining, rfl⟩,
        nofun, nofun⟩
  | @ok plan h =>
      exact ⟨iff_of_true ⟨plan, rfl⟩ h, fun hnot => absurd ⟨h.single_writer, h.single_copy⟩ hnot,
        fun _ _ hnot => absurd h.moves_acyclic hnot,
        fun _ _ _ hnot => absurd h.hazards_acyclic hnot,
        nofun, nofun⟩

/-- **The outcome of planning is decided by the declarations**: there is a plan when nothing stands
against it, and otherwise the error is the first clash, or else the smallest resource on a cycle of
moves, or else that passes wait for themselves. -/
theorem ofFrame_decided (hdeclared : frame.Declared) : Decided frame (ofFrame frame) :=
  (verdict_ofFrame hdeclared).decided

/-- Nothing stands against a plan of the relay, but two pictures that are moved into each other have
none. -/
theorem ofFrame_decided_relay : Frame.relay.Plannable ∧
    ¬ (Frame.ofDeclarations "ring" [.resource "front", .resource "back", .move ⟨⟨1⟩, ⟨0⟩⟩,
      .move ⟨⟨0⟩, ⟨1⟩⟩]).Plannable := by
  refine ⟨(ofFrame_decided ⟨_, _, rfl⟩).ok_iff.mp ⟨_, ofFrame_relay⟩, fun hplannable => ?_⟩
  obtain ⟨plan, hplan⟩ := (ofFrame_decided ⟨_, _, rfl⟩).ok_iff.mpr hplannable
  have hcycle : ofFrame (Frame.ofDeclarations "ring" [.resource "front", .resource "back",
      .move ⟨⟨1⟩, ⟨0⟩⟩, .move ⟨⟨0⟩, ⟨1⟩⟩]) = .error (.moveCycle ⟨0⟩) := rfl
  rw [hcycle] at hplan
  cases hplan

end Plan

end FramePlan
