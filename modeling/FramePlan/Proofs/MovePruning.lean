import FramePlan.Proofs.Plan.Outcome
import Mathlib.Order.WellFounded

/-!
# Pruning moves one at a time

The moves that remain of a frame are found chain by chain. The same moves are arrived at by
rewriting: two moves that meet in a resource which no pass uses are replaced by one that skips the
resource, until no such two are left. Each replacement leaves fewer moves, and none of them changes
which moves survive, so every way of replacing ends, and all end with the same moves.

* `Frame.Skips` — one replacement; `Frame.Pruned` — no two moves are left to be replaced.
* `Frame.Meeting.survives_iff` — a replacement does not change which moves survive.
* `Frame.moves_pruned` — every way of replacing ends with the moves of the table.
-/

namespace FramePlan

namespace MoveTable

/-- The moves that remain of a list of moves when resources that do not matter are left out. -/
def resolve (matters : ResourceId → Bool) (moves : List Move) : Except PlanError MoveTable := do
  return addCollapsed matters ∅ (← (← ofMoves moves).chains)

end MoveTable

/-- The moves of a plan are those that remain of the moves of the frame. -/
theorem Plan.ofFrame_eq_resolve {frame : Frame} : ofFrame frame = (do
    let usage ← UsageTable.ofFrame frame
    let moves ← MoveTable.resolve usage.isTouched frame.moves
    let graph := PassGraph.ofHazards frame usage moves
    return ofOrder usage moves graph (← graph.order)) := by
  unfold ofFrame MoveTable.resolve
  simp only [bind_assoc, pure_bind]

namespace Frame

/-- One replacement: two moves that meet in a resource which no pass uses become one move. -/
inductive Skips (frame : Frame) : List Move → List Move → Prop
  | skip {before rest : List Move} {a b c : ResourceId} :
      before.Perm (⟨b, a⟩ :: ⟨c, b⟩ :: rest) → ¬ frame.Touched b →
      Skips frame before (⟨c, a⟩ :: rest)

/-- Where replacements lead to from the moves of the frame, in whatever order they are done. -/
def Rewrites (frame : Frame) (ms : List Move) : Prop :=
  Relation.ReflTransGen frame.Skips frame.moves ms

/-- Some pass uses each resource that two of the moves meet in. -/
def Pruned (frame : Frame) (ms : List Move) : Prop :=
  ∀ a b c, ⟨b, a⟩ ∈ ms → ⟨c, b⟩ ∈ ms → frame.Touched b

/-- The moves of a frame are pruned to those of a table. -/
structure PrunedTo (frame : Frame) (table : MoveTable) : Prop where
  /-- No way of replacing goes on for ever. -/
  terminates : WellFounded fun later earlier => frame.Skips earlier later
  /-- A way of replacing can go on unless the moves are pruned. -/
  stuck_iff : ∀ {ms}, frame.Rewrites ms → ((∀ ms', ¬ frame.Skips ms ms') ↔ frame.Pruned ms)
  /-- Whatever was replaced so far, the moves can be pruned. -/
  exists_pruned : ∀ {ms}, frame.Rewrites ms →
    ∃ ms', Relation.ReflTransGen frame.Skips ms ms' ∧ frame.Pruned ms'
  /-- Whatever was replaced, pruned moves are those of the table. -/
  mem_iff : ∀ {ms}, frame.Rewrites ms → frame.Pruned ms →
    ∀ {s d}, ⟨d, s⟩ ∈ ms ↔ table.forward.get? s = some d
  paired : table.Paired
  forward_injective : ∀ {s s' d}, table.forward.get? s = some d → table.forward.get? s' = some d →
    s = s'
  backward_injective : ∀ {d d' s}, table.backward.get? d = some s →
    table.backward.get? d' = some s → d = d'
  acyclic : ∀ r, ¬ table.OnCycle r
  inner_touched : ∀ {s r d}, table.forward.get? s = some r → table.forward.get? r = some d →
    frame.Touched r
  reachable : ∀ {s d}, table.forward.get? s = some d → Relation.TransGen frame.Moves s d

variable {frame : Frame} {s d : ResourceId}

/-! ### Carrying storage -/

theorem Carries.exists_last (h : frame.Carries s d) : ∃ r, frame.Moves r d := by
  induction h with
  | single hmove => exact ⟨_, hmove⟩
  | through _ _ _ ih => exact ih

theorem Carries.transGen (h : frame.Carries s d) : Relation.TransGen frame.Moves s d := by
  induction h with
  | single hmove => exact .single hmove
  | through hmove _ _ ih => exact .head hmove ih

/-! ### Frames with other moves -/

/-- The frame with other moves between its resources; it has the same passes, which use the same
resources. -/
def withMoves (frame : Frame) (ms : List Move) : Frame := { frame with moves := ms }

theorem moves_withMoves {ms : List Move} : (frame.withMoves ms).Moves s d ↔ ⟨d, s⟩ ∈ ms := Iff.rfl

/-- Once pruned, no move skips a resource any more. -/
theorem Pruned.survives_iff {ms : List Move} (h : frame.Pruned ms) :
    (frame.withMoves ms).Survives s d ↔ ⟨d, s⟩ ∈ ms := by
  constructor
  · intro hsurvives
    cases hsurvives.carries with
    | single hmove => exact hmove
    | through hmove hr hrest =>
        obtain ⟨x, hx⟩ := hrest.exists_move
        exact absurd (h _ _ _ hmove hx) hr
  · intro hmove
    have hsource : frame.Touched s ∨ ∀ r, ¬ (frame.withMoves ms).Moves r s := by
      by_cases hs : frame.Touched s
      · exact Or.inl hs
      · exact Or.inr fun r hr => hs (h _ _ _ hr hmove)
    have hdestination : frame.Touched d ∨ ∀ r, ¬ (frame.withMoves ms).Moves d r := by
      by_cases hd : frame.Touched d
      · exact Or.inl hd
      · exact Or.inr fun r hr => hd (h _ _ _ hmove hr)
    exact ⟨.single hmove, hsource, hdestination⟩

/-! ### One replacement -/

/-- The moves before a replacement, where sources and destinations differ: the two that are
replaced, and others that neither begin nor end where these two meet. -/
structure Meeting (before rest : List Move) (a b c : ResourceId) : Prop where
  mem_iff : ∀ m, m ∈ before ↔ m = ⟨b, a⟩ ∨ m = ⟨c, b⟩ ∨ m ∈ rest
  ne_start : b ≠ a
  ne_end : c ≠ b
  not_from : ∀ d, ⟨d, b⟩ ∉ rest
  not_into : ∀ s, ⟨b, s⟩ ∉ rest

theorem meeting_of_perm {before rest : List Move} {a b c : ResourceId}
    (hperm : before.Perm (⟨b, a⟩ :: ⟨c, b⟩ :: rest)) (hsrc : (before.map (·.src)).Nodup)
    (hdst : (before.map (·.dst)).Nodup) : Meeting before rest a b c := by
  rw [(hperm.map _).nodup_iff, List.map_cons, List.map_cons, List.nodup_cons,
    List.nodup_cons] at hsrc hdst
  obtain ⟨hsa, hsb, _⟩ := hsrc
  obtain ⟨hdb, _⟩ := hdst
  constructor
  case mem_iff =>
    intro m
    rw [hperm.mem_iff, List.mem_cons, List.mem_cons]
  case ne_start => exact fun h => hsa (h ▸ List.mem_cons_self)
  case ne_end => exact fun h => hdb (h ▸ List.mem_cons_self)
  case not_from => exact fun d hd => hsb (List.mem_map.mpr ⟨_, hd, rfl⟩)
  case not_into =>
    intro s hs
    exact hdb (List.mem_cons_of_mem _ (List.mem_map.mpr ⟨_, hs, rfl⟩))

namespace Meeting

variable {before rest : List Move} {a b c : ResourceId} (h : Meeting before rest a b c)

include h

/-- Whatever else storage is moved into, it still is. -/
theorem into_iff (hs : s ≠ b) :
    (∃ r, (frame.withMoves before).Moves r s) ↔
      ∃ r, (frame.withMoves (⟨c, a⟩ :: rest)).Moves r s := by
  simp only [moves_withMoves, h.mem_iff, List.mem_cons, Move.mk.injEq]
  constructor
  · rintro ⟨r, ⟨rfl, _⟩ | ⟨rfl, _⟩ | hr⟩
    · exact absurd rfl hs
    · exact ⟨a, Or.inl ⟨rfl, rfl⟩⟩
    · exact ⟨r, Or.inr hr⟩
  · rintro ⟨r, ⟨rfl, _⟩ | hr⟩
    · exact ⟨b, Or.inr (Or.inl ⟨rfl, rfl⟩)⟩
    · exact ⟨r, Or.inr (Or.inr hr)⟩

theorem from_iff (hd : d ≠ b) :
    (∃ r, (frame.withMoves before).Moves d r) ↔
      ∃ r, (frame.withMoves (⟨c, a⟩ :: rest)).Moves d r := by
  simp only [moves_withMoves, h.mem_iff, List.mem_cons, Move.mk.injEq]
  constructor
  · rintro ⟨r, ⟨_, rfl⟩ | ⟨_, rfl⟩ | hr⟩
    · exact ⟨c, Or.inl ⟨rfl, rfl⟩⟩
    · exact absurd rfl hd
    · exact ⟨r, Or.inr hr⟩
  · rintro ⟨r, ⟨_, rfl⟩ | hr⟩
    · exact ⟨b, Or.inl ⟨rfl, rfl⟩⟩
    · exact ⟨r, Or.inr (Or.inr hr)⟩

theorem source_iff (hs : s ≠ b) :
    (frame.Touched s ∨ ∀ r, ¬ (frame.withMoves before).Moves r s) ↔
      (frame.Touched s ∨ ∀ r, ¬ (frame.withMoves (⟨c, a⟩ :: rest)).Moves r s) := by
  rw [← not_exists, ← not_exists, h.into_iff hs]

theorem destination_iff (hd : d ≠ b) :
    (frame.Touched d ∨ ∀ r, ¬ (frame.withMoves before).Moves d r) ↔
      (frame.Touched d ∨ ∀ r, ¬ (frame.withMoves (⟨c, a⟩ :: rest)).Moves d r) := by
  rw [← not_exists, ← not_exists, h.from_iff hd]

/-- No storage comes by the resource that is skipped. -/
theorem ends_ne (hcarries : (frame.withMoves (⟨c, a⟩ :: rest)).Carries s d) : s ≠ b ∧ d ≠ b := by
  constructor
  · rintro rfl
    obtain ⟨r, hr⟩ := hcarries.exists_move
    rcases List.mem_cons.mp hr with heq | hr
    · exact h.ne_start (congrArg Move.src heq)
    · exact h.not_from r hr
  · rintro rfl
    obtain ⟨r, hr⟩ := hcarries.exists_last
    rcases List.mem_cons.mp hr with heq | hr
    · exact h.ne_end (congrArg Move.dst heq).symm
    · exact h.not_into r hr

theorem carries_before (hb : ¬ frame.Touched b)
    (hcarries : (frame.withMoves (⟨c, a⟩ :: rest)).Carries s d) :
    (frame.withMoves before).Carries s d := by
  have hmoves : ∀ {x y}, (frame.withMoves (⟨c, a⟩ :: rest)).Moves x y →
      (frame.withMoves before).Carries x y := by
    intro x y hxy
    rcases List.mem_cons.mp hxy with heq | hxy
    · cases heq
      exact .through ((h.mem_iff _).mpr (Or.inl rfl)) hb
        (.single ((h.mem_iff _).mpr (Or.inr (Or.inl rfl))))
    · exact .single ((h.mem_iff _).mpr (Or.inr (Or.inr hxy)))
  induction hcarries with
  | single hmove => exact hmoves hmove
  | through hmove hr _ ih => exact (hmoves hmove).join hr ih

/-- Storage that was carried on from the skipped resource now comes from the one before it. -/
theorem carries_after (hd : d ≠ b) (hcarries : (frame.withMoves before).Carries s d) :
    (s = b → (frame.withMoves (⟨c, a⟩ :: rest)).Carries a d) ∧
      (s ≠ b → (frame.withMoves (⟨c, a⟩ :: rest)).Carries s d) := by
  have hskip : (frame.withMoves (⟨c, a⟩ :: rest)).Moves a c := List.mem_cons_self
  induction hcarries with
  | single hmove =>
      rcases (h.mem_iff _).mp hmove with heq | heq | hmove
      · exact absurd (congrArg Move.dst heq) hd
      · cases heq
        exact ⟨fun _ => .single hskip, fun hs => absurd rfl hs⟩
      · exact ⟨fun hs => absurd (hs ▸ hmove) (h.not_from _),
          fun _ => .single (List.mem_cons_of_mem _ hmove)⟩
  | through hmove hr _ ih =>
      obtain ⟨hskipped, hkept⟩ := ih hd
      rcases (h.mem_iff _).mp hmove with heq | heq | hmove
      · cases heq
        exact ⟨fun hs => absurd hs.symm h.ne_start, fun _ => hskipped rfl⟩
      · cases heq
        exact ⟨fun _ => .through hskip hr (hkept h.ne_end), fun hs => absurd rfl hs⟩
      · have hrest := hkept fun hx => h.not_into _ (hx ▸ hmove)
        exact ⟨fun hs => absurd (hs ▸ hmove) (h.not_from _),
          fun _ => .through (List.mem_cons_of_mem _ hmove) hr hrest⟩

/-- **A replacement does not change which moves survive.** -/
theorem survives_iff (hb : ¬ frame.Touched b) :
    (frame.withMoves (⟨c, a⟩ :: rest)).Survives s d ↔ (frame.withMoves before).Survives s d := by
  constructor
  · intro hsurvives
    obtain ⟨hs, hd⟩ := h.ends_ne hsurvives.carries
    exact ⟨h.carries_before hb hsurvives.carries, (h.source_iff hs).mpr hsurvives.source,
      (h.destination_iff hd).mpr hsurvives.destination⟩
  · intro hsurvives
    -- The skipped resource is not used, and there are moves on either side of it.
    have hs : s ≠ b := by
      rintro rfl
      exact hsurvives.source.elim hb fun hnone => hnone a ((h.mem_iff _).mpr (Or.inl rfl))
    have hd : d ≠ b := by
      rintro rfl
      exact hsurvives.destination.elim hb fun hnone =>
        hnone c ((h.mem_iff _).mpr (Or.inr (Or.inl rfl)))
    exact ⟨(h.carries_after hd hsurvives.carries).2 hs, (h.source_iff hs).mp hsurvives.source,
      (h.destination_iff hd).mp hsurvives.destination⟩

end Meeting

/-! ### Any number of replacements -/

/-- What holds of the moves however many are replaced. -/
structure Reduced (frame : Frame) (ms : List Move) : Prop where
  src_nodup : (ms.map (·.src)).Nodup
  dst_nodup : (ms.map (·.dst)).Nodup
  reachable : ∀ {s d}, ⟨d, s⟩ ∈ ms → Relation.TransGen frame.Moves s d
  survives_iff : ∀ {s d}, (frame.withMoves ms).Survives s d ↔ frame.Survives s d

theorem Reduced.step {ms ms' : List Move} (h : frame.Reduced ms) (hskips : frame.Skips ms ms') :
    frame.Reduced ms' := by
  cases hskips with
  | @skip rest a b c hperm hb =>
      have hmeeting := meeting_of_perm hperm h.src_nodup h.dst_nodup
      have hsrc := (hperm.map _).nodup_iff.mp h.src_nodup
      have hdst := (hperm.map _).nodup_iff.mp h.dst_nodup
      constructor
      case src_nodup => exact hsrc.sublist ((List.sublist_cons_self _ _).cons_cons _)
      case dst_nodup => exact hdst.sublist (List.sublist_cons_self _ _)
      case reachable =>
        intro s d hmem
        rcases List.mem_cons.mp hmem with heq | hmem
        · cases heq
          exact (h.reachable ((hmeeting.mem_iff _).mpr (Or.inl rfl))).trans
            (h.reachable ((hmeeting.mem_iff _).mpr (Or.inr (Or.inl rfl))))
        · exact h.reachable ((hmeeting.mem_iff _).mpr (Or.inr (Or.inr hmem)))
      case survives_iff => exact (hmeeting.survives_iff hb).trans h.survives_iff

theorem reduced_of_rewrites {ms : List Move} (hapart : frame.MovesApart) (h : frame.Rewrites ms) :
    frame.Reduced ms := by
  induction h with
  | refl => exact ⟨hapart.src_nodup, hapart.dst_nodup, fun hmove => .single hmove, Iff.rfl⟩
  | tail _ hstep ih => exact ih.step hstep

/-- Two moves that meet are different if none leads back, so they can be replaced. -/
theorem Reduced.stuck_iff {ms : List Move} (h : frame.Reduced ms) (hacyclic : frame.MovesAcyclic) :
    (∀ ms', ¬ frame.Skips ms ms') ↔ frame.Pruned ms := by
  constructor
  · intro hstuck a b c hab hbc
    by_contra hb
    have hne : (⟨c, b⟩ : Move) ≠ ⟨b, a⟩ := by
      intro heq
      cases heq
      exact hacyclic _ (h.reachable hbc)
    have hfirst := List.perm_cons_erase hab
    have hsecond := List.perm_cons_erase ((List.mem_erase_of_ne hne).mpr hbc)
    exact hstuck _ (.skip (hfirst.trans (hsecond.cons _)) hb)
  · rintro hpruned _ ⟨hperm, hb⟩
    have hab := hperm.mem_iff.mpr List.mem_cons_self
    have hbc := hperm.mem_iff.mpr (List.mem_cons_of_mem _ List.mem_cons_self)
    exact hb (hpruned _ _ _ hab hbc)

theorem Skips.length_lt {ms ms' : List Move} (h : frame.Skips ms ms') : ms'.length < ms.length := by
  cases h with
  | skip hperm _ =>
      rw [hperm.length_eq]
      exact Nat.lt_succ_self _

/-- **Replacing ends**, as each replacement leaves fewer moves. -/
theorem wellFounded_skips : WellFounded fun later earlier => frame.Skips earlier later :=
  Subrelation.wf Skips.length_lt (measure List.length).wf

theorem exists_pruned {ms : List Move} (hacyclic : frame.MovesAcyclic) (h : frame.Reduced ms) :
    ∃ ms', Relation.ReflTransGen frame.Skips ms ms' ∧ frame.Pruned ms' := by
  have hends : WellFounded fun later earlier => frame.Skips earlier later := wellFounded_skips
  induction ms using hends.induction with
  | _ ms ih =>
      by_cases hpruned : frame.Pruned ms
      · exact ⟨ms, .refl, hpruned⟩
      · rw [← h.stuck_iff hacyclic] at hpruned
        push Not at hpruned
        obtain ⟨next, hnext⟩ := hpruned
        obtain ⟨ms', hrest, hpruned'⟩ := ih next hnext (h.step hnext)
        exact ⟨ms', .head hnext hrest, hpruned'⟩

/-! ### The table -/

/-- A table that holds the moves which survive is what any replacing ends with. -/
theorem prunedTo_of_survives {table : MoveTable} (hapart : frame.MovesApart)
    (hacyclic : frame.MovesAcyclic) (hpaired : table.Paired)
    (hforward : ∀ {s d}, table.forward.get? s = some d ↔ frame.Survives s d) :
    frame.PrunedTo table := by
  have hreach : ∀ {s d}, table.forward.get? s = some d → Relation.TransGen frame.Moves s d :=
    fun hsd => (hforward.mp hsd).carries.transGen
  constructor
  case terminates => exact wellFounded_skips
  case stuck_iff => exact fun h => (reduced_of_rewrites hapart h).stuck_iff hacyclic
  case exists_pruned => exact fun h => Frame.exists_pruned hacyclic (reduced_of_rewrites hapart h)
  case mem_iff =>
    intro ms h hpruned s d
    rw [hforward, ← (reduced_of_rewrites hapart h).survives_iff, hpruned.survives_iff]
  case paired => exact hpaired
  case forward_injective =>
    intro s s' d h h'
    rw [hpaired] at h h'
    exact Option.some.inj (h.symm.trans h')
  case backward_injective =>
    intro d d' s h h'
    rw [← hpaired] at h h'
    exact Option.some.inj (h.symm.trans h')
  case acyclic =>
    intro r hcycle
    exact hacyclic r (Relation.TransGen.closed (fun _ _ => hreach) r r hcycle)
  case inner_touched =>
    intro s r d hsr hrd
    obtain ⟨x, hx⟩ := (hforward.mp hsr).carries.exists_last
    exact (hforward.mp hrd).source.resolve_right fun hnone => hnone x hx
  case reachable => exact hreach

theorem resolve_ok {matters : ResourceId → Bool} (hapart : frame.MovesApart)
    (hacyclic : frame.MovesAcyclic) (hmatters : ∀ r, matters r ↔ frame.Touched r) :
    ∃ table, MoveTable.resolve matters frame.moves = .ok table ∧ table.Paired ∧
      ∀ {s d}, table.forward.get? s = some d ↔ frame.Survives s d := by
  obtain ⟨table, htable⟩ := MoveTable.ofMoves_ok hapart.src_nodup hapart.dst_nodup
  have hstraight : ∀ r, ¬ table.OnCycle r := fun r hr =>
    hacyclic r ((MoveTable.onCycle_iff htable).mp hr)
  rcases (MoveTable.paired_of_ofMoves htable).chains_cases with
    ⟨hchains, _⟩ | ⟨r, _, hcycle, _⟩
  · have hresolve : MoveTable.resolve matters frame.moves =
        .ok (.addCollapsed matters ∅ (table.starts.map table.chainFrom)) := by
      rw [MoveTable.resolve, htable]
      show (table.chains >>= fun chains => _) = _
      rw [hchains]
      rfl
    exact ⟨_, hresolve, (MoveTable.collapsed_of_chains matters htable hchains).paired,
      MoveTable.forward_iff_survives htable hstraight hmatters⟩
  · exact absurd hcycle (hstraight r)

/-- **Pruning is rewriting to the end.** When no moves of a frame lead back, some moves remain of
them, and they are those that any replacing ends with. A plan of the frame has these moves. -/
theorem moves_pruned {matters : ResourceId → Bool} (hdeclared : frame.Declared)
    (hacyclic : frame.MovesAcyclic) (hmatters : ∀ r, matters r ↔ frame.Touched r) :
    ∃ table, MoveTable.resolve matters frame.moves = .ok table ∧ frame.PrunedTo table ∧
      (∀ usage, UsageTable.ofFrame frame = .ok usage → usage.isTouched = matters) ∧
      ∀ plan, Plan.ofFrame frame = .ok plan → plan.moves = table := by
  have hapart := hdeclared.movesApart
  obtain ⟨table, htable, hpaired, hforward⟩ := resolve_ok hapart hacyclic hmatters
  have husage : ∀ usage, UsageTable.ofFrame frame = .ok usage → usage.isTouched = matters := by
    intro usage h
    have hdescribes := UsageTable.describes_of_ofFrame hdeclared.wellFormed.copy_balanced h
    funext r
    rw [Bool.eq_iff_iff, hmatters]
    exact hdescribes.isTouched_iff
  have hmoves : ∀ plan, Plan.ofFrame frame = .ok plan → plan.moves = table := by
    intro plan hplan
    rw [Plan.ofFrame_eq_resolve] at hplan
    obtain ⟨usage, hfound, hplan⟩ := except_bind_ok.mp hplan
    rw [husage usage hfound, htable] at hplan
    obtain ⟨_, heq, hplan⟩ := except_bind_ok.mp hplan
    cases heq
    obtain ⟨order, _, hplan⟩ := except_bind_ok.mp hplan
    cases hplan
    rfl
  exact ⟨table, htable, prunedTo_of_survives hapart hacyclic hpaired hforward, husage, hmoves⟩

/-- A sketch is drawn and passed on over a layer to a sheet, which is inked and passed on over a
proof to a print. -/
def print : Frame := .ofDeclarations "print"
  [.resource "sketch", .resource "layer", .resource "sheet", .resource "proof", .resource "print",
    .pass ⟨.general, "draw", [], [⟨0⟩]⟩, .pass ⟨.general, "ink", [⟨2⟩], []⟩,
    .move ⟨⟨1⟩, ⟨0⟩⟩, .move ⟨⟨2⟩, ⟨1⟩⟩, .move ⟨⟨3⟩, ⟨2⟩⟩, .move ⟨⟨4⟩, ⟨3⟩⟩]

/-- The layer and the proof are skipped; the sheet is used and the print is an end, so both stay. -/
theorem moves_pruned_print : ∃ usage table, UsageTable.ofFrame print = .ok usage ∧
    MoveTable.resolve usage.isTouched print.moves = .ok table ∧ print.PrunedTo table ∧
      table.forward.get? ⟨0⟩ = some ⟨2⟩ ∧ table.forward.get? ⟨2⟩ = some ⟨4⟩ := by
  have hdeclared : print.Declared := ⟨_, _, rfl⟩
  obtain ⟨plan, hplan⟩ : ∃ plan, Plan.ofFrame print = .ok plan := ⟨_, rfl⟩
  obtain ⟨usage, husage⟩ : ∃ usage, UsageTable.ofFrame print = .ok usage := ⟨_, rfl⟩
  have hacyclic : print.MovesAcyclic := by
    have hverdict := Plan.verdict_ofFrame hdeclared
    rw [hplan] at hverdict
    cases hverdict with
    | ok hplannable => exact hplannable.moves_acyclic
  have hdescribes := UsageTable.describes_of_ofFrame hdeclared.wellFormed.copy_balanced husage
  obtain ⟨table, htable, hpruned, _, hmoves⟩ :=
    moves_pruned hdeclared hacyclic fun r => hdescribes.isTouched_iff (r := r)
  have hvalues : (Plan.ofFrame print).toOption.map (fun plan =>
      (plan.moves.forward.get? ⟨0⟩, plan.moves.forward.get? ⟨2⟩)) = some (some ⟨2⟩, some ⟨4⟩) := by
    decide
  rw [hplan] at hvalues
  cases hmoves plan hplan
  obtain ⟨hsketch, hsheet⟩ := Prod.mk.inj (Option.some.inj hvalues)
  exact ⟨usage, _, husage, htable, hpruned, hsketch, hsheet⟩

end Frame

end FramePlan
