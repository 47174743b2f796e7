import FramePlan.Proofs.Plan.Basic
import FramePlan.Proofs.Workspace.Span
import Mathlib.Logic.Function.Basic

/-!
# Events placed in place

The last phase goes by the resources in ascending order and puts the events of each at the end of
the agendas of their slots: in the prologue, or with the pass at a position of the order. What the
agendas hold is one agenda for each slot, whichever list it is kept in, so placing a resource is
changing at most two of these, and no slot that is named is out of range.

* `Workspace.place_eq` — placing a resource adds its placement to the agendas.
* `Workspace.placeAll_eq` — at the end, each slot has the events that the plan has there.
-/

namespace FramePlan

namespace Agenda

variable {agenda : Agenda} {slot : Slot} {r : ResourceId} {placement : Placement}
  {agendas : Slot → Agenda}

/-- The agenda of a slot with what the placement of a resource puts there. -/
def take (slot : Slot) (agenda : Agenda) (r : ResourceId) (placement : Placement) : Agenda where
  constructs := agenda.constructs ++ if placement.construct = some slot then [r] else []
  moves := agenda.moves ++ ((Events.moveIn? slot r placement).map (·.src)).toList
  destructs := agenda.destructs ++ if placement.exit = some (slot, .destruct) then [r] else []

/-- Taking one placement after another is gathering the events of the slot. -/
theorem foldl_take {entries : List (ResourceId × Placement)} :
    entries.foldl (fun a e => a.take slot e.1 e.2) agenda =
      ⟨agenda.constructs ++ (entries.filter fun e => e.2.construct = some slot).map (·.1),
        agenda.moves ++ (entries.filterMap fun e => Events.moveIn? slot e.1 e.2).map (·.src),
        agenda.destructs ++
          (entries.filter fun e => e.2.exit = some (slot, .destruct)).map (·.1)⟩ := by
  induction entries generalizing agenda with
  | nil => simp
  | cons e entries ih =>
      rw [List.foldl_cons, ih]
      simp only [take, List.filter_cons, List.filterMap_cons, List.append_assoc, decide_eq_true_eq,
        mk.injEq, List.append_cancel_left_eq]
      refine ⟨?_, ?_, ?_⟩
      · split <;> rfl
      · cases Events.moveIn? slot e.1 e.2 <;> rfl
      · split <;> rfl

theorem foldl_take_blank {placements : IdMap .resource Placement} :
    placements.entries.foldl (fun a e => a.take slot e.1 e.2) blank =
      .ofEvents (.inSlot placements slot) :=
  foldl_take

/-- The agendas, of which one is changed. -/
def changeAt (slot : Slot) (change : Agenda → Agenda) (agendas : Slot → Agenda) : Slot → Agenda :=
  Function.update agendas slot (change (agendas slot))

theorem changeAt_self {change : Agenda → Agenda} :
    changeAt slot change agendas slot = change (agendas slot) := Function.update_self ..

theorem changeAt_of_ne {change : Agenda → Agenda} {other : Slot} (h : slot ≠ other) :
    changeAt other change agendas slot = agendas slot := Function.update_of_ne h ..

/-- The agendas with the construct of a resource, if it has one. -/
def putConstruct (r : ResourceId) (placement : Placement) (agendas : Slot → Agenda) :
    Slot → Agenda :=
  match placement.construct with
  | some slot => changeAt slot (addConstruct r) agendas
  | none => agendas

/-- The agenda with the move or the destruct of a resource. -/
def addExit (r : ResourceId) : Exit → Agenda → Agenda
  | .moveTo _ => addMove r
  | .destruct => addDestruct r

/-- The agendas with the move or the destruct of a resource, if it has one. -/
def putExit (r : ResourceId) (placement : Placement) (agendas : Slot → Agenda) : Slot → Agenda :=
  match placement.exit with
  | some (slot, exit) => changeAt slot (addExit r exit) agendas
  | none => agendas

theorem putConstruct_apply : putConstruct r placement agendas slot =
    { agendas slot with
      constructs := (agendas slot).constructs ++
        if placement.construct = some slot then [r] else [] } := by
  unfold putConstruct
  cases hconstruct : placement.construct with
  | none => simp
  | some other =>
      by_cases h : slot = other
      · subst h
        simp [changeAt_self, addConstruct]
      · simp [changeAt_of_ne h, Ne.symm h]

theorem putExit_apply : putExit r placement agendas slot =
    { agendas slot with
      moves := (agendas slot).moves ++ ((Events.moveIn? slot r placement).map (·.src)).toList
      destructs := (agendas slot).destructs ++
        if placement.exit = some (slot, .destruct) then [r] else [] } := by
  unfold putExit Events.moveIn?
  rcases hexit : placement.exit with _ | ⟨other, _ | _⟩
  · simp
  · by_cases h : slot = other
    · subst h
      simp [changeAt_self, addExit, addMove]
    · simp [changeAt_of_ne h, Ne.symm h]
  · by_cases h : slot = other
    · subst h
      simp [changeAt_self, addExit, addDestruct]
    · simp [changeAt_of_ne h, Ne.symm h]

/-- The agendas with the events of a resource. -/
def put (r : ResourceId) (placement : Placement) (agendas : Slot → Agenda) : Slot → Agenda :=
  putExit r placement (putConstruct r placement agendas)

theorem put_apply : put r placement agendas slot = (agendas slot).take slot r placement := by
  rw [put, putExit_apply, putConstruct_apply]
  rfl

end Agenda

namespace Workspace

variable {plan : Plan} {frame : Frame} {agendas : Slot → Agenda} {slot : Slot} {r : ResourceId}

/-- The workspace of a plan, with events of its own. -/
def withEvents (plan : Plan) (agendas : Slot → Agenda) : Workspace :=
  { ofPlan plan with
    agendas := (NodeId.firstN .pass plan.passCount).map fun p =>
      agendas (.pass (plan.order.idxOf p))
    prologue := agendas .prologue }

/-- The slot is the prologue, or some pass is at its position. -/
def SlotOf (plan : Plan) : Slot → Prop
  | .prologue => True
  | .pass k => k < plan.order.length

/-- The agenda of a pass is that of its position. -/
theorem getElem?_agendas (hf : plan.Fits frame) {p : PassId} :
    (withEvents plan agendas).agendas[p.index]? =
      if p ∈ plan.order then some (agendas (.pass (plan.order.idxOf p))) else none := by
  unfold withEvents
  rw [List.getElem?_map, NodeId.getElem?_firstN]
  simp only [hf.index_lt_iff]
  split <;> rfl

/-- Setting the agenda of a pass is changing that of its position, and of no other. -/
theorem set_agendas (hf : plan.Fits frame) {p : PassId} (hp : p ∈ plan.order) (agenda : Agenda) :
    (withEvents plan agendas).agendas.set p.index agenda =
      (withEvents plan (Function.update agendas (.pass (plan.order.idxOf p)) agenda)).agendas := by
  refine List.ext_getElem? fun i => ?_
  have hget : ∀ agendas, (withEvents plan agendas).agendas[i]? = if ⟨i⟩ ∈ plan.order then
      some (agendas (.pass (plan.order.idxOf ⟨i⟩))) else none := fun _ => getElem?_agendas hf
  have hlength : (withEvents plan agendas).agendas.length = plan.passCount := by
    simp [withEvents, NodeId.firstN]
  rw [List.getElem?_set, hget, hget, hlength]
  by_cases hi : p.index = i
  · subst hi
    rw [if_pos rfl, if_pos (hf.index_lt_iff.mpr hp), if_pos hp, Function.update_self]
  · rw [if_neg hi]
    by_cases hin : (⟨i⟩ : PassId) ∈ plan.order
    · have hne : Slot.pass (plan.order.idxOf ⟨i⟩) ≠ .pass (plan.order.idxOf p) := fun heq =>
        hi (congrArg NodeId.index ((List.idxOf_inj hin).mp (Slot.pass.inj heq)).symm)
      rw [Function.update_of_ne hne]
    · rw [if_neg hin, if_neg hin]

theorem changeAgenda_pass (hf : plan.Fits frame) {k : Nat} (hk : k < plan.order.length)
    {change : Agenda → Agenda} : changeAgenda (.pass k) change (withEvents plan agendas) =
      .ok () (withEvents plan (Agenda.changeAt (.pass k) change agendas)) := by
  have hp : plan.order[k]? = some plan.order[k] := List.getElem?_eq_getElem hk
  have hmem : plan.order[k] ∈ plan.order := List.getElem_mem hk
  have hidx : plan.order.idxOf plan.order[k] = k := hf.order_nodup.idxOf_getElem k hk
  have hagenda : (withEvents plan agendas).agendas[plan.order[k].index]? =
      some (agendas (.pass k)) := by
    rw [getElem?_agendas hf, if_pos hmem, hidx]
  have hset : (withEvents plan agendas).agendas.set plan.order[k].index _ = _ :=
    set_agendas hf hmem (change (agendas (.pass k)))
  rw [hidx] at hset
  refine (bind_of_ok (entryAt_of_get hp)).trans ((bind_of_ok (entryAt_of_get hagenda)).trans ?_)
  exact congrArg (fun lists => EStateM.Result.ok ()
    { withEvents plan agendas with agendas := lists }) hset

/-- One agenda is changed, whichever list it is kept in. -/
theorem changeAgenda_eq (hf : plan.Fits frame) (hslot : SlotOf plan slot)
    (change : Agenda → Agenda) : changeAgenda slot change (withEvents plan agendas) =
      .ok () (withEvents plan (Agenda.changeAt slot change agendas)) := by
  cases slot with
  | prologue =>
      have hother : ∀ k, Agenda.changeAt .prologue change agendas (.pass k) = agendas (.pass k) :=
        fun k => Agenda.changeAt_of_ne (by simp)
      unfold withEvents
      simp only [hother, Agenda.changeAt_self]
      rfl
  | pass k => exact changeAgenda_pass hf hslot

/-! ### One resource after another -/

theorem record_withEvents (hf : plan.Fits frame) :
    ((withEvents plan agendas).record r).first = (plan.spans.get? r).map (·.first) ∧
      ((withEvents plan agendas).record r).last = (plan.spans.get? r).map (·.last) := by
  unfold record withEvents ofPlan IdMap.getD
  rw [IdMap.get?_map]
  cases hget : plan.usage.uses.get? r with
  | some u => exact ⟨rfl, rfl⟩
  | none =>
      have hspan : plan.spans.get? r = none := by
        rw [hf.spans, Span.table, IdMap.get?_filterMap, hget]
        rfl
      rw [hspan]
      exact ⟨rfl, rfl⟩

/-- A resource is constructed in one slot, unless it has a source, and gives up its storage in
another. -/
theorem place_pair (hf : plan.Fits frame) {slot' : Slot} (source : Option ResourceId) (exit : Exit)
    (hslot : SlotOf plan slot) (hslot' : SlotOf plan slot') :
    (placeConstruct slot source r >>= fun _ => changeAgenda slot' (Agenda.addExit r exit))
      (withEvents plan agendas) = .ok () (withEvents plan (Agenda.put r
        ⟨if source.isSome then none else some slot, some (slot', exit)⟩ agendas)) := by
  cases source with
  | none => exact (bind_of_ok (changeAgenda_eq hf hslot _)).trans (changeAgenda_eq hf hslot' _)
  | some src => exact changeAgenda_eq hf hslot' _

theorem slotOf_span (hf : plan.Fits frame) {span : Span} (h : plan.spans.get? r = some span) :
    SlotOf plan (.pass span.first) ∧ SlotOf plan (.pass span.last) := by
  obtain ⟨⟨p, hp, hfirst⟩, -⟩ := hf.first_spec h
  obtain ⟨⟨q, hq, hlast⟩, -⟩ := hf.last_spec h
  constructor
  · rw [SlotOf, ← hfirst]
    exact List.idxOf_lt_length_of_mem (hf.mem_order_of_touches hp)
  · rw [SlotOf, ← hlast]
    exact List.idxOf_lt_length_of_mem (hf.mem_order_of_touches hq)

theorem slotOf_lastSlot (hf : plan.Fits frame) : SlotOf plan (Placement.lastSlot plan.spans r) := by
  unfold Placement.lastSlot
  cases hspan : plan.spans.get? r with
  | none => trivial
  | some span => exact (slotOf_span hf hspan).2

/-- **Placing a resource adds its placement to the agendas.** -/
theorem place_eq (hf : plan.Fits frame) : place r (withEvents plan agendas) =
    .ok () (withEvents plan
      (Agenda.put r (.ofResource plan.spans plan.moves r) agendas)) := by
  have hrecord : ∀ r, ((withEvents plan agendas).record r).first =
      (plan.spans.get? r).map (·.first) ∧ ((withEvents plan agendas).record r).last =
        (plan.spans.get? r).map (·.last) := fun _ => record_withEvents hf
  obtain ⟨hfirst, hlast⟩ := hrecord r
  have hback : (withEvents plan agendas).moves.backward.get? r = plan.moves.backward.get? r := rfl
  have hforth : (withEvents plan agendas).moves.forward.contains r =
      (plan.moves.forward.get? r).isSome := rfl
  have hsource := fun src => (hrecord src).2
  unfold place Placement.ofResource
  rw [get_bind]
  simp only [hfirst, hlast, hback, hforth, hsource]
  cases hspan : plan.spans.get? r with
  | some span =>
      obtain ⟨hslot, hslot'⟩ := slotOf_span hf hspan
      cases plan.moves.forward.get? r with
      | some dst => exact place_pair hf _ (.moveTo dst) hslot hslot'
      | none => exact place_pair hf _ .destruct hslot hslot'
  | none =>
      have hprologue : SlotOf plan .prologue := trivial
      cases plan.moves.forward.get? r with
      | some dst => exact place_pair hf _ (.moveTo dst) hprologue hprologue
      | none =>
          cases plan.moves.backward.get? r with
          | none => rfl
          | some src =>
              show changeAgenda
                (((plan.spans.get? src).map (·.last)).map Slot.pass |>.getD .prologue)
                (.addDestruct r) _ = _
              rw [Option.map_map]
              exact changeAgenda_eq hf (slotOf_lastSlot hf) (.addDestruct r)

/-- The agendas with the events of the resources that the plan refers to. -/
def putAll (plan : Plan) (agendas : Slot → Agenda) : Slot → Agenda :=
  plan.usage.uses.keys.toList.foldl
    (fun agendas r => Agenda.put r (.ofResource plan.spans plan.moves r) agendas) agendas

theorem putAll_blank : putAll plan (fun _ => .blank) = fun slot =>
    .ofEvents (.inSlot plan.placements slot) := by
  have happly : ∀ (rs : List ResourceId) (agendas : Slot → Agenda) (slot : Slot),
      rs.foldl (fun a r => Agenda.put r (.ofResource plan.spans plan.moves r) a) agendas slot =
        rs.foldl (fun a r => a.take slot r (.ofResource plan.spans plan.moves r))
          (agendas slot) := by
    intro rs
    induction rs with
    | nil => exact fun _ _ => rfl
    | cons r rs ih =>
        intro agendas slot
        rw [List.foldl_cons, List.foldl_cons, ih, Agenda.put_apply]
  funext slot
  rw [← Agenda.foldl_take_blank, putAll, happly]
  unfold Plan.placements IdMap.map IdMap.keys
  rw [List.foldl_map, List.foldl_map]

/-- The events of a plan are those that it distributes. -/
theorem withEvents_inSlot (hf : plan.Fits frame) :
    withEvents plan (fun slot => .ofEvents (.inSlot plan.placements slot)) = ofPlan plan := by
  have hagendas : (NodeId.firstN .pass plan.passCount).map (fun p =>
      Agenda.ofEvents (.inSlot plan.placements (.pass (plan.order.idxOf p)))) =
        (NodeId.firstN .pass plan.passCount).map fun p =>
          ((plan.events? p).map Agenda.ofEvents).getD .blank := by
    refine List.map_congr_left fun p hp => ?_
    rw [hf.events?_eq (hf.index_lt_iff.mp (NodeId.mem_firstN.mp hp))]
    rfl
  have hprologue : Agenda.ofEvents (.inSlot plan.placements .prologue) = .ofEvents plan.prologue :=
    congrArg Agenda.ofEvents hf.prologue.symm
  simp only [withEvents, hagendas, hprologue]
  rfl

/-- **At the end, each slot has the events that the plan has there.** -/
theorem placeAll_eq (hf : plan.Fits frame) :
    plan.usage.uses.keys.toList.forM place (withEvents plan fun _ => .blank) =
      .ok () (ofPlan plan) := by
  rw [← withEvents_inSlot hf, ← putAll_blank]
  exact forM_of_round (withEvents plan)
    (fun agendas r => Agenda.put r (.ofResource plan.spans plan.moves r) agendas)
    fun _ _ _ => place_eq hf

end Workspace

end FramePlan
