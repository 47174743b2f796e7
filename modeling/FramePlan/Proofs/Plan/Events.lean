import FramePlan.Proofs.Plan.Script
import Mathlib.Data.List.Nodup

/-!
# Every resource comes and goes once

The events of a plan are spread over its slots: the prologue, and one slot around each pass. A
resource that some pass touches, or that a surviving move begins or ends with, comes to its storage
once and gives it up once in all slots together; any other resource has no event at all.

* `Plan.entriesOf`, `Plan.exitsOf` — how a resource comes to its storage and how it gives it up,
  each time that it does, over all slots.
* `Plan.Fits.entriesOf_eq`, `Plan.Fits.exitsOf_eq` — they are what the placement of the resource
  says.
* `Plan.events_exact` — where the one entry and the one exit are.
-/

namespace FramePlan

/-- How a resource comes to its storage. -/
inductive Entry where
  /-- The storage is new, or was released before. -/
  | construct
  /-- The storage is handed over by another resource. -/
  | moveFrom (src : ResourceId)
deriving DecidableEq

/-- A list without duplicates whose members are told by an option. -/
theorem eq_toList_of_mem_iff {α : Type} {l : List α} {o : Option α} (hnodup : l.Nodup)
    (hmem : ∀ a, a ∈ l ↔ o = some a) : l = o.toList := by
  have htold : o.toList.Nodup := by cases o <;> simp
  have hsame : l.Perm o.toList := by
    rw [List.perm_ext_iff_of_nodup hnodup htold]
    intro a
    rw [hmem, Option.mem_toList]
  cases o with
  | none => exact hsame.eq_nil
  | some a => exact List.perm_singleton.mp hsame

/-- A list without duplicates, of one value at most once and of others that are told apart. -/
theorem nodup_replicate_append_map {α : Type} {ms : List Move} {f : Move → α} {a : α} {n : Nat}
    (hn : n ≤ 1) (hms : ms.Nodup) (hf : ∀ m ∈ ms, ∀ m' ∈ ms, f m = f m' → m = m')
    (ha : ∀ m, f m ≠ a) : (List.replicate n a ++ ms.map f).Nodup := by
  have hapart : ∀ x ∈ List.replicate n a, ∀ y ∈ ms.map f, x ≠ y := by
    rintro x hx y hy rfl
    obtain ⟨_, rfl⟩ := List.mem_replicate.mp hx
    obtain ⟨m, _, hm⟩ := List.mem_map.mp hy
    exact ha m hm
  exact List.nodup_append.mpr ⟨List.nodup_replicate.mpr hn, hms.map_on hf, hapart⟩

namespace Events

/-- How a resource comes to its storage among the events, each time that it does. -/
def entriesOf (events : Events) (r : ResourceId) : List Entry :=
  List.replicate (events.constructs.count r) .construct ++
    (events.moves.filter fun m => m.dst = r).map fun m => .moveFrom m.src

/-- How a resource gives its storage up among the events, each time that it does. -/
def exitsOf (events : Events) (r : ResourceId) : List Exit :=
  (events.moves.filter fun m => m.src = r).map (fun m => .moveTo m.dst) ++
    List.replicate (events.destructs.count r) .destruct

/-- Each list of events ascends strictly, so none has duplicates. -/
structure Ascending (events : Events) : Prop where
  constructs : events.constructs.Pairwise (·.index < ·.index)
  moves : events.moves.Pairwise (·.src.index < ·.src.index)
  destructs : events.destructs.Pairwise (·.index < ·.index)

variable {events : Events} {placements : IdMap .resource Placement} {slot : Slot}
  {r s d : ResourceId}

theorem construct_mem_entriesOf : .construct ∈ events.entriesOf r ↔ r ∈ events.constructs := by
  rw [entriesOf, List.mem_append, List.mem_replicate, ← Nat.pos_iff_ne_zero, List.count_pos_iff]
  simp

theorem moveFrom_mem_entriesOf : .moveFrom s ∈ events.entriesOf r ↔ ⟨r, s⟩ ∈ events.moves := by
  simp only [entriesOf, List.mem_append, List.mem_replicate, reduceCtorEq, and_false, false_or,
    List.mem_map, List.mem_filter, decide_eq_true_eq, Entry.moveFrom.injEq]
  constructor
  · rintro ⟨m, ⟨hm, rfl⟩, rfl⟩
    exact hm
  · intro hm
    exact ⟨_, ⟨hm, rfl⟩, rfl⟩

theorem moveTo_mem_exitsOf : .moveTo d ∈ events.exitsOf r ↔ ⟨d, r⟩ ∈ events.moves := by
  simp only [exitsOf, List.mem_append, List.mem_replicate, reduceCtorEq, and_false, or_false,
    List.mem_map, List.mem_filter, decide_eq_true_eq, Exit.moveTo.injEq]
  constructor
  · rintro ⟨m, ⟨hm, rfl⟩, rfl⟩
    exact hm
  · intro hm
    exact ⟨_, ⟨hm, rfl⟩, rfl⟩

theorem destruct_mem_exitsOf : .destruct ∈ events.exitsOf r ↔ r ∈ events.destructs := by
  rw [exitsOf, List.mem_append, List.mem_replicate, ← Nat.pos_iff_ne_zero, List.count_pos_iff]
  simp

/-- What the placement of a resource says of its exit. -/
theorem mem_exitsOf_inSlot {e : Exit} : e ∈ (inSlot placements slot).exitsOf r ↔
    ∃ placement, placements.get? r = some placement ∧ placement.exit = some (slot, e) := by
  cases e with
  | moveTo d => rw [moveTo_mem_exitsOf, mem_moves]
  | destruct => rw [destruct_mem_exitsOf, mem_destructs]

theorem ascending_inSlot : (inSlot placements slot).Ascending :=
  ⟨ascending_constructs, ascending_moves, ascending_destructs⟩

theorem nodup_entriesOf_inSlot : ((inSlot placements slot).entriesOf r).Nodup := by
  apply nodup_replicate_append_map (List.nodup_iff_count_le_one.mp nodup_constructs r)
    (nodup_moves.filter _)
  · rintro ⟨d, s⟩ hm ⟨d', s'⟩ hm' heq
    have hd := (List.mem_filter.mp hm).2
    have hd' := (List.mem_filter.mp hm').2
    simp only [decide_eq_true_eq, Entry.moveFrom.injEq] at hd hd' heq
    rw [hd, hd', heq]
  · exact fun _ h => Entry.noConfusion h

theorem nodup_exitsOf_inSlot : ((inSlot placements slot).exitsOf r).Nodup := by
  rw [exitsOf, List.perm_append_comm.nodup_iff]
  apply nodup_replicate_append_map (List.nodup_iff_count_le_one.mp nodup_destructs r)
    (nodup_moves.filter _)
  · rintro ⟨d, s⟩ hm ⟨d', s'⟩ hm' heq
    have hs := (List.mem_filter.mp hm).2
    have hs' := (List.mem_filter.mp hm').2
    simp only [decide_eq_true_eq, Exit.moveTo.injEq] at hs hs' heq
    rw [hs, hs', heq]
  · exact fun _ h => Exit.noConfusion h

end Events

namespace Plan

/-- The slots of a plan, each with its events. -/
def slots (plan : Plan) : List (Slot × Events) :=
  (.prologue, plan.prologue) :: plan.schedule.zipIdx.map fun (s, k) => (.pass k, s.events)

/-- A part of the events of all slots, each time with the slot. -/
def gather {α : Type} (plan : Plan) (part : Events → List α) : List (Slot × α) :=
  plan.slots.flatMap fun (slot, events) => (part events).map fun a => (slot, a)

/-- How a resource comes to its storage, each time that it does, with the slot. -/
def entriesOf (plan : Plan) (r : ResourceId) : List (Slot × Entry) := plan.gather (·.entriesOf r)

/-- How a resource gives its storage up, each time that it does, with the slot. -/
def exitsOf (plan : Plan) (r : ResourceId) : List (Slot × Exit) := plan.gather (·.exitsOf r)

/-- The pass at the position touches the resource, and none before it does. -/
structure FirstUse (plan : Plan) (frame : Frame) (r : ResourceId) (k : Nat) : Prop where
  touches : ∃ p, plan.order[k]? = some p ∧ frame.Touches p r
  least : ∀ j p, plan.order[j]? = some p → frame.Touches p r → k ≤ j

/-- The pass at the position touches the resource, and none after it does. -/
structure LastUse (plan : Plan) (frame : Frame) (r : ResourceId) (k : Nat) : Prop where
  touches : ∃ p, plan.order[k]? = some p ∧ frame.Touches p r
  greatest : ∀ j p, plan.order[j]? = some p → frame.Touches p r → j ≤ k

/-- Some pass touches the resource, or a surviving move begins or ends with it. -/
def Involves (plan : Plan) (frame : Frame) (r : ResourceId) : Prop :=
  frame.Touched r ∨ (∃ d, plan.moves.forward.get? r = some d) ∨
    ∃ s, plan.moves.backward.get? r = some s

/-- The events of a resource over all slots of a plan. -/
structure PlacedOnce (plan : Plan) (frame : Frame) (r : ResourceId) : Prop where
  idle : ¬ plan.Involves frame r → plan.entriesOf r = [] ∧ plan.exitsOf r = []
  /-- It is constructed once if nothing is moved into it, and else moved into once. -/
  entry : plan.Involves frame r → ∃ slot,
    plan.moves.backward.get? r = none ∧ plan.entriesOf r = [(slot, .construct)] ∨
      ∃ s, plan.moves.backward.get? r = some s ∧ plan.entriesOf r = [(slot, .moveFrom s)]
  /-- It is destructed once if it is not moved, and else moved once. -/
  exit : plan.Involves frame r → ∃ slot,
    plan.moves.forward.get? r = none ∧ plan.exitsOf r = [(slot, .destruct)] ∨
      ∃ d, plan.moves.forward.get? r = some d ∧ plan.exitsOf r = [(slot, .moveTo d)]
  construct_slot : frame.Touched r → ∀ slot, (slot, .construct) ∈ plan.entriesOf r →
    ∃ k, slot = .pass k ∧ plan.FirstUse frame r k
  exit_slot : frame.Touched r → ∀ slot e, (slot, e) ∈ plan.exitsOf r →
    ∃ k, slot = .pass k ∧ plan.LastUse frame r k
  untouched_source : ¬ frame.Touched r → ∀ d, plan.moves.forward.get? r = some d →
    plan.entriesOf r = [(.prologue, .construct)] ∧ plan.exitsOf r = [(.prologue, .moveTo d)]
  untouched_destination : ¬ frame.Touched r → ∀ s, plan.moves.backward.get? r = some s →
    ∃ slot, plan.exitsOf s = [(slot, .moveTo r)] ∧ plan.exitsOf r = [(slot, .destruct)]

namespace Fits

variable {plan : Plan} {frame : Frame} {r s d : ResourceId} {slot : Slot}

/-! ### Slots -/

/-- The slot comes before all passes, or around one of them. -/
def HasSlot (plan : Plan) : Slot → Prop
  | .prologue => True
  | .pass k => k < plan.order.length

theorem nodup_slots (plan : Plan) : (plan.slots.map (·.1)).Nodup := by
  have hslots : plan.slots.map (·.1) =
      .prologue :: (List.range' 0 plan.schedule.length).map .pass := by
    rw [← List.zipIdx_map_snd, List.map_map, slots, List.map_cons, List.map_map]
    rfl
  rw [hslots, List.nodup_cons]
  exact ⟨by simp, List.Nodup.map (fun _ _ => Slot.pass.inj) List.nodup_range'⟩

theorem mem_slots (h : plan.Fits frame) {events : Events} :
    (slot, events) ∈ plan.slots ↔ HasSlot plan slot ∧ events = .inSlot plan.placements slot := by
  unfold slots
  rw [List.mem_cons, List.mem_map]
  cases slot with
  | prologue => simp [HasSlot, h.prologue]
  | pass k =>
      simp only [Prod.mk.injEq, reduceCtorEq, false_and, false_or, HasSlot, Slot.pass.injEq]
      constructor
      · rintro ⟨⟨s, j⟩, hmem, rfl, rfl⟩
        have hs := List.mem_zipIdx_iff_getElem?.mp hmem
        simp only [h.schedule, List.getElem?_map, List.getElem?_zipIdx, Nat.zero_add,
          Option.map_map, Option.map_eq_some_iff, Function.comp_apply] at hs
        obtain ⟨p, hp, rfl⟩ := hs
        exact ⟨(List.getElem?_eq_some_iff.mp hp).1, rfl⟩
      · rintro ⟨hk, rfl⟩
        have hslot : plan.schedule[k]? = some ⟨plan.order[k], plan.eventsAt k⟩ := by
          simp [h.schedule, hk]
        exact ⟨(_, k), List.mem_zipIdx_iff_getElem?.mpr hslot, rfl, rfl⟩

section Gather

variable {α : Type} {part : Events → List α} {a : α}

theorem mem_gather (h : plan.Fits frame) : (slot, a) ∈ plan.gather part ↔
    HasSlot plan slot ∧ a ∈ part (.inSlot plan.placements slot) := by
  unfold gather
  rw [List.mem_flatMap]
  constructor
  · rintro ⟨⟨slot', events⟩, hslot, hmem⟩
    obtain ⟨a', ha, heq⟩ := List.mem_map.mp hmem
    cases heq
    obtain ⟨hhas, rfl⟩ := h.mem_slots.mp hslot
    exact ⟨hhas, ha⟩
  · rintro ⟨hhas, ha⟩
    exact ⟨_, h.mem_slots.mpr ⟨hhas, rfl⟩, List.mem_map.mpr ⟨a, ha, rfl⟩⟩

/-- What comes at most once in each slot comes at most once with a slot. -/
theorem nodup_gather (h : plan.Fits frame)
    (hpart : ∀ slot, (part (.inSlot plan.placements slot)).Nodup) : (plan.gather part).Nodup := by
  unfold gather
  rw [List.nodup_flatMap]
  constructor
  · rintro ⟨slot, events⟩ hmem
    obtain ⟨_, rfl⟩ := h.mem_slots.mp hmem
    exact (hpart slot).map fun _ _ heq => congrArg Prod.snd heq
  · apply (List.pairwise_map.mp (nodup_slots plan)).imp
    rintro ⟨_, _⟩ ⟨_, _⟩ hne ⟨slot, a⟩ ha ha'
    obtain ⟨_, _, heq⟩ := List.mem_map.mp ha
    obtain ⟨_, _, heq'⟩ := List.mem_map.mp ha'
    exact hne ((congrArg Prod.fst heq).trans (congrArg Prod.fst heq').symm)

end Gather

/-! ### Entries and exits -/

theorem hasSlot_lastSlot (h : plan.Fits frame) :
    HasSlot plan (Placement.lastSlot plan.spans r) := by
  unfold Placement.lastSlot
  cases hspan : plan.spans.get? r with
  | none => trivial
  | some span =>
      obtain ⟨⟨p, hp, hlast⟩, _⟩ := h.last_spec hspan
      show span.last < plan.order.length
      rw [← hlast]
      exact List.idxOf_lt_length_of_mem (h.mem_order_of_touches hp)

theorem order_idxOf (h : plan.Fits frame) {p : PassId} (hp : frame.Touches p r) :
    plan.order[plan.order.idxOf p]? = some p :=
  List.getElem?_idxOf (h.mem_order_of_touches hp)

theorem idxOf_of_order (h : plan.Fits frame) {k : Nat} {p : PassId}
    (hk : plan.order[k]? = some p) : plan.order.idxOf p = k := by
  obtain ⟨hlt, rfl⟩ := List.getElem?_eq_some_iff.mp hk
  exact h.order_nodup.idxOf_getElem k hlt

theorem firstUse_of_span (h : plan.Fits frame) {span : Span}
    (hspan : plan.spans.get? r = some span) : plan.FirstUse frame r span.first := by
  obtain ⟨⟨p, hp, hfirst⟩, hle⟩ := h.first_spec hspan
  constructor
  case touches => exact ⟨p, hfirst ▸ h.order_idxOf hp, hp⟩
  case least =>
    intro k q hk hq
    rw [← h.idxOf_of_order hk]
    exact hle q hq

theorem lastUse_of_span (h : plan.Fits frame) {span : Span}
    (hspan : plan.spans.get? r = some span) : plan.LastUse frame r span.last := by
  obtain ⟨⟨p, hp, hlast⟩, hle⟩ := h.last_spec hspan
  constructor
  case touches => exact ⟨p, hlast ▸ h.order_idxOf hp, hp⟩
  case greatest =>
    intro k q hk hq
    rw [← h.idxOf_of_order hk]
    exact hle q hq

/-- A resource that gives its storage up is involved, so that it has a placement. -/
theorem exit_contains (h : plan.Fits frame) {e : Exit}
    (hexit : (Placement.ofResource plan.spans plan.moves r).exit = some (slot, e)) :
    plan.usage.uses.contains r ∧ HasSlot plan slot := by
  cases e with
  | moveTo d =>
      obtain ⟨hd, rfl⟩ := Placement.exit_ofResource_moveTo.mp hexit
      exact ⟨(h.contains_of_forward hd).1, h.hasSlot_lastSlot⟩
  | destruct =>
      obtain ⟨_, ⟨hspan, rfl⟩ | ⟨_, s, hs, rfl⟩⟩ := Placement.exit_ofResource_destruct.mp hexit
      · exact ⟨h.contains_of_touched (h.exists_span_iff.mp hspan), h.hasSlot_lastSlot⟩
      · exact ⟨(h.contains_of_forward (h.forward_iff.mpr hs)).2, h.hasSlot_lastSlot⟩

theorem construct_contains (h : plan.Fits frame)
    (hconstruct : (Placement.ofResource plan.spans plan.moves r).construct = some slot) :
    plan.usage.uses.contains r ∧ HasSlot plan slot := by
  obtain ⟨_, ⟨span, hspan, rfl⟩ | ⟨_, ⟨d, hd⟩, rfl⟩⟩ := Placement.construct_ofResource.mp hconstruct
  · obtain ⟨p, hp, htouches⟩ := (h.firstUse_of_span hspan).touches
    exact ⟨h.contains_of_touched ⟨p, htouches⟩, (List.getElem?_eq_some_iff.mp hp).1⟩
  · exact ⟨(h.contains_of_forward hd).1, trivial⟩

/-- **The exits of a resource are the one that its placement says.** -/
theorem exitsOf_eq (h : plan.Fits frame) :
    plan.exitsOf r = (Placement.ofResource plan.spans plan.moves r).exit.toList := by
  have hnodup : (plan.exitsOf r).Nodup := h.nodup_gather fun _ => Events.nodup_exitsOf_inSlot
  apply eq_toList_of_mem_iff hnodup
  rintro ⟨slot, e⟩
  rw [exitsOf, h.mem_gather, Events.mem_exitsOf_inSlot]
  simp only [get?_placements, and_assoc, exists_and_left, exists_eq_left]
  constructor
  · rintro ⟨_, _, hexit⟩
    exact hexit
  · intro hexit
    obtain ⟨hcontains, hslot⟩ := h.exit_contains hexit
    exact ⟨hslot, hcontains, hexit⟩

theorem exitsOf_of_exit (h : plan.Fits frame) {e : Exit}
    (hexit : (Placement.ofResource plan.spans plan.moves r).exit = some (slot, e)) :
    plan.exitsOf r = [(slot, e)] := by
  rw [h.exitsOf_eq, hexit]
  rfl

theorem exitsOf_of_forward (h : plan.Fits frame) (hd : plan.moves.forward.get? r = some d) :
    plan.exitsOf r = [(Placement.lastSlot plan.spans r, .moveTo d)] :=
  h.exitsOf_of_exit (Placement.exit_ofResource_moveTo.mpr ⟨hd, rfl⟩)

theorem construct_mem_entriesOf (h : plan.Fits frame) : (slot, .construct) ∈ plan.entriesOf r ↔
    (Placement.ofResource plan.spans plan.moves r).construct = some slot := by
  rw [entriesOf, h.mem_gather, Events.construct_mem_entriesOf, Events.mem_constructs]
  simp only [get?_placements, and_assoc, exists_and_left, exists_eq_left]
  constructor
  · rintro ⟨_, _, hconstruct⟩
    exact hconstruct
  · intro hconstruct
    obtain ⟨hcontains, hslot⟩ := h.construct_contains hconstruct
    exact ⟨hslot, hcontains, hconstruct⟩

/-- What is moved into a resource is moved out of another. -/
theorem moveFrom_mem_entriesOf (h : plan.Fits frame) : (slot, .moveFrom s) ∈ plan.entriesOf r ↔
    plan.moves.backward.get? r = some s ∧ slot = Placement.lastSlot plan.spans s := by
  have hboth : (slot, .moveFrom s) ∈ plan.entriesOf r ↔ (slot, .moveTo r) ∈ plan.exitsOf s := by
    rw [entriesOf, exitsOf, h.mem_gather, h.mem_gather, Events.moveFrom_mem_entriesOf,
      Events.moveTo_mem_exitsOf]
  rw [hboth, h.exitsOf_eq, Option.mem_toList, Placement.exit_ofResource_moveTo,
    h.forward_iff]

/-- **The entries of a resource are the one that its placement says**, or else the move into it. -/
theorem entriesOf_eq (h : plan.Fits frame) : plan.entriesOf r =
    match plan.moves.backward.get? r with
    | some s => [(Placement.lastSlot plan.spans s, .moveFrom s)]
    | none => ((Placement.ofResource plan.spans plan.moves r).construct.map
        fun slot => (slot, Entry.construct)).toList := by
  have hnodup : (plan.entriesOf r).Nodup := h.nodup_gather fun _ => Events.nodup_entriesOf_inSlot
  cases hback : plan.moves.backward.get? r with
  | some s =>
      apply eq_toList_of_mem_iff (o := some (Placement.lastSlot plan.spans s, .moveFrom s)) hnodup
      rintro ⟨slot, _ | s'⟩
      · rw [h.construct_mem_entriesOf, Placement.construct_ofResource, hback]
        simp
      · rw [h.moveFrom_mem_entriesOf, hback]
        simp only [Option.some.injEq, Prod.mk.injEq, Entry.moveFrom.injEq]
        constructor
        · rintro ⟨rfl, rfl⟩
          exact ⟨rfl, rfl⟩
        · rintro ⟨rfl, rfl⟩
          exact ⟨rfl, rfl⟩
  | none =>
      apply eq_toList_of_mem_iff hnodup
      rintro ⟨slot, _ | s⟩
      · rw [h.construct_mem_entriesOf]
        simp
      · rw [h.moveFrom_mem_entriesOf, hback]
        simp

/-! ### The cases -/

theorem idle (h : plan.Fits frame) (hr : ¬ plan.Involves frame r) :
    plan.entriesOf r = [] ∧ plan.exitsOf r = [] := by
  obtain ⟨htouched, hends⟩ := not_or.mp hr
  obtain ⟨hforward, hbackward⟩ := not_or.mp hends
  rw [not_exists, ← Option.eq_none_iff_forall_ne_some] at hforward hbackward
  have hspan := h.get?_spans_eq_none_iff.mpr htouched
  rw [h.entriesOf_eq, h.exitsOf_eq, hbackward]
  simp [Placement.ofResource, hspan, hforward, hbackward]

theorem exists_entry (h : plan.Fits frame) (hr : plan.Involves frame r) : ∃ slot,
    plan.moves.backward.get? r = none ∧ plan.entriesOf r = [(slot, .construct)] ∨
      ∃ s, plan.moves.backward.get? r = some s ∧ plan.entriesOf r = [(slot, .moveFrom s)] := by
  cases hback : plan.moves.backward.get? r with
  | some s => exact ⟨_, Or.inr ⟨s, rfl, by rw [h.entriesOf_eq, hback]⟩⟩
  | none =>
      have hconstruct : ∃ slot,
          (Placement.ofResource plan.spans plan.moves r).construct = some slot := by
        simp only [Placement.construct_ofResource, hback, true_and]
        cases hspan : plan.spans.get? r with
        | some span => exact ⟨_, Or.inl ⟨span, rfl, rfl⟩⟩
        | none =>
            rcases hr with htouched | hforward | ⟨s, hs⟩
            · exact absurd htouched (h.get?_spans_eq_none_iff.mp hspan)
            · exact ⟨_, Or.inr ⟨rfl, hforward, rfl⟩⟩
            · rw [hback] at hs
              cases hs
      obtain ⟨slot, hslot⟩ := hconstruct
      exact ⟨slot, Or.inl ⟨rfl, by rw [h.entriesOf_eq, hback, hslot]; rfl⟩⟩

theorem exists_exit (h : plan.Fits frame) (hr : plan.Involves frame r) : ∃ slot,
    plan.moves.forward.get? r = none ∧ plan.exitsOf r = [(slot, .destruct)] ∨
      ∃ d, plan.moves.forward.get? r = some d ∧ plan.exitsOf r = [(slot, .moveTo d)] := by
  cases hforward : plan.moves.forward.get? r with
  | some d => exact ⟨_, Or.inr ⟨d, rfl, h.exitsOf_of_forward hforward⟩⟩
  | none =>
      have hexit : ∃ slot,
          (Placement.ofResource plan.spans plan.moves r).exit = some (slot, .destruct) := by
        simp only [Placement.exit_ofResource_destruct, hforward, true_and]
        by_cases htouched : frame.Touched r
        · exact ⟨_, Or.inl ⟨h.exists_span_iff.mpr htouched, rfl⟩⟩
        · rcases hr with hr | ⟨d, hd⟩ | ⟨s, hs⟩
          · exact absurd hr htouched
          · rw [hforward] at hd
            cases hd
          · exact ⟨_, Or.inr ⟨h.get?_spans_eq_none_iff.mpr htouched, s, hs, rfl⟩⟩
      obtain ⟨slot, hslot⟩ := hexit
      exact ⟨slot, Or.inl ⟨rfl, h.exitsOf_of_exit hslot⟩⟩

theorem construct_slot (h : plan.Fits frame) (hr : frame.Touched r)
    (hslot : (slot, .construct) ∈ plan.entriesOf r) :
    ∃ k, slot = .pass k ∧ plan.FirstUse frame r k := by
  obtain ⟨_, ⟨span, hspan, rfl⟩ | ⟨hnone, _⟩⟩ :=
    Placement.construct_ofResource.mp (h.construct_mem_entriesOf.mp hslot)
  · exact ⟨_, rfl, h.firstUse_of_span hspan⟩
  · exact absurd hr (h.get?_spans_eq_none_iff.mp hnone)

/-- A touched resource gives its storage up in the slot of its last use. -/
theorem exit_slot (h : plan.Fits frame) (hr : frame.Touched r) {e : Exit}
    (hslot : (slot, e) ∈ plan.exitsOf r) : ∃ k, slot = .pass k ∧ plan.LastUse frame r k := by
  obtain ⟨span, hspan⟩ := h.exists_span_iff.mpr hr
  have hlast : Placement.lastSlot plan.spans r = .pass span.last := by
    rw [Placement.lastSlot, hspan]
    rfl
  rw [h.exitsOf_eq, Option.mem_toList] at hslot
  have hthere : slot = Placement.lastSlot plan.spans r := by
    cases e with
    | moveTo d => exact (Placement.exit_ofResource_moveTo.mp hslot).2
    | destruct =>
        obtain ⟨_, ⟨_, heq⟩ | ⟨hnone, _⟩⟩ := Placement.exit_ofResource_destruct.mp hslot
        · exact heq
        · rw [hspan] at hnone
          cases hnone
  exact ⟨_, hthere.trans hlast, h.lastUse_of_span hspan⟩

/-- A resource that no pass touches is moved on in the prologue, or not at all. -/
theorem untouched_source (h : plan.Fits frame) (hr : ¬ frame.Touched r)
    (hd : plan.moves.forward.get? r = some d) :
    plan.entriesOf r = [(.prologue, .construct)] ∧ plan.exitsOf r = [(.prologue, .moveTo d)] := by
  have hback : plan.moves.backward.get? r = none := Option.eq_none_iff_forall_ne_some.mpr
    fun s hs => hr (h.touched_of_inner hs hd)
  have hspan := h.get?_spans_eq_none_iff.mpr hr
  rw [h.entriesOf_eq, h.exitsOf_eq, hback]
  simp [Placement.ofResource, hspan, hd, hback]

theorem untouched_destination (h : plan.Fits frame) (hr : ¬ frame.Touched r)
    (hs : plan.moves.backward.get? r = some s) :
    ∃ slot, plan.exitsOf s = [(slot, .moveTo r)] ∧ plan.exitsOf r = [(slot, .destruct)] := by
  have hforward : plan.moves.forward.get? r = none := Option.eq_none_iff_forall_ne_some.mpr
    fun d hd => hr (h.touched_of_inner hs hd)
  have hspan := h.get?_spans_eq_none_iff.mpr hr
  exact ⟨_, h.exitsOf_of_forward (h.forward_iff.mpr hs), h.exitsOf_of_exit
    (Placement.exit_ofResource_destruct.mpr ⟨hforward, Or.inr ⟨hspan, s, hs, rfl⟩⟩)⟩

theorem placedOnce (h : plan.Fits frame) (r : ResourceId) : plan.PlacedOnce frame r where
  idle := h.idle
  entry := h.exists_entry
  exit := h.exists_exit
  construct_slot hr _ := h.construct_slot hr
  exit_slot hr _ _ := h.exit_slot hr
  untouched_source hr _ := h.untouched_source hr
  untouched_destination hr _ := h.untouched_destination hr

end Fits

/-- **Every resource comes and goes once**, as early and as late as the passes that touch it allow,
and the events of each slot ascend. -/
theorem events_exact {frame : Frame} {plan : Plan} (hdeclared : frame.Declared)
    (hplan : ofFrame frame = .ok plan) : (∀ r, plan.PlacedOnce frame r) ∧
      ∀ slot events, (slot, events) ∈ plan.slots → events.Ascending := by
  have hf := fits_of_ofFrame hdeclared hplan
  constructor
  · exact hf.placedOnce
  · intro slot events hmem
    obtain ⟨_, rfl⟩ := hf.mem_slots.mp hmem
    exact Events.ascending_inSlot

/-- The draft comes and goes as the passes need it, and the final picture is not constructed. -/
theorem events_exact_relay : Plan.relay.PlacedOnce Frame.relay ⟨0⟩ ∧
    Plan.relay.entriesOf ⟨0⟩ = [(.pass 0, .construct)] ∧
    Plan.relay.exitsOf ⟨0⟩ = [(.pass 2, .moveTo ⟨2⟩)] ∧
    Plan.relay.entriesOf ⟨2⟩ = [(.pass 2, .moveFrom ⟨0⟩)] :=
  ⟨(events_exact ⟨_, _, rfl⟩ ofFrame_relay).1 ⟨0⟩, by decide, by decide, by decide⟩

end Plan

end FramePlan
