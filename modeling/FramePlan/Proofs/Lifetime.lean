import FramePlan.Lifetime
import FramePlan.Proofs.PassGraph.Hazard

/-!
# Spans and events

* `Span.ofUsage_spec` — a span reaches from the first of the first users to the last of the last
  users.
* `Events.mem_constructs`, `Events.mem_moves`, `Events.mem_destructs` — which events a slot holds,
  by the spans of the resources and the moves.
-/

namespace FramePlan

/-! ### Spans -/

namespace Span

variable {position : PassId → Nat} {u : Usage} {s : Span}

theorem ofUsage_eq_none (h : ∀ p, p ∉ u.users) : ofUsage position u = none := by
  have hw : u.writer = none := by
    cases hw : u.writer with
    | none => rfl
    | some w => exact absurd (Usage.mem_users.mpr (Or.inl hw)) (h w)
  have hc : u.copyIn = none := by
    cases hc : u.copyIn with
    | none => rfl
    | some c => exact absurd (Usage.mem_users.mpr (Or.inr (Or.inr hc))) (h c)
  have hr : u.readers.toList = [] := List.eq_nil_iff_forall_not_mem.mpr fun q hq =>
    h q (Usage.mem_users.mpr (Or.inr (Or.inl hq)))
  simp [ofUsage, hw, hc, hr]

theorem exists_ofUsage {p : PassId} (h : p ∈ u.users) : ∃ s, ofUsage position u = some s := by
  unfold ofUsage
  cases hw : u.writer with
  | some w => simp
  | none =>
      cases hm : (u.readers.toList.map position).min? with
      | some n => simp [hm]
      | none =>
          cases hc : u.copyIn with
          | some c => simp [hm]
          | none =>
              have hempty : u.readers.toList = [] := by simpa using hm
              rcases Usage.mem_users.mp h with hp | hp | hp
              · rw [hw] at hp
                cases hp
              · rw [← IdSet.mem_toList, hempty] at hp
                exact absurd hp List.not_mem_nil
              · rw [hc] at hp
                cases hp

/-- The position `n` is the least of the positions of the given passes. -/
def IsFirst (position : PassId → Nat) (ps : List PassId) (n : Nat) : Prop :=
  (∃ p ∈ ps, position p = n) ∧ ∀ p ∈ ps, n ≤ position p

/-- The position `n` is the greatest of the positions of the given passes. -/
def IsLast (position : PassId → Nat) (ps : List PassId) (n : Nat) : Prop :=
  (∃ p ∈ ps, position p = n) ∧ ∀ p ∈ ps, position p ≤ n

theorem isFirst_singleton (p : PassId) : IsFirst position [p] (position p) := by
  simp [IsFirst]

theorem isLast_singleton (p : PassId) : IsLast position [p] (position p) := by
  simp [IsLast]

theorem isFirst_of_min? {ps : List PassId} {n : Nat} (h : (ps.map position).min? = some n) :
    IsFirst position ps n := by
  obtain ⟨hmem, hle⟩ := List.min?_eq_some_iff.mp h
  exact ⟨List.mem_map.mp hmem, fun p hp => hle _ (List.mem_map.mpr ⟨p, hp, rfl⟩)⟩

theorem isLast_of_max? {ps : List PassId} {n : Nat} (h : (ps.map position).max? = some n) :
    IsLast position ps n := by
  obtain ⟨hmem, hle⟩ := List.max?_eq_some_iff.mp h
  exact ⟨List.mem_map.mp hmem, fun p hp => hle _ (List.mem_map.mpr ⟨p, hp, rfl⟩)⟩

theorem first_ofUsage (h : ofUsage position u = some s) :
    IsFirst position u.firstUsers s.first := by
  obtain ⟨first, hfirst, heq⟩ := Option.bind_eq_some_iff.mp h
  cases heq
  unfold Usage.firstUsers
  cases hw : u.writer with
  | some w =>
      simp only [hw, Option.map_some, Option.some_or, Option.some.injEq] at hfirst
      exact hfirst ▸ isFirst_singleton w
  | none =>
      simp only [hw, Option.map_none, Option.none_or] at hfirst
      cases hm : (u.readers.toList.map position).min? with
      | some n =>
          have hne : u.readers.isEmpty = false := by
            unfold IdSet.isEmpty
            cases hr : u.readers.toList with
            | nil => simp [hr] at hm
            | cons => rfl
          simp only [hm, Option.some_or, Option.some.injEq] at hfirst
          simp only [hne, Bool.false_eq_true, if_false]
          exact hfirst ▸ isFirst_of_min? hm
      | none =>
          have hempty : u.readers.toList = [] := by simpa using hm
          have he : u.readers.isEmpty = true := by simp [IdSet.isEmpty, hempty]
          simp only [hm, Option.none_or] at hfirst
          obtain ⟨c, hc, rfl⟩ := Option.map_eq_some_iff.mp hfirst
          simp only [he, hc, if_true, Option.toList_some]
          exact isFirst_singleton c

theorem last_ofUsage (h : ofUsage position u = some s) : IsLast position u.finalUsers s.last := by
  obtain ⟨first, hfirst, heq⟩ := Option.bind_eq_some_iff.mp h
  cases heq
  unfold Usage.finalUsers
  cases hc : u.copyIn with
  | some c =>
      simp only [Option.map_some, Option.some_or, Option.getD_some]
      exact isLast_singleton c
  | none =>
      simp only [Option.map_none, Option.none_or]
      cases hm : (u.readers.toList.map position).max? with
      | some n =>
          have hne : u.readers.isEmpty = false := by
            unfold IdSet.isEmpty
            cases hr : u.readers.toList with
            | nil => simp [hr] at hm
            | cons => rfl
          simp only [hne, Bool.false_eq_true, if_false, Option.getD_some]
          exact isLast_of_max? hm
      | none =>
          have hempty : u.readers.toList = [] := by simpa using hm
          have he : u.readers.isEmpty = true := by simp [IdSet.isEmpty, hempty]
          simp only [hempty, hc, List.map_nil, List.min?_nil, Option.map_none, Option.or_none]
            at hfirst
          obtain ⟨w, hw, rfl⟩ := Option.map_eq_some_iff.mp hfirst
          simp only [he, hw, if_true, Option.toList_some, Option.getD_none]
          exact isLast_singleton w

theorem get?_table {usage : UsageTable} {order : List PassId} {r : ResourceId} :
    (table usage order).get? r = ofUsage order.idxOf (usage.usage r) := by
  unfold table UsageTable.usage IdMap.getD
  rw [IdMap.get?_filterMap]
  cases usage.uses.get? r with
  | some u => rfl
  | none =>
      refine (ofUsage_eq_none fun p hp => ?_).symm
      rcases Usage.mem_users.mp hp with hp | hp | hp
      · cases hp
      · exact IdSet.not_mem_empty p hp
      · cases hp

end Span

/-! ### Placements -/

namespace Placement

variable {spans : IdMap .resource Span} {moves : MoveTable} {r : ResourceId} {slot : Slot}

/-- Where a resource is used last: around its last pass, or in the prologue if no pass uses it. -/
def lastSlot (spans : IdMap .resource Span) (r : ResourceId) : Slot :=
  ((spans.get? r).map fun s => Slot.pass s.last).getD .prologue

theorem construct_ofResource : (ofResource spans moves r).construct = some slot ↔
    moves.backward.get? r = none ∧
      ((∃ s, spans.get? r = some s ∧ slot = .pass s.first) ∨
        spans.get? r = none ∧ (∃ dst, moves.forward.get? r = some dst) ∧ slot = .prologue) := by
  unfold ofResource
  cases hspan : spans.get? r <;> cases hfwd : moves.forward.get? r <;>
    cases hbwd : moves.backward.get? r <;> simp [eq_comm]

theorem exit_ofResource_moveTo {dst : ResourceId} :
    (ofResource spans moves r).exit = some (slot, .moveTo dst) ↔
      moves.forward.get? r = some dst ∧ slot = lastSlot spans r := by
  unfold ofResource lastSlot
  cases hspan : spans.get? r <;> cases hfwd : moves.forward.get? r <;>
    cases hbwd : moves.backward.get? r <;> simp [eq_comm, and_comm]

theorem exit_ofResource_destruct :
    (ofResource spans moves r).exit = some (slot, .destruct) ↔
      moves.forward.get? r = none ∧
        ((∃ s, spans.get? r = some s) ∧ slot = lastSlot spans r ∨
          spans.get? r = none ∧
            ∃ src, moves.backward.get? r = some src ∧ slot = lastSlot spans src) := by
  unfold ofResource lastSlot
  cases hspan : spans.get? r <;> cases hfwd : moves.forward.get? r <;>
    cases hbwd : moves.backward.get? r <;> simp [eq_comm]

end Placement

/-! ### The events of a slot -/

namespace Events

variable {placements : IdMap .resource Placement} {r : ResourceId} {slot : Slot}

theorem mem_constructs : r ∈ (inSlot placements slot).constructs ↔
    ∃ placement, placements.get? r = some placement ∧ placement.construct = some slot := by
  simp [inSlot, IdMap.mem_entries]

theorem mem_destructs : r ∈ (inSlot placements slot).destructs ↔
    ∃ placement, placements.get? r = some placement ∧
      placement.exit = some (slot, .destruct) := by
  simp [inSlot, IdMap.mem_entries]

theorem moveIn?_eq_some {m : Move} {placement : Placement} : moveIn? slot r placement = some m ↔
    m.src = r ∧ placement.exit = some (slot, .moveTo m.dst) := by
  obtain ⟨dst, src⟩ := m
  unfold moveIn?
  split
  · next s d hexit =>
    rw [hexit]
    by_cases hs : s = slot
    · simp [hs, and_comm, eq_comm]
    · simp [hs]
  · next hexit =>
    constructor
    · intro h
      cases h
    · rintro ⟨_, h⟩
      exact absurd h (hexit slot dst)

theorem mem_moves {m : Move} : m ∈ (inSlot placements slot).moves ↔
    ∃ placement, placements.get? m.src = some placement ∧
      placement.exit = some (slot, .moveTo m.dst) := by
  unfold inSlot
  rw [List.mem_filterMap]
  constructor
  · rintro ⟨⟨r, placement⟩, hmem, hmove⟩
    obtain ⟨rfl, hexit⟩ := moveIn?_eq_some.mp hmove
    exact ⟨placement, IdMap.mem_entries.mp hmem, hexit⟩
  · rintro ⟨placement, hget, hexit⟩
    exact ⟨(m.src, placement), IdMap.mem_entries.mpr hget, moveIn?_eq_some.mpr ⟨rfl, hexit⟩⟩

theorem ascending_constructs : (inSlot placements slot).constructs.Pairwise (·.index < ·.index) :=
  List.pairwise_map.mpr (placements.ascending.filter _)

theorem ascending_destructs : (inSlot placements slot).destructs.Pairwise (·.index < ·.index) :=
  List.pairwise_map.mpr (placements.ascending.filter _)

theorem ascending_moves :
    (inSlot placements slot).moves.Pairwise (·.src.index < ·.src.index) := by
  refine List.Pairwise.filterMap _ (fun e e' hlt m hm m' hm' => ?_) placements.ascending
  rw [(moveIn?_eq_some.mp hm).1, (moveIn?_eq_some.mp hm').1]
  exact hlt

theorem nodup_constructs : (inSlot placements slot).constructs.Nodup := by
  have hkeys : (placements.entries.map (·.1)).Nodup := placements.keys.nodup_toList
  exact (List.filter_sublist.map _).nodup hkeys

theorem nodup_destructs : (inSlot placements slot).destructs.Nodup := by
  have hkeys : (placements.entries.map (·.1)).Nodup := placements.keys.nodup_toList
  exact (List.filter_sublist.map _).nodup hkeys

theorem nodup_moves : (inSlot placements slot).moves.Nodup := by
  have hkeys : (placements.entries.map (·.1)).Nodup := placements.keys.nodup_toList
  unfold inSlot
  refine List.Pairwise.filterMap _ (fun e e' hne m hm m' hm' hmm => ?_)
    (List.pairwise_map.mp hkeys)
  exact hne ((moveIn?_eq_some.mp hm).1.symm.trans (hmm ▸ (moveIn?_eq_some.mp hm').1))

end Events

end FramePlan
