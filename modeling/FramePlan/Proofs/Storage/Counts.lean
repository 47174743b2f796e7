import FramePlan.Proofs.Storage.Ledger

/-!
# The counts of storage

How often instances came and went is told by the history of a run: every pooled instance that is
acquired is either still bound or was recycled.

* `Account.Counted` — the counts and the history.
* `Account.counted_kept` — the calls of a run keep them in agreement.
-/

namespace FramePlan

open History

variable {κ η ς τ : Type}

/-- Whether the instance is released in the end. -/
def Origin.isTemporal : Origin κ ς → Bool
  | .imported _ => false
  | .temporal _ => true

/-- Whether an instance is handed over. -/
def Action.isMove : Action → Bool
  | .move _ => true
  | _ => false

namespace Account

/-- Whether an action acquires a pooled instance. -/
def acquires (a : Account κ η ς τ) : Action → Bool
  | .construct r =>
    match a.registrations.get? r with
    | some (.temporal _) => true
    | _ => false
  | _ => false

theorem acquires_congr {a b : Account κ η ς τ} (h : b.registrations = a.registrations) :
    b.acquires = a.acquires := by
  funext action
  unfold acquires
  rw [h]

/-- How many pooled instances are bound. -/
def temporals (a : Account κ η ς τ) : Nat := a.owners.entries.countP fun e => e.2.2.isTemporal

/-- The counts of storage went up by what the history did. -/
structure Counted (a₀ : Account κ η ς τ) (L : Ledger η) (a : Account κ η ς τ) : Prop where
  registrations : a.registrations = a₀.registrations
  moved : a.stats.moved = a₀.stats.moved + L.history.countP Action.isMove
  acquired : a.stats.allocated + a.stats.reused =
    a₀.stats.allocated + a₀.stats.reused + L.history.countP a₀.acquires
  recycled : a.stats.recycled + a.temporals =
    a₀.stats.recycled + a₀.temporals + L.history.countP a₀.acquires

variable {frame : Frame} {plan : Plan} {allocate : κ → EStateM StorageError τ η}
  {L : Ledger η} {a₀ a b : Account κ η ς τ}

theorem Counted.empty : Counted a Ledger.empty a where
  registrations := rfl
  moved := rfl
  acquired := rfl
  recycled := rfl

theorem countP_add (q : Action → Bool) (action : Action) :
    (L.add [action]).history.countP q = L.history.countP q + if q action then 1 else 0 := by
  rw [Ledger.add, List.countP_append, List.countP_singleton]

/-! ### Bound instances -/

theorem temporals_insert {r : ResourceId} {owner : η × Origin κ ς}
    (hfree : a.owners.get? r = none) :
    (a.owners.insert r owner).entries.countP (fun e => e.2.2.isTemporal) =
      a.temporals + if owner.2.isTemporal then 1 else 0 := by
  rw [(IdMap.entries_insert hfree).countP_eq, List.countP_cons]
  rfl

theorem temporals_erase {r : ResourceId} {owner : η × Origin κ ς}
    (howner : a.owners.get? r = some owner) :
    (a.owners.erase r).entries.countP (fun e => e.2.2.isTemporal) +
      (if owner.2.isTemporal then 1 else 0) = a.temporals := by
  unfold temporals
  rw [(IdMap.entries_erase howner).countP_eq, List.countP_cons]

theorem temporals_move {m : Move} {owner : η × Origin κ ς} (hfree : a.owners.get? m.dst = none)
    (howner : a.owners.get? m.src = some owner) :
    ((a.owners.erase m.src).insert m.dst owner).entries.countP (fun e => e.2.2.isTemporal) =
      a.temporals := by
  have hfree' : (a.owners.erase m.src).get? m.dst = none :=
    IdMap.get?_erase_of_eq_none hfree
  rw [(IdMap.entries_insert hfree').countP_eq, List.countP_cons]
  exact temporals_erase howner

/-! ### Calls -/

/-- A construct acquires one pooled instance or none. -/
theorem Constructs.counts {r : ResourceId} (h : Constructs allocate r a b)
    (hfree : a.owners.get? r = none) :
    b.stats.moved = a.stats.moved ∧ b.stats.recycled = a.stats.recycled ∧
      b.stats.allocated + b.stats.reused =
        a.stats.allocated + a.stats.reused + (if a.acquires (.construct r) then 1 else 0) ∧
      b.temporals = a.temporals + if a.acquires (.construct r) then 1 else 0 := by
  cases h with
  | imported hreg =>
      have hacquires : a.acquires (.construct r) = false := by simp [acquires, hreg]
      rw [hacquires]
      exact ⟨rfl, rfl, rfl, temporals_insert hfree⟩
  | reused hreg =>
      have hacquires : a.acquires (.construct r) = true := by simp [acquires, hreg]
      rw [hacquires]
      exact ⟨rfl, rfl, rfl, temporals_insert hfree⟩
  | allocated hreg =>
      have hacquires : a.acquires (.construct r) = true := by simp [acquires, hreg]
      rw [hacquires]
      exact ⟨rfl, rfl, Nat.add_right_comm _ _ _, temporals_insert hfree⟩

/-- A destruct recycles what is no longer bound. -/
theorem Destructs.counts {r : ResourceId} (h : Destructs r a b) :
    b.stats.moved = a.stats.moved ∧
      b.stats.allocated + b.stats.reused = a.stats.allocated + a.stats.reused ∧
      b.stats.recycled + b.temporals = a.stats.recycled + a.temporals := by
  cases h with
  | imported howner =>
      have herase := temporals_erase howner
      exact ⟨rfl, rfl, congrArg (a.stats.recycled + ·) herase⟩
  | temporal howner =>
      have herase := temporals_erase howner
      refine ⟨rfl, rfl, ?_⟩
      rw [← herase, ← Nat.add_assoc]
      exact Nat.add_right_comm _ _ _

theorem Moves.counts {m : Move} (h : Moves m a b) (hfree : a.owners.get? m.dst = none) :
    b.stats.moved = a.stats.moved + 1 ∧ b.stats.recycled = a.stats.recycled ∧
      b.stats.allocated + b.stats.reused = a.stats.allocated + a.stats.reused ∧
      b.temporals = a.temporals := by
  cases h with
  | moved howner => exact ⟨rfl, rfl, rfl, temporals_move hfree howner⟩

/-- **The calls of a run keep the counts in agreement with its history.** -/
theorem counted_kept : Kept frame plan allocate (Counted a₀) where
  construct := by
    intro L a b r ha _ _ hfree hb
    obtain ⟨hmoved, hrecycled, hacquired, htemporals⟩ := hb.counts hfree
    have hsame := acquires_congr ha.registrations
    refine ⟨hb.registrations.trans ha.registrations, ?_, ?_, ?_⟩
    · rw [countP_add, hmoved]
      exact ha.moved
    · rw [countP_add, hacquired, ha.acquired, hsame, Nat.add_assoc]
    · rw [countP_add, hrecycled, htemporals, ← Nat.add_assoc, ha.recycled, hsame, Nat.add_assoc]
  move := by
    intro L a b m ha _ _ hfree hb
    obtain ⟨hmoved, hrecycled, hacquired, htemporals⟩ := hb.counts hfree
    refine ⟨hb.registrations.trans ha.registrations, ?_, ?_, ?_⟩
    · rw [countP_add, hmoved, ha.moved]
      rfl
    · rw [countP_add, hacquired]
      exact ha.acquired
    · rw [countP_add, hrecycled, htemporals]
      exact ha.recycled
  destruct := by
    intro L a b r ha _ _ hb
    obtain ⟨hmoved, hacquired, hrecycled⟩ := hb.counts
    refine ⟨hb.registrations.trans ha.registrations, ?_, ?_, ?_⟩
    · rw [countP_add, hmoved]
      exact ha.moved
    · rw [countP_add, hacquired]
      exact ha.acquired
    · rw [countP_add, hrecycled]
      exact ha.recycled
  request := by
    intro L a p handles ha _ _
    have hgrant : ∀ q : Action → Bool, q (.request p) = false →
        (L.grant p handles).history.countP q = L.history.countP q := by
      intro q hq
      rw [Ledger.grant, List.countP_append, List.countP_singleton, hq]
      rfl
    refine ⟨ha.registrations, ?_, ?_, ?_⟩
    · rw [hgrant _ rfl]
      exact ha.moved
    · rw [hgrant _ rfl]
      exact ha.acquired
    · rw [hgrant _ rfl]
      exact ha.recycled
  work := by
    intro L a p ha _
    refine ⟨ha.registrations, ?_, ?_, ?_⟩
    · rw [countP_add]
      exact ha.moved
    · rw [countP_add]
      exact ha.acquired
    · rw [countP_add]
      exact ha.recycled

end Account

end FramePlan
