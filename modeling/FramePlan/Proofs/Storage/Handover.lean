import FramePlan.Proofs.Storage.Ownership
import Mathlib.Logic.Relation

/-!
# Instances that are handed over

An instance that is moved stays the same instance: its handle, once granted to a pass, is later that
of the resource that the moves of the run have brought it to.

* `History.Handed` — the storage of one resource has come to another by moves.
* `Account.Traced`, `Account.traced_kept` — granted handles stay with the instance.
* `Account.Kept.always` — what the calls of a run keep was true all along.
-/

namespace FramePlan

open History

variable {κ η ς τ : Type}

namespace History

/-- The storage of `a` has come to `b`, by any number of moves. -/
def Handed (h : List Action) : ResourceId → ResourceId → Prop :=
  Relation.ReflTransGen fun s d => .move ⟨d, s⟩ ∈ h

variable {frame : Frame} {h : List Action} {a b : ResourceId}

/-- What still holds its storage has not handed it on. -/
theorem Handed.eq_of_not_gone (hab : Handed h a b) (ha : ¬ Gone h a) : b = a := by
  rcases hab.cases_head with heq | ⟨d, hmove, _⟩
  · exact heq.symm
  · exact absurd (Or.inr ⟨d, hmove⟩) ha

/-- An action that is no move hands nothing over. -/
theorem handed_snoc {action : Action} (haction : ∀ m, action ≠ .move m) :
    Handed (h ++ [action]) a b ↔ Handed h a b := by
  have hsame : (fun s d => .move ⟨d, s⟩ ∈ h ++ [action]) =
      fun s d => (.move ⟨d, s⟩ : Action) ∈ h := by
    funext s d
    rw [List.mem_append, List.mem_singleton, or_iff_left (haction _).symm]
  unfold Handed
  rw [hsame]

/-- A move hands on what its source had. -/
theorem handed_move {m : Move} (hl : Legal frame h) (hp : Permits frame h (.move m))
    (hab : Handed (h ++ [.move m]) a b) : Handed h a b ∨ Handed h a m.src ∧ b = m.dst := by
  induction hab with
  | refl => exact Or.inl .refl
  | @tail x d _ hmove ih =>
      -- Nothing has been moved out of the destination, as it had no storage so far.
      have hdst : ∀ {d}, .move ⟨d, m.dst⟩ ∉ h := fun hmove =>
        hp.2 (hl.opened_of_gone (Or.inr ⟨_, hmove⟩))
      rcases List.mem_append.mp hmove with hmove | hmove
      · rcases ih with ih | ⟨_, rfl⟩
        · exact Or.inl (ih.tail hmove)
        · exact absurd hmove hdst
      · cases List.mem_singleton.mp hmove
        rcases ih with ih | ⟨_, heq⟩
        · exact Or.inr ⟨ih, rfl⟩
        · exact absurd (heq ▸ hp.1.1) hp.2

end History

namespace Account

variable {frame : Frame} {plan : Plan} {allocate : κ → EStateM StorageError τ η}
  {J : Ledger η → Account κ η ς τ → Prop} {L M : Ledger η} {a b : Account κ η ς τ}

/-! ### Granted handles -/

/-- A handle that a pass got for a resource is that of the resource that the instance has come to,
as long as that one has it. -/
structure Traced (frame : Frame) (L : Ledger η) (a : Account κ η ς τ) : Prop where
  legal : Legal frame L.history
  current : ∀ {p handles r h d}, (p, handles) ∈ L.grants → handles.get? r = some h →
    Handed L.history r d → ¬ Gone L.history d → ∃ origin, a.owners.get? d = some (h, origin)

theorem Traced.empty : Traced frame Ledger.empty a where
  legal := Legal.nil
  current hmem := absurd hmem List.not_mem_nil

/-- An action that is no move leaves the instances where they are, but for those given up. -/
theorem Traced.add {action : Action} (ha : Traced frame L a) (hp : Permits frame L.history action)
    (haction : ∀ m, action ≠ .move m)
    (howners : ∀ r owner, ¬ Gone [action] r → a.owners.get? r = some owner →
      b.owners.get? r = some owner) : Traced frame (L.add [action]) b where
  legal := ha.legal.snoc hp
  current := by
    intro p handles r h d hmem hget hhanded hnot
    rw [Ledger.add, gone_append, not_or] at hnot
    obtain ⟨origin, horigin⟩ :=
      ha.current hmem hget ((handed_snoc haction).mp hhanded) hnot.1
    exact ⟨origin, howners d _ hnot.2 horigin⟩

theorem Traced.move {m : Move} (ha : Traced frame L a) (hp : Permits frame L.history (.move m))
    (hfree : a.owners.get? m.dst = none) (hb : Moves m a b) :
    Traced frame (L.add [.move m]) b where
  legal := ha.legal.snoc hp
  current := by
    intro p handles r h d hmem hget hhanded hnot
    rw [Ledger.add, gone_append, not_or] at hnot
    rcases handed_move ha.legal hp hhanded with hbefore | ⟨hbefore, rfl⟩
    · obtain ⟨origin, horigin⟩ := ha.current hmem hget hbefore hnot.1
      exact ⟨origin, hb.stays hfree hnot.2 horigin⟩
    · obtain ⟨origin, horigin⟩ := ha.current hmem hget hbefore hp.1.2
      obtain ⟨owner, hsrc, howners⟩ := hb.owners
      rw [hsrc] at horigin
      cases horigin
      rw [howners, IdMap.get?_insert_self]
      exact ⟨origin, rfl⟩

theorem Traced.request {p : PassId} {handles : IdMap .resource η} (ha : Traced frame L a)
    (hp : Permits frame L.history (.request p)) (hg : a.Grants frame p handles) :
    Traced frame (L.grant p handles) a where
  legal := ha.legal.snoc hp
  current := by
    intro q handles' r h d hmem hget hhanded hnot
    rw [Ledger.grant, handed_snoc (by simp)] at hhanded
    rw [Ledger.grant, gone_append, not_or] at hnot
    rcases List.mem_append.mp hmem with hmem | hmem
    · exact ha.current hmem hget hhanded hnot.1
    · cases List.mem_singleton.mp hmem
      by_cases htouch : frame.Touches p r
      · -- What the pass requests still has its storage.
        obtain ⟨h', origin, howner, hget'⟩ := (hg r).1 htouch
        obtain rfl := hhanded.eq_of_not_gone (hp.2 r htouch).2
        rw [hget] at hget'
        cases hget'
        exact ⟨origin, howner⟩
      · rw [(hg r).2 htouch] at hget
        cases hget

theorem traced_kept : Kept frame plan allocate
    fun (L : Ledger η) (a : Account κ η ς τ) => Traced frame L a where
  construct ha hp _ hfree hb := ha.add hp (by simp) fun _ _ _ hx => hb.stays hfree hx
  move ha hp _ hfree hb := ha.move hp hfree hb
  destruct ha hp _ hb := ha.add hp (by simp) fun _ _ hnot hx => hb.stays hnot hx
  request ha hp hg := ha.request hp hg
  work ha hp := ha.add hp (by simp) fun _ _ _ hx => hx

/-! ### What was true all along -/

/-- The relation was true at each point of the history, of a ledger with all grants up to there. -/
def Always (J : Ledger η → Account κ η ς τ → Prop) (L : Ledger η) : Prop :=
  ∀ before after, L.history = before ++ after → ∃ M a, M.history = before ∧
    (∀ p handles, (p, handles) ∈ L.grants → .request p ∈ before → (p, handles) ∈ M.grants) ∧ J M a

/-- It is true at one more point. -/
theorem Always.snoc {action : Action} (h : Always J L) (hM : M.history = L.history ++ [action])
    (hgrants : ∀ p handles, (p, handles) ∈ M.grants →
      (p, handles) ∈ L.grants ∨ .request p ∉ L.history) (hb : J M b) : Always J M := by
  intro before after hsplit
  rw [hM] at hsplit
  rcases List.prefix_concat_iff.mp ⟨after, hsplit.symm⟩ with rfl | ⟨rest, hhistory⟩
  · exact ⟨M, b, hM, fun _ _ hmem _ => hmem, hb⟩
  · obtain ⟨N, c, hN, hold, hc⟩ := h before rest hhistory.symm
    refine ⟨N, c, hN, fun p handles hmem hrequest => ?_, hc⟩
    rcases hgrants p handles hmem with hmem | hnot
    · exact hold p handles hmem hrequest
    · exact absurd (hhistory ▸ List.mem_append_left _ hrequest) hnot

theorem Always.empty (h : J Ledger.empty a) : Always J Ledger.empty := by
  intro before after hsplit
  obtain ⟨rfl, _⟩ := List.append_eq_nil_iff.mp hsplit.symm
  exact ⟨Ledger.empty, a, rfl, fun _ _ hmem _ => hmem, h⟩

/-- **What the calls of a run keep was true all along.** -/
theorem Kept.always (h : Kept frame plan allocate J) :
    Kept frame plan allocate fun L a => J L a ∧ Always J L where
  construct ha hp hm hfree hb :=
    have hJ := h.construct ha.1 hp hm hfree hb
    ⟨hJ, ha.2.snoc rfl (fun _ _ hmem => Or.inl hmem) hJ⟩
  move ha hp hm hfree hb :=
    have hJ := h.move ha.1 hp hm hfree hb
    ⟨hJ, ha.2.snoc rfl (fun _ _ hmem => Or.inl hmem) hJ⟩
  destruct ha hp hm hb :=
    have hJ := h.destruct ha.1 hp hm hb
    ⟨hJ, ha.2.snoc rfl (fun _ _ hmem => Or.inl hmem) hJ⟩
  request := by
    intro L a p handles ha hp hg
    have hJ := h.request ha.1 hp hg
    refine ⟨hJ, ha.2.snoc rfl (fun q handles' hmem => ?_) hJ⟩
    rcases List.mem_append.mp hmem with hmem | hmem
    · exact Or.inl hmem
    · cases List.mem_singleton.mp hmem
      exact Or.inr hp.1
  work ha hp :=
    have hJ := h.work ha.1 hp
    ⟨hJ, ha.2.snoc rfl (fun _ _ hmem => Or.inl hmem) hJ⟩

end Account

end FramePlan
