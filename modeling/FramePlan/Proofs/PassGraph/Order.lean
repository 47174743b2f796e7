import FramePlan.PassGraph.Order
import FramePlan.Proofs.PassGraph.Frontier
import Mathlib.Data.List.Perm.Subperm

/-!
# The order of a pass graph

* `PassGraph.order_ok` — an order that is found lists every pass of the graph once, and each after
  its predecessors.
* `PassGraph.Respects.idxOf_lt` — along a path positions grow.
-/

namespace FramePlan

/-- An entry of a list with one more at its end is that one, or one of the list. -/
theorem split_snoc {α : Type} {xs before after : List α} {x y : α}
    (h : xs ++ [x] = before ++ y :: after) :
    (xs = before ∧ x = y) ∨ ∃ rest, xs = before ++ y :: rest := by
  rcases List.eq_nil_or_concat after with rfl | ⟨rest, z, rfl⟩
  · obtain ⟨hxs, hx⟩ := List.append_inj' h rfl
    exact Or.inl ⟨hxs, (List.cons_eq_cons.mp hx).1⟩
  · have hsplit : xs ++ [x] = (before ++ y :: rest) ++ [z] := by simpa using h
    exact Or.inr ⟨rest, (List.append_inj' hsplit rfl).1⟩

namespace PassGraph

variable {g : PassGraph} {a b : PassId}

/-- In the list, each pass comes after its predecessors. -/
def Respects (g : PassGraph) (order : List PassId) : Prop :=
  ∀ pre p post, order = pre ++ p :: post → ∀ a, g.hasEdge a p → a ∈ pre

namespace Respects

variable {order : List PassId}

theorem nil : g.Respects [] := by
  intro pre p post h
  simp at h

theorem snoc {p : PassId} (h : g.Respects order) (hp : ∀ a, g.hasEdge a p → a ∈ order) :
    g.Respects (order ++ [p]) := by
  intro pre q post hsplit a ha
  rcases split_snoc hsplit with ⟨rfl, rfl⟩ | ⟨rest, horder⟩
  · exact hp a ha
  · exact h pre q rest horder a ha

theorem idxOf_lt_of_hasEdge (h : g.Respects order) (hb : b ∈ order) (hab : g.hasEdge a b) :
    order.idxOf a < order.idxOf b := by
  obtain ⟨pre, post, hsplit, hfirst⟩ := List.eq_append_cons_of_mem hb
  have ha := h pre b post hsplit a hab
  rw [hsplit, List.idxOf_append_of_mem ha, List.idxOf_append_of_notMem hfirst]
  have := List.idxOf_lt_length_of_mem ha
  omega

theorem mem_of_hasEdge (h : g.Respects order) (hb : b ∈ order) (hab : g.hasEdge a b) :
    a ∈ order := by
  obtain ⟨pre, post, hsplit, _⟩ := List.eq_append_cons_of_mem hb
  rw [hsplit]
  exact List.mem_append_left _ (h pre b post hsplit a hab)

/-- Whatever precedes a pass stands before it. -/
theorem idxOf_lt (h : g.Respects order) (hb : b ∈ order) (hab : g.Precedes a b) :
    order.idxOf a < order.idxOf b := by
  have hlt : a ∈ order ∧ order.idxOf a < order.idxOf b := by
    induction hab using Relation.TransGen.head_induction_on with
    | single hedge => exact ⟨h.mem_of_hasEdge hb hedge, h.idxOf_lt_of_hasEdge hb hedge⟩
    | head hedge _ ih =>
        exact ⟨h.mem_of_hasEdge ih.1 hedge, Nat.lt_trans (h.idxOf_lt_of_hasEdge ih.1 hedge) ih.2⟩
  exact hlt.2

/-- What holds of a pass if it holds of its predecessors holds of all passes. -/
theorem forall_of_predecessors {P : PassId → Prop} (h : g.Respects order)
    (hstep : ∀ p ∈ order, (∀ a, g.hasEdge a p → P a) → P p) : ∀ p ∈ order, P p := by
  intro p
  induction hn : order.idxOf p using Nat.strongRecOn generalizing p with
  | _ n ih =>
      intro hp
      apply hstep p hp
      intro a ha
      exact ih (order.idxOf a) (hn ▸ h.idxOf_lt_of_hasEdge hp ha) a rfl (h.mem_of_hasEdge hp ha)

end Respects

/-! ### Working passes off one at a time -/

/-- Passes are worked off as they are taken, each after its predecessors. -/
def InStep (g : PassGraph) (f : Frontier) : Prop := f.Sound g f.done ∧ g.Respects f.done

theorem inStep_advance {f : Frontier} (hclosed : g.Closed) (h : g.InStep f) :
    g.InStep (g.advance f) := by
  unfold advance Frontier.take?
  cases hready : f.ready with
  | nil => exact h
  | cons p rest =>
      obtain ⟨hsound, hrespects⟩ := h
      obtain ⟨hp, htaken⟩ := hsound.take hready
      obtain ⟨hdone, hnext⟩ := htaken.complete hclosed (by simp) hp
      refine ⟨?_, ?_⟩
      · rw [← hdone] at hnext
        exact hnext
      · show g.Respects (Frontier.complete g { f with ready := rest } p).done
        rw [hdone]
        exact hrespects.snoc ((hsound.reached p).mp (Or.inl (by simp [hready]))).2

theorem inStep_advanceBy (hclosed : g.Closed) (n : Nat) {f : Frontier} (h : g.InStep f) :
    g.InStep (g.advanceBy n f) := by
  induction n generalizing f with
  | zero => exact h
  | succ n ih => exact ih (inStep_advance hclosed h)

theorem order_ok (hclosed : g.Closed) {order : List PassId} (h : g.order = .ok order) :
    order.Nodup ∧ (∀ p, p ∈ order ↔ p ∈ g.passes) ∧ g.Respects order := by
  have hstart : g.InStep (.start g g.passes.toList) :=
    ⟨Frontier.Sound.start g.passes.nodup_toList fun _ => IdSet.mem_toList, Respects.nil⟩
  obtain ⟨hsound, hrespects⟩ := inStep_advanceBy hclosed g.passCount hstart
  unfold PassGraph.order at h
  simp only at h
  split at h
  · next hlength =>
    cases h
    have hsub : g.exhausted.done ⊆ g.passes.toList := fun p hp => hsound.mem_passes hp
    have hperm : g.exhausted.done.Perm g.passes.toList := by
      refine (hsound.done_nodup.subperm hsub).perm_of_length_le ?_
      rw [length_passes]
      exact Nat.le_of_eq hlength.symm
    exact ⟨hsound.done_nodup, fun p => hperm.mem_iff, hrespects⟩
  · cases h

end PassGraph

end FramePlan
