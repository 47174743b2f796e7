import FramePlan.PassGraph.Basic
import FramePlan.Proofs.IdMap
import Mathlib.Data.List.Nodup
import Mathlib.Data.List.Perm.Subperm
import Mathlib.Logic.Relation

/-!
# Edges of a pass graph

* `PassGraph.hasEdge_addEdges`, `PassGraph.mem_passes_addEdges` — the edges and passes of a graph
  that is built edge by edge.
* `PassGraph.missing_complete` — when a pass is done, each of its successors misses one pass less.
-/

namespace FramePlan

/-- A count drops by one when exactly one entry stops to count. -/
theorem countP_eq_succ {α : Type} {xs : List α} {x : α} {before after : α → Bool}
    (hnodup : xs.Nodup) (hx : x ∈ xs) (hbefore : before x) (hafter : ¬ after x)
    (hsame : ∀ y, y ≠ x → before y = after y) : xs.countP before = xs.countP after + 1 := by
  induction xs with
  | nil => exact absurd hx List.not_mem_nil
  | cons y ys ih =>
      obtain ⟨hy, hys⟩ := List.nodup_cons.mp hnodup
      by_cases hyx : y = x
      · subst hyx
        have hrest : ys.countP before = ys.countP after := by
          refine List.countP_congr fun z hz => ?_
          rw [hsame z fun hzy => hy (hzy ▸ hz)]
        rw [List.countP_cons_of_pos hbefore, List.countP_cons_of_neg hafter, hrest]
      · have hx' : x ∈ ys := (List.mem_cons.mp hx).resolve_left (Ne.symm hyx)
        simp only [List.countP_cons, hsame y hyx, ih hys hx']
        omega

/-- How many of some passes are not among those that are done. -/
def pending (done ps : List PassId) : Nat := ps.countP fun p => p ∉ done

section Pending

variable {done ps : List PassId} {p : PassId}

theorem pending_nil : pending [] ps = ps.length := by simp [pending]

theorem pending_eq_zero_iff : pending done ps = 0 ↔ ∀ p ∈ ps, p ∈ done := by
  simp [pending, List.countP_eq_zero]

theorem pending_snoc (hnodup : ps.Nodup) (hp : p ∈ ps) (hdone : p ∉ done) :
    pending done ps = pending (done ++ [p]) ps + 1 := by
  apply countP_eq_succ hnodup hp
  · simpa using hdone
  · simp
  · intro q hq
    simp [hq]

theorem pending_snoc_of_not_mem (hp : p ∉ ps) : pending (done ++ [p]) ps = pending done ps := by
  apply List.countP_congr
  intro q hq
  have hne : q ≠ p := fun heq => hp (heq ▸ hq)
  simp [hne]

/-- Passes that are not done are among those that are pending. -/
theorem countP_le_pending {qs : List PassId} {user : PassId → Bool} (hnodup : qs.Nodup)
    (hqs : ∀ q ∈ qs, q ∉ done) (huser : ∀ q, user q → q ∈ ps) :
    qs.countP user ≤ pending done ps := by
  rw [pending, List.countP_eq_length_filter, List.countP_eq_length_filter]
  apply ((hnodup.filter _).subperm _).length_le
  intro q hq
  obtain ⟨hmem, hq⟩ := List.mem_filter.mp hq
  rw [List.mem_filter]
  exact ⟨huser q hq, by simpa using hqs q hmem⟩

end Pending

namespace PassGraph

variable {g : PassGraph} {a b p q : PassId}

theorem hasEdge_iff : g.hasEdge a b ↔ b ∈ g.successors a := by
  simp [hasEdge]

theorem mem_passes_of_hasEdge (h : g.hasEdge a b) : a ∈ g.passes := by
  rw [hasEdge_iff, successors, IdMap.getD] at h
  rw [passes, IdMap.mem_keys]
  cases hget : g.adjacency.get? a with
  | none =>
      rw [hget] at h
      exact absurd h (IdSet.not_mem_empty b)
  | some bs => exact ⟨bs, rfl⟩

/-- Graphs with the same passes and the same edges are the same. -/
theorem eq_of_hasEdge {g' : PassGraph} (hpasses : ∀ p, p ∈ g'.passes ↔ p ∈ g.passes)
    (hedges : ∀ a b, g'.hasEdge a b = g.hasEdge a b) : g' = g := by
  have hsuccessors : ∀ a, g'.successors a = g.successors a := fun a => IdSet.ext fun b => by
    rw [← hasEdge_iff, ← hasEdge_iff, hedges]
  obtain ⟨adjacency⟩ := g
  obtain ⟨adjacency'⟩ := g'
  exact congrArg PassGraph.mk (IdMap.ext_getD hpasses hsuccessors)

/-! ### Graphs built edge by edge -/

theorem mem_passes_edgeless {n : Nat} : p ∈ (edgeless n).passes ↔ p.index < n := by
  rw [passes, IdMap.mem_keys, edgeless]
  simp [IdMap.get?_tabulate]

theorem not_hasEdge_edgeless {n : Nat} : ¬ (edgeless n).hasEdge a b := by
  rw [hasEdge_iff, successors, IdMap.getD, edgeless, IdMap.get?_tabulate]
  split <;> exact IdSet.not_mem_empty b

theorem mem_passes_addEdge : p ∈ (g.addEdge a b).passes ↔ p = a ∨ p ∈ g.passes := by
  simp only [passes, IdMap.mem_keys, addEdge, IdMap.get?_insert]
  by_cases h : p = a <;> simp [h]

theorem hasEdge_addEdge : (g.addEdge a b).hasEdge p q ↔ (p = a ∧ q = b) ∨ g.hasEdge p q := by
  simp only [hasEdge_iff, mem_successors_addEdge]

theorem hasEdge_addEdges {es : List (PassId × PassId)} :
    (g.addEdges es).hasEdge p q ↔ (p, q) ∈ es ∨ g.hasEdge p q := by
  unfold addEdges
  induction es generalizing g with
  | nil => simp
  | cons e es ih =>
      obtain ⟨a, b⟩ := e
      rw [List.foldl_cons, ih, hasEdge_addEdge, List.mem_cons, Prod.mk.injEq]
      constructor
      · rintro (h | h | h)
        · exact Or.inl (Or.inr h)
        · exact Or.inl (Or.inl h)
        · exact Or.inr h
      · rintro ((h | h) | h)
        · exact Or.inr (Or.inl h)
        · exact Or.inl h
        · exact Or.inr (Or.inr h)

/-- Edges between passes of the graph add no pass. -/
theorem mem_passes_addEdges {es : List (PassId × PassId)} (h : ∀ e ∈ es, e.1 ∈ g.passes) :
    p ∈ (g.addEdges es).passes ↔ p ∈ g.passes := by
  unfold addEdges
  induction es generalizing g with
  | nil => rfl
  | cons e es ih =>
      have hpass : ∀ {p}, p ∈ (g.addEdge e.1 e.2).passes ↔ p ∈ g.passes := by
        intro p
        rw [mem_passes_addEdge]
        exact ⟨fun hp => hp.elim (fun heq => heq ▸ h e (by simp)) id, Or.inr⟩
      rw [List.foldl_cons, ih fun e' he' => hpass.mpr (h e' (by simp [he'])), hpass]

theorem length_passes : g.passes.toList.length = g.passCount := by
  unfold passes IdMap.keys passCount IdMap.size
  exact List.length_map _

/-! ### How many predecessors are missing -/

/-- Both ends of every edge are passes of the graph. -/
def Closed (g : PassGraph) : Prop := ∀ a b, g.hasEdge a b → b ∈ g.passes

/-- How many predecessors of a pass are not among those that are done. -/
def missing (g : PassGraph) (done : List PassId) (q : PassId) : Nat :=
  pending done (g.passes.toList.filter fun a => g.hasEdge a q)

theorem mem_predecessors : p ∈ g.passes.toList.filter (fun a => g.hasEdge a q) ↔ g.hasEdge p q := by
  rw [List.mem_filter, IdSet.mem_toList]
  exact ⟨And.right, fun h => ⟨mem_passes_of_hasEdge h, h⟩⟩

theorem missing_nil : g.missing [] q = g.inDegree q := by
  rw [missing, pending_nil, inDegree, List.countP_eq_length_filter]

theorem missing_eq_zero_iff {done : List PassId} :
    g.missing done q = 0 ↔ ∀ a, g.hasEdge a q → a ∈ done := by
  rw [missing, pending_eq_zero_iff]
  simp only [mem_predecessors]

theorem missing_complete {done : List PassId} (hp : p ∉ done) (h : g.hasEdge p q) :
    g.missing done q = g.missing (done ++ [p]) q + 1 :=
  pending_snoc (g.passes.nodup_toList.filter _) (mem_predecessors.mpr h) hp

theorem missing_of_not_hasEdge {done : List PassId} (h : ¬ g.hasEdge p q) :
    g.missing (done ++ [p]) q = g.missing done q :=
  pending_snoc_of_not_mem (mt mem_predecessors.mp h)

/-! ### Paths -/

/-- The first pass is complete before the second starts, by a chain of edges. -/
def Precedes (g : PassGraph) : PassId → PassId → Prop :=
  Relation.TransGen fun a b => g.hasEdge a b

namespace Precedes

theorem of_hasEdge (h : g.hasEdge a b) : g.Precedes a b := Relation.TransGen.single h

theorem trans {c : PassId} (h : g.Precedes a b) (h' : g.Precedes b c) : g.Precedes a c :=
  Relation.TransGen.trans h h'

/-- Passes that have all predecessors in a set, which is closed in turn, have in it whatever
precedes them. -/
theorem mem_of_closed {done : List PassId} (taken : PassId → Prop)
    (hclosed : ∀ q, taken q → ∀ a, g.hasEdge a q → a ∈ done) (hdone : ∀ a ∈ done, taken a)
    (h : g.Precedes a b) (hb : taken b) : a ∈ done := by
  induction h using Relation.TransGen.head_induction_on with
  | single hedge => exact hclosed _ hb _ hedge
  | head hedge _ ih => exact hclosed _ (hdone _ ih) _ hedge

end Precedes

end PassGraph

end FramePlan
