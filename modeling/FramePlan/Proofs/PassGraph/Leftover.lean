import FramePlan.Proofs.Outcome
import FramePlan.Proofs.PassGraph.Acyclic

/-!
# Passes that are left over

When nothing is ready any more, each pass that is left waits for another one that is left. Walking
back from one of them comes to a cycle, so what is left over is what lies on a cycle or behind one.

* `PassGraph.mem_blocked_iff` — the passes that are left over are those on a cycle or behind one.
* `PassGraph.sortInto_eq` — an order that is put into a list at hand leaves no trace of what the
  list held, and none of itself if it stops early.
* `PassGraph.sortInto_exact` — how sorting ends, for every graph of the first `n` passes.
-/

namespace FramePlan

namespace Frontier

variable {g : PassGraph} {f : Frontier} {p q x : PassId}

theorem done_foldl_arrive (qs : List PassId) : (qs.foldl arrive f).done = f.done := by
  induction qs generalizing f with
  | nil => rfl
  | cons q qs ih =>
      rw [List.foldl_cons, ih, arrive]
      split <;> rfl

theorem done_complete : (f.complete g p).done = f.done ++ [p] :=
  done_foldl_arrive (g.successors p).toList

/-- An arrival counts down what is counted and counts nothing else. -/
theorem contains_arrive : (f.arrive q).waiting.contains x = f.waiting.contains x := by
  rw [arrive]
  split
  · next n hq =>
    rw [IdMap.contains, IdMap.contains, IdMap.get?_insert]
    by_cases hx : x = q
    · rw [if_pos hx, hx, hq]
      rfl
    · rw [if_neg hx]
  · rfl

theorem contains_foldl_arrive (qs : List PassId) :
    (qs.foldl arrive f).waiting.contains x = f.waiting.contains x := by
  induction qs generalizing f with
  | nil => rfl
  | cons q qs ih => rw [List.foldl_cons, ih, contains_arrive]

theorem mem_blocked : p ∈ f.blocked ↔ ∃ n, f.waiting.get? p = some n ∧ n ≠ 0 := by
  rw [blocked, List.mem_map]
  constructor
  · rintro ⟨⟨q, n⟩, hmem, rfl⟩
    obtain ⟨hentry, hn⟩ := List.mem_filter.mp hmem
    exact ⟨n, IdMap.mem_entries.mp hentry, of_decide_eq_true hn⟩
  · rintro ⟨n, hget, hn⟩
    exact ⟨(p, n), List.mem_filter.mpr ⟨IdMap.mem_entries.mpr hget, decide_eq_true hn⟩, rfl⟩

theorem ascending_blocked : f.blocked.Pairwise (·.index < ·.index) :=
  List.pairwise_map.mpr (f.waiting.ascending.filter _)

end Frontier

namespace PassGraph

variable {g : PassGraph} {f : Frontier} {p c : PassId}

/-! ### What is left over -/

/-- Some pass on a cycle is the pass, or comes before it. -/
def Trapped (g : PassGraph) (p : PassId) : Prop := ∃ c, g.Precedes c c ∧ (c = p ∨ g.Precedes c p)

theorem contains_advanceBy (n : Nat) :
    (g.advanceBy n f).waiting.contains p = f.waiting.contains p := by
  induction n generalizing f with
  | zero => rfl
  | succ n ih =>
      rw [advanceBy, ih, advance, Frontier.take?]
      cases f.ready with
      | nil => rfl
      | cons q rest => exact Frontier.contains_foldl_arrive _

/-- Only passes of the graph are counted. -/
theorem mem_passes_of_waiting {n : Nat} (h : g.exhausted.waiting.get? p = some n) :
    p ∈ g.passes := by
  have hcontains : g.exhausted.waiting.contains p := IdMap.contains_iff.mpr ⟨n, h⟩
  rw [exhausted, contains_advanceBy] at hcontains
  obtain ⟨m, hm⟩ := IdMap.contains_iff.mp hcontains
  rw [Frontier.start, inDegrees, IdMap.get?_tabulate] at hm
  split at hm
  · next hp => exact hp
  · cases hm

/-- The passes that still wait are those that are not done. -/
theorem mem_blocked_iff_not_done (hclosed : g.Closed) (hready : g.exhausted.ready = []) :
    p ∈ g.exhausted.blocked ↔ p ∈ g.passes ∧ p ∉ g.exhausted.done := by
  have hsound := sound_exhausted hclosed
  rw [Frontier.mem_blocked]
  constructor
  · rintro ⟨n, hget, hn⟩
    have hp := mem_passes_of_waiting hget
    refine ⟨hp, fun hdone => hn ?_⟩
    rw [hsound.waiting p hp] at hget
    cases hget
    exact missing_eq_zero_iff.mpr ((hsound.reached p).mp (Or.inr hdone)).2
  · rintro ⟨hp, hdone⟩
    refine ⟨_, hsound.waiting p hp, fun hzero => ?_⟩
    obtain ⟨a, hedge, ha⟩ := exists_missing hclosed hready hp hdone
    exact ha (missing_eq_zero_iff.mp hzero a hedge)

/-- Walking back from a pass that is left over comes to a cycle. -/
theorem trapped_of_not_done (hclosed : g.Closed) (hready : g.exhausted.ready = [])
    (hp : p ∈ g.passes) (hdone : p ∉ g.exhausted.done) : g.Trapped p := by
  classical
  by_contra hfree
  let behind := g.passes.toList.filter fun q =>
    decide (q ∉ g.exhausted.done ∧ (q = p ∨ g.Precedes q p))
  have hmem : ∀ {q}, q ∈ behind ↔
      q ∈ g.passes ∧ q ∉ g.exhausted.done ∧ (q = p ∨ g.Precedes q p) := by
    intro q
    rw [List.mem_filter, IdSet.mem_toList, decide_eq_true_eq]
  have hnonempty : behind ≠ [] := List.ne_nil_of_mem (hmem.mpr ⟨hp, hdone, Or.inl rfl⟩)
  have hacyclic : ∀ q ∈ behind, ¬ g.Precedes q q := fun q hq hcycle =>
    hfree ⟨q, hcycle, (hmem.mp hq).2.2⟩
  obtain ⟨q, hq, hfirst⟩ := exists_first hacyclic hnonempty
  obtain ⟨hpass, hqdone, hqp⟩ := hmem.mp hq
  obtain ⟨a, hedge, ha⟩ := exists_missing hclosed hready hpass hqdone
  refine hfirst a (hmem.mpr ⟨mem_passes_of_hasEdge hedge, ha, Or.inr ?_⟩) (.of_hasEdge hedge)
  rcases hqp with rfl | hqp
  · exact .of_hasEdge hedge
  · exact (Precedes.of_hasEdge hedge).trans hqp

/-- No pass on a cycle or behind one is worked off. -/
theorem not_done_of_trapped (hclosed : g.Closed) (h : g.Trapped p) : p ∉ g.exhausted.done := by
  obtain ⟨_, hrespects⟩ := inStep_advanceBy hclosed g.passCount (inStep_start (g := g))
  obtain ⟨c, hcycle, hcp⟩ := h
  intro hp
  have hc : c ∈ g.exhausted.done := by
    rcases hcp with rfl | hcp
    · exact hp
    · exact (sound_exhausted hclosed).done_of_precedes hcp hp
  exact Nat.lt_irrefl _ (hrespects.idxOf_lt hc hcycle)

theorem mem_passes_of_trapped (hclosed : g.Closed) (h : g.Trapped p) : p ∈ g.passes := by
  obtain ⟨c, hcycle, rfl | hcp⟩ := h
  · obtain ⟨a, hedge, _⟩ := Relation.TransGen.head'_iff.mp hcycle
    exact mem_passes_of_hasEdge hedge
  · obtain ⟨a, _, hedge⟩ := Relation.TransGen.tail'_iff.mp hcp
    exact hclosed a p hedge

/-- **The passes that are left over are those on a cycle or behind one.** -/
theorem mem_blocked_iff (hclosed : g.Closed) (hready : g.exhausted.ready = []) :
    p ∈ g.exhausted.blocked ↔ g.Trapped p := by
  rw [mem_blocked_iff_not_done hclosed hready]
  constructor
  · rintro ⟨hp, hdone⟩
    exact trapped_of_not_done hclosed hready hp hdone
  · intro h
    exact ⟨mem_passes_of_trapped hclosed h, not_done_of_trapped hclosed h⟩

/-- What the error says when there is no order. -/
theorem order_error (hclosed : g.Closed) {e : PlanError} (h : g.order = .error e) :
    ∃ remaining, e = .notADag remaining ∧ remaining.Pairwise (·.index < ·.index) ∧
      ∀ p, p ∈ remaining ↔ g.Trapped p := by
  rw [order] at h
  split at h
  · cases h
  · next hlength =>
    cases h
    exact ⟨_, rfl, Frontier.ascending_blocked, fun p =>
      mem_blocked_iff hclosed (ready_exhausted hclosed hlength)⟩

/-! ### Orders that are put into a list at hand -/

/-- A list at hand that holds the passes that are done holds them in the end. -/
theorem drain_eq (n : Nat) (f : Frontier) :
    g.drain n f f.done = .ok (g.advanceBy n f) (g.advanceBy n f).done := by
  induction n generalizing f with
  | zero => rfl
  | succ n ih =>
      rw [drain, advanceBy, advance]
      cases htake : f.take? with
      | none =>
          have hready : f.ready = [] := by
            unfold Frontier.take? at htake
            split at htake
            · next hnil => exact hnil
            · cases htake
          simp only [advanceBy_of_ready_nil hready]
          rfl
      | some taken =>
          obtain ⟨p, rest⟩ := taken
          have hdone : rest.done = f.done := by
            unfold Frontier.take? at htake
            split at htake
            · cases htake
            · cases htake
              rfl
          have hrest := ih (rest.complete g p)
          rw [Frontier.done_complete, hdone] at hrest
          exact hrest

/-- **A list at hand ends up with the order, or empty**, whatever it held before. -/
theorem sortInto_eq (before : List PassId) : g.sortInto before =
    match g.order with
    | .ok order => .ok () order
    | .error e => .error e [] := by
  have hdrain := drain_eq (g := g) g.passCount (.start g g.passes.toList)
  have hsort : g.sortInto before = (if g.exhausted.done.length = g.passCount then pure ()
      else do
        set ([] : List PassId)
        throw (.notADag g.exhausted.blocked) : EStateM PlanError (List PassId) Unit)
      g.exhausted.done := bind_of_ok hdrain
  rw [hsort, order]
  by_cases hlength : g.exhausted.done.length = g.passCount
  · simp only [if_pos hlength]
    rfl
  · simp only [if_neg hlength]
    rfl

/-! ### How sorting ends -/

/-- How the first `n` passes end up in a list at hand. -/
structure SortsExactly (g : PassGraph) (n : Nat) (before : List PassId) : Prop where
  /-- There is an order just when no pass precedes itself. -/
  ok_iff : (∃ order, g.sortInto before = .ok () order) ↔ ∀ p, ¬ g.Precedes p p
  /-- The order has each pass once, and after those that it waits for. -/
  ordered : ∀ {order}, g.sortInto before = .ok () order →
    order.Perm (NodeId.firstN .pass n) ∧ ∀ a b, g.hasEdge a b → order.idxOf a < order.idxOf b
  /-- Without an order the list is empty, and the error has the passes on a cycle or behind one. -/
  leftover : ∀ {e after}, g.sortInto before = .error e after →
    after = [] ∧ ∃ remaining, e = .notADag remaining ∧
      remaining.Pairwise (·.index < ·.index) ∧ ∀ p, p ∈ remaining ↔ g.Trapped p
  /-- A plan gets the same answer. -/
  agrees : g.sortInto before =
    match g.order with
    | .ok order => .ok () order
    | .error e => .error e []

/-- **How sorting ends**, for every graph of the first `n` passes and whatever the list at hand
held. -/
theorem sortInto_exact {n : Nat} (hpasses : g.passes = .firstN .pass n)
    (hedges : ∀ a b, g.hasEdge a b → b.index < n) (before : List PassId) :
    g.SortsExactly n before := by
  have hclosed : g.Closed := by
    intro a b hab
    rw [hpasses, IdSet.mem_firstN]
    exact hedges a b hab
  have hmem : ∀ p, p ∈ g.passes ↔ p ∈ NodeId.firstN .pass n := by
    intro p
    rw [hpasses, IdSet.mem_firstN, NodeId.mem_firstN]
  have hfirst : (NodeId.firstN .pass n).Nodup := (IdSet.firstN .pass n).nodup_toList
  cases horder : g.order with
  | ok order =>
      have hsort : g.sortInto before = .ok () order := by rw [sortInto_eq, horder]
      obtain ⟨hnodup, hpass, hrespects⟩ := order_ok hclosed horder
      refine ⟨iff_of_true ⟨order, hsort⟩ fun p hp => ?_, fun {order'} h => ?_, fun h => ?_,
        sortInto_eq before⟩
      · rcases order_cases hclosed with ⟨_, _, hacyclic⟩ | ⟨_, herror, _⟩
        · exact hacyclic p hp
        · cases horder.symm.trans herror
      · cases hsort.symm.trans h
        refine ⟨(List.perm_ext_iff_of_nodup hnodup hfirst).mpr fun p => ?_, fun a b hab => ?_⟩
        · rw [hpass, hmem]
        · exact hrespects.idxOf_lt_of_hasEdge ((hpass b).mpr (hclosed a b hab)) hab
      · cases hsort.symm.trans h
  | error e =>
      have hsort : g.sortInto before = .error e [] := by rw [sortInto_eq, horder]
      refine ⟨iff_of_false ?_ fun hacyclic => ?_, fun h => ?_, fun {e' after} h => ?_,
        sortInto_eq before⟩
      · rintro ⟨order, h⟩
        cases hsort.symm.trans h
      · rcases order_cases hclosed with ⟨_, hok, _⟩ | ⟨_, _, p, hp⟩
        · cases horder.symm.trans hok
        · exact hacyclic p hp
      · cases hsort.symm.trans h
      · cases hsort.symm.trans h
        exact ⟨rfl, order_error hclosed horder⟩

/-- Three passes wait for each other in a ring, a fourth one for the last of them, and a fifth one
for none. -/
def ring : PassGraph :=
  (edgeless 5).addEdges [(⟨0⟩, ⟨1⟩), (⟨1⟩, ⟨2⟩), (⟨2⟩, ⟨0⟩), (⟨2⟩, ⟨4⟩)]

/-- The ring is left over with the pass behind it, and the list at hand is emptied. -/
theorem sortInto_exact_ring : ring.SortsExactly 5 [⟨9⟩] ∧
    ring.sortInto [⟨9⟩] = .error (.notADag [⟨0⟩, ⟨1⟩, ⟨2⟩, ⟨4⟩]) [] := by
  refine ⟨sortInto_exact (by decide) (fun a b hab => ?_) _, rfl⟩
  rcases hasEdge_addEdges.mp hab with hmem | hnone
  · revert hmem
    simp only [List.mem_cons, Prod.mk.injEq, List.not_mem_nil, or_false]
    rintro (⟨_, rfl⟩ | ⟨_, rfl⟩ | ⟨_, rfl⟩ | ⟨_, rfl⟩) <;> decide
  · exact absurd hnone not_hasEdge_edgeless

end PassGraph

end FramePlan
