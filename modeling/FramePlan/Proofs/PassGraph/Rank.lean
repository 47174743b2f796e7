import FramePlan.Proofs.PassGraph.Leftover
import FramePlan.Proofs.PassGraph.Queue
import Mathlib.Data.List.MinMax
import Mathlib.Data.Prod.Lex
import Mathlib.Order.Lattice.Nat

/-!
# The order of passes in closed form

A pass that is done releases those of its successors that waited for nothing else any more, and
these queue up in ascending order. So the order of a graph is its sources and then what each pass of
the order releases, and the place of a pass is decided by the last pass that it waits for.

* `PassGraph.order_eq` — the order is its sources and what its passes release.
* `PassGraph.pairwise_order` — the order is sorted by the last passes that its passes wait for.
* `PassGraph.EndsPath.past` — paths to later passes get no shorter.
* `PassGraph.ranked_of_order` — an order that is found ranks the passes of its graph.
-/

namespace FramePlan

/-- A set of positions that has a member and a bound has a greatest member. -/
theorem exists_isGreatest {s : Set Nat} {n b : Nat} (hn : n ∈ s) (hb : ∀ k ∈ s, k ≤ b) :
    ∃ k, IsGreatest s k :=
  ⟨sSup s, Nat.sSup_mem ⟨n, hn⟩ ⟨b, hb⟩, fun _ hk => le_csSup ⟨b, hb⟩ hk⟩

namespace PassGraph

variable {g : PassGraph} {f : Frontier} {order done ps : List PassId} {a p q : PassId}

/-! ### What a pass releases -/

/-- The passes that wait for none, in ascending order. -/
def sources (g : PassGraph) : List PassId := g.passes.toList.filter fun p => g.inDegree p = 0

/-- The passes that wait for this one and otherwise only for those that are done, in ascending
order. -/
def released (g : PassGraph) (done : List PassId) (p : PassId) : List PassId :=
  (g.successors p).toList.filter fun q => g.missing (done ++ [p]) q = 0

/-- What some passes release that are completed one after another. -/
def releasedBy (g : PassGraph) : List PassId → List PassId → List PassId
  | _, [] => []
  | done, p :: ps => g.released done p ++ g.releasedBy (done ++ [p]) ps

theorem mem_sources : p ∈ g.sources ↔ p ∈ g.passes ∧ ∀ a, ¬ g.hasEdge a p := by
  rw [sources, List.mem_filter, IdSet.mem_toList, decide_eq_true_eq, ← missing_nil,
    missing_eq_zero_iff]
  simp only [List.not_mem_nil, imp_false]

theorem mem_released :
    q ∈ g.released done p ↔ g.hasEdge p q ∧ ∀ a, g.hasEdge a q → a ∈ done ++ [p] := by
  rw [released, List.mem_filter, decide_eq_true_eq, missing_eq_zero_iff, hasEdge_iff]
  rfl

theorem releasedBy_snoc :
    g.releasedBy done (ps ++ [p]) = g.releasedBy done ps ++ g.released (done ++ ps) p := by
  induction ps generalizing done with
  | nil => simp [releasedBy]
  | cons x ps ih => simp [releasedBy, ih]

theorem ready_complete {taken : List PassId} (h : f.Sound g taken) (hclosed : g.Closed)
    (hdone : p ∉ f.done) : (f.complete g p).ready = f.ready ++ g.released f.done p :=
  (Frontier.foldl_arrive (f := { f with done := f.done ++ [p] }) (g.missing (f.done ++ [p]))
    (g.successors p).nodup_toList fun _ hq => h.waiting_pos hclosed hdone (hasEdge_iff.mpr hq)).2.2

theorem queue_eq_advance (hclosed : g.Closed) (hstep : g.InStep f)
    (h : f.queue = g.sources ++ g.releasedBy [] f.done) :
    (g.advance f).queue = g.sources ++ g.releasedBy [] (g.advance f).done := by
  rw [advance, Frontier.take?]
  cases hready : f.ready with
  | nil => exact h
  | cons p rest =>
      obtain ⟨hp, htaken⟩ := hstep.1.take hready
      have hqueue : f.done ++ [p] ++ rest = g.sources ++ g.releasedBy [] f.done := by
        rw [← h, Frontier.queue, hready, List.append_assoc, List.singleton_append]
      show (Frontier.complete g { f with ready := rest } p).queue = _ ++ g.releasedBy []
        (Frontier.complete g { f with ready := rest } p).done
      rw [Frontier.queue, ready_complete htaken hclosed hp, Frontier.done_complete, releasedBy_snoc,
        ← List.append_assoc, ← List.append_assoc, hqueue, List.nil_append]

theorem queue_eq_advanceBy (hclosed : g.Closed) (n : Nat) (hstep : g.InStep f)
    (h : f.queue = g.sources ++ g.releasedBy [] f.done) :
    (g.advanceBy n f).queue = g.sources ++ g.releasedBy [] (g.advanceBy n f).done := by
  induction n generalizing f with
  | zero => exact h
  | succ n ih => exact ih (inStep_advance hclosed hstep) (queue_eq_advance hclosed hstep h)

/-- **The order is its sources and then what each of its passes releases.** -/
theorem order_eq (hclosed : g.Closed) (h : g.order = .ok order) :
    order = g.sources ++ g.releasedBy [] order := by
  have hqueue := queue_eq_advanceBy hclosed g.passCount (inStep_start (g := g))
    (List.append_nil g.sources).symm
  have hdone := done_exhausted h
  rw [exhausted] at hdone
  rw [hdone] at hqueue
  exact (queue_exhausted hclosed h).symm.trans hqueue

/-! ### The order is sorted by rank -/

/-- The position of the last pass that a pass waits for, or nothing if it waits for none. -/
def latest (g : PassGraph) (order : List PassId) (q : PassId) : WithBot Nat :=
  ((g.passes.toList.filter fun a => g.hasEdge a q).map order.idxOf).maximum

/-- Passes come by the last pass that they wait for, and then by id. -/
def rank (g : PassGraph) (order : List PassId) (q : PassId) : WithBot Nat ×ₗ Nat :=
  toLex (g.latest order q, q.index)

theorem latest_eq_bot_iff : g.latest order q = ⊥ ↔ ∀ a, ¬ g.hasEdge a q := by
  rw [latest, List.maximum_eq_bot, List.map_eq_nil_iff, List.eq_nil_iff_forall_not_mem]
  exact forall_congr' fun a => not_congr mem_predecessors

theorem latest_eq_coe_iff {n : Nat} : g.latest order q = WithBot.some n ↔
    (∃ a, g.hasEdge a q ∧ order.idxOf a = n) ∧ ∀ a, g.hasEdge a q → order.idxOf a ≤ n := by
  rw [latest, List.maximum_eq_coe_iff]
  simp only [List.mem_map, mem_predecessors, forall_exists_index, and_imp,
    forall_apply_eq_imp_iff₂]

/-- **A pass is released by the last pass that it waits for.** -/
theorem latest_of_released (hnodup : order.Nodup) (hsplit : order = done ++ p :: ps)
    (hq : q ∈ g.released done p) : g.latest order q = WithBot.some done.length := by
  obtain ⟨hedge, honly⟩ := mem_released.mp hq
  have hfresh : p ∉ done := by
    rw [hsplit] at hnodup
    exact fun hp => (List.nodup_append.mp hnodup).2.2 p hp p List.mem_cons_self rfl
  have hpos : order.idxOf p = done.length := by
    rw [hsplit, List.idxOf_append_of_notMem hfresh, List.idxOf_cons_self, Nat.add_zero]
  refine latest_eq_coe_iff.mpr ⟨⟨p, hedge, hpos⟩, fun a ha => ?_⟩
  rcases List.mem_append.mp (honly a ha) with ha | ha
  · rw [hsplit, List.idxOf_append_of_mem ha]
    exact Nat.le_of_lt (List.idxOf_lt_length_of_mem ha)
  · rw [List.mem_singleton.mp ha, hpos]

theorem exists_late (hnodup : order.Nodup) (hsplit : order = done ++ ps)
    (hq : q ∈ g.releasedBy done ps) :
    ∃ n, done.length ≤ n ∧ g.latest order q = WithBot.some n := by
  induction ps generalizing done with
  | nil => exact absurd hq List.not_mem_nil
  | cons p ps ih =>
      rcases List.mem_append.mp hq with hq | hq
      · exact ⟨_, Nat.le_refl _, latest_of_released hnodup hsplit hq⟩
      · obtain ⟨n, hn, hlatest⟩ := ih (by rw [hsplit, List.append_cons]) hq
        rw [List.length_append] at hn
        exact ⟨n, Nat.le_of_add_right_le hn, hlatest⟩

theorem pairwise_releasedBy (hnodup : order.Nodup) (hsplit : order = done ++ ps) :
    (g.releasedBy done ps).Pairwise (fun p q => g.rank order p < g.rank order q) := by
  induction ps generalizing done with
  | nil => exact .nil
  | cons p ps ih =>
      have hrest : order = (done ++ [p]) ++ ps := by rw [hsplit, List.append_cons]
      have hlatest : ∀ x ∈ g.released done p, g.latest order x = WithBot.some done.length :=
        fun x hx => latest_of_released hnodup hsplit hx
      refine List.pairwise_append.mpr ⟨?_, ih hrest, fun x hx y hy => ?_⟩
      · refine ((g.successors p).ascending.filter _).imp_of_mem fun {x y} hx hy hlt => ?_
        exact Prod.Lex.toLex_lt_toLex.mpr (Or.inr ⟨(hlatest x hx).trans (hlatest y hy).symm, hlt⟩)
      · obtain ⟨n, hn, hy⟩ := exists_late hnodup hrest hy
        rw [List.length_append] at hn
        refine Prod.Lex.toLex_lt_toLex.mpr (Or.inl ?_)
        rw [hlatest x hx, hy]
        exact WithBot.coe_lt_coe.mpr hn

/-- **The order is sorted by rank.** -/
theorem pairwise_order (hclosed : g.Closed) (h : g.order = .ok order) :
    order.Pairwise (fun p q => g.rank order p < g.rank order q) := by
  have hnodup := (order_ok hclosed h).1
  have hsource : ∀ x ∈ g.sources, g.latest order x = ⊥ :=
    fun x hx => latest_eq_bot_iff.mpr (mem_sources.mp hx).2
  have hsorted : (g.sources ++ g.releasedBy [] order).Pairwise
      (fun p q => g.rank order p < g.rank order q) := by
    refine List.pairwise_append.mpr ⟨?_, pairwise_releasedBy hnodup rfl, fun x hx y hy => ?_⟩
    · refine (g.passes.ascending.filter _).imp_of_mem fun {x y} hx hy hlt => ?_
      exact Prod.Lex.toLex_lt_toLex.mpr (Or.inr ⟨(hsource x hx).trans (hsource y hy).symm, hlt⟩)
    · obtain ⟨n, _, hy⟩ := exists_late hnodup rfl hy
      refine Prod.Lex.toLex_lt_toLex.mpr (Or.inl ?_)
      rw [hsource x hx, hy]
      exact WithBot.bot_lt_coe n
  rwa [← order_eq hclosed h] at hsorted

/-- Positions in the order compare as ranks do. -/
theorem idxOf_lt_iff_rank_lt (hclosed : g.Closed) (h : g.order = .ok order) (hp : p ∈ order)
    (hq : q ∈ order) : order.idxOf p < order.idxOf q ↔ g.rank order p < g.rank order q := by
  have hpairwise := List.pairwise_iff_getElem.mp (pairwise_order hclosed h)
  have hbefore : ∀ {x y}, x ∈ order → y ∈ order → order.idxOf x < order.idxOf y →
      g.rank order x < g.rank order y := by
    intro x y hx hy hlt
    have hxy := hpairwise _ _ (List.idxOf_lt_length_of_mem hx) (List.idxOf_lt_length_of_mem hy) hlt
    rwa [List.getElem_idxOf, List.getElem_idxOf] at hxy
  refine ⟨hbefore hp hq, fun hlt => ?_⟩
  rcases Nat.lt_trichotomy (order.idxOf p) (order.idxOf q) with hpq | heq | hqp
  · exact hpq
  · cases (List.idxOf_inj hp).mp heq
    exact absurd hlt (lt_irrefl _)
  · exact absurd hlt (lt_asymm (hbefore hq hp hqp))

/-! ### Paths -/

/-- A path of so many edges ends in the pass. -/
inductive EndsPath (g : PassGraph) : Nat → PassId → Prop
  | nil (p : PassId) : EndsPath g 0 p
  | snoc {n : Nat} {a p : PassId} : EndsPath g n a → g.hasEdge a p → EndsPath g (n + 1) p

/-- The lengths of the paths that end in a pass. -/
def pathLengths (g : PassGraph) (p : PassId) : Set Nat := {n | g.EndsPath n p}

namespace EndsPath

variable {n : Nat}

theorem le_idxOf (h : g.EndsPath n p) (hrespects : g.Respects order) (hp : p ∈ order) :
    n ≤ order.idxOf p := by
  induction h with
  | nil => exact Nat.zero_le _
  | snoc _ hedge ih =>
      have hlt := hrespects.idxOf_lt_of_hasEdge hp hedge
      exact Nat.lt_of_le_of_lt (ih (hrespects.mem_of_hasEdge hp hedge)) hlt

/-- **As long as a path to a pass is, so long is some path to each pass behind it.** -/
theorem past (h : g.EndsPath n p) (hclosed : g.Closed) (horder : g.order = .ok order)
    (hp : p ∈ order) (hq : q ∈ order) (hle : order.idxOf p ≤ order.idxOf q) : g.EndsPath n q := by
  obtain ⟨_, _, hrespects⟩ := order_ok hclosed horder
  induction h generalizing q with
  | nil => exact .nil q
  | @snoc n a p hpath hedge ih =>
      rcases Nat.eq_or_lt_of_le hle with heq | hlt
      · cases (List.idxOf_inj hp).mp heq
        exact .snoc hpath hedge
      · -- The last pass that `q` waits for is not before the one that `p` waits for.
        have hrank := (idxOf_lt_iff_rank_lt hclosed horder hp hq).mp hlt
        have hlatest : g.latest order p ≤ g.latest order q := Prod.Lex.monotone_fst_ofLex hrank.le
        have ha : WithBot.some (order.idxOf a) ≤ g.latest order p :=
          List.le_maximum_of_mem' (List.mem_map_of_mem (mem_predecessors.mpr hedge))
        obtain ⟨k, hk⟩ := WithBot.ne_bot_iff_exists.mp
          (ne_bot_of_le_ne_bot WithBot.coe_ne_bot (ha.trans hlatest))
        obtain ⟨⟨b, hb, hbk⟩, _⟩ := latest_eq_coe_iff.mp hk.symm
        refine .snoc (ih (hrespects.mem_of_hasEdge hp hedge) (hrespects.mem_of_hasEdge hq hb) ?_) hb
        rw [hbk, ← WithBot.coe_le_coe, hk]
        exact ha.trans hlatest

end EndsPath

/-! ### The ranks of passes -/

/-- The positions of what a pass waits for. -/
def awaited (g : PassGraph) (order : List PassId) (q : PassId) : Set Nat :=
  {k | ∃ a, order[k]? = some a ∧ g.hasEdge a q}

theorem latest_of_isGreatest {n : Nat} (hnodup : order.Nodup) (hrespects : g.Respects order)
    (hq : q ∈ order) (h : IsGreatest (g.awaited order q) n) :
    g.latest order q = WithBot.some n := by
  obtain ⟨⟨a, ha, hedge⟩, hle⟩ := h
  obtain ⟨hn, rfl⟩ := List.getElem?_eq_some_iff.mp ha
  refine latest_eq_coe_iff.mpr ⟨⟨_, hedge, hnodup.idxOf_getElem n hn⟩, fun b hb => ?_⟩
  exact hle ⟨b, List.getElem?_idxOf (hrespects.mem_of_hasEdge hq hb), hb⟩

/-- The order in which passes come that are worked off as they get ready. -/
structure Ranked (g : PassGraph) (order : List PassId) : Prop where
  /-- The passes that wait for none come first. -/
  sources_first : ∀ {p q}, p ∈ order → q ∈ order → (∀ a, ¬ g.hasEdge a p) →
    (∃ a, g.hasEdge a q) → order.idxOf p < order.idxOf q
  sources_ascend : ∀ {p q}, p ∈ order → q ∈ order → (∀ a, ¬ g.hasEdge a p) →
    (∀ a, ¬ g.hasEdge a q) → (order.idxOf p < order.idxOf q ↔ p.index < q.index)
  exists_latest : ∀ {p}, p ∈ order → (∃ a, g.hasEdge a p) →
    ∃ m, IsGreatest (g.awaited order p) m
  /-- The others come by the last pass that they wait for, and then by id. -/
  latest_decides : ∀ {p q m n}, p ∈ order → q ∈ order → IsGreatest (g.awaited order p) m →
    IsGreatest (g.awaited order q) n →
    (order.idxOf p < order.idxOf q ↔ m < n ∨ m = n ∧ p.index < q.index)
  exists_longest : ∀ {p}, p ∈ order → ∃ d, IsGreatest (g.pathLengths p) d
  /-- The longest path to a pass is no longer than that to any pass behind it. -/
  longest_le : ∀ {p q d e}, p ∈ order → q ∈ order → order.idxOf p ≤ order.idxOf q →
    IsGreatest (g.pathLengths p) d → IsGreatest (g.pathLengths q) e → d ≤ e

/-- **An order that is found ranks the passes of its graph.** -/
theorem ranked_of_order (hclosed : g.Closed) (h : g.order = .ok order) : g.Ranked order := by
  obtain ⟨hnodup, _, hrespects⟩ := order_ok hclosed h
  have hiff : ∀ {p q}, p ∈ order → q ∈ order → (order.idxOf p < order.idxOf q ↔
      g.latest order p < g.latest order q ∨ g.latest order p = g.latest order q ∧
        p.index < q.index) :=
    fun hp hq => (idxOf_lt_iff_rank_lt hclosed h hp hq).trans Prod.Lex.toLex_lt_toLex
  constructor
  case sources_first =>
    rintro p q hp hq hnone ⟨a, ha⟩
    have hq' : g.latest order q ≠ ⊥ := fun hbot => latest_eq_bot_iff.mp hbot a ha
    rw [hiff hp hq, latest_eq_bot_iff.mpr hnone]
    exact Or.inl (WithBot.bot_lt_iff_ne_bot.mpr hq')
  case sources_ascend =>
    intro p q hp hq hnone hnone'
    rw [hiff hp hq, latest_eq_bot_iff.mpr hnone, latest_eq_bot_iff.mpr hnone']
    simp
  case exists_latest =>
    rintro p hp ⟨a, ha⟩
    have hmem := hrespects.mem_of_hasEdge hp ha
    refine exists_isGreatest (b := order.length) ⟨a, List.getElem?_idxOf hmem, ha⟩ ?_
    rintro k ⟨b, hb, _⟩
    exact Nat.le_of_lt (List.getElem?_eq_some_iff.mp hb).1
  case latest_decides =>
    intro p q m n hp hq hm hn
    rw [hiff hp hq, latest_of_isGreatest hnodup hrespects hp hm,
      latest_of_isGreatest hnodup hrespects hq hn, WithBot.coe_lt_coe, WithBot.coe_inj]
  case exists_longest =>
    exact fun {p} hp => exists_isGreatest (EndsPath.nil p) fun _ hn => hn.le_idxOf hrespects hp
  case longest_le => exact fun hp hq hle hd he => he.2 (hd.1.past hclosed h hp hq hle)

end PassGraph

end FramePlan
