import FramePlan.PassGraph.Countdown
import FramePlan.Proofs.PassGraph.Leftover
import FramePlan.Proofs.PassGraph.Queue

/-!
# Counts are there and do not go below zero

A countdown keeps what a frontier keeps, with the counts in a list. In a graph of the first `n`
passes each look-up finds a count, and a count that is lowered is positive, as it is the number of
predecessors that are missing, one of which was just taken. This holds of every graph, with or
without cycles, and no pass is queued twice, so the queue is empty after `n` rounds at the latest.

* `Countdown.prepare_eq`, `Countdown.rounds_eq` — a countdown does what a frontier does.
* `Countdown.counts_down` — nothing goes wrong, for every graph of the first `n` passes.
-/

namespace FramePlan

namespace Countdown

variable {g : PassGraph} {n : Nat} {f : Frontier} {p q : PassId} {c : Countdown}

/-- The counts of the first `n` passes, in a list. -/
def listed (n : Nat) (count : PassId → Nat) : List Nat := (NodeId.firstN .pass n).map count

/-- What a frontier of the first `n` passes keeps, with the counts in a list. -/
def ofFrontier (n : Nat) (f : Frontier) : Countdown :=
  ⟨f.done, listed n fun p => f.waiting.getD p 0, f.ready⟩

theorem getElem?_listed {count : PassId → Nat} (hp : p.index < n) :
    (listed n count)[p.index]? = some (count p) := by
  rw [listed, List.getElem?_map, NodeId.getElem?_firstN, if_pos hp]
  rfl

theorem set_listed {count : PassId → Nat} {m : Nat} (hp : p.index < n) :
    (listed n count).set p.index m = listed n (Function.update count p m) := by
  refine List.ext_getElem? fun i => ?_
  rw [List.getElem?_set, listed, listed, List.getElem?_map, List.getElem?_map,
    NodeId.getElem?_firstN ⟨i⟩, List.length_map]
  by_cases hi : p.index = i
  · subst hi
    rw [if_pos rfl, if_pos hp, Option.map_some, Function.update_self]
    exact if_pos (by simpa [NodeId.firstN] using hp)
  · have hne : (⟨i⟩ : PassId) ≠ p := fun heq => hi (congrArg NodeId.index heq).symm
    rw [if_neg hi]
    split
    · rw [Option.map_some, Option.map_some, Function.update_of_ne hne]
    · rfl

/-- A count that is there is found. -/
theorem countOf_listed {order queue : List PassId} {count : PassId → Nat} (hp : p.index < n) :
    countOf p ⟨order, listed n count, queue⟩ = .ok (count p) ⟨order, listed n count, queue⟩ := by
  unfold countOf
  rw [get_bind, getElem?_listed hp]
  rfl

/-! ### The start -/

theorem raise_listed {order queue : List PassId} {count : PassId → Nat} (hp : p.index < n) :
    raise p ⟨order, listed n count, queue⟩ =
      .ok () ⟨order, listed n (Function.update count p (count p + 1)), queue⟩ := by
  refine (bind_of_ok (countOf_listed hp)).trans ?_
  exact congrArg (fun counts => EStateM.Result.ok () (Countdown.mk order counts queue))
    (set_listed hp)

theorem seed_listed {order queue : List PassId} {count : PassId → Nat} (hp : p.index < n) :
    seed p ⟨order, listed n count, queue⟩ =
      .ok () ⟨order, listed n count, if count p = 0 then queue ++ [p] else queue⟩ := by
  refine (bind_of_ok (countOf_listed hp)).trans ?_
  by_cases hzero : count p = 0
  · rw [if_pos hzero, if_pos hzero]
    rfl
  · rw [if_neg hzero, if_neg hzero]
    rfl

/-- Raising the counts along a list of edges counts them by the pass that they lead to. -/
theorem foldl_raise {edges : List (PassId × PassId)} {count : PassId → Nat} :
    edges.foldl (fun count e => Function.update count e.2 (count e.2 + 1)) count p =
      count p + edges.countP fun e => e.2 = p := by
  induction edges generalizing count with
  | nil => rfl
  | cons e edges ih =>
      rw [List.foldl_cons, ih, List.countP_cons]
      by_cases hp : e.2 = p
      · subst hp
        simp only [Function.update_self, decide_true, if_true]
        omega
      · rw [Function.update_of_ne (Ne.symm hp)]
        simp [hp]

theorem foldl_seed {ps queue : List PassId} {count : PassId → Nat} :
    ps.foldl (fun queue p => if count p = 0 then queue ++ [p] else queue) queue =
      queue ++ ps.filter fun p => count p = 0 := by
  induction ps generalizing queue with
  | nil => exact (List.append_nil queue).symm
  | cons p ps ih =>
      rw [List.foldl_cons, ih, List.filter_cons]
      by_cases hzero : count p = 0 <;> simp [hzero]

end Countdown

namespace PassGraph

variable {g : PassGraph} {n : Nat} {a b p : PassId}

theorem mem_edges_iff : (a, b) ∈ g.edges ↔ g.hasEdge a b := by
  rw [edges, hasEdge_iff, successors, IdMap.getD]
  simp only [List.mem_flatMap, List.mem_map, Prod.mk.injEq, Prod.exists, IdMap.mem_entries]
  constructor
  · rintro ⟨_, bs, hget, _, hb, rfl, rfl⟩
    rw [hget]
    exact hb
  · intro hb
    cases hget : g.adjacency.get? a with
    | none =>
        rw [hget] at hb
        exact absurd hb (IdSet.not_mem_empty b)
    | some bs =>
        rw [hget] at hb
        exact ⟨a, bs, hget, b, hb, rfl, rfl⟩

/-- Of the edges from several passes, those that lead to a pass are as many as the passes that it is
a successor of. -/
theorem countP_pairs {entries : List (PassId × IdSet .pass)} :
    ((entries.flatMap fun (a, bs) => bs.toList.map fun b => (a, b)).countP fun e => e.2 = p) =
      entries.countP fun e => p ∈ e.2 := by
  induction entries with
  | nil => rfl
  | cons e entries ih =>
      have hfirst : ((e.2.toList.map fun b => (e.1, b)).countP fun e => e.2 = p) =
          if p ∈ e.2 then 1 else 0 := by
        rw [List.countP_map]
        show e.2.toList.count p = _
        split
        · next hp => exact List.count_eq_one_of_mem e.2.nodup_toList hp
        · next hp => exact List.count_eq_zero_of_not_mem hp
      rw [List.flatMap_cons, List.countP_append, ih, List.countP_cons, hfirst, Nat.add_comm]
      simp

/-- As many edges lead to a pass as it has predecessors. -/
theorem countP_edges : (g.edges.countP fun e => e.2 = p) = g.inDegree p := by
  rw [edges, countP_pairs, inDegree, passes, IdMap.keys, List.countP_map]
  refine List.countP_congr fun e he => ?_
  have hget : g.successors e.1 = e.2 := congrArg (Option.getD · ∅) (IdMap.mem_entries.mp he)
  rw [Function.comp_apply, hasEdge_iff, hget, decide_eq_true_eq]

/-! ### More rounds than passes -/

theorem advanceBy_add {f : Frontier} (m k : Nat) :
    g.advanceBy (m + k) f = g.advanceBy k (g.advanceBy m f) := by
  induction m generalizing f with
  | zero => rw [Nat.zero_add, advanceBy]
  | succ m ih => rw [Nat.add_right_comm, advanceBy, ih, advanceBy]

/-- After one round for each pass nothing is ready, whether all passes are done or not. -/
theorem ready_exhausted_eq_nil (hclosed : g.Closed) : g.exhausted.ready = [] := by
  by_cases hlength : g.exhausted.done.length = g.passCount
  · exact ready_of_order hclosed (if_pos hlength)
  · exact ready_exhausted hclosed hlength

/-- Further rounds change nothing. -/
theorem advanceBy_of_le (hclosed : g.Closed) {k : Nat} (hk : g.passCount ≤ k) :
    g.advanceBy k (.start g g.passes.toList) = g.exhausted := by
  obtain ⟨m, rfl⟩ := Nat.le.dest hk
  rw [advanceBy_add]
  exact advanceBy_of_ready_nil (ready_exhausted_eq_nil hclosed) m

end PassGraph

namespace Countdown

variable {g : PassGraph} {n : Nat} {f : Frontier} {p q : PassId} {c : Countdown}

/-- The graph has the first `n` passes, and its edges lead to these. -/
structure Covers (n : Nat) (g : PassGraph) : Prop where
  passes : g.passes = .firstN .pass n
  edges : ∀ a b, g.hasEdge a b → b.index < n

namespace Covers

theorem mem_passes (h : Covers n g) : p ∈ g.passes ↔ p.index < n := by
  rw [h.passes, IdSet.mem_firstN]

theorem closed (h : Covers n g) : g.Closed := fun a b hab => h.mem_passes.mpr (h.edges a b hab)

theorem passCount (h : Covers n g) : g.passCount = n := by
  rw [← PassGraph.length_passes, h.passes]
  show (NodeId.firstN .pass n).length = n
  rw [NodeId.firstN, List.length_map, List.length_range]

end Covers

/-- **A countdown starts where a frontier does.** -/
theorem prepare_eq (h : Covers n g) (c : Countdown) :
    prepare g c = .ok () (ofFrontier n (.start g g.passes.toList)) := by
  have hraise : ∀ e ∈ g.edges, ∀ count, raise e.2 ⟨[], listed n count, []⟩ =
      .ok () ⟨[], listed n (Function.update count e.2 (count e.2 + 1)), []⟩ := fun e he count =>
    raise_listed (h.edges e.1 e.2 (PassGraph.mem_edges_iff.mp he))
  have hseed : ∀ p ∈ g.passes.toList, ∀ queue, seed p ⟨[], listed n g.inDegree, queue⟩ =
      .ok () ⟨[], listed n g.inDegree, if g.inDegree p = 0 then queue ++ [p] else queue⟩ :=
    fun p hp queue => seed_listed (h.mem_passes.mp (IdSet.mem_toList.mp hp))
  have hraised := forM_of_round (fun count => (⟨[], listed n count, []⟩ : Countdown)) _ hraise
    (t := fun _ => 0)
  have hseeded := forM_of_round (fun queue => (⟨[], listed n g.inDegree, queue⟩ : Countdown)) _
    hseed (t := [])
  have hcounts : g.edges.foldl
      (fun count e => Function.update count e.2 (count e.2 + 1)) (fun _ => 0) = g.inDegree := by
    funext p
    rw [foldl_raise, Nat.zero_add, PassGraph.countP_edges]
  have hstart : (⟨[], .replicate g.passCount 0, []⟩ : Countdown) =
      ⟨[], listed n fun _ => 0, []⟩ := by
    rw [h.passCount, listed, List.map_const', NodeId.firstN, List.length_map, List.length_range]
  have hlisted : listed n g.inDegree =
      listed n fun p => (Frontier.start g g.passes.toList).waiting.getD p 0 := by
    refine List.map_congr_left fun p hp => ?_
    have hpass : p ∈ g.passes := h.mem_passes.mpr (NodeId.mem_firstN.mp hp)
    show _ = (g.inDegrees.get? p).getD 0
    rw [PassGraph.inDegrees, IdMap.get?_tabulate, if_pos hpass]
    rfl
  rw [hcounts] at hraised
  rw [foldl_seed, List.nil_append] at hseeded
  show (g.edges.forM (fun edge => raise edge.2) >>= fun _ => g.passes.toList.forM seed)
    ⟨[], .replicate g.passCount 0, []⟩ = _
  rw [hstart, bind_of_ok hraised, hseeded, ofFrontier, ← hlisted]
  rfl

/-! ### One round after another -/

/-- **A count that is lowered is positive**, and then the pass arrives as at a frontier. -/
theorem lower_eq {m : Nat} (hp : p.index < n) (hcount : f.waiting.get? p = some (m + 1)) :
    lower p (ofFrontier n f) = .ok () (ofFrontier n (f.arrive p)) := by
  have hfound : f.waiting.getD p 0 = m + 1 := congrArg (Option.getD · 0) hcount
  have harrive : ofFrontier n (f.arrive p) =
      ⟨f.done, listed n (Function.update (fun p => f.waiting.getD p 0) p m),
        if m = 0 then f.ready ++ [p] else f.ready⟩ := by
    have hcounts : (fun q => (f.waiting.insert p m).getD q 0) =
        Function.update (fun q => f.waiting.getD q 0) p m := by
      funext q
      rw [IdMap.getD_insert, Function.update_apply]
    rw [Frontier.arrive, hcount]
    exact congrArg (fun count => (⟨f.done, listed n count, _⟩ : Countdown)) hcounts
  rw [harrive, ← set_listed hp]
  refine (bind_of_ok (countOf_listed hp)).trans ?_
  rw [hfound]
  by_cases hzero : m = 0
  · simp only [hzero, if_true]
    rfl
  · simp only [hzero, if_false]
    rfl

/-- Different passes with positive counts arrive one after another. -/
theorem lowerAll_eq {qs : List PassId} (hnodup : qs.Nodup) (hqs : ∀ q ∈ qs, q.index < n)
    (hcounts : ∀ q ∈ qs, ∃ m, f.waiting.get? q = some (m + 1)) :
    qs.forM lower (ofFrontier n f) = .ok () (ofFrontier n (qs.foldl Frontier.arrive f)) := by
  induction qs generalizing f with
  | nil => rfl
  | cons q qs ih =>
      obtain ⟨hq, hnodup⟩ := List.nodup_cons.mp hnodup
      obtain ⟨m, hm⟩ := hcounts q List.mem_cons_self
      have hrest : ∀ x ∈ qs, ∃ m, (f.arrive q).waiting.get? x = some (m + 1) := by
        intro x hx
        have hne : x ≠ q := fun heq => hq (heq ▸ hx)
        rw [Frontier.arrive, hm]
        simp only [IdMap.get?_insert_of_ne hne]
        exact hcounts x (List.mem_cons_of_mem q hx)
      refine (bind_of_ok (lower_eq (hqs q List.mem_cons_self) hm)).trans ?_
      exact ih hnodup (fun x hx => hqs x (List.mem_cons_of_mem q hx)) hrest

theorem round_of_nil (hqueue : c.queue = []) : round g c = .ok () c := by
  unfold round
  rw [get_bind, hqueue]
  rfl

theorem round_of_cons {rest : List PassId} (hqueue : c.queue = p :: rest) : round g c =
    (g.successors p).toList.forM lower { c with order := c.order ++ [p], queue := rest } := by
  unfold round
  rw [get_bind, hqueue]
  rfl

/-- **A round works off the pass that has been ready the longest.** -/
theorem round_eq (h : Covers n g) (hstep : g.InStep f) :
    round g (ofFrontier n f) = .ok () (ofFrontier n (g.advance f)) := by
  cases hready : f.ready with
  | nil =>
      rw [PassGraph.advance_of_ready_nil hready]
      exact round_of_nil hready
  | cons p rest =>
      obtain ⟨hp, htaken⟩ := hstep.1.take hready
      rw [round_of_cons hready, PassGraph.advance, Frontier.take?, hready]
      exact lowerAll_eq (f := { f with ready := rest, done := f.done ++ [p] })
        (g.successors p).nodup_toList (fun q hq => h.edges p q (PassGraph.hasEdge_iff.mpr hq))
        fun q hq => ⟨_, htaken.waiting_pos h.closed hp (PassGraph.hasEdge_iff.mpr hq)⟩

theorem rounds_eq (h : Covers n g) (k : Nat) (hstep : g.InStep f) :
    rounds g k (ofFrontier n f) = .ok () (ofFrontier n (g.advanceBy k f)) := by
  induction k generalizing f with
  | zero => rfl
  | succ k ih =>
      exact (bind_of_ok (round_eq h hstep)).trans (ih (PassGraph.inStep_advance h.closed hstep))

/-! ### The end -/

theorem filterMap_zip_map {ps : List PassId} {count : PassId → Nat} :
    ((ps.zip (ps.map count)).filterMap fun e => if e.2 = 0 then none else some e.1) =
      ps.filter fun p => count p ≠ 0 := by
  induction ps with
  | nil => rfl
  | cons p ps ih =>
      rw [List.map_cons, List.zip_cons_cons, List.filterMap_cons, List.filter_cons, ih]
      by_cases hzero : count p = 0 <;> simp [hzero]

/-- **The passes that are left over are those that a frontier is blocked at.** -/
theorem remaining_eq (h : Covers n g) :
    remaining g (ofFrontier n g.exhausted) =
      .ok g.exhausted.blocked (ofFrontier n g.exhausted) := by
  have hcounts : g.passes.toList.mapM countOf (ofFrontier n g.exhausted) = _ :=
    mapM_of_ok fun p hp => countOf_listed (h.mem_passes.mp (IdSet.mem_toList.mp hp))
  have hblocked : (g.passes.toList.filter fun p => g.exhausted.waiting.getD p 0 ≠ 0) =
      g.exhausted.blocked := by
    refine IdSet.eq_of_mem_iff (g.passes.ascending.filter _) Frontier.ascending_blocked fun p => ?_
    rw [List.mem_filter, IdSet.mem_toList, decide_eq_true_eq, Frontier.mem_blocked, IdMap.getD]
    constructor
    · rintro ⟨_, hcount⟩
      cases hget : g.exhausted.waiting.get? p with
      | none => simp [hget] at hcount
      | some m => exact ⟨m, rfl, by simpa [hget] using hcount⟩
    · rintro ⟨m, hget, hm⟩
      rw [hget]
      exact ⟨PassGraph.mem_passes_of_waiting hget, hm⟩
  unfold remaining
  rw [bind_of_ok hcounts, filterMap_zip_map, hblocked]
  rfl

/-- **A countdown of enough rounds finds the order**, or the passes that are left over. -/
theorem sort_eq (h : Covers n g) {k : Nat} (hk : n ≤ k) (c : Countdown) :
    sort g k c = .ok g.order (ofFrontier n g.exhausted) := by
  have hrounds := rounds_eq h k (PassGraph.inStep_start (g := g))
  rw [PassGraph.advanceBy_of_le h.closed (Nat.le_trans (Nat.le_of_eq h.passCount) hk)] at hrounds
  unfold sort
  rw [bind_of_ok (prepare_eq h c), bind_of_ok hrounds, get_bind, PassGraph.order]
  by_cases hlength : g.exhausted.done.length = g.passCount
  · rw [if_pos hlength]
    exact congrFun (if_pos hlength) _
  · rw [if_neg hlength]
    exact (congrFun (if_neg hlength) _).trans (bind_of_ok (remaining_eq h))

/-! ### Nothing goes wrong -/

/-- The countdown after some rounds, which a graph begins from whatever was counted before. -/
def after (g : PassGraph) (k : Nat) : EStateM CountFault Countdown Unit := do
  prepare g
  rounds g k

/-- What a countdown of the first `n` passes keeps after `k` rounds. -/
structure Keeps (g : PassGraph) (n k : Nat) (d : Countdown) : Prop where
  /-- There is a count for each pass, and it says how many predecessors were not taken yet. -/
  counts : d.counts = listed n (g.missing d.order)
  /-- No pass is queued twice. -/
  nodup : (d.order ++ d.queue).Nodup
  /-- What is queued is a pass, and then all that lead to it were taken. -/
  queued : ∀ p ∈ d.order ++ d.queue, p.index < n ∧ ∀ a, g.hasEdge a p → a ∈ d.order
  /-- As long as the queue is not empty, each round took a pass. -/
  taken : d.queue ≠ [] → d.order.length = k
  /-- The queue is empty after one round for each pass at the latest. -/
  empty : n ≤ k → d.queue = []
  length_le : d.order.length ≤ n

theorem keeps_ofFrontier (h : Covers n g) (k : Nat) :
    Keeps g n k (ofFrontier n (g.advanceBy k (.start g g.passes.toList))) := by
  obtain ⟨hsound, -⟩ := PassGraph.inStep_advanceBy h.closed k (PassGraph.inStep_start (g := g))
  have hpasses : (g.advanceBy k (.start g g.passes.toList)).done ⊆ g.passes.toList :=
    fun p hp => IdSet.mem_toList.mpr (hsound.mem_passes hp)
  refine ⟨List.map_congr_left fun p hp => ?_, List.nodup_append_comm.mp hsound.nodup,
    fun p hp => ?_, fun hqueue => ?_, fun hk => ?_, ?_⟩
  · have hpass := h.mem_passes.mpr (NodeId.mem_firstN.mp hp)
    exact congrArg (Option.getD · 0) (hsound.waiting p hpass)
  · obtain ⟨hpass, hpreds⟩ := (hsound.reached p).mp (List.mem_append.mp hp).symm
    exact ⟨h.mem_passes.mp hpass, hpreds⟩
  · exact ((PassGraph.ready_or_length_advanceBy h.closed k PassGraph.inStep_start).resolve_left
      hqueue).trans (Nat.zero_add k)
  · rw [PassGraph.advanceBy_of_le h.closed (Nat.le_trans (Nat.le_of_eq h.passCount) hk)]
    exact PassGraph.ready_exhausted_eq_nil h.closed
  · have hlength := (hsound.done_nodup.subperm hpasses).length_le
    rw [PassGraph.length_passes, h.passCount] at hlength
    exact hlength

/-- How counting down goes, whatever was counted before. -/
structure CountsDown (n : Nat) (g : PassGraph) : Prop where
  /-- Both ends of an edge are among the first `n` passes. -/
  edges : ∀ a b, g.hasEdge a b → a.index < n ∧ b.index < n
  /-- No count is missing and none goes below zero, for as many rounds as one likes. -/
  runs : ∀ c k, ∃ d, after g k c = .ok () d ∧ Keeps g n k d
  /-- What is queued stays where it is, first in the queue and then in the order. -/
  grows : ∀ c k m d e, after g k c = .ok () d → after g (k + m) c = .ok () e →
    d.order ++ d.queue <+: e.order ++ e.queue
  /-- The order is found, or the passes that are left over, and no count is missing for that. -/
  sorts : ∀ c k, n ≤ k → ∃ d, sort g k c = .ok g.order d

/-- **Nothing goes wrong with the counts** of a graph of the first `n` passes, with or without
cycles. -/
theorem counts_down (h : Covers n g) : CountsDown n g := by
  have hafter : ∀ c k, after g k c =
      .ok () (ofFrontier n (g.advanceBy k (.start g g.passes.toList))) := fun c k =>
    (bind_of_ok (prepare_eq h c)).trans (rounds_eq h k PassGraph.inStep_start)
  refine ⟨fun a b hab => ⟨?_, h.edges a b hab⟩, fun c k => ⟨_, hafter c k, keeps_ofFrontier h k⟩,
    fun c k m d e hd he => ?_, fun c k hk => ⟨_, sort_eq h hk c⟩⟩
  · exact h.mem_passes.mp (PassGraph.mem_passes_of_hasEdge hab)
  · cases hd.symm.trans (hafter c k)
    cases he.symm.trans (hafter c (k + m))
    rw [PassGraph.advanceBy_add]
    exact PassGraph.queue_advanceBy m

end Countdown

end FramePlan
