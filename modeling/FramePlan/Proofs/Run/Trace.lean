import FramePlan.Proofs.Run.Turn

/-!
# What the turns of a trace tell

The turns that workers took tell which passes have begun and which did their work, which passes are
done, and whether there is an error. From that follows that a pass begins at most once, after its
predecessors, and not after an error; that no count goes below zero; and that turns come to an end.

* `Dispatch.Trace.tracked` — the dispatch is as the turns tell.
* `Dispatch.Tracked.ranOnce` — every pass ran once when all are done.
-/

namespace FramePlan

variable {σ η : Type}

namespace Turn

/-- The passes that began in some turns. -/
def begunIn (turns : List Turn) : List PassId := turns.filterMap begun?

/-- The passes that did their work in some turns. -/
def ranIn (turns : List Turn) : List PassId := turns.filterMap ran?

variable {turns : List Turn} {p : PassId} {ok : Bool}

theorem begunIn_append_begin : begunIn (turns ++ [.begin p ok]) = begunIn turns ++ [p] :=
  List.filterMap_append

theorem begunIn_append_finish : begunIn (turns ++ [.finish p ok]) = begunIn turns :=
  List.filterMap_append.trans (List.append_nil _)

theorem ranIn_append_begin : ranIn (turns ++ [.begin p ok]) = ranIn turns :=
  List.filterMap_append.trans (List.append_nil _)

theorem ranIn_append_finish : ranIn (turns ++ [.finish p ok]) = ranIn turns ++ [p] :=
  List.filterMap_append

theorem forall_isOk_append {t : Turn} :
    (∀ u ∈ turns ++ [t], u.isOk) ↔ (∀ u ∈ turns, u.isOk) ∧ t.isOk := by
  simp only [List.mem_append, List.mem_singleton, or_imp, forall_and, forall_eq]

/-- Turns that do not stall each begin or finish a pass. -/
theorem length_eq (h : .stall ∉ turns) :
    turns.length = (begunIn turns).length + (ranIn turns).length := by
  induction turns with
  | nil => rfl
  | cons t turns ih =>
      obtain ⟨ht, hturns⟩ := not_or.mp fun hmem => h (List.mem_cons.mpr hmem)
      have hlength := ih hturns
      cases t with
      | begin p ok =>
          have hbegun : begunIn (.begin p ok :: turns) = p :: begunIn turns := rfl
          have hran : ranIn (.begin p ok :: turns) = ranIn turns := rfl
          rw [hbegun, hran, List.length_cons, List.length_cons]
          omega
      | finish p ok =>
          have hbegun : begunIn (.finish p ok :: turns) = begunIn turns := rfl
          have hran : ranIn (.finish p ok :: turns) = p :: ranIn turns := rfl
          rw [hbegun, hran, List.length_cons, List.length_cons]
          omega
      | stall => exact absurd rfl ht

end Turn

namespace Dispatch

variable {host : Host σ η} {frame : Frame} {plan : Plan} {turns : List Turn}
  {d e : Dispatch σ η} {p : PassId}

/-- The dispatch is as the turns tell. -/
structure Tracked (frame : Frame) (plan : Plan) (turns : List Turn) (d : Dispatch σ η) : Prop where
  orderly : Orderly frame plan (Turn.begunIn turns) d
  error_iff : d.error = none ↔ ∀ t ∈ turns, t.isOk
  mem_done : ∀ p, p ∈ d.frontier.done ↔ .finish p true ∈ turns
  ran_nodup : (Turn.ranIn turns).Nodup
  ran : ∀ p ∈ Turn.ranIn turns, p ∈ Turn.begunIn turns ∧ p ∉ d.runningPasses
  begins : ∀ before p ok after, turns = before ++ .begin p ok :: after →
    (∀ a, plan.graph.hasEdge a p → .finish a true ∈ before) ∧ ∀ t ∈ before, t.isOk
  stalls : .stall ∉ turns

/-- To finish the pass counts down what is positive at that time: of the passes that are to use its
resources, and of those that its successors wait for. -/
structure CountsDown (plan : Plan) (p : PassId) (pass : Pass) (d : Dispatch σ η) : Prop where
  users : ∀ pre r post, pass.resources.toList = pre ++ r :: post →
    ∃ n, (pre.foldl countDown d.users).get? r = some (n + 1)
  waiting : ∀ pre q post, (plan.graph.successors p).toList = pre ++ q :: post →
    ∃ n, (pre.foldl Frontier.arrive
      { d.frontier with done := d.frontier.done ++ [p] }).waiting.get? q = some (n + 1)

theorem Tracked.nil (hf : plan.Fits frame) (s : σ) :
    Tracked frame plan [] (Dispatch.start plan s : Dispatch σ η) where
  orderly := Orderly.start hf s
  error_iff := by simp [Dispatch.start]
  mem_done p := by simp [Dispatch.start, Frontier.start]
  ran_nodup := List.nodup_nil
  ran p hp := absurd hp List.not_mem_nil
  begins before p ok after h := by simp at h
  stalls := List.not_mem_nil

/-- One more turn that is no beginning leaves the beginnings as they were. -/
theorem Tracked.begins_snoc {t : Turn} (h : Tracked frame plan turns d)
    (ht : ∀ p ok, t ≠ .begin p ok) {before after : List Turn} {ok : Bool}
    (hsplit : turns ++ [t] = before ++ .begin p ok :: after) :
    (∀ a, plan.graph.hasEdge a p → .finish a true ∈ before) ∧ ∀ t ∈ before, t.isOk := by
  rcases split_snoc hsplit with ⟨_, heq⟩ | ⟨rest, hrest⟩
  · exact absurd heq (ht p ok)
  · exact h.begins before p ok rest hrest

theorem Tracked.begin {frontier : Frontier} (h : Tracked frame plan turns d) (hf : plan.Fits frame)
    (hcalm : host.Calm) (hbegin : d.begin? host frame plan = some e)
    (htake : d.frontier.take? = some (p, frontier)) :
    Tracked frame plan
      (turns ++ [.begin p (isReturned (beginPass host frame plan p { d with frontier }))]) e := by
  obtain ⟨herror, _, _⟩ := begin?_eq_some hbegin htake
  obtain ⟨rest, hready, _⟩ := take?_eq_some htake
  obtain ⟨hp, hbegun, _, hpreds⟩ := h.orderly.roster.fresh hf hready
  obtain ⟨pass, hpass⟩ := hf.mem_order_iff_pass?.mp hp
  obtain ⟨horderly, hdone, hturn⟩ :=
    h.orderly.begin_turn hcalm hpass hbegin htake Ends.always
  have hallOk := h.error_iff.mp herror
  -- Whether or not the turn goes well, only the pass itself may run now that did not before.
  have hrunning : ∀ q ∈ e.runningPasses, q ∈ d.runningPasses ∨ q = p := by
    intro q hq
    unfold runningPasses at hq ⊢
    rcases hturn with ⟨_, _, handles, hruns, _⟩ | ⟨_, _, hruns, _⟩
    · rw [hruns, List.map_append, List.mem_append] at hq
      exact hq.imp id List.mem_singleton.mp
    · rw [hruns] at hq
      exact Or.inl hq
  refine ⟨?_, ?_, fun q => ?_, ?_, ?_, ?_, ?_⟩
  · rw [Turn.begunIn_append_begin]
    exact horderly
  · rw [Turn.forall_isOk_append]
    rcases hturn with ⟨hok, hnone, _⟩ | ⟨hfail, hsome, _⟩
    · rw [hok]
      exact ⟨fun _ => ⟨hallOk, rfl⟩, fun _ => hnone⟩
    · rw [hfail]
      exact ⟨fun hnone => absurd hnone hsome, fun hok => by cases hok.2⟩
  · rw [hdone, h.mem_done]
    simp
  · rw [Turn.ranIn_append_begin]
    exact h.ran_nodup
  · intro q hq
    rw [Turn.ranIn_append_begin] at hq
    rw [Turn.begunIn_append_begin]
    obtain ⟨hqbegun, hqrunning⟩ := h.ran q hq
    refine ⟨List.mem_append_left _ hqbegun, fun hmem => ?_⟩
    rcases hrunning q hmem with hmem | rfl
    · exact hqrunning hmem
    · exact hbegun hqbegun
  · intro before q ok after hsplit
    rcases split_snoc hsplit with ⟨rfl, heq⟩ | ⟨rest', hrest⟩
    · cases heq
      exact ⟨fun a ha => (h.mem_done a).mp (hpreds a ha), hallOk⟩
    · exact h.begins before q ok rest' hrest
  · simpa using h.stalls

theorem Tracked.finish {running : PassId × IdMap .resource η} (h : Tracked frame plan turns d)
    (hf : plan.Fits frame) (hcalm : host.Calm) (hrunning : running ∈ d.running) :
    Tracked frame plan
      (turns ++ [.finish running.1 (isReturned (finishPass host frame plan running d))])
      (d.finish host frame plan running) := by
  obtain ⟨p, handles⟩ := running
  have hruns : p ∈ d.runningPasses := List.mem_map.mpr ⟨_, hrunning, rfl⟩
  obtain ⟨hbegun, _⟩ := h.orderly.running p hruns
  obtain ⟨pass, hpass⟩ := hf.mem_order_iff_pass?.mp (h.orderly.roster.mem_order hf hbegun)
  obtain ⟨horderly, heq, hturn⟩ :=
    h.orderly.finish_turn hf hcalm hpass hrunning Ends.always
  have hrunning' : (d.finish host frame plan (p, handles)).runningPasses =
      d.runningPasses.erase p := by
    unfold runningPasses
    rw [heq]
    exact map_eraseP_running
  have hnotRan : p ∉ Turn.ranIn turns := fun hran => (h.ran p hran).2 hruns
  refine ⟨?_, ?_, fun q => ?_, ?_, ?_, ?_, ?_⟩
  · rw [Turn.begunIn_append_finish]
    exact horderly
  · rw [Turn.forall_isOk_append]
    rcases hturn with ⟨hok, herror, _⟩ | ⟨hfail, hsome, _⟩
    · rw [hok, herror, h.error_iff]
      exact ⟨fun hall => ⟨hall, rfl⟩, And.left⟩
    · rw [hfail]
      exact ⟨fun hnone => absurd hnone hsome, fun hok => by cases hok.2⟩
  · rcases hturn with ⟨hok, _, hdone, _⟩ | ⟨hfail, _, hdone, _⟩
    · rw [hdone, List.mem_append, h.mem_done, List.mem_append]
      simp [hok]
    · rw [hdone, h.mem_done, List.mem_append]
      simp [hfail]
  · rw [Turn.ranIn_append_finish]
    apply List.nodup_append.mpr
    refine ⟨h.ran_nodup, List.nodup_singleton p, fun a ha b hb hab => ?_⟩
    cases hab
    cases List.mem_singleton.mp hb
    exact hnotRan ha
  · intro q hq
    rw [Turn.ranIn_append_finish, List.mem_append, List.mem_singleton] at hq
    rw [Turn.begunIn_append_finish, hrunning']
    rcases hq with hq | rfl
    · exact ⟨(h.ran q hq).1, fun hmem => (h.ran q hq).2 (List.mem_of_mem_erase hmem)⟩
    · exact ⟨hbegun, fun hmem => (h.orderly.running_nodup.mem_erase_iff.mp hmem).1 rfl⟩
  · intro before q ok after hsplit
    exact h.begins_snoc (by simp) hsplit
  · simpa using h.stalls

/-- **What the turns of a trace tell about the dispatch that they lead to.** -/
theorem Trace.tracked {s : σ} (h : Trace host frame plan (Dispatch.start plan s) turns d)
    (hf : plan.Fits frame) (hcalm : host.Calm) : Tracked frame plan turns d := by
  induction h with
  | nil => exact Tracked.nil hf s
  | begin _ hbegin htake ih => exact ih.begin hf hcalm hbegin htake
  | finish _ hrunning ih => exact ih.finish hf hcalm hrunning
  | stall _ hstall ih =>
      rw [ih.orderly.not_stall hf] at hstall
      cases hstall

namespace Tracked

/-- The predecessors of the passes that began did their work. -/
theorem ran_of_hasEdge {a : PassId} (h : Tracked frame plan turns d) (hp : p ∈ Turn.begunIn turns)
    (ha : plan.graph.hasEdge a p) : a ∈ Turn.ranIn turns := by
  have hdone := h.orderly.done_of_precedes hp (.of_hasEdge ha)
  exact List.mem_filterMap.mpr ⟨_, (h.mem_done a).mp hdone, rfl⟩

/-- A running pass counts down what is positive. -/
theorem countsDown {pass : Pass} (h : Tracked frame plan turns d) (hf : plan.Fits frame)
    (hp : p ∈ d.runningPasses) (hpass : frame.pass? p = some pass) : CountsDown plan p pass d := by
  constructor
  · intro pre r post hsplit
    have hnodup := pass.resources.nodup_toList
    rw [hsplit] at hnodup
    obtain ⟨hpre, _, hdisjoint⟩ := List.nodup_append.mp hnodup
    have hr : r ∉ pre := fun hr => hdisjoint r hr r (List.mem_cons_self ..) rfl
    have htouch : frame.Touches p r := by
      refine ⟨pass, hpass, IdSet.mem_toList.mp ?_⟩
      rw [hsplit]
      simp
    have huser := List.countP_pos_iff.mpr ⟨p, hp, hf.isUser_iff.mpr htouch⟩
    apply get?_of_pos
    rw [getD_foldl_countDown hpre, if_neg hr]
    exact Nat.lt_of_lt_of_le huser (h.orderly.users r)
  · intro pre q post hsplit
    have hnodup := (plan.graph.successors p).nodup_toList
    rw [hsplit] at hnodup
    obtain ⟨hpre, _, hdisjoint⟩ := List.nodup_append.mp hnodup
    have hq : q ∉ pre := fun hq => hdisjoint q hq q (List.mem_cons_self ..) rfl
    have hwaiting : ∀ x ∈ pre ++ q :: post, d.frontier.waiting.get? x =
        some (plan.graph.missing (d.frontier.done ++ [p]) x + 1) := by
      intro x hx
      rw [← hsplit, IdSet.mem_toList, ← PassGraph.hasEdge_iff] at hx
      exact h.orderly.frontier.waiting_pos hf.closed (h.orderly.running p hp).2 hx
    obtain ⟨_, hget, _⟩ := Frontier.foldl_arrive
      (f := { d.frontier with done := d.frontier.done ++ [p] })
      (plan.graph.missing (d.frontier.done ++ [p])) hpre
      fun x hx => hwaiting x (List.mem_append_left _ hx)
    rw [hget, if_neg hq]
    exact ⟨_, hwaiting q (by simp)⟩

/-- There is at most one turn of each kind for each pass. -/
theorem length_le (h : Tracked frame plan turns d) (hf : plan.Fits frame) :
    turns.length ≤ 2 * plan.passCount := by
  have hbegun : (Turn.begunIn turns).length ≤ plan.passCount := by
    rw [← Plan.Fits.length_order]
    apply (h.orderly.frontier.taken_nodup.subperm _).length_le
    intro p hp
    exact h.orderly.roster.mem_order hf hp
  have hran : (Turn.ranIn turns).length ≤ (Turn.begunIn turns).length := by
    apply (h.ran_nodup.subperm _).length_le
    intro p hp
    exact (h.ran p hp).1
  have := Turn.length_eq h.stalls
  omega

/-- Every pass ran once when all passes are done. -/
theorem ranOnce (h : Tracked frame plan turns d) (hf : plan.Fits frame)
    (hlength : d.frontier.done.length = plan.passCount) :
    (Turn.ranIn turns).Nodup ∧ ∀ p, p ∈ Turn.ranIn turns ↔ ∃ pass, frame.pass? p = some pass := by
  have hdone := h.orderly.done_perm hf hlength
  refine ⟨h.ran_nodup, fun p => ?_⟩
  rw [← hf.mem_order_iff_pass?]
  constructor
  · intro hp
    exact h.orderly.roster.mem_order hf (h.ran p hp).1
  · intro hp
    exact List.mem_filterMap.mpr ⟨_, (h.mem_done p).mp (hdone.mem_iff.mpr hp), rfl⟩

/-- When nothing failed and there is no turn left to take, all passes are done. -/
theorem length_done (h : Tracked frame plan turns d) (hf : plan.Fits frame)
    (hok : ∀ t ∈ turns, t.isOk) (hstuck : ∀ e, ¬ Step host frame plan d e) :
    d.frontier.done.length = plan.passCount := by
  have herror := h.error_iff.mpr hok
  by_contra hne
  have hle := h.orderly.length_done_le hf
  rcases h.orderly.progress hf herror (by omega) with hready | hrunning
  · obtain ⟨p, rest, hcons⟩ := List.exists_cons_of_ne_nil hready
    exact hstuck _ (.begin (begin?_of_ready herror hne hcons))
  · obtain ⟨p, hp⟩ := List.exists_mem_of_ne_nil _ hrunning
    obtain ⟨running, hmem, _⟩ := List.mem_map.mp hp
    exact hstuck _ (.finish hmem)

/-- A dispatch that nothing failed in ends in success. -/
theorem outcome_ok (h : Tracked frame plan turns d) (hok : ∀ t ∈ turns, t.isOk) :
    d.outcome = .ok () := by
  unfold outcome
  rw [h.error_iff.mpr hok, h.orderly.lost]
  rfl

end Tracked

end Dispatch

end FramePlan
