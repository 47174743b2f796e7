import FramePlan.Proofs.Run.Turn
import FramePlan.Run.Crew

/-!
# What a crew keeps true

Storage that panics takes a worker away, and with it the pass that the worker had: nothing in the
dispatch tells of that pass any more. What is left of the books is a census: each worker that was
lost took at most one pass along, whoever left an error is still there, and nothing is said about a
foreign plan before a worker was lost.

Of the workers themselves, nobody leaves before it is over and nobody sleeps when it is. A worker
sleeps only while another one runs a pass, which will wake it, or was lost, which will not.

* `Dispatch.begin_cases`, `Dispatch.finish_cases` — the two kinds of turn, on any host.
* `Dispatch.Census` — the invariant of the dispatch, with a lemma for each kind of turn.
* `Crew.Manned`, `Crew.Manned.step` — the invariant of the crew, and that each step keeps it.
* `Crew.settled_iff` — when no worker can do anything any more.
* `Crew.Manned.exists_drive` — the run that is computed is that of a crew, to its end.
-/

namespace FramePlan

variable {σ η : Type}

/-- The error is something else than that the plan is not one of the frame. -/
def RunError.Genuine (e : RunError) : Prop := ∀ m, e ≠ .mismatch m

/-- No fault, of storage or of work, is taken for a plan of another frame. -/
theorem Host.leaves_genuine (host : Host σ η) : host.Leaves RunError.Genuine := by
  have hfault : ∀ {α : Type} (act : EStateM StorageFault σ α),
      StopsWith (act.adaptExcept RunError.ofFault) RunError.Genuine := by
    intro α act s
    apply Ends.adaptExcept
    apply Ends.always.mono fun _ _ _ => trivial
    intro fault _ _ m
    cases fault <;> nofun
  exact ⟨fun _ => hfault _, fun _ => hfault _, fun _ => hfault _, fun _ => hfault _,
    fun _ _ _ _ => nofun, fun _ => nofun⟩

namespace Dispatch

variable {host : Host σ η} {frame : Frame} {plan : Plan} {size : Nat} {begun rest : List PassId}
  {d e : Dispatch σ η} {p : PassId} {pass : Pass}

/-! ### One turn -/

/-- A turn that did not go well left an error, unless there was one, or it lost its worker. -/
inductive Broken (d e : Dispatch σ η) : Prop where
  | failed (err : RunError) (hgenuine : err.Genuine) (herror : e.error = d.error.or (some err))
      (hlost : e.lost = d.lost) : Broken d e
  | lost (herror : e.error = d.error) (hlost : e.lost = d.lost + 1) : Broken d e

theorem error_ne_none_of_or {err : RunError} (h : e.error = d.error.or (some err)) :
    e.error ≠ none := by
  rw [h, Option.or_some]
  exact Option.some_ne_none _

namespace Broken

theorem lost_le (h : Broken d e) : e.lost ≤ d.lost + 1 := by
  cases h with
  | failed _ _ _ hlost => omega
  | lost _ hlost => omega

/-- It does not go unnoticed. -/
theorem noticed (h : Broken d e) : e.error ≠ none ∨ e.lost ≠ 0 := by
  cases h with
  | failed err _ herror _ => exact Or.inl (error_ne_none_of_or herror)
  | lost _ hlost => exact Or.inr (by omega)

/-- A turn that leaves the first error does not lose its worker. -/
theorem lost_eq (h : Broken d e) (hnone : d.error = none) (hsome : e.error ≠ none) :
    e.lost = d.lost := by
  cases h with
  | failed _ _ _ hlost => exact hlost
  | lost herror _ => exact absurd (herror.trans hnone) hsome

/-- It says that the plan is not one of the frame only if that was said before. -/
theorem mismatch_before (h : Broken d e) {m : Mismatch} (hm : e.error = some (.mismatch m)) :
    d.error = some (.mismatch m) := by
  cases h with
  | failed err hgenuine herror _ =>
      rw [herror] at hm
      cases hbefore : d.error with
      | none =>
          rw [hbefore, Option.none_or] at hm
          exact absurd (Option.some.inj hm) (hgenuine m)
      | some old => rwa [hbefore, Option.some_or] at hm
  | lost herror _ => exact herror ▸ hm

end Broken

/-- A turn either goes well or stops, and then for a genuine reason. -/
theorem settle_cases {act : EStateM RunError (Dispatch σ η) Unit} {returned : Dispatch σ η → Prop}
    {stopped : Dispatch σ η → Prop}
    (h : Ends act d (fun _ => returned) fun err e => stopped e ∧ err.Genuine) :
    returned (settle (act d)) ∨
      ∃ err e, err.Genuine ∧ stopped e ∧ settle (act d) = settle (.error err e) := by
  cases hact : act d with
  | ok _ e => exact Or.inl (h.ok hact)
  | error err e =>
      obtain ⟨hstop, hgenuine⟩ := h.error hact
      exact Or.inr ⟨err, e, hgenuine, hstop, rfl⟩

/-- A turn that stops is broken, and leaves the passes as they were when it stopped. -/
theorem settle_error {err : RunError} (hgenuine : err.Genuine) (herror : e.error = d.error)
    (hlost : e.lost = d.lost) :
    Broken d (settle (.error err e)) ∧ (settle (.error err e)).frontier = e.frontier ∧
      (settle (.error err e)).running = e.running := by
  have hfail : Broken d (e.fail err) := by
    refine .failed err hgenuine ?_ hlost
    rw [← herror]
    rfl
  cases err with
  | panicked text =>
      have hmore : e.lost + 1 = d.lost + 1 := by rw [hlost]
      exact ⟨.lost herror hmore, rfl, rfl⟩
  | _ => exact ⟨hfail, rfl, rfl⟩

/-- **A turn that begins a pass**, on any host. -/
theorem begin_cases (hpass : frame.pass? p = some pass)
    (he : e = settle (beginPass host frame plan p
      { d with frontier := { d.frontier with ready := rest } })) :
    e.frontier = { d.frontier with ready := rest } ∧
      ((∃ handles, e.running = d.running ++ [(p, handles)]) ∧ e.error = d.error ∧
          e.lost = d.lost ∨
        e.running = d.running ∧ Broken d e) := by
  have hcalls : Ends (beginCalls host plan d.constructed p pass) d.host (fun _ _ => True) _ :=
    host.leaves_genuine.beginCalls d.constructed d.host
  have hends := ends_beginPass (d := { d with frontier := { d.frontier with ready := rest } }) hpass
    hcalls
  rcases settle_cases hends with ⟨handles, heq, _⟩ | ⟨err, d', hgenuine, heq, hsettle⟩
  · rw [← he] at heq
    refine ⟨by rw [heq], Or.inl ⟨⟨handles, by rw [heq]⟩, by rw [heq], by rw [heq]⟩⟩
  · obtain ⟨hbroken, hfrontier, hrunning⟩ :=
      settle_error (d := d) (e := d') hgenuine (by rw [heq]) (by rw [heq])
    rw [he, hsettle]
    refine ⟨?_, Or.inr ⟨?_, hbroken⟩⟩
    · rw [hfrontier, heq]
    · rw [hrunning, heq]

/-- **A turn that finishes a pass**, on any host. -/
theorem finish_cases {handles : IdMap .resource η} (hpass : frame.pass? p = some pass)
    (he : e = d.finish host frame plan (p, handles)) :
    e.running = d.running.eraseP (fun x => x.1 = p) ∧
      (e.frontier = d.frontier.complete plan.graph p ∧ e.error = d.error ∧ e.lost = d.lost ∨
        e.frontier = d.frontier ∧ Broken d e) := by
  have hcalls : Ends (finishCalls host plan d.users p pass handles) d.host (fun _ _ => True) _ :=
    host.leaves_genuine.finishCalls d.users d.host
  have hends := ends_finishPass hpass hcalls
  rcases settle_cases hends with ⟨heq, _⟩ | ⟨err, d', hgenuine, ⟨pre, _, heq⟩, hsettle⟩
  · have heq' : e = _ := he.trans heq
    exact ⟨by rw [heq'], Or.inl ⟨by rw [heq'], by rw [heq'], by rw [heq']⟩⟩
  · obtain ⟨hbroken, hfrontier, hrunning⟩ :=
      settle_error (d := d) (e := d') hgenuine (by rw [heq]) (by rw [heq])
    rw [he, Dispatch.finish, hsettle]
    refine ⟨?_, Or.inr ⟨?_, hbroken⟩⟩
    · rw [hrunning, heq]
    · rw [hfrontier, heq]

/-! ### The invariant of the dispatch -/

/-- Each pass that has begun is done, runs, or was given up by a turn that did not go well; and
workers are a crew of some size. -/
structure Census (plan : Plan) (size : Nat) (begun : List PassId) (d : Dispatch σ η) : Prop where
  roster : Roster plan begun d
  /-- A worker that was lost took a pass along. -/
  ended : d.frontier.done.length + d.engaged ≤ begun.length
  accounted : d.error = none → d.lost = 0 → ∀ p ∈ begun, p ∈ d.frontier.done ∨ p ∈ d.runningPasses
  crewed : d.engaged ≤ size
  /-- Whoever left an error runs nothing and was not lost. -/
  spared : d.error ≠ none → d.engaged < size
  mismatch : ∀ m, d.error = some (.mismatch m) → m = .stalled ∧ d.running = [] ∧ 0 < d.lost

theorem isOver_iff :
    d.isOver plan ↔ d.error ≠ none ∨ d.frontier.done.length = plan.passCount := by
  unfold isOver
  rw [Bool.or_eq_true, Option.isSome_iff_ne_none, decide_eq_true_iff]

theorem engaged_of_idle (h : d.running = []) : d.engaged = d.lost := by
  rw [engaged, h, List.length_nil, Nat.zero_add]

theorem engaged_pos_of_running (h : d.running ≠ []) : 0 < d.engaged :=
  Nat.lt_of_lt_of_le (List.length_pos_iff.mpr h) (Nat.le_add_right _ _)

namespace Census

theorem start (hf : plan.Fits frame) (size : Nat) (s : σ) :
    Census plan size [] (Dispatch.start plan s : Dispatch σ η) where
  roster := Roster.start hf s
  ended := Nat.le_refl 0
  accounted _ _ p hp := absurd hp List.not_mem_nil
  crewed := Nat.zero_le size
  spared h := absurd rfl h
  mismatch _ h := by cases h

theorem done_engaged_le (h : Census plan size begun d) (hf : plan.Fits frame) :
    d.frontier.done.length + d.engaged ≤ plan.passCount :=
  Nat.le_trans h.ended (h.roster.length_begun_le hf)

/-- While a worker runs a pass or after one was lost, it is over only if there is an error. -/
theorem error_ne_none (h : Census plan size begun d) (hf : plan.Fits frame) (hengaged : 0 < d.engaged)
    (hover : d.isOver plan) : d.error ≠ none := by
  have hdone := h.done_engaged_le hf
  exact (isOver_iff.mp hover).resolve_right (by omega)

/-- **A worker to spare begins a pass.** -/
theorem begin (h : Census plan size begun d) (hf : plan.Fits frame) (hspare : d.engaged < size)
    (hbegin : d.begin? host frame plan = some e) :
    ∃ p, Census plan size (begun ++ [p]) e ∧ e.frontier.done = d.frontier.done ∧
      ((∃ handles, e.running = d.running ++ [(p, handles)]) ∧ e.error = none ∧ e.lost = d.lost ∨
        e.running = d.running ∧ Broken d e) := by
  obtain ⟨p, frontier, htake⟩ := exists_take?_of_begin? hbegin
  obtain ⟨hnone, _, he⟩ := begin?_eq_some hbegin htake
  obtain ⟨rest, hready, rfl⟩ := take?_eq_some htake
  obtain ⟨pass, hpass⟩ := hf.mem_order_iff_pass?.mp (h.roster.fresh hf hready).1
  obtain ⟨hfrontier, hturn⟩ := begin_cases hpass he
  have hdone : e.frontier.done = d.frontier.done := by rw [hfrontier]
  have hended := h.ended
  have hbegun : (begun ++ [p]).length = begun.length + 1 := List.length_append
  rcases hturn with ⟨⟨handles, hruns⟩, herror, hlost⟩ | ⟨hruns, hbroken⟩
  · have hruns' : e.runningPasses = d.runningPasses ++ [p] := by simp [runningPasses, hruns]
    have hengaged : e.engaged = d.engaged + 1 := by
      simp only [engaged, hruns, hlost, List.length_append, List.length_singleton]
      omega
    have hnone' : e.error = none := herror.trans hnone
    refine ⟨p, ⟨h.roster.begin hready hfrontier hruns', ?_, ?_, ?_, ?_, ?_⟩, hdone,
      Or.inl ⟨⟨handles, hruns⟩, hnone', hlost⟩⟩
    · rw [hdone, hengaged]
      omega
    · intro _ hnobody q hq
      rw [hdone, hruns']
      rcases List.mem_append.mp hq with hq | hq
      · exact (h.accounted hnone (hlost ▸ hnobody) q hq).imp id (List.mem_append_left _)
      · exact Or.inr (List.mem_append_right _ hq)
    · omega
    · exact fun hsome => absurd hnone' hsome
    · intro m hm
      rw [hnone'] at hm
      cases hm
  · have hruns' : e.runningPasses = d.runningPasses := by rw [runningPasses, hruns, runningPasses]
    have hengaged : e.engaged + d.lost = d.engaged + e.lost := by
      simp only [engaged, hruns]
      omega
    have hlost := hbroken.lost_le
    refine ⟨p, ⟨h.roster.fail_begin hready hfrontier hruns', ?_, ?_, ?_, ?_, ?_⟩, hdone,
      Or.inr ⟨hruns, hbroken⟩⟩
    · rw [hdone]
      omega
    · exact fun hnone' hnobody => absurd hnobody (hbroken.noticed.resolve_left (not_not.mpr hnone'))
    · omega
    · intro hsome
      have := hbroken.lost_eq hnone hsome
      omega
    · intro m hm
      have hbefore := hbroken.mismatch_before hm
      rw [hnone] at hbefore
      cases hbefore

/-- **A worker finishes its pass.** -/
theorem finish {running : PassId × IdMap .resource η} (h : Census plan size begun d)
    (hf : plan.Fits frame) (hrunning : running ∈ d.running)
    (he : e = d.finish host frame plan running) :
    Census plan size begun e ∧ e.running.length + 1 = d.running.length ∧
      (e.error = d.error ∧ e.lost = d.lost ∨ e.frontier = d.frontier ∧ Broken d e) := by
  obtain ⟨p, handles⟩ := running
  have hruns : p ∈ d.runningPasses := List.mem_map.mpr ⟨_, hrunning, rfl⟩
  obtain ⟨pass, hpass⟩ :=
    hf.mem_order_iff_pass?.mp (h.roster.mem_order hf (h.roster.running p hruns).1)
  obtain ⟨hrest, hturn⟩ := finish_cases hpass he
  have hrest' : e.runningPasses = d.runningPasses.erase p := by
    rw [runningPasses, hrest]
    exact map_eraseP_running
  have hlength : e.running.length + 1 = d.running.length := by
    have herase := List.length_erase_add_one hruns
    rw [← hrest'] at herase
    simpa [runningPasses] using herase
  have hended := h.ended
  have hcrewed := h.crewed
  have hspared := h.spared
  -- A pass runs, so the plan was not said to be foreign.
  have hmismatch : ∀ m, d.error ≠ some (.mismatch m) := by
    intro m hm
    rw [(h.mismatch m hm).2.1] at hrunning
    cases hrunning
  unfold Dispatch.engaged at hended hcrewed hspared
  rcases hturn with ⟨hfrontier, herror, hlost⟩ | ⟨hfrontier, hbroken⟩
  · obtain ⟨hroster, hdone⟩ := h.roster.finish hf hruns hfrontier hrest'
    refine ⟨⟨hroster, ?_, ?_, ?_, ?_, ?_⟩, hlength, Or.inl ⟨herror, hlost⟩⟩
    · rw [hdone, List.length_append, List.length_singleton, Dispatch.engaged]
      omega
    · intro hnone hnobody q hq
      rw [hdone, hrest', List.mem_append, List.mem_singleton]
      by_cases hqp : q = p
      · exact Or.inl (Or.inr hqp)
      · exact (h.accounted (herror ▸ hnone) (hlost ▸ hnobody) q hq).imp Or.inl
          fun hq => h.roster.running_nodup.mem_erase_iff.mpr ⟨hqp, hq⟩
    · rw [Dispatch.engaged]
      omega
    · intro hsome
      have := hspared (herror ▸ hsome)
      rw [Dispatch.engaged]
      omega
    · intro m hm
      exact absurd (herror ▸ hm) (hmismatch m)
  · have hdone : e.frontier.done = d.frontier.done := by rw [hfrontier]
    have hlost := hbroken.lost_le
    refine ⟨⟨h.roster.fail_finish hfrontier hrest', ?_, ?_, ?_, ?_, ?_⟩, hlength,
      Or.inr ⟨hfrontier, hbroken⟩⟩
    · rw [hdone, Dispatch.engaged]
      omega
    · exact fun hnone hnobody => absurd hnobody (hbroken.noticed.resolve_left (not_not.mpr hnone))
    · rw [Dispatch.engaged]
      omega
    · intro hsome
      rw [Dispatch.engaged]
      cases hbroken with
      | failed _ _ _ hsame => omega
      | lost herror hmore =>
          have := hspared (herror ▸ hsome)
          omega
    · intro m hm
      exact absurd (hbroken.mismatch_before hm) (hmismatch m)

/-- **A worker to spare finds that nothing can go on** only after another one was lost. -/
theorem stall (h : Census plan size begun d) (hf : plan.Fits frame) (hspare : d.engaged < size)
    (hstall : d.stall? plan = some e) :
    Census plan size begun e ∧ e.engaged = d.engaged ∧ e.running = [] ∧ e.error ≠ none := by
  obtain ⟨hnone, hleft, hready, hrunning, rfl⟩ := stall?_eq_some hstall
  have hdone := h.done_engaged_le hf
  have hengaged : d.engaged = d.lost := by simp [engaged, hrunning]
  have hlost : 0 < d.lost := by
    by_contra hzero
    have haccounted := h.accounted hnone (by omega)
    rcases h.roster.progress hf haccounted (by omega) with hsome | hsome
    · exact hsome hready
    · exact hsome (by rw [runningPasses, hrunning, List.map_nil])
  have herror : (d.fail (.mismatch .stalled)).error = some (.mismatch .stalled) := by
    rw [fail, hnone, Option.none_or]
  refine ⟨⟨⟨h.roster.frontier, h.roster.running_nodup, h.roster.running⟩, h.ended, ?_, h.crewed,
    fun _ => hspare, ?_⟩, rfl, hrunning, fail_error_ne_none⟩
  · exact fun hnone' => absurd hnone' fail_error_ne_none
  · intro m hm
    rw [herror] at hm
    cases hm
    exact ⟨rfl, hrunning, hlost⟩

end Census

end Dispatch

/-! ### The invariant of the crew -/

namespace Crew

open Dispatch

variable {host : Host σ η} {frame : Frame} {plan : Plan} {size : Nat} {begun : List PassId}
  {first c c' : Crew σ η} {e : Dispatch σ η}

/-- The dispatch is that of a crew, and the crew is as its workers should be. -/
structure Manned (plan : Plan) (size : Nat) (begun : List PassId) (c : Crew σ η) : Prop where
  census : Census plan size begun c.dispatch
  /-- Each worker is somewhere. -/
  headcount : c.awake + c.asleep + c.gone + c.dispatch.engaged = size
  /-- Who sleeps waits for a worker that has a pass, or had one when it was lost. -/
  sleeps : 0 < c.asleep → ¬ c.dispatch.isOver plan ∧ 0 < c.dispatch.engaged
  /-- Nobody leaves before it is over. -/
  left : 0 < c.gone → c.dispatch.isOver plan

namespace Manned

theorem start (hf : plan.Fits frame) (size : Nat) (s : σ) :
    Manned plan size [] (Crew.start size (Dispatch.start plan s) : Crew σ η) where
  census := Census.start hf size s
  headcount := rfl
  sleeps h := absurd h (Nat.lt_irrefl 0)
  left h := absurd h (Nat.lt_irrefl 0)

/-- A worker that is awake is one to spare. -/
theorem engaged_lt (h : Manned plan size begun c) (hawake : 0 < c.awake) :
    c.dispatch.engaged < size := by
  have := h.headcount
  omega

/-- After all were woken up, the workers are as they should be if they are all there and nobody left
before it is over. -/
theorem of_wakeAll (hcensus : Census plan size begun c.dispatch)
    (hcount : c.awake + c.asleep + c.gone + c.dispatch.engaged = size)
    (hleft : 0 < c.gone → c.dispatch.isOver plan) : Manned plan size begun c.wakeAll :=
  ⟨hcensus, by simpa [wakeAll] using hcount, fun h => absurd h (Nat.lt_irrefl 0), hleft⟩

theorem begin (h : Manned plan size begun c) (hf : plan.Fits frame) (hawake : 0 < c.awake)
    (hbegin : c.dispatch.begin? host frame plan = some e) :
    ∃ p, Manned plan size (begun ++ [p]) (c.begun e) ∧
      (e.running = c.dispatch.running ∨
        ∃ handles, e.running = c.dispatch.running ++ [(p, handles)]) := by
  obtain ⟨p, hcensus, hdone, hturn⟩ := h.census.begin hf (h.engaged_lt hawake) hbegin
  have hopen : ¬ c.dispatch.isOver plan := by
    intro hover
    rw [begin?, if_pos hover] at hbegin
    cases hbegin
  have hcount := h.headcount
  have hleft : 0 < c.gone → e.isOver plan := fun hgone => absurd (h.left hgone) hopen
  -- A worker that left no error runs the pass or was lost.
  have hbusy : e.error = none → e.engaged = c.dispatch.engaged + 1 →
      Manned plan size (begun ++ [p]) (c.begun e) := by
    intro hnone hengaged
    rw [begun_of_no_error hnone]
    refine ⟨hcensus, ?_, fun _ => ⟨?_, ?_⟩, hleft⟩
    · show c.awake - 1 + c.asleep + c.gone + e.engaged = size
      omega
    · show ¬ e.isOver plan
      rw [isOver_iff, hdone]
      intro hover
      exact hopen (isOver_iff.mpr (Or.inr (hover.resolve_left (not_not.mpr hnone))))
    · show 0 < e.engaged
      omega
  refine ⟨p, ?_, hturn.symm.imp And.left And.left⟩
  rcases hturn with ⟨⟨handles, hruns⟩, hnone, hlost⟩ | ⟨hruns, hbroken⟩
  · apply hbusy hnone
    simp only [engaged, hruns, hlost, List.length_append, List.length_singleton]
    omega
  · cases hbroken with
    | failed err _ herror hlost =>
        have hsome : e.error ≠ none := error_ne_none_of_or herror
        have hengaged : e.engaged = c.dispatch.engaged := by rw [engaged, hruns, hlost, engaged]
        rw [begun_of_error hsome]
        exact of_wakeAll hcensus (hengaged ▸ hcount) hleft
    | lost herror hlost =>
        have hnone : c.dispatch.error = none :=
          not_not.mp fun hsome => hopen (isOver_iff.mpr (Or.inl hsome))
        apply hbusy (herror.trans hnone)
        rw [engaged, hruns, hlost, engaged, Nat.add_assoc]

theorem finish {running : PassId × IdMap .resource η} (h : Manned plan size begun c)
    (hf : plan.Fits frame) (hrunning : running ∈ c.dispatch.running)
    (he : e = c.dispatch.finish host frame plan running) :
    Manned plan size begun (c.finished e) := by
  obtain ⟨hcensus, hlength, hturn⟩ := h.census.finish hf hrunning he
  have hcount := h.headcount
  have hengaged : 0 < c.dispatch.engaged := engaged_pos_of_running (List.ne_nil_of_mem hrunning)
  -- It was over before only if there was an error, and that stays.
  have hleft : e.error = c.dispatch.error ∨ e.error ≠ none → 0 < c.gone → e.isOver plan := by
    intro herror hgone
    have hsome := h.census.error_ne_none hf hengaged (h.left hgone)
    exact isOver_iff.mpr (Or.inl (herror.elim (fun hsame => hsame ▸ hsome) id))
  -- A worker that was not lost is awake again, and so are all others.
  have hback : e.lost = c.dispatch.lost → (0 < c.gone → e.isOver plan) →
      Manned plan size begun (c.finished e) := by
    intro hlost hleft
    rw [finished_of_lost_eq hlost]
    refine of_wakeAll hcensus ?_ hleft
    show c.awake + 1 + c.asleep + c.gone + e.engaged = size
    unfold engaged at hcount ⊢
    omega
  rcases hturn with ⟨herror, hlost⟩ | ⟨hfrontier, hbroken⟩
  · exact hback hlost (hleft (Or.inl herror))
  · cases hbroken with
    | failed err _ herror hlost =>
        exact hback hlost (hleft (Or.inr (error_ne_none_of_or herror)))
    | lost herror hlost =>
        rw [finished_of_lost_ne (by omega)]
        refine ⟨hcensus, ?_, fun hasleep => ⟨?_, ?_⟩, hleft (Or.inl herror)⟩
        · show c.awake + c.asleep + c.gone + e.engaged = size
          unfold engaged at hcount ⊢
          omega
        · have hopen := (h.sleeps hasleep).1
          show ¬ e.isOver plan
          rwa [isOver_iff, herror, hfrontier, ← isOver_iff]
        · show 0 < e.engaged
          unfold engaged
          omega

theorem stall (h : Manned plan size begun c) (hf : plan.Fits frame) (hawake : 0 < c.awake)
    (hstall : c.dispatch.stall? plan = some e) : Manned plan size begun (c.stalled e) := by
  obtain ⟨hcensus, hengaged, _, hsome⟩ := h.census.stall hf (h.engaged_lt hawake) hstall
  have hcount := h.headcount
  refine ⟨hcensus, ?_, fun hasleep => absurd hasleep (Nat.lt_irrefl 0),
    fun _ => isOver_iff.mpr (Or.inl hsome)⟩
  show c.awake + c.asleep - 1 + 0 + (c.gone + 1) + e.engaged = size
  omega

/-- **Each step of a crew keeps its workers as they should be**, whatever the host does. -/
theorem step (h : Manned plan size begun c) (hf : plan.Fits frame)
    (hstep : Step host frame plan c c') : ∃ begun, Manned plan size begun c' := by
  have hcount := h.headcount
  cases hstep with
  | leave hawake hover =>
      refine ⟨begun, h.census, ?_, h.sleeps, fun _ => hover⟩
      show c.awake - 1 + c.asleep + (c.gone + 1) + c.dispatch.engaged = size
      omega
  | begin hawake hbegin =>
      obtain ⟨p, hbegun, _⟩ := h.begin hf hawake hbegin
      exact ⟨_, hbegun⟩
  | finish hrunning => exact ⟨begun, h.finish hf hrunning rfl⟩
  | stall hawake hstall => exact ⟨begun, h.stall hf hawake hstall⟩
  | sleep hawake hopen hready hruns =>
      refine ⟨begun, h.census, ?_, fun _ => ⟨hopen, engaged_pos_of_running hruns⟩, h.left⟩
      show c.awake - 1 + (c.asleep + 1) + c.gone + c.dispatch.engaged = size
      omega

end Manned

/-- What the turns of a crew keep true. -/
theorem Reachable.manned (h : Reachable host frame plan first c) (hf : plan.Fits frame)
    (hfirst : Manned plan size begun first) : ∃ begun, Manned plan size begun c := by
  induction h with
  | refl => exact ⟨begun, hfirst⟩
  | step _ hstep ih =>
      obtain ⟨_, hc⟩ := ih
      exact hc.step hf hstep

/-! ### Crews at rest -/

/-- **A crew comes to rest when nobody is awake or runs a pass.** -/
theorem settled_iff : Settled host frame plan c ↔ c.awake = 0 ∧ c.dispatch.running = [] := by
  constructor
  · intro hsettled
    have hrunning : c.dispatch.running = [] := by
      by_contra hruns
      obtain ⟨running, hmem⟩ := List.exists_mem_of_ne_nil _ hruns
      exact hsettled _ (.finish hmem)
    refine ⟨Nat.eq_zero_of_not_pos fun hawake => ?_, hrunning⟩
    by_cases hover : c.dispatch.isOver plan
    · exact hsettled _ (.leave hawake hover)
    obtain ⟨hnone, hleft⟩ := isOver_eq_false_iff.mp (Bool.not_eq_true _ ▸ hover)
    cases hready : c.dispatch.frontier.ready with
    | nil => exact hsettled _ (.stall hawake (stall?_of_idle hnone hleft hready hrunning))
    | cons p rest => exact hsettled _ (.begin hawake (begin?_of_ready hnone hleft hready))
  · rintro ⟨hawake, hrunning⟩ c' hstep
    cases hstep with
    | leave hpos | begin hpos | stall hpos | sleep hpos => omega
    | finish hmem =>
        rw [hrunning] at hmem
        cases hmem

/-- It has ended then, or it hangs. -/
theorem Settled.ended_or_hung (h : Settled host frame plan c) : c.Ended ∨ c.Hung := by
  obtain ⟨hawake, hrunning⟩ := settled_iff.mp h
  rcases Nat.eq_zero_or_pos c.asleep with hasleep | hasleep
  · exact Or.inl ⟨hawake, hasleep, hrunning⟩
  · exact Or.inr ⟨hawake, hasleep, hrunning⟩

/-! ### The run that is computed -/

/-- When it is over, all workers that are awake leave. -/
theorem Reachable.exists_leave (h : Reachable host frame plan first c) (hover : c.dispatch.isOver plan)
    (hasleep : c.asleep = 0) (hrunning : c.dispatch.running = []) :
    ∃ c', Reachable host frame plan first c' ∧ c'.dispatch = c.dispatch ∧ c'.Ended := by
  generalize hn : c.awake = n
  induction n generalizing c with
  | zero => exact ⟨c, h, rfl, hn, hasleep, hrunning⟩
  | succ n ih =>
      have hleave : Reachable host frame plan first c.leave := h.step (.leave (by omega) hover)
      have hawake : c.leave.awake = n := by
        show c.awake - 1 = n
        omega
      exact ih (c := c.leave) hleave hover hasleep hrunning hawake

theorem asleep_begun (h : c.asleep = 0) : (c.begun e).asleep = 0 := by
  unfold begun
  split
  · rfl
  · exact h

theorem asleep_finished (h : c.asleep = 0) : (c.finished e).asleep = 0 := by
  unfold finished
  split
  · rfl
  · exact h

/-- **Passes that are begun and finished one at a time are those of a crew**, of which nobody has to
sleep, and it comes to its end. -/
theorem Manned.exists_drive (n : Nat) (h : Manned plan size begun c) (hf : plan.Fits frame)
    (hreachable : Reachable host frame plan first c) (hasleep : c.asleep = 0)
    (hidle : c.dispatch.running = []) (hn : plan.passCount < begun.length + n) :
    ∃ c', Reachable host frame plan first c' ∧
      c'.dispatch = c.dispatch.drive host frame plan size n ∧ c'.Ended := by
  induction n generalizing begun c with
  | zero =>
      have := h.census.roster.length_begun_le hf
      omega
  | succ n ih =>
      have hcount := h.headcount
      have hengaged := engaged_of_idle hidle
      unfold drive
      by_cases hcrew : size ≤ c.dispatch.lost
      · rw [if_pos hcrew]
        exact ⟨c, hreachable, rfl, by omega, hasleep, hidle⟩
      rw [if_neg hcrew]
      by_cases hover : c.dispatch.isOver plan
      · have hbegin : c.dispatch.begin? host frame plan = none := if_pos hover
        have hstall : c.dispatch.stall? plan = none := if_pos (Or.inl hover)
        simp only [hbegin, hstall, Option.getD_none]
        exact hreachable.exists_leave hover hasleep hidle
      have hgone : c.gone = 0 := Nat.eq_zero_of_not_pos (mt h.left hover)
      have hawake : 0 < c.awake := by omega
      cases hbegin : c.dispatch.begin? host frame plan with
      | none =>
          obtain ⟨hnone, hleft⟩ := isOver_eq_false_iff.mp (Bool.not_eq_true _ ▸ hover)
          have hready : c.dispatch.frontier.ready = [] := by
            by_contra hready
            obtain ⟨p, rest, hcons⟩ := List.exists_cons_of_ne_nil hready
            rw [begin?_of_ready hnone hleft hcons] at hbegin
            cases hbegin
          have hstall := stall?_of_idle hnone hleft hready hidle
          simp only [hstall, Option.getD_some]
          have hstalled := hreachable.step (.stall hawake hstall)
          exact hstalled.exists_leave (isOver_iff.mpr (Or.inl fail_error_ne_none)) rfl hidle
      | some e =>
          obtain ⟨p, hbegun, hruns⟩ := h.begin hf hawake hbegin
          have hstep := hreachable.step (.begin hawake hbegin)
          have hmore : plan.passCount < (begun ++ [p]).length + n := by
            rw [List.length_append, List.length_singleton]
            omega
          rcases hruns with hruns | ⟨handles, hruns⟩
          · rw [hidle] at hruns
            -- The pass failed to begin, or its worker was lost.
            simp only [finishFirst_of_idle hruns]
            have hrest := ih hbegun hstep (asleep_begun hasleep) (by rwa [dispatch_begun]) hmore
            rwa [dispatch_begun] at hrest
          · rw [hidle, List.nil_append] at hruns
            have hmem : (p, handles) ∈ (c.begun e).dispatch.running := by simp [hruns]
            simp only [finishFirst_of_running hruns]
            have hfinish := hstep.step (.finish hmem)
            have hdone : e.finish host frame plan (p, handles) =
                (c.begun e).dispatch.finish host frame plan (p, handles) := by
              rw [dispatch_begun]
            have hfinished := hbegun.finish hf hmem hdone
            obtain ⟨_, hlength, _⟩ := hbegun.census.finish hf hmem hdone
            rw [← hdone] at hfinish
            rw [dispatch_begun, hruns] at hlength
            have hnone := List.length_eq_zero_iff.mp (Nat.succ.inj hlength)
            have hrest := ih hfinished hfinish (asleep_finished (asleep_begun hasleep))
              (by rwa [dispatch_finished]) hmore
            rwa [dispatch_finished] at hrest

end Crew

end FramePlan
