import FramePlan.Proofs.Run.Orderly

/-!
# The turns of workers

A turn begins a pass or finishes one. If the host is calm it keeps the dispatch orderly, and goes
well or leaves an error; which calls of the host it makes is said by `Dispatch.beginCalls` and
`Dispatch.finishCalls`.

* `Dispatch.Orderly.begin_turn`, `Dispatch.Orderly.finish_turn` — the two kinds of turn.
* `Dispatch.Orderly.not_stall` — no worker ever finds that nothing can go on.
-/

namespace FramePlan

variable {σ η : Type}

namespace Dispatch

variable {host : Host σ η} {frame : Frame} {plan : Plan} {begun : List PassId}
  {d e : Dispatch σ η} {p : PassId}

/-! ### One turn -/

theorem take?_eq_some {f g : Frontier} (h : f.take? = some (p, g)) :
    ∃ rest, f.ready = p :: rest ∧ g = { f with ready := rest } := by
  unfold Frontier.take? at h
  cases hready : f.ready with
  | nil =>
      rw [hready] at h
      cases h
  | cons q rest =>
      rw [hready] at h
      cases h
      exact ⟨rest, rfl, rfl⟩

theorem isOver_eq_false_iff :
    d.isOver plan = false ↔ d.error = none ∧ d.frontier.done.length ≠ plan.passCount := by
  rw [isOver, Bool.or_eq_false_iff, Option.isSome_eq_false_iff, Option.isNone_iff_eq_none,
    decide_eq_false_iff_not]

theorem begin?_eq_some {frontier : Frontier} (h : d.begin? host frame plan = some e)
    (htake : d.frontier.take? = some (p, frontier)) :
    d.error = none ∧ d.frontier.done.length ≠ plan.passCount ∧
      e = settle (beginPass host frame plan p { d with frontier }) := by
  unfold begin? at h
  split at h
  · cases h
  · next hover =>
    rw [htake] at h
    cases h
    obtain ⟨herror, hlength⟩ := isOver_eq_false_iff.mp (Bool.not_eq_true _ ▸ hover)
    exact ⟨herror, hlength, rfl⟩

/-- While it is not over, the pass at the head of the queue can begin. -/
theorem begin?_of_ready {rest : List PassId} (herror : d.error = none)
    (hleft : d.frontier.done.length ≠ plan.passCount) (hready : d.frontier.ready = p :: rest) :
    d.begin? host frame plan = some (settle (beginPass host frame plan p
      { d with frontier := { d.frontier with ready := rest } })) := by
  have hover := isOver_eq_false_iff.mpr ⟨herror, hleft⟩
  simp [begin?, hover, Frontier.take?, hready]

theorem exists_take?_of_begin? (h : d.begin? host frame plan = some e) :
    ∃ p frontier, d.frontier.take? = some (p, frontier) := by
  unfold begin? at h
  split at h
  · cases h
  · obtain ⟨⟨p, frontier⟩, htake, _⟩ := Option.map_eq_some_iff.mp h
    exact ⟨p, frontier, htake⟩

/-- **A turn that begins a pass.** It goes well and the pass runs with its handles, or it leaves an
error. -/
theorem Orderly.begin_turn {frontier : Frontier} {pass : Pass} {Q : IdMap .resource η → σ → Prop}
    {stops : Prop} (h : Orderly frame plan begun d) (hcalm : host.Calm)
    (hpass : frame.pass? p = some pass) (hbegin : d.begin? host frame plan = some e)
    (htake : d.frontier.take? = some (p, frontier))
    (hcalls : Ends (beginCalls host plan d.constructed p pass) d.host Q fun _ _ => stops) :
    Orderly frame plan (begun ++ [p]) e ∧ e.frontier.done = d.frontier.done ∧
      (isReturned (beginPass host frame plan p { d with frontier }) = true ∧ e.error = none ∧
          (∃ handles, e.running = d.running ++ [(p, handles)] ∧ Q handles e.host) ∨
        isReturned (beginPass host frame plan p { d with frontier }) = false ∧
          e.error ≠ none ∧ e.running = d.running ∧ stops) := by
  obtain ⟨herror, _, rfl⟩ := begin?_eq_some hbegin htake
  obtain ⟨rest, hready, rfl⟩ := take?_eq_some htake
  have hends := ends_beginPass (d := { d with frontier := { d.frontier with ready := rest } }) hpass
    (hcalls.and (hcalm.leaves.beginCalls d.constructed d.host))
  have hsettled := settle_of_ends (hends.mono (fun _ e he => he) fun err e he =>
    ⟨he.2.2, he⟩)
  rcases hsettled with ⟨hok, handles, he, hmem, hQ, _⟩ | ⟨hfail, err, e, ⟨he, hstop, _⟩, hsettle⟩
  · obtain ⟨horderly, hnone⟩ := h.begin_ok herror hready hpass he hmem
    refine ⟨horderly, ?_, Or.inl ⟨hok, hnone, handles, ?_, hQ⟩⟩
    · rw [he]
    · rw [he]
  · rw [hsettle]
    obtain ⟨horderly, hsome⟩ := h.begin_error err hready he
    refine ⟨horderly, ?_, Or.inr ⟨hfail, hsome, ?_, hstop⟩⟩
    · rw [fail_frontier, he]
    · rw [fail_running, he]

/-- **A turn that finishes a pass.** It goes well and the pass is complete, or it leaves an
error. -/
theorem Orderly.finish_turn {handles : IdMap .resource η} {pass : Pass} {Q : σ → Prop}
    {stops : Prop} (h : Orderly frame plan begun d) (hf : plan.Fits frame) (hcalm : host.Calm)
    (hpass : frame.pass? p = some pass) (hrunning : (p, handles) ∈ d.running)
    (hcalls : Ends (finishCalls host plan d.users p pass handles) d.host (fun _ => Q)
      fun _ _ => stops) :
    Orderly frame plan begun (d.finish host frame plan (p, handles)) ∧
      (d.finish host frame plan (p, handles)).running =
        d.running.eraseP (fun x => x.1 = p) ∧
      (isReturned (finishPass host frame plan (p, handles) d) = true ∧
          (d.finish host frame plan (p, handles)).error = d.error ∧
          (d.finish host frame plan (p, handles)).frontier.done = d.frontier.done ++ [p] ∧
          Q (d.finish host frame plan (p, handles)).host ∨
        isReturned (finishPass host frame plan (p, handles) d) = false ∧
          (d.finish host frame plan (p, handles)).error ≠ none ∧
          (d.finish host frame plan (p, handles)).frontier.done = d.frontier.done ∧ stops) := by
  have hruns : p ∈ d.runningPasses := List.mem_map.mpr ⟨_, hrunning, rfl⟩
  have hends := ends_finishPass hpass
    (hcalls.and (hcalm.leaves.finishCalls d.users d.host))
  have hsettled := settle_of_ends (hends.mono (fun _ e he => he) fun err e he =>
    ⟨he.2.2, he⟩)
  unfold Dispatch.finish
  rcases hsettled with ⟨hok, he, hQ, _⟩ | ⟨hfail, err, e, ⟨⟨pre, hpre, he⟩, hstop, _⟩, hsettle⟩
  · obtain ⟨horderly, herror, hdone⟩ := h.finish_ok hf hruns hpass he
    refine ⟨horderly, ?_, Or.inl ⟨hok, herror, hdone, hQ⟩⟩
    rw [he]
  · rw [hsettle]
    obtain ⟨horderly, hsome, hdone⟩ := h.finish_error err hf hruns hpass hpre he
    refine ⟨horderly, ?_, Or.inr ⟨hfail, hsome, hdone, hstop⟩⟩
    rw [fail_running, he]

theorem finishFirst_of_running {running : PassId × IdMap .resource η}
    (h : d.running = [running]) :
    d.finishFirst host frame plan = d.finish host frame plan running := by
  rw [finishFirst, h]

theorem finishFirst_of_idle (h : d.running = []) : d.finishFirst host frame plan = d := by
  rw [finishFirst, h]

theorem stall?_eq_some (h : d.stall? plan = some e) :
    d.error = none ∧ d.frontier.done.length ≠ plan.passCount ∧ d.frontier.ready = [] ∧
      d.running = [] ∧ e = d.fail (.mismatch .stalled) := by
  unfold stall? at h
  split at h
  · cases h
  · next hstuck =>
    cases h
    obtain ⟨hover, hrest⟩ := not_or.mp hstuck
    obtain ⟨hready, hrunning⟩ := not_or.mp hrest
    obtain ⟨herror, hlength⟩ := isOver_eq_false_iff.mp (Bool.not_eq_true _ ▸ hover)
    exact ⟨herror, hlength, not_not.mp hready, not_not.mp hrunning, rfl⟩

/-- While it is not over, a dispatch where no pass is ready or runs can be found stalled. -/
theorem stall?_of_idle (herror : d.error = none)
    (hleft : d.frontier.done.length ≠ plan.passCount) (hready : d.frontier.ready = [])
    (hrunning : d.running = []) : d.stall? plan = some (d.fail (.mismatch .stalled)) := by
  have hover := isOver_eq_false_iff.mpr ⟨herror, hleft⟩
  simp [stall?, hover, hready, hrunning]

/-- As some pass is ready or runs, no worker finds that nothing can go on. -/
theorem Orderly.not_stall (h : Orderly frame plan begun d) (hf : plan.Fits frame) :
    d.stall? plan = none := by
  cases hstall : d.stall? plan with
  | none => rfl
  | some e =>
      obtain ⟨herror, hleft, hready, hrunning, _⟩ := stall?_eq_some hstall
      have hlength := h.length_done_le hf
      rcases h.progress hf herror (by omega) with hsome | hsome
      · exact absurd hready hsome
      · exact absurd (by rw [runningPasses, hrunning, List.map_nil]) hsome

end Dispatch

end FramePlan
