import FramePlan.Run.Interleaving

/-!
# Crews

A parallel run has a crew of so many workers. A worker that is *awake* is about to look at the
dispatch. If no further pass is to begin it leaves, and if one is ready it begins it. If none is
ready it goes to sleep as long as other workers run passes; if none of them does, it finds that the
dispatch is stalled.

Workers do not wake up by themselves. One that is done with a pass, well or not, wakes up all that
sleep, and so does one that leaves an error. A worker that is lost to a panic of storage wakes up
nobody: if all others sleep by then, the run does not end.

* `Crew.Reachable.dispatch` — a crew does nothing that workers without a limit could not do.
* `Crew.Ended`, `Crew.Hung` — the two ways in which a crew comes to rest.
* `Crew.step_iff_choose?`, `Crew.reachable_of_replay` — crews that follow a schedule.
-/

namespace FramePlan

variable {σ η : Type}

namespace Dispatch

/-- How many workers run a pass or were lost. -/
def engaged (d : Dispatch σ η) : Nat := d.running.length + d.lost

end Dispatch

/-- The workers of a parallel run and the dispatch that they share. Those that run a pass and those
that were lost are counted by the dispatch. -/
structure Crew (σ η : Type) where
  dispatch : Dispatch σ η
  /-- How many workers are about to look at the dispatch. -/
  awake : Nat
  /-- How many workers sleep until they are woken up. -/
  asleep : Nat
  /-- How many workers have left. -/
  gone : Nat

namespace Crew

/-- All workers are about to look at the dispatch. -/
def start (size : Nat) (d : Dispatch σ η) : Crew σ η := ⟨d, size, 0, 0⟩

/-- All that sleep are woken up. -/
def wakeAll (c : Crew σ η) : Crew σ η := { c with awake := c.awake + c.asleep, asleep := 0 }

/-- A worker leaves. -/
def leave (c : Crew σ η) : Crew σ η := { c with awake := c.awake - 1, gone := c.gone + 1 }

/-- A worker goes to sleep. -/
def sleep (c : Crew σ η) : Crew σ η := { c with awake := c.awake - 1, asleep := c.asleep + 1 }

/-- A worker attempted to begin a pass, which led to the dispatch. If that left an error it wakes up
all others and stays awake; else it runs the pass, or was lost. -/
def begun (c : Crew σ η) (e : Dispatch σ η) : Crew σ η :=
  if e.error.isSome then { c with dispatch := e }.wakeAll
  else { c with dispatch := e, awake := c.awake - 1 }

/-- A worker attempted to finish its pass, which led to the dispatch. Unless it was lost it is awake
again, and wakes up all others. -/
def finished (c : Crew σ η) (e : Dispatch σ η) : Crew σ η :=
  if e.lost = c.dispatch.lost then { c with dispatch := e, awake := c.awake + 1 }.wakeAll
  else { c with dispatch := e }

/-- A worker found that nothing can go on, which led to the dispatch; it wakes up all others and
leaves. -/
def stalled (c : Crew σ η) (e : Dispatch σ η) : Crew σ η := { c with dispatch := e }.wakeAll.leave

/-- One worker of a crew does one thing. -/
inductive Step (host : Host σ η) (frame : Frame) (plan : Plan) : Crew σ η → Crew σ η → Prop where
  | leave {c : Crew σ η} (hawake : 0 < c.awake) (hover : c.dispatch.isOver plan) :
    Step host frame plan c c.leave
  | begin {c : Crew σ η} {e : Dispatch σ η} (hawake : 0 < c.awake)
      (h : c.dispatch.begin? host frame plan = some e) : Step host frame plan c (c.begun e)
  | finish {c : Crew σ η} {running : PassId × IdMap .resource η}
      (h : running ∈ c.dispatch.running) :
    Step host frame plan c (c.finished (c.dispatch.finish host frame plan running))
  | stall {c : Crew σ η} {e : Dispatch σ η} (hawake : 0 < c.awake)
      (h : c.dispatch.stall? plan = some e) : Step host frame plan c (c.stalled e)
  | sleep {c : Crew σ η} (hawake : 0 < c.awake) (hopen : ¬ c.dispatch.isOver plan)
      (hready : c.dispatch.frontier.ready = []) (hruns : c.dispatch.running ≠ []) :
    Step host frame plan c c.sleep

/-- Some turns of its workers lead from the first crew to the second. -/
inductive Reachable (host : Host σ η) (frame : Frame) (plan : Plan) (first : Crew σ η) :
    Crew σ η → Prop where
  | refl : Reachable host frame plan first first
  | step {c c' : Crew σ η} : Reachable host frame plan first c → Step host frame plan c c' →
    Reachable host frame plan first c'

/-- No worker of the crew can do anything any more. -/
def Settled (host : Host σ η) (frame : Frame) (plan : Plan) (c : Crew σ η) : Prop :=
  ∀ c', ¬ Step host frame plan c c'

/-- Each worker has left or was lost: the run ends. -/
def Ended (c : Crew σ η) : Prop := c.awake = 0 ∧ c.asleep = 0 ∧ c.dispatch.running = []

/-- Some workers sleep, and nobody is left to wake them up: the run does not end. -/
def Hung (c : Crew σ η) : Prop := c.awake = 0 ∧ 0 < c.asleep ∧ c.dispatch.running = []

section Effects

variable {c : Crew σ η} {e : Dispatch σ η}

theorem begun_of_error (h : e.error ≠ none) : c.begun e = { c with dispatch := e }.wakeAll :=
  if_pos (Option.isSome_iff_ne_none.mpr h)

theorem begun_of_no_error (h : e.error = none) :
    c.begun e = { c with dispatch := e, awake := c.awake - 1 } :=
  if_neg (by simp [h])

theorem finished_of_lost_eq (h : e.lost = c.dispatch.lost) :
    c.finished e = { c with dispatch := e, awake := c.awake + 1 }.wakeAll := if_pos h

theorem finished_of_lost_ne (h : e.lost ≠ c.dispatch.lost) :
    c.finished e = { c with dispatch := e } := if_neg h

@[simp]
theorem dispatch_begun : (c.begun e).dispatch = e := by
  unfold begun
  split <;> rfl

@[simp]
theorem dispatch_finished : (c.finished e).dispatch = e := by
  unfold finished
  split <;> rfl

end Effects

variable {host : Host σ η} {frame : Frame} {plan : Plan} {first c c' : Crew σ η}

/-- One thing that a worker of a crew does is one that a worker can do to the dispatch, or leaves it
as it is. -/
theorem Step.dispatch (h : Step host frame plan c c') :
    c'.dispatch = c.dispatch ∨ Dispatch.Step host frame plan c.dispatch c'.dispatch := by
  cases h with
  | leave => exact Or.inl rfl
  | begin _ hbegin =>
      rw [dispatch_begun]
      exact Or.inr (.begin hbegin)
  | finish hrunning =>
      rw [dispatch_finished]
      exact Or.inr (.finish hrunning)
  | stall _ hstall => exact Or.inr (.stall hstall)
  | sleep => exact Or.inl rfl

theorem Reachable.dispatch (h : Reachable host frame plan first c) :
    Dispatch.Reachable host frame plan first.dispatch c.dispatch := by
  induction h with
  | refl => exact .refl
  | step _ hstep ih =>
      rcases hstep.dispatch with hsame | hstep
      · exact hsame ▸ ih
      · exact ih.step hstep

/-! ### Schedules -/

/-- What one worker of a crew does next. A running pass is told by its place among those that
run. -/
inductive Choice where
  | leave
  | begin
  | finish (index : Nat)
  | stall
  | sleep

/-- Lets one worker do as chosen, if one can. -/
def choose? (host : Host σ η) (frame : Frame) (plan : Plan) (c : Crew σ η) :
    Choice → Option (Crew σ η)
  | .leave => if 0 < c.awake ∧ c.dispatch.isOver plan then some c.leave else none
  | .begin => if 0 < c.awake then (c.dispatch.begin? host frame plan).map c.begun else none
  | .finish i =>
    c.dispatch.running[i]?.map fun running =>
      c.finished (c.dispatch.finish host frame plan running)
  | .stall => if 0 < c.awake then (c.dispatch.stall? plan).map c.stalled else none
  | .sleep =>
    if 0 < c.awake ∧ ¬ c.dispatch.isOver plan ∧ c.dispatch.frontier.ready = [] ∧
        c.dispatch.running ≠ [] then some c.sleep
    else none

/-- Lets workers do as chosen, one choice after another. -/
def replay (host : Host σ η) (frame : Frame) (plan : Plan) (c : Crew σ η) :
    List Choice → Option (Crew σ η)
  | [] => some c
  | choice :: rest => (c.choose? host frame plan choice).bind fun c => replay host frame plan c rest

/-- The steps of a crew are those that can be chosen. -/
theorem step_iff_choose? :
    Step host frame plan c c' ↔ ∃ choice, c.choose? host frame plan choice = some c' := by
  constructor
  · intro hstep
    cases hstep with
    | leave hawake hover => exact ⟨.leave, if_pos ⟨hawake, hover⟩⟩
    | begin hawake hbegin => exact ⟨.begin, by rw [choose?, if_pos hawake, hbegin, Option.map_some]⟩
    | finish hrunning =>
        obtain ⟨i, hi⟩ := List.mem_iff_getElem?.mp hrunning
        exact ⟨.finish i, by rw [choose?, hi, Option.map_some]⟩
    | stall hawake hstall => exact ⟨.stall, by rw [choose?, if_pos hawake, hstall, Option.map_some]⟩
    | sleep hawake hopen hready hruns => exact ⟨.sleep, if_pos ⟨hawake, hopen, hready, hruns⟩⟩
  · rintro ⟨choice, h⟩
    cases choice with
    | leave =>
        obtain ⟨⟨hawake, hover⟩, ⟨⟩⟩ := Option.ite_none_right_eq_some.mp h
        exact .leave hawake hover
    | begin =>
        obtain ⟨hawake, h⟩ := Option.ite_none_right_eq_some.mp h
        obtain ⟨e, hbegin, rfl⟩ := Option.map_eq_some_iff.mp h
        exact .begin hawake hbegin
    | finish i =>
        obtain ⟨running, hi, rfl⟩ := Option.map_eq_some_iff.mp h
        exact .finish (List.mem_of_getElem? hi)
    | stall =>
        obtain ⟨hawake, h⟩ := Option.ite_none_right_eq_some.mp h
        obtain ⟨e, hstall, rfl⟩ := Option.map_eq_some_iff.mp h
        exact .stall hawake hstall
    | sleep =>
        obtain ⟨⟨hawake, hopen, hready, hruns⟩, ⟨⟩⟩ := Option.ite_none_right_eq_some.mp h
        exact .sleep hawake hopen hready hruns

/-- A schedule that can be followed leads to a crew that is reachable. -/
theorem reachable_of_replay {schedule : List Choice} (h : Reachable host frame plan first c)
    (hreplay : c.replay host frame plan schedule = some c') :
    Reachable host frame plan first c' := by
  induction schedule generalizing c with
  | nil =>
      cases hreplay
      exact h
  | cons choice rest ih =>
      obtain ⟨d, hchoose, hrest⟩ := Option.bind_eq_some_iff.mp hreplay
      exact ih (h.step (step_iff_choose?.mpr ⟨choice, hchoose⟩)) hrest

end Crew

namespace Run

/-- How many workers a parallel run starts: no more than there are passes. -/
def crewSize (workers : WorkerCount) (plan : Plan) : Nat := min workers.count plan.passCount

end Run

end FramePlan
