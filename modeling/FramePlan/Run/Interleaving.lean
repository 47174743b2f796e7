import FramePlan.Run.Parallel

/-!
# Interleavings of a parallel run

Workers touch the dispatch one at a time, but in any order: whenever a pass is ready a worker may
begin it, and any of the running passes may finish next. `Dispatch.Reachable` holds of every
dispatch that such a sequence of steps leads to.

* `Dispatch.reachable_drive` — the run that is computed is one of them.
-/

namespace FramePlan

namespace Dispatch

variable {σ η : Type}

/-- One worker does one thing to the dispatch. -/
inductive Step (host : Host σ η) (frame : Frame) (plan : Plan) :
    Dispatch σ η → Dispatch σ η → Prop where
  | begin {d e : Dispatch σ η} (h : d.begin? host frame plan = some e) : Step host frame plan d e
  | finish {d : Dispatch σ η} {running : PassId × IdMap .resource η} (h : running ∈ d.running) :
    Step host frame plan d (d.finish host frame plan running)
  | stall {d e : Dispatch σ η} (h : d.stall? plan = some e) : Step host frame plan d e

/-- Some sequence of steps leads from the first dispatch to the second. -/
inductive Reachable (host : Host σ η) (frame : Frame) (plan : Plan) (first : Dispatch σ η) :
    Dispatch σ η → Prop where
  | refl : Reachable host frame plan first first
  | step {d e : Dispatch σ η} :
    Reachable host frame plan first d → Step host frame plan d e → Reachable host frame plan first e

theorem Reachable.finishFirst {host : Host σ η} {frame : Frame} {plan : Plan}
    {first d : Dispatch σ η} (h : Reachable host frame plan first d) :
    Reachable host frame plan first (d.finishFirst host frame plan) := by
  unfold Dispatch.finishFirst
  split
  · exact h
  · next hr => exact h.step (.finish (hr ▸ List.mem_cons_self ..))

theorem reachable_drive {host : Host σ η} {frame : Frame} {plan : Plan} {first : Dispatch σ η}
    {workers : Nat} (n : Nat) {d : Dispatch σ η} (h : Reachable host frame plan first d) :
    Reachable host frame plan first (d.drive host frame plan workers n) := by
  induction n generalizing d with
  | zero => exact h
  | succ n ih =>
    unfold drive
    split
    · exact h
    · split
      · next hb => exact ih (h.step (.begin hb)).finishFirst
      · cases hs : d.stall? plan with
        | none => exact h
        | some e => exact h.step (.stall hs)

end Dispatch

end FramePlan
