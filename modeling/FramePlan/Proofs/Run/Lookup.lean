import FramePlan.Proofs.Plan.Basic
import FramePlan.Run.Lookup

/-!
# Nothing is looked up in vain

The plan of a frame has events for each pass of its order, and a destination for each source of a
move that it places. So it makes no difference to a run whether it has these at hand or asks for
them, whatever the host does.

* `Plan.Fits.lookUp_sequential`, `Plan.Fits.lookUp_parallel` — the two kinds of run.
-/

namespace FramePlan

variable {σ η : Type} {host : Host σ η} {frame : Frame} {plan : Plan}

/-- A loop does what another loop does if their rounds do. -/
theorem forM_map_congr {α β ε : Type} {f : α → β} {act : β → EStateM ε σ Unit}
    {act' : α → EStateM ε σ Unit} {xs : List α} (h : ∀ x ∈ xs, act (f x) = act' x) :
    (xs.map f).forM act = xs.forM act' := by
  induction xs with
  | nil => rfl
  | cons x xs ih =>
      have hx := h x (List.mem_cons_self ..)
      have hxs := ih fun y hy => h y (List.mem_cons_of_mem _ hy)
      show (act (f x) >>= fun _ => (xs.map f).forM act) = act' x >>= fun _ => xs.forM act'
      rw [hx, hxs]

theorem Host.moveOnAll_eq {ms : List Move}
    (h : ∀ m ∈ ms, plan.moves.forward.get? m.src = some m.dst) :
    host.moveOnAll plan (ms.map (·.src)) = host.moveAll ms := by
  apply forM_map_congr
  intro m hm
  rw [Run.lookUpDestination, h m hm, pure_bind]

namespace Plan

namespace Fits

theorem lookUp_prologue (hf : plan.Fits frame) :
    host.lookUpPrologue plan = host.applyPrologue plan.prologue := by
  have hmoves : host.moveOnAll plan (plan.prologue.moves.map (·.src)) =
      host.moveAll plan.prologue.moves := by
    apply Host.moveOnAll_eq
    rw [hf.prologue]
    exact fun _ hm => forward_of_mem_inSlot hm
  unfold Host.lookUpPrologue Host.applyPrologue
  rw [hmoves]

theorem lookUp_runPass (hf : plan.Fits frame) {scheduled : ScheduledPass}
    (h : scheduled ∈ plan.schedule) :
    Lookup.runPass host frame plan scheduled.pass = Run.runPass host frame scheduled := by
  have hmoves : host.moveOnAll plan (scheduled.events.moves.map (·.src)) =
      host.moveAll scheduled.events.moves := by
    apply Host.moveOnAll_eq
    rw [hf.schedule] at h
    obtain ⟨_, _, rfl⟩ := List.mem_map.mp h
    exact fun _ hm => forward_of_mem_inSlot hm
  have hevents : (Run.lookUpEvents plan scheduled.pass : EStateM RunError σ Events) =
      pure scheduled.events := by
    rw [Run.lookUpEvents, events?_of_mem hf.order_nodup h]
  unfold Lookup.runPass Run.runPass
  simp only [hevents, pure_bind, hmoves]

/-- **A sequential run finds all that it asks for.** -/
theorem lookUp_sequential (hf : plan.Fits frame) :
    Lookup.sequential host frame plan = Run.sequential host frame plan := by
  have hpasses : plan.order.forM (Lookup.runPass host frame plan) =
      plan.schedule.forM (Run.runPass host frame) :=
    forM_map_congr fun _ h => hf.lookUp_runPass h
  unfold Lookup.sequential Run.sequential
  rw [hf.lookUp_prologue, hpasses]

/-- **So does a parallel run.** -/
theorem lookUp_parallel (hf : plan.Fits frame) {workers : WorkerCount} :
    Lookup.parallel workers host frame plan = Run.parallel workers host frame plan := by
  unfold Lookup.parallel Lookup.openParallel Run.parallel Run.openParallel
  rw [hf.lookUp_prologue]

end Fits

end Plan

end FramePlan
