import FramePlan.Proofs.Run.Crew
import FramePlan.Proofs.Run.Lookup
import FramePlan.Proofs.Run.Sequential
import FramePlan.Proofs.Storage.Supply
import FramePlan.Run.Recorder

/-!
# When a plan is said not to be one of the frame

The plan of a frame gives no run a reason to say that it is another frame's, whichever calls and
passes fail. A panic of storage is different: it takes a worker and its pass away without an error.
What becomes of the run then depends on the workers that are left. One that is awake finds in the
end that no pass is ready and none runs, and takes the plan for another frame's. If all of them
sleep, nobody wakes them up, and the run does not end. A crew that is lost as a whole leaves no
error, and the answer is that a worker was lost.

* `Plan.Fits.sequential_genuine` — a sequential run.
* `Crew.Candid` — what a crew answers, and when it comes to rest.
* `Run.mismatch_sound` — the joint statement.
* `Run.hung_relay` — a crew that hangs.
-/

namespace FramePlan

variable {σ η : Type}

/-! ### What comes before workers, and runs without them -/

namespace Plan.Fits

variable {frame : Frame} {plan : Plan}

theorem openParallel_genuine (hf : plan.Fits frame) (host : Host σ η) (workers : WorkerCount) :
    StopsWith (Run.openParallel workers host frame plan) RunError.Genuine := by
  unfold Run.openParallel
  rw [hf.checkPassCount_eq, pure_bind]
  exact .bind (.modify _) fun _ => host.leaves_genuine.applyPrologue _

theorem runPass_genuine (hf : plan.Fits frame) (host : Host σ η) {scheduled : ScheduledPass}
    (h : scheduled ∈ plan.schedule) :
    StopsWith (Run.runPass host frame scheduled) RunError.Genuine := by
  have hleaves := host.leaves_genuine
  obtain ⟨pass, hpass⟩ := hf.mem_order_iff_pass?.mp (List.mem_map_of_mem h)
  have hlookUp : (Run.lookUpPass frame scheduled.pass : EStateM RunError σ Pass) = pure pass := by
    rw [Run.lookUpPass, hpass]
  have hpanic : ∀ text, StopsWith (throw (.panicked text) : EStateM RunError σ Unit)
      RunError.Genuine := fun text s => (nofun : RunError.Genuine (.panicked text))
  unfold Run.runPass
  simp only [hlookUp, pure_bind]
  exact .bind (hleaves.constructAll _) fun _ => .bind (hleaves.request _) fun _ =>
    .bind (hleaves.doWork hpanic) fun _ => hleaves.releaseAll _

theorem sequential_genuine (hf : plan.Fits frame) (host : Host σ η) :
    StopsWith (Run.sequential host frame plan) RunError.Genuine := by
  unfold Run.sequential
  rw [hf.checkPassCount_eq, pure_bind]
  exact .bind (.modify _) fun _ => .bind (host.leaves_genuine.applyPrologue _) fun _ =>
    .forM fun _ h => hf.runPass_genuine host h

end Plan.Fits

namespace Crew

open Dispatch

variable {host : Host σ η} {frame : Frame} {plan : Plan} {size : Nat} {begun : List PassId}
  {c : Crew σ η}

/-! ### What a crew answers -/

/-- What the dispatch of a crew says about foreign plans and lost workers, and how the crew comes to
rest. -/
structure Candid (host : Host σ η) (frame : Frame) (plan : Plan) (size : Nat) (c : Crew σ η) :
    Prop where
  /-- The plan is said not to be one of the frame only by a worker that was left after another one
  was lost, and only because nothing can go on. -/
  mismatch : ∀ m, c.dispatch.outcome = .error (.mismatch m) →
    m = .stalled ∧ c.dispatch.running = [] ∧ 0 < c.dispatch.lost ∧ c.dispatch.lost < size
  /-- When a worker was lost and there is no error, that is the answer. -/
  lost : c.dispatch.error = none → 0 < c.dispatch.lost →
    c.dispatch.outcome = .error .workerPanicked
  /-- It always is when the worker was alone. -/
  alone : size ≤ 1 → 0 < c.dispatch.lost → c.dispatch.outcome = .error .workerPanicked
  /-- So it is when all workers were lost. -/
  whole : 0 < size → c.dispatch.lost = size → c.dispatch.outcome = .error .workerPanicked
  /-- If the run ends with a worker left after another one was lost, there is an error: that one did
  not give up without it. -/
  survived : c.Ended → 0 < c.dispatch.lost → c.dispatch.lost < size → c.dispatch.error ≠ none
  /-- When no worker can do anything any more, the run ends; or a worker was lost, there is no
  error, and all that are left sleep for ever. -/
  rest : Settled host frame plan c → c.Ended ∨
    c.Hung ∧ c.dispatch.error = none ∧ 0 < c.dispatch.lost ∧ c.asleep + c.dispatch.lost = size

theorem outcome_of_lost {d : Dispatch σ η} (hnone : d.error = none) (hlost : 0 < d.lost) :
    d.outcome = .error .workerPanicked := by
  unfold outcome
  rw [hnone]
  exact if_neg (by omega)

theorem error_of_outcome {d : Dispatch σ η} {m : Mismatch}
    (h : d.outcome = .error (.mismatch m)) : d.error = some (.mismatch m) := by
  unfold outcome at h
  cases herror : d.error with
  | none =>
      simp only [herror] at h
      split at h <;> cases h
  | some e =>
      rw [herror] at h
      cases h
      rfl

/-- A worker that sleeps while none runs a pass waits for one that was lost. -/
theorem Manned.hung (h : Manned plan size begun c) (hhung : c.Hung) :
    c.dispatch.error = none ∧ 0 < c.dispatch.lost ∧ c.asleep + c.dispatch.lost = size := by
  obtain ⟨hawake, hasleep, hrunning⟩ := hhung
  obtain ⟨hopen, hengaged⟩ := h.sleeps hasleep
  have hgone : c.gone = 0 := Nat.eq_zero_of_not_pos (mt h.left hopen)
  have hcount := h.headcount
  have hlost := engaged_of_idle hrunning
  refine ⟨not_not.mp fun hsome => hopen (isOver_iff.mpr (Or.inl hsome)), ?_, ?_⟩
  · omega
  · omega

theorem Manned.candid (h : Manned plan size begun c) (hf : plan.Fits frame) :
    Candid host frame plan size c := by
  have hspared := h.census.spared
  have hwhole : 0 < size → c.dispatch.lost = size →
      c.dispatch.outcome = .error .workerPanicked := by
    intro hsize hlost
    apply outcome_of_lost _ (by omega)
    by_contra hsome
    have hleft := hspared hsome
    unfold engaged at hleft
    omega
  refine ⟨fun m hm => ?_, outcome_of_lost, fun halone hlost => ?_, hwhole,
    fun hended hlost hleft => ?_, fun hsettled => ?_⟩
  · have herror := error_of_outcome hm
    obtain ⟨rfl, hrunning, hlost⟩ := h.census.mismatch m herror
    have hleft := hspared (by simp [herror])
    unfold engaged at hleft
    exact ⟨rfl, hrunning, hlost, by omega⟩
  · have hcrewed := h.census.crewed
    unfold engaged at hcrewed
    exact hwhole (by omega) (by omega)
  · obtain ⟨hawake, hasleep, hrunning⟩ := hended
    have hcount := h.headcount
    have hengaged := engaged_of_idle hrunning
    exact h.census.error_ne_none hf (by omega) (h.left (by omega))
  · exact hsettled.ended_or_hung.imp id fun hhung => ⟨hhung, h.hung hhung⟩

end Crew

namespace Run

open Dispatch

variable {frame : Frame} {plan : Plan}

/-- The run that is computed is that of a crew, to its end. -/
theorem exists_crew_lastDispatch (hf : plan.Fits frame) (workers : WorkerCount) (host : Host σ η)
    (s : σ) : ∃ c : Crew σ η,
      Crew.Reachable host frame plan (.start (crewSize workers plan) (.start plan s)) c ∧
      c.Ended ∧ c.dispatch = lastDispatch workers host frame plan s := by
  have hstart : Crew.Manned plan (crewSize workers plan) []
      (.start (crewSize workers plan) (.start plan s) : Crew σ η) := .start hf _ s
  have hdriven : ∃ c : Crew σ η,
      Crew.Reachable host frame plan (.start (crewSize workers plan) (.start plan s)) c ∧
      c.dispatch = lastDispatch workers host frame plan s ∧ c.Ended :=
    hstart.exists_drive (plan.passCount + 1) hf .refl rfl rfl
      (Nat.lt_add_left _ (Nat.lt_succ_self _))
  obtain ⟨c, hreachable, hdispatch, hended⟩ := hdriven
  exact ⟨c, hreachable, hended, hdispatch⟩

/-- A parallel run answers what its last dispatch does. -/
theorem outcome_of_dispatchParallel {workers : WorkerCount} {host : Host σ η} {e : RunError}
    {s t : σ} (h : dispatchParallel workers host frame plan s = .error e t) :
    (lastDispatch workers host frame plan s).outcome = .error e := by
  unfold dispatchParallel at h
  cases houtcome : (lastDispatch workers host frame plan s).outcome with
  | ok _ =>
      simp only [houtcome] at h
      cases h
  | error e' =>
      simp only [houtcome] at h
      cases h
      rfl

/-! ### The joint statement -/

/-- **Runs of the plan of a frame do not say that it is another frame's**, whatever the host does,
and find all that they look up. The one exception is a crew that lost a worker to a panic, where
another worker that is awake finds that nothing can go on; if all others sleep by then, the crew
hangs. The run that is computed is that of a crew that comes to its end. -/
theorem mismatch_sound (hdeclared : frame.Declared) (hplan : Plan.ofFrame frame = .ok plan)
    (host : Host σ η) (s : σ) :
    (Lookup.sequential host frame plan s = sequential host frame plan s ∧
      ∀ m t, sequential host frame plan s ≠ .error (.mismatch m) t) ∧
    ∀ workers : WorkerCount,
      Lookup.parallel workers host frame plan s = parallel workers host frame plan s ∧
      (∀ m t, openParallel workers host frame plan s ≠ .error (.mismatch m) t) ∧
      (∀ c, Crew.Reachable host frame plan (.start (crewSize workers plan) (.start plan s)) c →
        Crew.Candid host frame plan (crewSize workers plan) c) ∧
      (∃ c, Crew.Reachable host frame plan (.start (crewSize workers plan) (.start plan s)) c ∧
        c.Ended ∧ c.dispatch = lastDispatch workers host frame plan s) ∧
      ∀ m t, parallel workers host frame plan s = .error (.mismatch m) t →
        m = .stalled ∧ 1 < workers.count := by
  have hf := Plan.fits_of_ofFrame hdeclared hplan
  have hcandid : ∀ (workers : WorkerCount) (u : σ) (c : Crew σ η),
      Crew.Reachable host frame plan (.start (crewSize workers plan) (.start plan u)) c →
      Crew.Candid host frame plan (crewSize workers plan) c := by
    intro workers u c hreachable
    obtain ⟨_, hmanned⟩ := hreachable.manned hf (.start hf _ u)
    exact hmanned.candid hf
  refine ⟨⟨by rw [hf.lookUp_sequential], fun m t hrun => ?_⟩, fun workers =>
    ⟨by rw [hf.lookUp_parallel], fun m t hrun => ?_, hcandid workers s,
      exists_crew_lastDispatch hf workers host s, fun m t hrun => ?_⟩⟩
  · exact (hf.sequential_genuine host s).error hrun m rfl
  · exact (hf.openParallel_genuine host workers s).error hrun m rfl
  · cases hopen : openParallel workers host frame plan s with
    | error e u =>
        have herror : parallel workers host frame plan s = .error e u := bind_of_error hopen
        rw [herror] at hrun
        cases hrun
        exact absurd rfl ((hf.openParallel_genuine host workers s).error hopen m)
    | ok _ u =>
        have hdispatch : parallel workers host frame plan s =
            dispatchParallel workers host frame plan u := bind_of_ok hopen
        have houtcome := outcome_of_dispatchParallel (hdispatch ▸ hrun)
        obtain ⟨c, hreachable, _, hlast⟩ := exists_crew_lastDispatch hf workers host u
        obtain ⟨rfl, _, hlost, hleft⟩ :=
          (hcandid workers u c hreachable).mismatch m (hlast ▸ houtcome)
        have hcrew : crewSize workers plan ≤ workers.count := Nat.min_le_left _ _
        exact ⟨rfl, by omega⟩

/-- Pooled storage that panics at the call numbered so. -/
def brittle (n : Nat) : Host (Recorded (Storage String Int String Supply) Int) Int :=
  Recorded.recorder ⟨none, some n⟩ (Storage.host Frame.relay Supply.allocate ∅)

/-- Whatever becomes of the draft, the plan is the plan of the frame. -/
theorem mismatch_sound_relay :
    (∀ m t, sequential (brittle 0) Frame.relay Plan.relay (.start Storage.relay) ≠
      .error (.mismatch m) t) ∧
    ∀ c, Crew.Reachable (brittle 0) Frame.relay Plan.relay
        (.start 2 (.start Plan.relay (.start Storage.relay))) c →
      Crew.Candid (brittle 0) Frame.relay Plan.relay 2 c := by
  have hsound := mismatch_sound ⟨_, _, rfl⟩ Plan.ofFrame_relay (brittle 0) (.start Storage.relay)
  exact ⟨hsound.1.2, (hsound.2 ⟨2, by decide⟩).2.2.1⟩

/-- One of two workers is lost when the draft is to be constructed, and the other one says that the
plan is not one of the frame. -/
theorem parallel_mismatch_relay :
    Frame.relay.Declared ∧ Plan.ofFrame Frame.relay = .ok Plan.relay ∧
    ∃ s d, openParallel ⟨2, by decide⟩ (brittle 0) Frame.relay Plan.relay (.start Storage.relay) =
        .ok () s ∧
      (Dispatch.start Plan.relay s).begin? (brittle 0) Frame.relay Plan.relay = some d ∧
      d.error = none ∧ d.lost = 1 ∧
      ∃ t, parallel ⟨2, by decide⟩ (brittle 0) Frame.relay Plan.relay (.start Storage.relay) =
        .error (.mismatch .stalled) t :=
  ⟨⟨_, _, rfl⟩, Plan.ofFrame_relay, _, _, rfl, rfl, rfl, rfl, _, rfl⟩

/-- One worker draws while the other one sleeps. Then one cuts and the other one tints, and who is
done first sleeps. -/
def shift : List Crew.Choice :=
  [.begin, .sleep, .finish 0, .begin, .begin, .finish 0, .sleep, .finish 0]

/-- One of two workers is lost when the draft is to be moved after the tint. The other one sleeps by
then, and the run does not end. -/
theorem hung_relay : ∃ c, Crew.Reachable (brittle 5) Frame.relay Plan.relay
      (.start 2 (.start Plan.relay (.start Storage.relay))) c ∧
    c.Hung ∧ c.dispatch.lost = 1 ∧ Crew.Settled (brittle 5) Frame.relay Plan.relay c := by
  have hreplay : ((Crew.start 2 (Dispatch.start Plan.relay (.start Storage.relay))).replay
      (brittle 5) Frame.relay Plan.relay shift).map (fun c =>
        (c.awake, c.asleep, c.dispatch.running.length, c.dispatch.lost)) = some (0, 1, 0, 1) := by
    decide +kernel
  obtain ⟨c, hc, heq⟩ := Option.map_eq_some_iff.mp hreplay
  obtain ⟨hawake, hasleep, hrunning, hlost⟩ : c.awake = 0 ∧ c.asleep = 1 ∧
      c.dispatch.running.length = 0 ∧ c.dispatch.lost = 1 := by simpa using heq
  have hidle := List.length_eq_zero_iff.mp hrunning
  exact ⟨c, Crew.reachable_of_replay .refl hc, ⟨hawake, by omega, hidle⟩, hlost,
    Crew.settled_iff.mpr ⟨hawake, hidle⟩⟩

end Run

end FramePlan
