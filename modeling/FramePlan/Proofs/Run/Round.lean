import FramePlan.Proofs.PassGraph.Queue
import FramePlan.Proofs.Run.Pass
import FramePlan.Proofs.Run.Release
import FramePlan.Proofs.Run.Scheduling

/-!
# Passes in rounds

A worker that is alone begins a pass, does its work and finishes it before it begins another one.
Such a round makes the calls that a sequential run makes around the pass, but takes them from the
books of the dispatch: which pass is next, which resources are new, and which are not used any more.

* `Host.Keeps.passCalls` — the calls of the next pass of a plan lead on in its history.
* `Run.runPass_eq`, `Dispatch.Idle.round` — both kinds of runs make the calls of a pass.
* `Dispatch.Idle.constructs`, `Dispatch.Idle.releases` — and they make them for the same resources.
* `Dispatch.Idle.drive_of_ok`, `Dispatch.Idle.drive_of_fail` — a worker that is alone makes rounds.
-/

namespace FramePlan

open History

variable {σ η : Type}

/-- The calls around one pass, given what is constructed and what gives up its storage. -/
def Host.passCalls (host : Host σ η) (onPanic : String → EStateM RunError σ Unit)
    (constructs : List ResourceId) (p : PassId) (pass : Pass) (releases : List Events) :
    EStateM RunError σ Unit := do
  let handles ← host.openPass constructs p
  host.closePass onPanic p pass releases handles

/-- The calls that led to a state add up to a history of the passes, worked off one after
another. -/
def WorkedOff (frame : Frame) (plan : Plan) (I : Ledger η → σ → Prop) (passes : List PassId)
    (s : σ) : Prop :=
  ∃ L, Legal frame L.history ∧ plan.Covers frame passes passes L.history ∧ I L s

namespace Host.Keeps

variable {host : Host σ η} {frame : Frame} {plan : Plan} {I : Ledger η → σ → Prop} {stops : Prop}
  {s : σ} {pre post : List PassId} {p : PassId} {pass : Pass}

/-- The next pass of the plan is opened legally. -/
theorem openNext (h : host.Keeps frame plan I stops) (hf : plan.Fits frame)
    (hsplit : plan.order = pre ++ p :: post) (hs : WorkedOff frame plan I pre s) :
    Ends (host.openPass (plan.eventsAt pre.length).constructs p) s
      (fun handles t => ∃ L, Legal frame L.history ∧
        plan.Covers frame (pre ++ [p]) pre L.history ∧ (p, handles) ∈ L.grants ∧ I L t)
      fun _ _ => stops := by
  obtain ⟨L, hlegal, hcovers, hI⟩ := hs
  have hp : p ∉ pre := hf.notMem_pre hsplit
  have horder : ∀ q ∈ pre ++ [p], q ∈ plan.order :=
    fun _ hq => Plan.Fits.mem_order_of_snoc hsplit hq
  have hopen := h.openPass hf hI hlegal hcovers Events.nodup_constructs
    (fun _ => hf.mem_constructs hsplit) horder (fun q hq => horder q (List.mem_append_left _ hq))
    hp hp fun _ ha => hf.mem_pre_of_precedes hsplit ha
  apply hopen.mono _ fun _ _ hstop => hstop
  rintro handles t ⟨L', hlegal', hcovers', hgrants, hI'⟩
  have hgrant : (p, handles) ∈ L'.grants := by simp [hgrants]
  exact ⟨L', hlegal', hcovers', hgrant, hI'⟩

/-- The next pass of the plan is worked off. -/
theorem passCalls {onPanic : String → EStateM RunError σ Unit} {releases : List Events}
    (h : host.Keeps frame plan I stops) (hf : plan.Fits frame)
    (hpanic : ∀ text s, ∃ e t, onPanic text s = .error e t)
    (hsplit : plan.order = pre ++ p :: post) (hpass : frame.pass? p = some pass)
    (hripe : Releases frame plan.moves (Plan.Ripens frame pre p) (releases.flatMap Events.after))
    (hs : WorkedOff frame plan I pre s) :
    Ends (host.passCalls onPanic (plan.eventsAt pre.length).constructs p pass releases) s
      (fun _ => WorkedOff frame plan I (pre ++ [p])) fun _ _ => stops := by
  have horder : ∀ q ∈ pre ++ [p], q ∈ plan.order :=
    fun _ hq => Plan.Fits.mem_order_of_snoc hsplit hq
  apply Ends.bind
  apply (h.openNext hf hsplit hs).mono _ fun _ _ hstop => hstop
  rintro handles t ⟨L, hlegal, hcovers, hgrant, hI⟩
  have hclose := h.closePass hf hpanic hI hlegal hcovers hripe hpass hgrant horder
    (fun q hq => horder q (List.mem_append_left _ hq)) (by simp) (hf.notMem_pre hsplit)
    fun _ ha => hf.mem_pre_of_precedes hsplit ha
  apply hclose.mono _ fun _ _ hstop => hstop
  rintro _ u ⟨L', hlegal', hcovers', _, hI'⟩
  exact ⟨L', hlegal', hcovers', hI'⟩

end Host.Keeps

/-- A sequential run takes the resources from the plan. -/
theorem Run.runPass_eq {host : Host σ η} {frame : Frame} {p : PassId} {pass : Pass}
    {events : Events} (hpass : frame.pass? p = some pass) :
    Run.runPass host frame ⟨p, events⟩ =
      host.passCalls (fun text => throw (.panicked text)) events.constructs p pass [events] := by
  have hreleases : [events].forM host.releaseAll = host.releaseAll events := bind_pure_unit
  rw [Run.runPass, Host.passCalls, Host.openPass, bind_assoc, Run.lookUpPass]
  simp only [hpass, pure_bind, Host.closePass, hreleases, Host.releaseAll]

namespace Dispatch

variable {host : Host σ η} {frame : Frame} {plan : Plan} {pre post : List PassId} {p : PassId}
  {pass : Pass} {d : Dispatch σ η}

/-- The given passes were begun and finished one at a time, in the order of the plan, and no pass
runs. -/
structure Idle (frame : Frame) (plan : Plan) (pre : List PassId) (d : Dispatch σ η) : Prop where
  orderly : Orderly frame plan pre d
  error : d.error = none
  running : d.running = []
  done : d.frontier.done = pre
  leads : plan.graph.Leads d.frontier

/-- After the given passes, one more has begun and is the only one that runs. -/
structure Alone (frame : Frame) (plan : Plan) (pre : List PassId) (p : PassId)
    (handles : IdMap .resource η) (d : Dispatch σ η) : Prop where
  orderly : Orderly frame plan (pre ++ [p]) d
  error : d.error = none
  running : d.running = [(p, handles)]
  done : d.frontier.done = pre
  leads : plan.graph.Leads (d.frontier.complete plan.graph p)

/-- The calls of a round, as the books of the dispatch have them. -/
def roundCalls (host : Host σ η) (plan : Plan) (d : Dispatch σ η) (p : PassId) (pass : Pass) :
    EStateM RunError σ Unit :=
  host.passCalls (fun _ => holdUpPanic host pass)
    (pass.resources.toList.filter (isNew plan d.constructed)) p pass
    (releases plan d.users pass.resources.toList)

theorem fail_error (herror : d.error = none) (err : RunError) : (d.fail err).error = some err := by
  rw [fail, herror]
  rfl

namespace Idle

theorem start (hf : plan.Fits frame) (horder : plan.graph.order = .ok plan.order) (s : σ) :
    Idle frame plan [] (Dispatch.start plan s : Dispatch σ η) where
  orderly := Orderly.start hf s
  error := rfl
  running := rfl
  done := rfl
  leads := by
    show plan.graph.Leads (.start plan.graph plan.order)
    rw [PassGraph.start_of_order hf.closed horder]
    exact PassGraph.Leads.start

/-- The next pass of the plan is at the head of the queue. -/
theorem ready (h : Idle frame plan pre d) (hf : plan.Fits frame)
    (horder : plan.graph.order = .ok plan.order) (hsplit : plan.order = pre ++ p :: post) :
    d.frontier.done.length ≠ plan.passCount ∧ ∃ rest, d.frontier.ready = p :: rest := by
  have hleft : d.frontier.done.length < plan.passCount := by
    rw [h.done, ← Plan.Fits.length_order, hsplit, List.length_append, List.length_cons]
    omega
  refine ⟨Nat.ne_of_lt hleft, ?_⟩
  rcases h.orderly.progress hf h.error hleft with hready | hruns
  · obtain ⟨q, rest, hcons⟩ := List.exists_cons_of_ne_nil hready
    rw [hsplit] at horder
    cases h.leads.head hf.closed horder h.done hcons
    exact ⟨rest, hcons⟩
  · rw [runningPasses, h.running] at hruns
    exact absurd rfl hruns

/-- The resources that are new to the dispatch are those that the plan constructs. -/
theorem constructs (h : Idle frame plan pre d) (hf : plan.Fits frame)
    (hsplit : plan.order = pre ++ p :: post) (hpass : frame.pass? p = some pass) :
    pass.resources.toList.filter (isNew plan d.constructed) =
      (plan.eventsAt pre.length).constructs := by
  have hascending : (plan.eventsAt pre.length).constructs.Pairwise (·.index < ·.index) :=
    Events.ascending_constructs
  apply IdSet.eq_of_mem_iff (pass.resources.ascending.filter _) hascending
  intro r
  rw [(h.orderly.books h.error).mem_new hpass, hf.mem_constructs hsplit]

/-- What the next pass releases is what ripens with it. -/
theorem releases (h : Idle frame plan pre d) (hf : plan.Fits frame)
    (horder : plan.graph.order = .ok plan.order) (hsplit : plan.order = pre ++ p :: post)
    (hpass : frame.pass? p = some pass) :
    Releases frame plan.moves (Plan.Ripens frame pre p)
      ((Dispatch.releases plan d.users pass.resources.toList).flatMap Events.after) := by
  obtain ⟨_, rest, hready⟩ := h.ready hf horder hsplit
  -- The counts are those of a dispatch in which the pass runs.
  let begun : Dispatch σ η := { d with
    frontier := { d.frontier with ready := rest }
    constructed := (pass.resources.toList.filter (isNew plan d.constructed)).foldl IdSet.insert
      d.constructed
    running := d.running ++ [(p, ∅)] }
  have hconstructed : ∀ x, x ∈ begun.constructed ↔
      x ∈ d.constructed ∨ x ∈ pass.resources ∧ isNew plan d.constructed x := by
    intro x
    rw [IdSet.mem_foldl_insert, List.mem_filter, IdSet.mem_toList, or_comm]
  have hbegun := (h.orderly.begin_ok h.error hready hpass rfl hconstructed).1
  have hruns : p ∈ begun.runningPasses := by simp [begun, runningPasses]
  have hreleases := hbegun.releases_ripe hf h.error hruns hpass
  rw [← h.done]
  exact hreleases

/-- The next pass of the plan begins and runs alone, or leaves the error of the call that failed. -/
theorem begin (h : Idle frame plan pre d) (hf : plan.Fits frame) (hcalm : host.Calm)
    (horder : plan.graph.order = .ok plan.order) (hsplit : plan.order = pre ++ p :: post)
    (hpass : frame.pass? p = some pass) {Q : IdMap .resource η → σ → Prop}
    {S : RunError → σ → Prop}
    (hcalls : Ends (beginCalls host plan d.constructed p pass) d.host Q S) :
    ∃ e, d.begin? host frame plan = some e ∧
      ((∃ handles, Alone frame plan pre p handles e ∧ e.users = d.users ∧ Q handles e.host) ∨
        ∃ err, e.running = [] ∧ e.error = some err ∧ S err e.host) := by
  obtain ⟨hleft, rest, hready⟩ := h.ready hf horder hsplit
  have hends := ends_beginPass (d := { d with frontier := { d.frontier with ready := rest } }) hpass
    (hcalls.and (hcalm.leaves.beginCalls d.constructed d.host))
  have hsettled := settle_of_ends (hends.mono (fun _ e he => he) fun err e he => ⟨he.2.2, he⟩)
  refine ⟨_, begin?_of_ready h.error hleft hready, ?_⟩
  generalize settle (beginPass host frame plan p
    { d with frontier := { d.frontier with ready := rest } }) = e at hsettled ⊢
  rcases hsettled with ⟨_, handles, he, hmem, hQ, _⟩ | ⟨_, err, e', ⟨he', hstop, _⟩, rfl⟩
  · obtain ⟨horderly, herror⟩ := h.orderly.begin_ok h.error hready hpass he hmem
    have hfrontier : e.frontier = { d.frontier with ready := rest } := by rw [he]
    refine Or.inl ⟨handles, ⟨horderly, herror, ?_, ?_, ?_⟩, ?_, hQ⟩
    · rw [he, h.running]
      rfl
    · rw [hfrontier, h.done]
    · rw [hfrontier]
      exact h.leads.advance hf.closed horder hready
    · rw [he]
  · refine Or.inr ⟨err, ?_, fail_error ?_ err, hstop⟩
    · rw [fail_running, he']
      exact h.running
    · rw [he']
      exact h.error

end Idle

/-- The pass that runs alone is finished, or leaves the error of the call that failed. -/
theorem Alone.finish {handles : IdMap .resource η} (h : Alone frame plan pre p handles d)
    (hf : plan.Fits frame) (hcalm : host.Calm) (hpass : frame.pass? p = some pass) {Q : σ → Prop}
    {S : RunError → σ → Prop}
    (hcalls : Ends (finishCalls host plan d.users p pass handles) d.host (fun _ => Q) S) :
    Idle frame plan (pre ++ [p]) (d.finishFirst host frame plan) ∧
        Q (d.finishFirst host frame plan).host ∨
      ∃ err, (d.finishFirst host frame plan).error = some err ∧
        S err (d.finishFirst host frame plan).host := by
  have hruns : p ∈ d.runningPasses := by
    rw [runningPasses, h.running]
    exact List.mem_singleton.mpr rfl
  have hends := ends_finishPass hpass
    (hcalls.and (hcalm.leaves.finishCalls d.users d.host))
  have hsettled := settle_of_ends (hends.mono (fun _ e he => he) fun err e he => ⟨he.2.2, he⟩)
  rw [finishFirst_of_running h.running, Dispatch.finish]
  generalize settle (finishPass host frame plan (p, handles) d) = e at hsettled ⊢
  rcases hsettled with ⟨_, he, hQ, _⟩ | ⟨_, err, e', ⟨⟨_, _, he'⟩, hstop, _⟩, rfl⟩
  · obtain ⟨horderly, herror, hdone⟩ := h.orderly.finish_ok hf hruns hpass he
    refine Or.inl ⟨⟨horderly, herror.trans h.error, ?_, ?_, ?_⟩, hQ⟩
    · rw [he, h.running]
      simp
    · rw [hdone, h.done]
    · rw [he]
      exact h.leads
  · refine Or.inr ⟨err, fail_error ?_ err, hstop⟩
    rw [he']
    exact h.error

namespace Idle

/-- **A round makes the calls of the next pass of the plan**, and leaves the dispatch ready for the
one after it, or with the error of the call that failed. -/
theorem round (h : Idle frame plan pre d) (hf : plan.Fits frame) (hcalm : host.Calm)
    (horder : plan.graph.order = .ok plan.order) (hsplit : plan.order = pre ++ p :: post)
    (hpass : frame.pass? p = some pass) {Q : σ → Prop} {S : RunError → σ → Prop}
    (hcalls : Ends (roundCalls host plan d p pass) d.host (fun _ => Q) S) :
    ∃ e, d.begin? host frame plan = some e ∧
      (Idle frame plan (pre ++ [p]) (e.finishFirst host frame plan) ∧
          Q (e.finishFirst host frame plan).host ∨
        ∃ err, (e.finishFirst host frame plan).error = some err ∧
          S err (e.finishFirst host frame plan).host) := by
  obtain ⟨e, hbegin, hturn⟩ := h.begin hf hcalm horder hsplit hpass (Ends.of_bind hcalls)
  refine ⟨e, hbegin, ?_⟩
  rcases hturn with ⟨handles, halone, husers, hclose⟩ | ⟨err, hruns, herror, hstop⟩
  · rw [← husers] at hclose
    exact halone.finish hf hcalm hpass hclose
  · rw [finishFirst_of_idle hruns]
    exact Or.inr ⟨err, herror, hstop⟩

/-- A round that goes well leads on to the next pass. -/
theorem drive_of_ok {workers n : Nat} {u : σ} (h : Idle frame plan pre d) (hf : plan.Fits frame)
    (hcalm : host.Calm) (horder : plan.graph.order = .ok plan.order)
    (hsplit : plan.order = pre ++ p :: post) (hpass : frame.pass? p = some pass)
    (hworkers : 0 < workers) (hcalls : roundCalls host plan d p pass d.host = .ok () u) :
    ∃ e, Idle frame plan (pre ++ [p]) e ∧ e.host = u ∧
      d.drive host frame plan workers (n + 1) = e.drive host frame plan workers n := by
  have hends : Ends (roundCalls host plan d p pass) d.host (fun _ t => t = u) fun _ _ => False :=
    Ends.of_ok hcalls rfl
  obtain ⟨e, hbegin, hturn⟩ := h.round hf hcalm horder hsplit hpass hends
  rcases hturn with ⟨hidle, hhost⟩ | ⟨_, _, hstop⟩
  · refine ⟨_, hidle, hhost, ?_⟩
    rw [drive, h.orderly.lost, if_neg (Nat.not_le.mpr hworkers), hbegin]
  · exact hstop.elim

/-- After a round that does not, no further round begins. -/
theorem drive_of_fail {workers n : Nat} {u : σ} {err : RunError} (h : Idle frame plan pre d)
    (hf : plan.Fits frame) (hcalm : host.Calm) (horder : plan.graph.order = .ok plan.order)
    (hsplit : plan.order = pre ++ p :: post) (hpass : frame.pass? p = some pass)
    (hworkers : 0 < workers) (hcalls : roundCalls host plan d p pass d.host = .error err u) :
    (d.drive host frame plan workers (n + 1)).error = some err ∧
      (d.drive host frame plan workers (n + 1)).host = u := by
  have hends : Ends (roundCalls host plan d p pass) d.host (fun _ _ => False)
      fun e t => e = err ∧ t = u := Ends.of_error hcalls ⟨rfl, rfl⟩
  obtain ⟨e, hbegin, hturn⟩ := h.round hf hcalm horder hsplit hpass hends
  rw [drive, h.orderly.lost, if_neg (Nat.not_le.mpr hworkers), hbegin]
  rcases hturn with ⟨_, hreturned⟩ | ⟨_, herror, rfl, hhost⟩
  · exact hreturned.elim
  · simp only
    rw [drive_of_error (by rw [herror]; simp)]
    exact ⟨herror, hhost⟩

/-- When all passes are done, no further round begins. -/
theorem drive_eq {workers n : Nat} (h : Idle frame plan plan.order d) (hf : plan.Fits frame) :
    d.drive host frame plan workers n = d := by
  have hover : d.isOver plan = true := by
    rw [isOver, h.done, Plan.Fits.length_order, decide_eq_true rfl, Bool.or_true]
  have hbegin : d.begin? host frame plan = none := by rw [begin?, if_pos hover]
  cases n with
  | zero => rfl
  | succ n =>
      rw [drive, hbegin, h.orderly.not_stall hf]
      exact ite_self d

end Idle

end Dispatch

end FramePlan
