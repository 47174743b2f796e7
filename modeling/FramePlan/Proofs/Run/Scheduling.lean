import FramePlan.Proofs.Run.Audit
import FramePlan.Proofs.Run.Sequential
import FramePlan.Proofs.Storage.Supply

/-!
# Scheduling is safe and makes progress

Over any sequence of turns, whatever fails in them: a pass begins at most once, after its
predecessors, and not after an error; no count goes below zero; and without an error there is
always a turn to take until all passes are done. Whether anything failed is told by the calls that
were made, and not by what workers make of them: if all of them returned, every pass did its work
once and the run is a success.

* `Run.ends_audited` — how a run ends, given its calls.
* `Dispatch.scheduling_sound` — the joint statement.
-/

namespace FramePlan

variable {σ η : Type}

namespace Dispatch

variable {host : Host σ η} {frame : Frame} {plan : Plan} {turns : List Turn}
  {d e : Dispatch σ η}

/-! ### The run that is computed -/

/-- No pass is begun or found missing after an error. -/
theorem drive_of_error {workers n : Nat} (herror : d.error ≠ none) :
    d.drive host frame plan workers n = d := by
  have hsome : d.error.isSome := Option.isSome_iff_ne_none.mpr herror
  cases n with
  | zero => rfl
  | succ n => simp [drive, begin?, stall?, isOver, hsome]

/-- If no pass runs, then the next one begins and is finished, or there is an error. -/
theorem settled_round {begun : List PassId} (hf : plan.Fits frame) (hcalm : host.Calm)
    (h : Orderly frame plan begun d) (hrunning : d.running = [])
    (hbegin : d.begin? host frame plan = some e) :
    (e.finishFirst host frame plan).error ≠ none ∨
      ∃ p, Orderly frame plan (begun ++ [p]) (e.finishFirst host frame plan) ∧
        (e.finishFirst host frame plan).error = none ∧
        (e.finishFirst host frame plan).running = [] ∧
        (e.finishFirst host frame plan).frontier.done.length = d.frontier.done.length + 1 := by
  obtain ⟨p, frontier, htake⟩ := exists_take?_of_begin? hbegin
  obtain ⟨rest, hready, _⟩ := take?_eq_some htake
  obtain ⟨pass, hpass⟩ := hf.mem_order_iff_pass?.mp (h.roster.fresh hf hready).1
  obtain ⟨he, hdone, hturn⟩ := h.begin_turn hcalm hpass hbegin htake Ends.always
  rcases hturn with ⟨_, hnone, handles, hruns, _⟩ | ⟨_, hsome, hruns, _⟩
  · rw [hrunning, List.nil_append] at hruns
    have hmem : (p, handles) ∈ e.running := by simp [hruns]
    obtain ⟨hfinished, hrest, hturn⟩ := he.finish_turn hf hcalm hpass hmem Ends.always
    rw [finishFirst_of_running hruns]
    rcases hturn with ⟨_, herr, hdone', _⟩ | ⟨_, hsome, _⟩
    · refine Or.inr ⟨p, hfinished, herr.trans hnone, ?_, ?_⟩
      · rw [hrest, hruns]
        simp
      · rw [hdone', hdone, List.length_append, List.length_singleton]
    · exact Or.inl hsome
  · rw [finishFirst_of_idle (hruns.trans hrunning)]
    exact Or.inl hsome

/-- If no pass can begin and none runs, all are done. -/
theorem length_done_of_idle {begun : List PassId} (hf : plan.Fits frame)
    (h : Orderly frame plan begun d) (herror : d.error = none) (hrunning : d.running = [])
    (hbegin : d.begin? host frame plan = none) : d.frontier.done.length = plan.passCount := by
  have hle := h.length_done_le hf
  by_contra hne
  rcases h.progress hf herror (by omega) with hready | hruns
  · obtain ⟨p, rest, hcons⟩ := List.exists_cons_of_ne_nil hready
    rw [begin?_of_ready herror hne hcons] at hbegin
    cases hbegin
  · rw [runningPasses, hrunning] at hruns
    exact absurd rfl hruns

/-- Passes are begun and finished one at a time until there is an error or all are done. -/
theorem drive_settled {begun : List PassId} {workers n : Nat} (hf : plan.Fits frame)
    (hcalm : host.Calm) (hworkers : workers = 0 → plan.passCount = 0)
    (h : Orderly frame plan begun d) (herror : d.error = none) (hrunning : d.running = [])
    (hn : plan.passCount < d.frontier.done.length + n) :
    (d.drive host frame plan workers n).error = none →
      (d.drive host frame plan workers n).frontier.done.length = plan.passCount := by
  induction n generalizing begun d with
  | zero =>
      have := h.length_done_le hf
      omega
  | succ n ih =>
      have hle := h.length_done_le hf
      rw [drive, h.lost]
      by_cases hnobody : workers ≤ 0
      · rw [if_pos hnobody]
        intro _
        have := hworkers (by omega)
        omega
      rw [if_neg hnobody]
      cases hbegin : d.begin? host frame plan with
      | none =>
          rw [h.not_stall hf]
          exact fun _ => length_done_of_idle hf h herror hrunning hbegin
      | some e =>
          rcases settled_round hf hcalm h hrunning hbegin with hsome |
            ⟨p, horderly, hnone, hidle, hlength⟩
          · simp only [drive_of_error hsome]
            exact fun hnone => absurd hnone hsome
          · exact ih horderly hnone hidle (by omega)

/-- The run that is computed follows a trace to its end: nothing failed in it and all passes are
done, or it answers with the first error. -/
theorem exists_trace_of_parallel (hf : plan.Fits frame) (hcalm : host.Calm)
    (workers : WorkerCount) {s t : σ}
    (ht : Run.openParallel workers host frame plan s = .ok () t) :
    ∃ turns d, Trace host frame plan (Dispatch.start plan t) turns d ∧
      ((∀ turn ∈ turns, turn.isOk) ∧ d.frontier.done.length = plan.passCount ∧
          Run.parallel workers host frame plan s = .ok () d.host ∨
        ∃ e, d.error = some e ∧ Run.parallel workers host frame plan s = .error e d.host) := by
  have hsettled : (Run.lastDispatch workers host frame plan t).error = none →
      (Run.lastDispatch workers host frame plan t).frontier.done.length = plan.passCount := by
    have hworkers := workers.pos
    apply drive_settled hf hcalm (by omega) (Orderly.start hf t) rfl rfl (by omega)
  have hparallel : Run.parallel workers host frame plan s =
      Run.dispatchParallel workers host frame plan t := bind_of_ok ht
  have hreachable : Reachable host frame plan (Dispatch.start plan t)
      (Run.lastDispatch workers host frame plan t) := reachable_drive _ .refl
  unfold Run.dispatchParallel at hparallel
  generalize Run.lastDispatch workers host frame plan t = d at hsettled hparallel hreachable
  obtain ⟨turns, htrace⟩ := reachable_iff_exists_trace.mp hreachable
  have htracked := htrace.tracked hf hcalm
  refine ⟨turns, d, htrace, ?_⟩
  unfold outcome at hparallel
  cases herror : d.error with
  | none =>
      simp only [herror, htracked.orderly.lost, if_true] at hparallel
      exact Or.inl ⟨htracked.error_iff.mp herror, hsettled herror, hparallel⟩
  | some e =>
      simp only [herror] at hparallel
      exact Or.inr ⟨e, rfl, hparallel⟩

end Dispatch

namespace Run

open Dispatch Audited

variable {host : Host σ η} {frame : Frame} {plan : Plan} {turns : List Turn}

theorem audits_openParallel (workers : WorkerCount) (hf : plan.Fits frame) (host : Host σ η) :
    Audits (openParallel workers (auditor host) frame plan) [] := by
  intro s
  unfold openParallel
  rw [hf.checkPassCount_eq, pure_bind]
  apply Ends.bind
  apply ends_modify
  -- The note that is logged first leaves the record as it is.
  apply (audits_applyPrologue plan.prologue _).mono
  · exact fun _ _ h => ⟨h.faultless, h.worked⟩
  · exact fun _ _ h => ⟨h.faultless, h.worked⟩

/-- What a run answers, given its calls and the state in which it leaves the host. -/
structure Answers (workers : WorkerCount) (host : Host σ η) (frame : Frame) (plan : Plan) (s : σ)
    (u : Audited σ η) : Prop where
  /-- If all calls returned, every pass did its work once and the run is a success. -/
  success : u.faultless → parallel workers host frame plan s = .ok () u.host ∧
    u.worked.Nodup ∧ ∀ p, p ∈ u.worked ↔ ∃ pass, frame.pass? p = some pass
  /-- If one of them did not, the run stops with an error. -/
  failure : ¬ u.faultless → ∃ e, parallel workers host frame plan s = .error e u.host
  /-- Either way, the predecessors of the passes that did their work did theirs. -/
  closed : ∀ p ∈ u.worked, ∀ a, plan.graph.hasEdge a p → a ∈ u.worked

theorem Answers.of_fault {workers : WorkerCount} {s : σ} {u : Audited σ η} {e : RunError}
    (hfault : u.faultless = false)
    (hrun : parallel workers host frame plan s = .error e u.host)
    (hclosed : ∀ p ∈ u.worked, ∀ a, plan.graph.hasEdge a p → a ∈ u.worked) :
    Answers workers host frame plan s u where
  success h := absurd h (by simp [hfault])
  failure _ := ⟨e, hrun⟩
  closed := hclosed

/-- **How a run ends, given its calls.** As an auditor does not show, a run that is not audited ends
in the same way. -/
theorem ends_audited (hf : plan.Fits frame) (hcalm : host.Calm) (workers : WorkerCount) (s : σ) :
    Ends (parallel workers (auditor host) frame plan) (.start s)
      (fun _ u => Answers workers host frame plan s u)
      fun _ u => Answers workers host frame plan s u := by
  have hplain : Ends (parallel workers (auditor host) frame plan) (.start s)
      (fun _ u => parallel workers host frame plan s = .ok () u.host)
      fun e u => parallel workers host frame plan s = .error e u.host :=
    (auditor_projects host).parallel workers (.start s)
  have hopened := audits_openParallel workers hf host (.start s)
  cases hopen : openParallel workers (auditor host) frame plan (.start s) with
  | error e u =>
      have hadds := hopened.error hopen
      have hworked : u.worked = [] := hadds.worked
      have hrun : parallel workers (auditor host) frame plan (.start s) = .error e u :=
        bind_of_error hopen
      exact Ends.of_error hrun (.of_fault hadds.faultless (hplain.error hrun) (by simp [hworked]))
  | ok _ t =>
      obtain ⟨turns, d, htrace, hend⟩ :=
        exists_trace_of_parallel hf (auditor_calm hcalm) workers hopen
      have hadds := (hopened.ok hopen).trans (htrace.adds hf hcalm)
      have htracked := htrace.tracked hf (auditor_calm hcalm)
      have hworked : d.host.worked = Turn.ranIn turns := hadds.worked
      have hclosed : ∀ p ∈ d.host.worked, ∀ a, plan.graph.hasEdge a p → a ∈ d.host.worked := by
        rw [hworked]
        exact fun p hp a ha => htracked.ran_of_hasEdge (htracked.ran p hp).1 ha
      rcases hend with ⟨hok, hlength, hrun⟩ | ⟨e, herror, hrun⟩
      · have hfaultless : d.host.faultless = true := by
          rw [hadds.faultless, List.all_eq_true.mpr hok]
          rfl
        have hran : d.host.worked.Nodup ∧
            ∀ p, p ∈ d.host.worked ↔ ∃ pass, frame.pass? p = some pass := by
          rw [hworked]
          exact htracked.ranOnce hf hlength
        exact Ends.of_ok hrun
          ⟨fun _ => ⟨hplain.ok hrun, hran⟩, fun hfault => absurd hfaultless hfault, hclosed⟩
      · have hfault : turns.all Turn.isOk = false := by
          apply Bool.eq_false_iff.mpr
          intro hall
          cases herror.symm.trans (htracked.error_iff.mpr (List.all_eq_true.mp hall))
        refine Ends.of_error hrun (.of_fault ?_ (hplain.error hrun) hclosed)
        rw [hadds.faultless, hfault]
        rfl

theorem answers_audit (hf : plan.Fits frame) (hcalm : host.Calm) (workers : WorkerCount) (s : σ) :
    Answers workers host frame plan s (audit workers host frame plan s) := by
  have hends := ends_audited hf hcalm workers s
  unfold audit
  cases hrun : parallel workers (auditor host) frame plan (.start s) with
  | ok _ u => exact hends.ok hrun
  | error e u => exact hends.error hrun

end Run

namespace Dispatch

open Audited

variable {host : Host σ η} {frame : Frame} {plan : Plan} {turns : List Turn} {d : Dispatch σ η}

/-! ### The joint statement -/

/-- Scheduling went as it should in some turns that lead to a dispatch. -/
structure Scheduled (host : Host σ η) (frame : Frame) (plan : Plan) (turns : List Turn)
    (d : Dispatch σ η) : Prop where
  /-- A pass begins at most once. -/
  begins_once : (Turn.begunIn turns).Nodup
  /-- It begins after each predecessor was finished well, and after nothing that failed. -/
  begins : ∀ before p ok after, turns = before ++ .begin p ok :: after →
    (∀ a, plan.graph.hasEdge a p → .finish a true ∈ before) ∧ ∀ t ∈ before, t.isOk
  /-- There is an error when something failed, and only then. -/
  error_iff : d.error = none ↔ ∀ t ∈ turns, t.isOk
  /-- No count goes below zero. -/
  counts : ∀ p pass, p ∈ d.runningPasses → frame.pass? p = some pass → CountsDown plan p pass d
  /-- Without an error there is a turn to take until all passes are done. -/
  progress : d.error = none → d.frontier.done.length < plan.passCount →
    d.frontier.ready ≠ [] ∨ d.running ≠ []
  /-- Turns come to an end. -/
  bounded : turns.length ≤ 2 * plan.passCount
  /-- If nothing failed when they do, every pass ran once and the run is a success. -/
  complete : (∀ t ∈ turns, t.isOk) → (∀ e, ¬ Step host frame plan d e) →
    (Turn.ranIn turns).Nodup ∧ (∀ p, p ∈ Turn.ranIn turns ↔ ∃ pass, frame.pass? p = some pass) ∧
      d.outcome = .ok ()
  /-- Whatever failed, a pass that ran has begun, and its predecessors ran. -/
  closed : ∀ p ∈ Turn.ranIn turns, p ∈ Turn.begunIn turns ∧
    ∀ a, plan.graph.hasEdge a p → a ∈ Turn.ranIn turns

theorem Tracked.scheduled (h : Tracked frame plan turns d) (hf : plan.Fits frame) :
    Scheduled host frame plan turns d where
  begins_once := h.orderly.frontier.taken_nodup
  begins := h.begins
  error_iff := h.error_iff
  counts _ _ hp hpass := h.countsDown hf hp hpass
  progress herror hleft := by
    apply (h.orderly.progress hf herror hleft).imp id
    intro hruns hnil
    rw [runningPasses, hnil] at hruns
    exact hruns rfl
  bounded := h.length_le hf
  complete hok hstuck := by
    obtain ⟨hnodup, hall⟩ := h.ranOnce hf (h.length_done hf hok hstuck)
    exact ⟨hnodup, hall, h.outcome_ok hok⟩
  closed _ hp := ⟨(h.ran _ hp).1, fun _ ha => h.ran_of_hasEdge (h.ran _ hp).1 ha⟩

/-- What the calls that were made in some turns tell: `u` is the dispatch with a record of them. -/
structure Attested (host : Host σ η) (frame : Frame) (plan : Plan) (s : σ) (turns : List Turn)
    (d : Dispatch σ η) (u : Dispatch (Audited σ η) η) : Prop where
  trace : Trace (auditor host) frame plan (Dispatch.start plan (.start s)) turns u
  seen : u.mapHost Audited.host = d
  /-- All calls returned just when all turns went well. -/
  faultless : u.host.faultless ↔ ∀ t ∈ turns, t.isOk
  /-- The passes did their work when they were finished. -/
  worked : u.host.worked = Turn.ranIn turns

/-- The calls of any turns can be audited. -/
theorem Trace.exists_attested {s : σ} (h : Trace host frame plan (Dispatch.start plan s) turns d)
    (hf : plan.Fits frame) (hcalm : host.Calm) :
    ∃ u, Attested host frame plan s turns d u := by
  have hlift : ∃ u, Trace (auditor host) frame plan (Dispatch.start plan (.start s)) turns u ∧
      u.mapHost Audited.host = d := Trace.lift (auditor_projects host) h
  obtain ⟨u, htrace, hseen⟩ := hlift
  have hadds := htrace.adds hf hcalm
  refine ⟨u, htrace, hseen, ?_, hadds.worked⟩
  rw [hadds.faultless]
  exact List.all_eq_true

/-- **Scheduling is safe and makes progress**, in whatever order workers take their turns and
whatever fails in them. The run that is computed is an instance: it stops at the first error, or
runs every pass once. Nothing fails but the calls that are made: a turn goes well just when all of
its calls return, and so does a run. -/
theorem scheduling_sound (hdeclared : frame.Declared) (hplan : Plan.ofFrame frame = .ok plan)
    (hcalm : host.Calm) (s : σ) :
    (∀ turns d, Trace host frame plan (Dispatch.start plan s) turns d →
      Scheduled host frame plan turns d ∧ ∃ u, Attested host frame plan s turns d u) ∧
    (∀ (workers : WorkerCount) (t : σ), Run.openParallel workers host frame plan t = .ok () s →
      ∃ turns d, Trace host frame plan (Dispatch.start plan s) turns d ∧
        ((∀ turn ∈ turns, turn.isOk) ∧ (Turn.ranIn turns).Nodup ∧
            (∀ p, p ∈ Turn.ranIn turns ↔ ∃ pass, frame.pass? p = some pass) ∧
            Run.parallel workers host frame plan t = .ok () d.host ∨
          ∃ e, d.error = some e ∧ Run.parallel workers host frame plan t = .error e d.host)) ∧
    ∀ workers : WorkerCount, Run.Answers workers host frame plan s
      (Run.audit workers host frame plan s) := by
  have hf := Plan.fits_of_ofFrame hdeclared hplan
  refine ⟨fun turns d htrace => ?_, fun workers t hopen => ?_, fun workers => ?_⟩
  · exact ⟨(htrace.tracked hf hcalm).scheduled hf, htrace.exists_attested hf hcalm⟩
  · obtain ⟨turns, d, htrace, hend⟩ := exists_trace_of_parallel hf hcalm workers hopen
    refine ⟨turns, d, htrace, hend.imp ?_ id⟩
    rintro ⟨hok, hlength, hparallel⟩
    obtain ⟨hnodup, hall⟩ := (htrace.tracked hf hcalm).ranOnce hf hlength
    exact ⟨hok, hnodup, hall, hparallel⟩
  · exact Run.answers_audit hf hcalm workers s

/-- A host on which the given passes fail, or panic. -/
def spoilt (faults : IdMap .pass WorkFault) : Host (Storage String Int String Supply) Int :=
  Storage.host Frame.relay Supply.allocate faults

/-- There is no ink for the first pass. -/
def noInk : IdMap .pass WorkFault := (∅ : IdMap .pass WorkFault).insert ⟨0⟩ (.failed "no ink")

theorem spoilt_calm (faults : IdMap .pass WorkFault) : (spoilt faults).Calm :=
  Storage.host_calm Frame.relay Supply.allocate faults

/-- When nothing is spoilt two workers run every pass once, after the prologue. When there is no ink
for the draft it is not tried again, and nothing is made of it. -/
theorem scheduling_sound_relay :
    (∃ u, Run.audit ⟨2, by decide⟩ (spoilt ∅) Frame.relay Plan.relay Storage.relay = u ∧
      u.faultless = true ∧ u.worked = [⟨0⟩, ⟨1⟩, ⟨2⟩, ⟨3⟩] ∧
      Run.parallel ⟨2, by decide⟩ (spoilt ∅) Frame.relay Plan.relay Storage.relay =
        .ok () u.host) ∧
    (∃ s turns d, Run.openParallel ⟨2, by decide⟩ (spoilt ∅) Frame.relay Plan.relay
        Storage.relay = .ok () s ∧
      Trace (spoilt ∅) Frame.relay Plan.relay (Dispatch.start Plan.relay s) turns d ∧
      (∀ turn ∈ turns, turn.isOk) ∧
      Run.parallel ⟨2, by decide⟩ (spoilt ∅) Frame.relay Plan.relay Storage.relay =
        .ok () d.host) ∧
    ∃ d, Trace (spoilt noInk) Frame.relay Plan.relay (Dispatch.start Plan.relay Storage.relay)
        [.begin ⟨0⟩ true, .finish ⟨0⟩ false] d ∧
      Scheduled (spoilt noInk) Frame.relay Plan.relay [.begin ⟨0⟩ true, .finish ⟨0⟩ false] d := by
  have hanswers := (scheduling_sound ⟨_, _, rfl⟩ Plan.ofFrame_relay (spoilt_calm ∅)
    Storage.relay).2.2 ⟨2, by decide⟩
  have hfaultless : (Run.audit ⟨2, by decide⟩ (spoilt ∅) Frame.relay Plan.relay
      Storage.relay).faultless = true := by decide +kernel
  have hsuccess := (hanswers.success hfaultless).1
  refine ⟨⟨_, rfl, hfaultless, by decide +kernel, hsuccess⟩, ?_, ?_⟩
  · obtain ⟨s, hopen⟩ : ∃ s, Run.openParallel ⟨2, by decide⟩ (spoilt ∅) Frame.relay Plan.relay
        Storage.relay = .ok () s := ⟨_, rfl⟩
    obtain ⟨turns, d, htrace, hend⟩ := (scheduling_sound ⟨_, _, rfl⟩ Plan.ofFrame_relay
      (spoilt_calm ∅) s).2.1 ⟨2, by decide⟩ Storage.relay hopen
    rcases hend with ⟨hok, _, _, hrun⟩ | ⟨e, _, hrun⟩
    · exact ⟨s, turns, d, hopen, htrace, hok, hrun⟩
    · cases hrun.symm.trans hsuccess
  · have hsound := scheduling_sound ⟨_, _, rfl⟩ Plan.ofFrame_relay (spoilt_calm noInk)
      Storage.relay
    have hnil : Trace (spoilt noInk) Frame.relay Plan.relay
        (Dispatch.start Plan.relay Storage.relay) []
        (Dispatch.start Plan.relay Storage.relay) := .nil
    have hbegin := hnil.begin (p := ⟨0⟩) rfl rfl
    have hfinish := hbegin.finish (List.mem_cons_self ..)
    exact ⟨_, hfinish, (hsound.1 _ _ hfinish).1⟩

end Dispatch

end FramePlan
