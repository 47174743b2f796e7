import FramePlan.Proofs.Run.Observer
import FramePlan.Proofs.Run.Script
import FramePlan.Proofs.Storage.Supply

/-!
# A run stops at the first call that does not succeed

The script of a plan says what a sequential run would do if all went well. Whether a call succeeds
may depend on everything that was done before, so it is said of a call in the state that the calls
before it leave. A run then does the actions of the script one after another, up to the first one
that does not succeed, does nothing after it, and answers with the error of that action.

* `Host.Succeeds`, `Host.Fails` — one action, in a given state.
* `Host.Performs` — actions that succeed one after another.
* `Host.script_ends` — how a list of actions ends when it is acted out.
* `Run.stops_at_first_failure` — how a run of the plan ends, and which calls are recorded of it.
-/

namespace FramePlan

variable {σ η : Type}

/-! ### Actions that succeed, and actions that do not -/

namespace Host

/-- The action succeeds in the first state and leaves the second. The work of a pass gets the
handles that were requested last. -/
inductive Succeeds (host : Host σ η) (frame : Frame) : Acting σ η → Action → Acting σ η → Prop
  | construct {u : Acting σ η} {r : ResourceId} {t : σ} : host.construct r u.host = .ok () t →
      Succeeds host frame u (.construct r) { u with host := t }
  | move {u : Acting σ η} {m : Move} {t : σ} : host.move m u.host = .ok () t →
      Succeeds host frame u (.move m) { u with host := t }
  | destruct {u : Acting σ η} {r : ResourceId} {t : σ} : host.destruct r u.host = .ok () t →
      Succeeds host frame u (.destruct r) { u with host := t }
  | request {u : Acting σ η} {p : PassId} {handles : IdMap .resource η} {t : σ} :
      host.request p u.host = .ok handles t → Succeeds host frame u (.request p) ⟨t, handles⟩
  | work {u : Acting σ η} {p : PassId} {pass : Pass} {t : σ} : frame.pass? p = some pass →
      host.work p pass u.handles u.host = .ok () t →
      Succeeds host frame u (.work p) { u with host := t }

/-- The action does not succeed in the state: a run answers with the error and leaves the host in
the last state. -/
inductive Fails (host : Host σ η) (frame : Frame) : Acting σ η → Action → RunError → σ → Prop
  | construct {u : Acting σ η} {r : ResourceId} {fault : StorageFault} {t : σ} :
      host.construct r u.host = .error fault t →
      Fails host frame u (.construct r) (.ofFault fault) t
  | move {u : Acting σ η} {m : Move} {fault : StorageFault} {t : σ} :
      host.move m u.host = .error fault t → Fails host frame u (.move m) (.ofFault fault) t
  | destruct {u : Acting σ η} {r : ResourceId} {fault : StorageFault} {t : σ} :
      host.destruct r u.host = .error fault t →
      Fails host frame u (.destruct r) (.ofFault fault) t
  | request {u : Acting σ η} {p : PassId} {fault : StorageFault} {t : σ} :
      host.request p u.host = .error fault t → Fails host frame u (.request p) (.ofFault fault) t
  | workFailed {u : Acting σ η} {p : PassId} {pass : Pass} {text : String} {t : σ} :
      frame.pass? p = some pass →
      host.work p pass u.handles u.host = .error (.failed text) t →
      Fails host frame u (.work p) (.passFailed p pass.name text)
        (host.log ⟨.warn, s!"Pass '{pass.name}' failed: {text}"⟩ t)
  | workPanicked {u : Acting σ η} {p : PassId} {pass : Pass} {text : String} {t : σ} :
      frame.pass? p = some pass →
      host.work p pass u.handles u.host = .error (.panicked text) t →
      Fails host frame u (.work p) (.panicked text) t

/-- The actions succeed one after another. -/
inductive Performs (host : Host σ η) (frame : Frame) : Acting σ η → List Action → Acting σ η → Prop
  | nil {u : Acting σ η} : Performs host frame u [] u
  | cons {u v w : Acting σ η} {a : Action} {rest : List Action} : host.Succeeds frame u a v →
      Performs host frame v rest w → Performs host frame u (a :: rest) w

/-- The actions break off: those of the first part succeed, the next one fails with the error, and
the rest is not done. -/
structure BreaksOff (host : Host σ η) (frame : Frame) (u : Acting σ η) (actions : List Action)
    (pre : List Action) (a : Action) (e : RunError) (t : σ) : Prop where
  upto : pre ++ [a] <+: actions
  fails : ∃ v, host.Performs frame u pre v ∧ host.Fails frame v a e t

/-- The state in which the first action of a run is taken. -/
def announced (host : Host σ η) (frame : Frame) (plan : Plan) (s : σ) : Acting σ η :=
  ⟨host.log ⟨.debug, s!"Executor: running '{frame.name}' ({plan.passCount} passes)"⟩ s, ∅⟩

end Host

namespace Acting

variable {α : Type} {call : EStateM StorageFault σ α} {act : EStateM RunError σ α} {u : Acting σ η}
  {a : α} {t : σ}

theorem withHost_of_ok (h : act u.host = .ok a t) :
    withHost act u = .ok a { u with host := t } := by
  rw [withHost, h]

theorem withHost_of_error {e : RunError} (h : act u.host = .error e t) :
    withHost act u = .error e { u with host := t } := by
  rw [withHost, h]

theorem withHost_call_of_ok (h : call u.host = .ok a t) :
    withHost (call.adaptExcept RunError.ofFault) u = .ok a { u with host := t } :=
  withHost_of_ok (by rw [EStateM.adaptExcept, h])

theorem withHost_call_of_error {fault : StorageFault} (h : call u.host = .error fault t) :
    withHost (call.adaptExcept RunError.ofFault) u = .error (.ofFault fault) { u with host := t } :=
  withHost_of_error (by rw [EStateM.adaptExcept, h])

end Acting

namespace Host

variable {host : Host σ η} {frame : Frame} {u v w : Acting σ η} {a : Action} {e : RunError} {t : σ}
  {actions : List Action}

theorem act_work {p : PassId} {pass : Pass} (hpass : frame.pass? p = some pass) :
    host.act frame (.work p) u =
      Acting.withHost (Run.doWork host (fun text => throw (.panicked text)) p pass u.handles)
        u := by
  have hlook : Run.lookUpPass frame p u.host = .ok pass u.host := by
    rw [Run.lookUpPass, hpass]
    rfl
  exact bind_of_ok (Acting.withHost_of_ok hlook)

/-- An action that succeeds is acted out. -/
theorem Succeeds.act_eq (h : host.Succeeds frame u a v) : host.act frame a u = .ok () v := by
  cases h with
  | construct hcall => exact Acting.withHost_call_of_ok hcall
  | move hcall => exact Acting.withHost_call_of_ok hcall
  | destruct hcall => exact Acting.withHost_call_of_ok hcall
  | request hcall => exact bind_of_ok (Acting.withHost_call_of_ok hcall)
  | work hpass hcall =>
      rw [act_work hpass]
      exact Acting.withHost_of_ok (by rw [Run.doWork, hcall])

/-- An action that fails stops a script with its error. -/
theorem Fails.act_eq (h : host.Fails frame u a e t) :
    host.act frame a u = .error e { u with host := t } := by
  cases h with
  | construct hcall => exact Acting.withHost_call_of_error hcall
  | move hcall => exact Acting.withHost_call_of_error hcall
  | destruct hcall => exact Acting.withHost_call_of_error hcall
  | request hcall => exact bind_of_error (Acting.withHost_call_of_error hcall)
  | workFailed hpass hcall =>
      rw [act_work hpass]
      exact Acting.withHost_of_error (by rw [Run.doWork, hcall])
  | workPanicked hpass hcall =>
      rw [act_work hpass]
      exact Acting.withHost_of_error (by rw [Run.doWork, hcall]; rfl)

/-- The passes that work in a list of actions are passes of the frame. -/
def HasPasses (frame : Frame) (actions : List Action) : Prop :=
  ∀ p, .work p ∈ actions → ∃ pass, frame.pass? p = some pass

/-- An action either succeeds or fails. -/
theorem act_ends (ha : HasPasses frame [a]) : Ends (host.act frame a) u
    (fun _ v => host.Succeeds frame u a v) fun e v => host.Fails frame u a e v.host := by
  cases a with
  | construct r =>
      exact Acting.ends_withHost (.adaptExcept (Ends.self.mono (fun _ _ => .construct)
        fun _ _ => .construct))
  | move m =>
      exact Acting.ends_withHost (.adaptExcept (Ends.self.mono (fun _ _ => .move)
        fun _ _ => .move))
  | destruct r =>
      exact Acting.ends_withHost (.adaptExcept (Ends.self.mono (fun _ _ => .destruct)
        fun _ _ => .destruct))
  | request p =>
      exact .bind (Acting.ends_withHost (.adaptExcept (Ends.self.mono (fun _ _ => .request)
        fun _ _ => .request)))
  | work p =>
      obtain ⟨pass, hpass⟩ := ha p List.mem_cons_self
      apply Ends.congr (act_work hpass)
      apply Acting.ends_withHost
      unfold Ends Run.doWork
      cases hcall : host.work p pass u.handles u.host with
      | ok _ t => exact .work hpass hcall
      | error fault t =>
          cases fault with
          | failed text => exact .workFailed hpass hcall
          | panicked text => exact .workPanicked hpass hcall

/-! ### Lists of actions -/

theorem Performs.act_eq (h : host.Performs frame u actions v) :
    actions.forM (host.act frame) u = .ok () v := by
  induction h with
  | nil => rfl
  | cons hfirst _ ih => exact (bind_of_ok hfirst.act_eq).trans ih

theorem HasPasses.of_subset {actions' : List Action} (h : HasPasses frame actions)
    (hsub : actions' ⊆ actions) : HasPasses frame actions' := fun p hp => h p (hsub hp)

theorem BreaksOff.act_eq {pre : List Action} (h : host.BreaksOff frame u actions pre a e t) :
    ∃ v, actions.forM (host.act frame) u = .error e v ∧ v.host = t := by
  obtain ⟨⟨post, rfl⟩, w, hpre, hfails⟩ := h
  refine ⟨{ w with host := t }, ?_, rfl⟩
  rw [List.append_assoc]
  refine (congrFun List.forM_append u).trans ((bind_of_ok hpre.act_eq).trans ?_)
  exact bind_of_error hfails.act_eq

/-- **Actions that are acted out are done one after another up to the first one that fails.** -/
theorem script_ends (hpasses : HasPasses frame actions) : Ends (actions.forM (host.act frame)) u
    (fun _ v => host.Performs frame u actions v)
    fun e v => ∃ pre a, host.BreaksOff frame u actions pre a e v.host := by
  induction actions generalizing u with
  | nil => exact Ends.pure .nil
  | cons a actions ih =>
      have hfirst : HasPasses frame [a] := hpasses.of_subset (by simp)
      have hrest : HasPasses frame actions := hpasses.of_subset (List.subset_cons_self a actions)
      refine Ends.bind ((act_ends hfirst).mono (fun _ v hv => ?_) fun e v hfails => ?_)
      · refine (ih hrest).mono (fun _ w hw => .cons hv hw) fun e w => ?_
        rintro ⟨pre, b, ⟨post, hsplit⟩, x, hpre, hfails⟩
        exact ⟨a :: pre, b, ⟨post, by rw [← hsplit]; rfl⟩, x, .cons hv hpre, hfails⟩
      · exact ⟨[], a, ⟨actions, rfl⟩, u, .nil, hfails⟩

end Host

/-! ### Recorded calls -/

namespace Recorded

variable {host : Host σ η} {frame : Frame} {u v : Acting (Recorded σ η) η} {a : Action}
  {e : RunError} {t : Recorded σ η} {actions : List Action}

/-- The state of a run without the record. -/
def plain (u : Acting (Recorded σ η) η) : Acting σ η := ⟨u.host.host, u.handles⟩

/-- A call that is recorded ends as it does without being recorded. -/
theorem storageCall_ends {α : Type} {call : Call η} {act : EStateM StorageFault σ α}
    {s : Recorded σ η} : Ends (storageCall noTrips call act) s
      (fun b t => act s.host = .ok b t.host ∧ t.actions = s.actions ++ [call.action])
      fun fault t => act s.host = .error fault t.host ∧ t.actions = s.actions ++ [call.action] :=
  ends_storageCall (Ends.self.mono (fun _ _ hact => ⟨hact, actions_push rfl ..⟩)
    fun _ _ hact => ⟨hact, actions_push rfl ..⟩)

theorem work_ends {p : PassId} {pass : Pass} {handles : IdMap .resource η} {s : Recorded σ η} :
    Ends ((recorder noTrips host).work p pass handles) s
      (fun _ t => host.work p pass handles s.host = .ok () t.host ∧
        t.actions = s.actions ++ [.work p])
      fun fault t => host.work p pass handles s.host = .error fault t.host ∧
        t.actions = s.actions ++ [.work p] := by
  apply ends_withHost
  exact Ends.self.mono (fun _ _ hact => ⟨hact, actions_push rfl ..⟩)
    fun _ _ hact => ⟨hact, actions_push rfl ..⟩

theorem succeeds (h : (recorder noTrips host).Succeeds frame u a v) :
    host.Succeeds frame (plain u) a (plain v) ∧ v.host.actions = u.host.actions ++ [a] := by
  cases h with
  | construct hcall => exact (storageCall_ends.ok hcall).imp .construct id
  | move hcall => exact (storageCall_ends.ok hcall).imp .move id
  | destruct hcall => exact (storageCall_ends.ok hcall).imp .destruct id
  | request hcall => exact (storageCall_ends.ok hcall).imp .request id
  | work hpass hcall => exact (work_ends.ok hcall).imp (.work hpass) id

theorem fails (h : (recorder noTrips host).Fails frame u a e t) :
    host.Fails frame (plain u) a e t.host ∧ t.actions = u.host.actions ++ [a] := by
  cases h with
  | construct hcall => exact (storageCall_ends.error hcall).imp .construct id
  | move hcall => exact (storageCall_ends.error hcall).imp .move id
  | destruct hcall => exact (storageCall_ends.error hcall).imp .destruct id
  | request hcall => exact (storageCall_ends.error hcall).imp .request id
  | workFailed hpass hcall => exact (work_ends.error hcall).imp (.workFailed hpass) id
  | workPanicked hpass hcall => exact (work_ends.error hcall).imp (.workPanicked hpass) id

theorem performs (h : (recorder noTrips host).Performs frame u actions v) :
    host.Performs frame (plain u) actions (plain v) ∧
      v.host.actions = u.host.actions ++ actions := by
  induction h with
  | nil => exact ⟨.nil, (List.append_nil _).symm⟩
  | cons hfirst _ ih =>
      obtain ⟨hplain, hactions⟩ := succeeds hfirst
      refine ⟨.cons hplain ih.1, ?_⟩
      rw [ih.2, hactions, List.append_assoc, List.singleton_append]

theorem breaksOff {pre : List Action}
    (h : (recorder noTrips host).BreaksOff frame u actions pre a e t) :
    host.BreaksOff frame (plain u) actions pre a e t.host ∧
      t.actions = u.host.actions ++ (pre ++ [a]) := by
  obtain ⟨hsplit, w, hpre, hfails⟩ := h
  obtain ⟨hplain, hactions⟩ := performs hpre
  obtain ⟨hlast, hrecorded⟩ := fails hfails
  refine ⟨⟨hsplit, _, hplain, hlast⟩, ?_⟩
  rw [hrecorded, hactions, List.append_assoc]

end Recorded

/-! ### Runs of a plan -/

namespace Run

variable {frame : Frame} {plan : Plan}

theorem hasPasses_script (hf : plan.Fits frame) : Host.HasPasses frame plan.script := fun p hp =>
  hf.mem_order_iff_pass?.mp ((hf.legal_script.2.work p).mp hp)

/-- A run of the plan does the actions of the script one after another. -/
theorem sequential_ends (hf : plan.Fits frame) (host : Host σ η) (s : σ) :
    Ends (sequential host frame plan) s
      (fun _ t => ∃ u, host.Performs frame (host.announced frame plan s) plan.script u ∧
        u.host = t)
      fun e t => ∃ pre a,
        host.BreaksOff frame (host.announced frame plan s) plan.script pre a e t := by
  have hscript : Ends (plan.script.forM (host.act frame)) (host.announced frame plan s) _ _ :=
    Host.script_ends (hasPasses_script hf)
  apply ((sequential_acts host hf s ∅).ends hscript).mono
  · rintro _ t ⟨u, rfl, hu⟩
    exact ⟨u, hu, rfl⟩
  · rintro e t ⟨u, rfl, hu⟩
    exact hu

/-- **A sequential run of the plan of a frame does exactly the actions of its script up to the first
one that fails.** It returns just when all of them succeed, and stops just with the error of the
first one that does not; the calls that are recorded are the script, or what comes of it up to
there. In the script each move goes to the destination that the plan has for its source. -/
theorem stops_at_first_failure (hdeclared : frame.Declared) (hplan : Plan.ofFrame frame = .ok plan)
    (host : Host σ η) (s : σ) :
    (∀ m, .move m ∈ plan.script → plan.moves.forward.get? m.src = some m.dst) ∧
    (∀ t, sequential host frame plan s = .ok () t ↔
      ∃ u, host.Performs frame (host.announced frame plan s) plan.script u ∧ u.host = t) ∧
    (∀ e t, sequential host frame plan s = .error e t ↔
      ∃ pre a, host.BreaksOff frame (host.announced frame plan s) plan.script pre a e t) ∧
    Ends (sequential (Recorded.recorder Recorded.noTrips host) frame plan) (.start s)
      (fun _ t => t.actions = plan.script ∧
        ∃ u, host.Performs frame (host.announced frame plan s) plan.script u ∧ u.host = t.host)
      fun e t => ∃ pre a, t.actions = pre ++ [a] ∧
        host.BreaksOff frame (host.announced frame plan s) plan.script pre a e t.host := by
  have hf := Plan.fits_of_ofFrame hdeclared hplan
  have hacts := sequential_acts host hf s ∅
  refine ⟨fun m hm => ((hf.legal_script.2.move m).mp hm).1, fun t => ⟨?_, ?_⟩,
    fun e t => ⟨?_, ?_⟩, ?_⟩
  · exact (sequential_ends hf host s).ok
  · rintro ⟨u, hu, rfl⟩
    obtain ⟨_, t, hrun, rfl⟩ := hacts.symm.ok hu.act_eq
    exact hrun
  · exact (sequential_ends hf host s).error
  · rintro ⟨pre, a, hbreaks⟩
    obtain ⟨v, hv, rfl⟩ := hbreaks.act_eq
    obtain ⟨t, hrun, rfl⟩ := hacts.symm.error hv
    exact hrun
  · apply (sequential_ends hf (Recorded.recorder Recorded.noTrips host) (.start s)).mono
    · rintro _ t ⟨u, hu, rfl⟩
      obtain ⟨hperforms, hactions⟩ := Recorded.performs hu
      exact ⟨hactions, _, hperforms, rfl⟩
    · rintro e t ⟨pre, a, hbreaks⟩
      obtain ⟨hplain, hactions⟩ := Recorded.breaksOff hbreaks
      exact ⟨pre, a, hactions, hplain⟩

/-- Storage whose third call fails. -/
def scarce : Host (Recorded (Storage String Int String Supply) Int) Int :=
  Recorded.recorder ⟨some 2, none⟩ (Storage.host Frame.relay Supply.allocate ∅)

/-- When there is no storage for the mask, the draft was drawn and nothing else is done. -/
theorem stops_at_first_failure_relay : ∃ t,
    scarce.BreaksOff Frame.relay (scarce.announced Frame.relay Plan.relay (.start Storage.relay))
      Plan.relay.script [.construct ⟨0⟩, .request ⟨0⟩, .work ⟨0⟩] (.construct ⟨1⟩)
      (.storage (.allocationFailed "tripped at call 2")) t ∧
    sequential scarce Frame.relay Plan.relay (.start Storage.relay) =
      .error (.storage (.allocationFailed "tripped at call 2")) t := by
  have hstops := stops_at_first_failure ⟨_, _, rfl⟩ Plan.ofFrame_relay scarce (.start Storage.relay)
  have hbreaks : ∃ t, scarce.BreaksOff Frame.relay
      (scarce.announced Frame.relay Plan.relay (.start Storage.relay)) Plan.relay.script
      [.construct ⟨0⟩, .request ⟨0⟩, .work ⟨0⟩] (.construct ⟨1⟩)
      (.storage (.allocationFailed "tripped at call 2")) t :=
    ⟨_, ⟨_, rfl⟩, _, .cons (.construct rfl) (.cons (.request rfl) (.cons (.work rfl rfl) .nil)),
      .construct (show scarce.construct ⟨1⟩ _ =
        .error (.refused (.allocationFailed "tripped at call 2")) _ from rfl)⟩
  obtain ⟨t, hbreaks⟩ := hbreaks
  exact ⟨t, hbreaks, (hstops.2.2.1 _ _).mpr ⟨_, _, hbreaks⟩⟩

end Run

end FramePlan
