import FramePlan.Proofs.Alike
import FramePlan.Proofs.Run.Sequential

/-!
# Acting out a script

What a sequential run does is told by the script of its plan: the run ends as if the actions of the
script were taken one after another, up to the first that does not succeed.

* `Host.act` — one action.
* `Run.sequential_acts` — the run and the script end alike.
-/

namespace FramePlan

variable {σ η : Type}

/-- The state of a host while a script is acted out, and the handles that were requested last. -/
structure Acting (σ η : Type) where
  host : σ
  handles : IdMap .resource η

namespace Acting

/-- Lets the host act. -/
def withHost {α : Type} (act : EStateM RunError σ α) : EStateM RunError (Acting σ η) α := fun s =>
  match act s.host with
  | .ok a host => .ok a { s with host }
  | .error e host => .error e { s with host }

end Acting

/-- Acts out one action. The work of a pass gets the handles that were requested last. -/
def Host.act (host : Host σ η) (frame : Frame) : Action → EStateM RunError (Acting σ η) Unit
  | .construct r => Acting.withHost ((host.construct r).adaptExcept .ofFault)
  | .move m => Acting.withHost ((host.move m).adaptExcept .ofFault)
  | .destruct r => Acting.withHost ((host.destruct r).adaptExcept .ofFault)
  | .request p => do
    let handles ← Acting.withHost ((host.request p).adaptExcept .ofFault)
    modify fun s => { s with handles }
  | .work p => do
    let pass ← Acting.withHost (Run.lookUpPass frame p)
    let s ← get
    Acting.withHost (Run.doWork host (fun text => throw (.panicked text)) p pass s.handles)

namespace Acting

variable {host : Host σ η} {frame : Frame} {plan : Plan}

/-- The run has come to the same state as the script. -/
def Matches (s : σ) (u : Acting σ η) : Prop := s = u.host

/-- An action of the host and the same action in a script end alike. -/
theorem alike_withHost {α : Type} {act : EStateM RunError σ α} {s : σ} {u : Acting σ η}
    (h : Matches s u) : Alike act (withHost act) s u Matches Matches := by
  subst h
  cases hact : act u.host with
  | ok a t =>
      exact Alike.of_ok (b := a) (u := { u with host := t }) hact (by rw [withHost, hact]) rfl
  | error e t =>
      exact Alike.of_error (u := { u with host := t }) hact (by rw [withHost, hact]) rfl

theorem ends_withHost {α : Type} {act : EStateM RunError σ α} {s : Acting σ η}
    {returned : α → Acting σ η → Prop} {stopped : RunError → Acting σ η → Prop}
    (h : Ends act s.host (fun a t => returned a { s with host := t })
      fun e t => stopped e { s with host := t }) : Ends (withHost act) s returned stopped := by
  unfold Ends withHost
  cases hact : act s.host with
  | ok a t => exact h.ok hact
  | error e t => exact h.error hact

/-! ### Parts of a run -/

/-- A loop of calls of one kind. -/
theorem alike_calls {α : Type} {call : α → EStateM RunError σ Unit} {action : α → Action}
    (haction : ∀ x, host.act frame (action x) = withHost (call x)) {xs : List α} {s : σ}
    {u : Acting σ η} (h : Matches s u) :
    Alike (xs.forM call) ((xs.map action).forM (host.act frame)) s u Matches Matches := by
  refine Alike.map (fun x _ t u htu => ?_) h
  rw [haction]
  exact alike_withHost htu

theorem alike_before {events : Events} {s : σ} {u : Acting σ η} (h : Matches s u) :
    Alike (host.constructAll events.constructs) (events.before.forM (host.act frame)) s u Matches
      Matches :=
  alike_calls (fun _ => rfl) h

theorem alike_after {events : Events} {s : σ} {u : Acting σ η} (h : Matches s u) :
    Alike (host.moveAll events.moves >>= fun _ => host.destructAll events.destructs)
      (events.after.forM (host.act frame)) s u Matches Matches :=
  Alike.append (alike_calls (fun _ => rfl) h) fun _ _ _ htu => alike_calls (fun _ => rfl) htu

/-- The handles that a script keeps for the work of a pass are those that a run hands to it. -/
theorem alike_request {α β : Type} {p : PassId}
    {next : IdMap .resource η → EStateM RunError σ α} {rest : EStateM RunError (Acting σ η) β}
    (hnext : ∀ handles t, Alike (next handles) rest t ⟨t, handles⟩ Matches Matches) {s : σ}
    {u : Acting σ η} (h : Matches s u) :
    Alike ((host.request p).adaptExcept .ofFault >>= next)
      (host.act frame (.request p) >>= fun _ => rest) s u Matches Matches := by
  subst h
  cases hrequest : (host.request p).adaptExcept RunError.ofFault u.host with
  | ok handles t =>
      have hact : host.act frame (.request p) u = .ok () ⟨t, handles⟩ := by
        rw [Host.act, bind_of_ok (t := { u with host := t }) (by rw [withHost, hrequest])]
        rfl
      exact (hnext handles t).congr (bind_of_ok hrequest) (bind_of_ok hact)
  | error e t =>
      have hact : host.act frame (.request p) u = .error e { u with host := t } := by
        rw [Host.act]
        exact bind_of_error (by rw [withHost, hrequest])
      exact Alike.of_error (bind_of_error hrequest) (bind_of_error hact) rfl

theorem alike_work {p : PassId} {pass : Pass} (hpass : frame.pass? p = some pass)
    (handles : IdMap .resource η) (s : σ) :
    Alike (Run.doWork host (fun text => throw (.panicked text)) p pass handles)
      (host.act frame (.work p)) s ⟨s, handles⟩ Matches Matches := by
  refine (alike_withHost (u := ⟨s, handles⟩) rfl).congr rfl ?_
  have hlook : withHost (Run.lookUpPass frame p) (⟨s, handles⟩ : Acting σ η) =
      .ok pass ⟨s, handles⟩ := by
    rw [withHost, Run.lookUpPass, hpass]
    rfl
  rw [Host.act, bind_of_ok hlook]
  rfl

theorem alike_runPass {scheduled : ScheduledPass} {pass : Pass}
    (hpass : frame.pass? scheduled.pass = some pass) {s : σ} {u : Acting σ η} (h : Matches s u) :
    Alike (Run.runPass host frame scheduled) (scheduled.script.forM (host.act frame)) s u Matches
      Matches := by
  have hlook : Run.lookUpPass frame scheduled.pass s = .ok pass s := by
    rw [Run.lookUpPass, hpass]
    rfl
  rw [ScheduledPass.script, List.append_assoc]
  refine Alike.congr ?_ (bind_of_ok hlook) rfl
  refine Alike.append (alike_before h) fun _ t u htu => ?_
  refine alike_request (fun handles v => ?_) htu
  exact Alike.bind (alike_work hpass handles v) fun _ _ _ _ hwork => alike_after hwork

end Acting

/-- **A sequential run acts out the script of its plan**, and ends as the script does. -/
theorem Run.sequential_acts (host : Host σ η) {frame : Frame} {plan : Plan}
    (hf : plan.Fits frame) (s : σ) (handles : IdMap .resource η) :
    Alike (Run.sequential host frame plan) (plan.script.forM (host.act frame)) s
      ⟨host.log ⟨.debug, s!"Executor: running '{frame.name}' ({plan.passCount} passes)"⟩ s, handles⟩
      Acting.Matches Acting.Matches := by
  have hcheck : Run.checkPassCount frame plan s = .ok () s := congrFun hf.checkPassCount_eq s
  have hprologue : ∀ {t : σ} {u : Acting σ η}, Acting.Matches t u →
      Alike (host.applyPrologue plan.prologue)
        ((plan.prologue.before ++ plan.prologue.after).forM (host.act frame)) t u Acting.Matches
        Acting.Matches := fun h =>
    Alike.append (Acting.alike_before h) fun _ _ _ htu => Acting.alike_after htu
  refine Alike.congr ?_ (bind_of_ok hcheck) rfl
  refine Alike.congr ?_ (bind_of_ok rfl) rfl
  refine Alike.append (hprologue rfl) fun _ t u htu => ?_
  refine Alike.flatMap (fun scheduled hmem v w hvw => ?_) htu
  obtain ⟨pass, hpass⟩ := hf.mem_order_iff_pass?.mp (List.mem_map_of_mem hmem)
  exact Acting.alike_runPass hpass hvw

end FramePlan
