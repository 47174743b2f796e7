import FramePlan.Proofs.Run.Dispatch

/-!
# Hosts that keep something of their own

Some hosts do what another host does and keep something besides: a record of the calls, say. What is
seen of their states through a view are states of the other host. A run cannot tell the two apart,
so it takes the same turns and ends in the same way, in states that agree as far as they are seen.

* `Host.Projects` — one host is another one, as far as it is seen.
* `Host.Projects.parallel` — so are their parallel runs.
* `Dispatch.Trace.lift` — whatever workers do with the one host they can do with the other.
-/

namespace FramePlan

variable {ε ε' σ σ' α β η : Type}

/-! ### Actions -/

/-- As far as its states are seen, the first action does what the second one does. -/
def Projects (view : σ' → σ) (act' : EStateM ε σ' α) (act : EStateM ε σ α) : Prop :=
  ∀ s, Ends act' s (fun a t => act (view s) = .ok a (view t))
    fun e t => act (view s) = .error e (view t)

namespace Projects

variable {view : σ' → σ} {act' : EStateM ε σ' α} {act : EStateM ε σ α}

theorem pure (a : α) : Projects view (Pure.pure a : EStateM ε σ' α) (Pure.pure a) :=
  fun _ => Ends.pure rfl

theorem throw (e : ε) : Projects view (throw e : EStateM ε σ' α) (throw e) :=
  fun _ => Ends.of_error rfl rfl

theorem modify {f : σ' → σ'} {g : σ → σ} (h : ∀ s, view (f s) = g (view s)) :
    Projects view (modify f : EStateM ε σ' Unit) (modify g) := fun s =>
  ends_modify (congrArg (EStateM.Result.ok ()) (h s).symm)

theorem bind {next' : α → EStateM ε σ' β} {next : α → EStateM ε σ β} (h : Projects view act' act)
    (hnext : ∀ a, Projects view (next' a) (next a)) :
    Projects view (act' >>= next') (act >>= next) := by
  intro s
  apply Ends.bind
  apply (h s).mono
  · intro a t hact
    rw [bind_of_ok hact]
    exact hnext a t
  · exact fun _ _ hact => bind_of_error hact

theorem adaptExcept {f : ε → ε'} (h : Projects view act' act) :
    Projects view (act'.adaptExcept f) (act.adaptExcept f) := by
  intro s
  apply Ends.adaptExcept
  apply (h s).mono
  · exact fun _ _ hact => by rw [EStateM.adaptExcept, hact]
  · exact fun _ _ hact => by rw [EStateM.adaptExcept, hact]

theorem forM {xs : List β} {act' : β → EStateM ε σ' Unit} {act : β → EStateM ε σ Unit}
    (h : ∀ x, Projects view (act' x) (act x)) : Projects view (xs.forM act') (xs.forM act) := by
  induction xs with
  | nil => exact pure ()
  | cons x xs ih => exact bind (h x) fun _ => ih

end Projects

/-! ### Hosts -/

/-- As far as its states are seen, the first host does what the second one does. -/
structure Host.Projects (view : σ' → σ) (host' : Host σ' η) (host : Host σ η) : Prop where
  construct : ∀ r, FramePlan.Projects view (host'.construct r) (host.construct r)
  move : ∀ m, FramePlan.Projects view (host'.move m) (host.move m)
  destruct : ∀ r, FramePlan.Projects view (host'.destruct r) (host.destruct r)
  request : ∀ p, FramePlan.Projects view (host'.request p) (host.request p)
  work : ∀ p pass handles,
    FramePlan.Projects view (host'.work p pass handles) (host.work p pass handles)
  log : ∀ note s, view (host'.log note s) = host.log note (view s)

namespace Dispatch

/-- The dispatch with what is seen of its host. -/
def mapHost (view : σ' → σ) (d : Dispatch σ' η) : Dispatch σ η := { d with host := view d.host }

variable {view : σ' → σ} {plan : Plan} {d : Dispatch σ' η}

theorem isOver_mapHost : (d.mapHost view).isOver plan = d.isOver plan := rfl

theorem outcome_mapHost : (d.mapHost view).outcome = d.outcome := rfl

theorem stall?_mapHost :
    (d.mapHost view).stall? plan = (d.stall? plan).map (mapHost view) := by
  by_cases hstuck : d.isOver plan ∨ d.frontier.ready ≠ [] ∨ d.running ≠ []
  · have hnone : d.stall? plan = none := if_pos hstuck
    have hnone' : (d.mapHost view).stall? plan = none := if_pos hstuck
    rw [hnone, hnone', Option.map_none]
  · have hsome : d.stall? plan = some (d.fail (.mismatch .stalled)) := if_neg hstuck
    have hsome' : (d.mapHost view).stall? plan =
        some ((d.fail (.mismatch .stalled)).mapHost view) := if_neg hstuck
    rw [hsome, hsome', Option.map_some]

end Dispatch

namespace Host.Projects

variable {view : σ' → σ} {host' : Host σ' η} {host : Host σ η} {frame : Frame} {plan : Plan}
  {p : PassId} {pass : Pass} {handles : IdMap .resource η} {d : Dispatch σ' η}

theorem constructAll (h : Projects view host' host) (rs : List ResourceId) :
    FramePlan.Projects view (host'.constructAll rs) (host.constructAll rs) :=
  .forM fun r => (h.construct r).adaptExcept

theorem releaseAll (h : Projects view host' host) (events : Events) :
    FramePlan.Projects view (host'.releaseAll events) (host.releaseAll events) :=
  .bind (.forM fun m => (h.move m).adaptExcept) fun _ =>
    .forM fun r => (h.destruct r).adaptExcept

theorem applyPrologue (h : Projects view host' host) (events : Events) :
    FramePlan.Projects view (host'.applyPrologue events) (host.applyPrologue events) :=
  .bind (h.constructAll _) fun _ => h.releaseAll events

theorem holdUpPanic (h : Projects view host' host) :
    FramePlan.Projects view (Dispatch.holdUpPanic host' pass)
      (Dispatch.holdUpPanic host pass) := by
  intro s
  have hlog := h.log ⟨.warn, s!"Pass '{pass.name}' panicked"⟩ s
  exact congrArg (EStateM.Result.error RunError.workerPanicked) hlog.symm

theorem doWork {onPanic' : String → EStateM RunError σ' Unit}
    {onPanic : String → EStateM RunError σ Unit} (h : Projects view host' host)
    (hpanic : ∀ text, FramePlan.Projects view (onPanic' text) (onPanic text)) :
    FramePlan.Projects view (Run.doWork host' onPanic' p pass handles)
      (Run.doWork host onPanic p pass handles) := by
  intro s
  have hwork := h.work p pass handles s
  unfold Ends Run.doWork
  cases hact : host'.work p pass handles s with
  | ok _ t =>
      rw [hwork.ok hact]
  | error fault t =>
      rw [hwork.error hact]
      cases fault with
      | failed text => simp only [h.log]
      | panicked text => exact hpanic text t

/-! ### Turns -/

theorem withHost {act' : EStateM RunError σ' α} {act : EStateM RunError σ α}
    (h : FramePlan.Projects view act' act) :
    FramePlan.Projects (Dispatch.mapHost (η := η) view) (Dispatch.withHost act')
      (Dispatch.withHost act) := by
  intro d
  apply Dispatch.ends_withHost
  apply (h d.host).mono
  · intro a s hact
    unfold Dispatch.withHost Dispatch.mapHost
    rw [hact]
  · intro e s hact
    unfold Dispatch.withHost Dispatch.mapHost
    rw [hact]

theorem constructNew (h : Projects view host' host) (r : ResourceId) :
    FramePlan.Projects (Dispatch.mapHost view) (Dispatch.constructNew host' plan r)
      (Dispatch.constructNew host plan r) := by
  intro d
  by_cases hnew : Dispatch.isNew plan d.constructed r
  · apply Ends.congr (Dispatch.constructNew_of_isNew hnew)
    rw [Dispatch.constructNew_of_isNew (d := d.mapHost view) hnew]
    exact withHost ((h.construct r).adaptExcept) _
  · apply Ends.congr (Dispatch.constructNew_of_not_isNew hnew)
    rw [Dispatch.constructNew_of_not_isNew (d := d.mapHost view) hnew]
    exact Ends.pure rfl

theorem lookUpPass : FramePlan.Projects view (Run.lookUpPass frame p : EStateM RunError σ' Pass)
    (Run.lookUpPass frame p) := by
  unfold Run.lookUpPass
  cases frame.pass? p with
  | some pass => exact .pure pass
  | none => exact .throw _

theorem beginPass (h : Projects view host' host) :
    FramePlan.Projects (Dispatch.mapHost view) (Dispatch.beginPass host' frame plan p)
      (Dispatch.beginPass host frame plan p) :=
  .bind lookUpPass fun _ => .bind (.forM h.constructNew) fun _ =>
    .bind (withHost (h.request p).adaptExcept) fun _ => .modify fun _ => rfl

theorem releaseUse (h : Projects view host' host) (r : ResourceId) :
    FramePlan.Projects (Dispatch.mapHost view) (Dispatch.releaseUse host' plan r)
      (Dispatch.releaseUse host plan r) := by
  intro d
  apply Ends.congr Dispatch.releaseUse_eq
  rw [Dispatch.releaseUse_eq (d := d.mapHost view)]
  exact withHost (h.releaseAll _) _

theorem finishPass (h : Projects view host' host) (running : PassId × IdMap .resource η) :
    FramePlan.Projects (Dispatch.mapHost view) (Dispatch.finishPass host' frame plan running)
      (Dispatch.finishPass host frame plan running) :=
  .bind (.modify fun _ => rfl) fun _ => .bind lookUpPass fun _ =>
    .bind (withHost (h.doWork fun _ => h.holdUpPanic)) fun _ =>
      .bind (.forM h.releaseUse) fun _ => .modify fun _ => rfl

section Attempt

variable {act' : EStateM RunError (Dispatch σ' η) Unit} {act : EStateM RunError (Dispatch σ η) Unit}

theorem isReturned (h : FramePlan.Projects (Dispatch.mapHost view) act' act)
    (d : Dispatch σ' η) :
    Dispatch.isReturned (act (d.mapHost view)) = Dispatch.isReturned (act' d) := by
  cases hact : act' d with
  | ok _ e =>
      rw [(h d).ok hact]
      rfl
  | error err e =>
      rw [(h d).error hact]
      rfl

theorem settle (h : FramePlan.Projects (Dispatch.mapHost view) act' act) (d : Dispatch σ' η) :
    Dispatch.settle (act (d.mapHost view)) = (Dispatch.settle (act' d)).mapHost view := by
  cases hact : act' d with
  | ok _ e =>
      rw [(h d).ok hact]
      rfl
  | error err e =>
      rw [(h d).error hact]
      cases err <;> rfl

end Attempt

theorem begin? (h : Projects view host' host) (d : Dispatch σ' η) :
    (d.mapHost view).begin? host frame plan =
      (d.begin? host' frame plan).map (Dispatch.mapHost view) := by
  unfold Dispatch.begin?
  rw [Dispatch.isOver_mapHost]
  split
  · rfl
  · rw [Option.map_map]
    apply Option.map_congr
    rintro ⟨p, frontier⟩ _
    exact settle h.beginPass { d with frontier }

theorem finish (h : Projects view host' host) (running : PassId × IdMap .resource η) :
    (d.mapHost view).finish host frame plan running =
      (d.finish host' frame plan running).mapHost view := settle (h.finishPass running) d

/-! ### Runs -/

theorem finishFirst (h : Projects view host' host) :
    (d.mapHost view).finishFirst host frame plan =
      (d.finishFirst host' frame plan).mapHost view := by
  have hrunning : (d.mapHost view).running = d.running := rfl
  unfold Dispatch.finishFirst
  rw [hrunning]
  cases d.running with
  | nil => rfl
  | cons running _ => exact h.finish running

theorem drive (h : Projects view host' host) (workers n : Nat) :
    (d.mapHost view).drive host frame plan workers n =
      (d.drive host' frame plan workers n).mapHost view := by
  induction n generalizing d with
  | zero => rfl
  | succ n ih =>
      have hlost : (d.mapHost view).lost = d.lost := rfl
      rw [Dispatch.drive, Dispatch.drive, hlost]
      by_cases hnobody : workers ≤ d.lost
      · rw [if_pos hnobody, if_pos hnobody]
      · rw [if_neg hnobody, if_neg hnobody, h.begin?, Dispatch.stall?_mapHost]
        cases d.begin? host' frame plan with
        | none => cases d.stall? plan <;> rfl
        | some e =>
            simp only [Option.map_some]
            rw [h.finishFirst, ih]

theorem dispatchParallel (h : Projects view host' host) (workers : WorkerCount) :
    FramePlan.Projects view (Run.dispatchParallel workers host' frame plan)
      (Run.dispatchParallel workers host frame plan) := by
  intro s
  have hlast : Run.lastDispatch workers host frame plan (view s) =
      (Run.lastDispatch workers host' frame plan s).mapHost view :=
    h.drive (d := Dispatch.start plan s) _ _
  unfold Ends Run.dispatchParallel
  rw [hlast]
  simp only [Dispatch.outcome_mapHost]
  cases (Run.lastDispatch workers host' frame plan s).outcome <;> rfl

/-- **As far as their states are seen, both hosts have the same parallel run.** -/
theorem parallel (h : Projects view host' host) (workers : WorkerCount) :
    FramePlan.Projects view (Run.parallel workers host' frame plan)
      (Run.parallel workers host frame plan) := by
  have hcheck : FramePlan.Projects view (Run.checkPassCount frame plan : EStateM RunError σ' Unit)
      (Run.checkPassCount frame plan) := by
    unfold Run.checkPassCount
    split
    · exact .pure ()
    · exact .throw _
  apply FramePlan.Projects.bind _ fun _ => h.dispatchParallel workers
  exact .bind hcheck fun _ => .bind (.modify fun s => h.log _ s) fun _ => h.applyPrologue _

end Host.Projects

/-- **Whatever turns workers take with the one host they can take with the other.** -/
theorem Dispatch.Trace.lift {view : σ' → σ} {host' : Host σ' η} {host : Host σ η} {frame : Frame}
    {plan : Plan} {first : Dispatch σ' η} {turns : List Turn} {d : Dispatch σ η}
    (h : host'.Projects view host) (htrace : Trace host frame plan (first.mapHost view) turns d) :
    ∃ d', Trace host' frame plan first turns d' ∧ d'.mapHost view = d := by
  induction htrace with
  | nil => exact ⟨first, .nil, rfl⟩
  | @begin turns d e p frontier _ hbegin htake ih =>
      obtain ⟨d', htrace', rfl⟩ := ih
      rw [h.begin?] at hbegin
      obtain ⟨e', hbegin', rfl⟩ := Option.map_eq_some_iff.mp hbegin
      have hreturned : isReturned (beginPass host frame plan p { d'.mapHost view with frontier }) =
          isReturned (beginPass host' frame plan p { d' with frontier }) :=
        Host.Projects.isReturned h.beginPass { d' with frontier }
      exact ⟨e', hreturned ▸ htrace'.begin hbegin' htake, rfl⟩
  | @finish turns d running _ hrunning ih =>
      obtain ⟨d', htrace', rfl⟩ := ih
      have hreturned : isReturned (finishPass host frame plan running (d'.mapHost view)) =
          isReturned (finishPass host' frame plan running d') :=
        Host.Projects.isReturned (h.finishPass running) d'
      exact ⟨_, hreturned ▸ htrace'.finish hrunning, (h.finish running).symm⟩
  | stall _ hstall ih =>
      obtain ⟨d', htrace', rfl⟩ := ih
      rw [stall?_mapHost] at hstall
      obtain ⟨e', hstall', rfl⟩ := Option.map_eq_some_iff.mp hstall
      exact ⟨e', htrace'.stall hstall', rfl⟩

end FramePlan
