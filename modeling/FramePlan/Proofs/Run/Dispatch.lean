import FramePlan.Proofs.Outcome
import FramePlan.Run.Trace

/-!
# What one turn does to the dispatch

To begin a pass and to finish one change the dispatch in a way that depends on the host only by how
far they come. The lemmas here separate the two: what a turn does to the books of the dispatch, and
which calls of the host it is made of.

* `Dispatch.ends_beginPass`, `Dispatch.ends_finishPass` — the two kinds of turn.
* `Host.Calm` — storage that does not panic, so that no worker is lost.
* `Host.Leaves` — the errors that calls and work can leave, for any statement about errors.
-/

namespace FramePlan

variable {σ η : Type}

/-- Hands over and releases storage. -/
def Host.releaseAll (host : Host σ η) (events : Events) : EStateM RunError σ Unit := do
  host.moveAll events.moves
  host.destructAll events.destructs

namespace Dispatch

variable {host : Host σ η} {frame : Frame} {plan : Plan} {d : Dispatch σ η} {p : PassId}
  {pass : Pass}

theorem ends_withHost {α : Type} {act : EStateM RunError σ α} {returned : α → Dispatch σ η → Prop}
    {stopped : RunError → Dispatch σ η → Prop}
    (h : Ends act d.host (fun a s => returned a { d with host := s })
      fun e s => stopped e { d with host := s }) : Ends (withHost act) d returned stopped := by
  unfold Ends withHost
  cases hact : act d.host with
  | ok a s => exact h.ok hact
  | error e s => exact h.error hact

theorem withHost_bind {α β : Type} (act : EStateM RunError σ α) (next : α → EStateM RunError σ β) :
    (withHost (act >>= next) : EStateM RunError (Dispatch σ η) β) =
      withHost act >>= fun a => withHost (next a) := by
  funext d
  show withHost (EStateM.bind act next) d = EStateM.bind (withHost act) _ d
  unfold withHost EStateM.bind
  cases hact : act d.host with
  | ok a s => simp only [hact]
  | error e s => simp only [hact]

/-! ### Begin a pass -/

/-- Whether a pass that begins constructs the resource. -/
def isNew (plan : Plan) (constructed : IdSet .resource) (r : ResourceId) : Bool :=
  !plan.moves.backward.contains r && r ∉ constructed

theorem isNew_iff {constructed : IdSet .resource} {r : ResourceId} :
    isNew plan constructed r ↔ plan.moves.backward.get? r = none ∧ r ∉ constructed := by
  simp [isNew, IdMap.contains]

theorem constructNew_of_isNew {r : ResourceId} (h : isNew plan d.constructed r) :
    constructNew host plan r d = withHost ((host.construct r).adaptExcept .ofFault)
      { d with constructed := d.constructed.insert r } := by
  have hcond : ¬ (plan.moves.backward.contains r = true ∨ r ∈ d.constructed) := by
    simpa [isNew] using h
  show (if _ then _ else _ : EStateM RunError (Dispatch σ η) Unit) d = _
  rw [if_neg hcond]
  rfl

theorem constructNew_of_not_isNew {r : ResourceId} (h : ¬ isNew plan d.constructed r) :
    constructNew host plan r d = .ok () d := by
  have hcond : plan.moves.backward.contains r = true ∨ r ∈ d.constructed := by
    by_contra hnot
    exact h (by simpa [isNew] using hnot)
  show (if _ then _ else _ : EStateM RunError (Dispatch σ η) Unit) d = _
  rw [if_pos hcond]
  rfl

theorem ends_constructNew {rs : List ResourceId} (hnodup : rs.Nodup) {Q : σ → Prop}
    {S : RunError → σ → Prop}
    (h : Ends (host.constructAll (rs.filter (isNew plan d.constructed))) d.host (fun _ => Q) S) :
    Ends (rs.forM (constructNew host plan)) d
      (fun _ e => e = { d with constructed := e.constructed, host := e.host } ∧
        (∀ x, x ∈ e.constructed ↔
          x ∈ d.constructed ∨ x ∈ rs.filter (isNew plan d.constructed)) ∧ Q e.host)
      fun err e => e = { d with constructed := e.constructed, host := e.host } ∧ S err e.host := by
  induction rs generalizing d with
  | nil => exact Ends.pure ⟨rfl, by simp, h⟩
  | cons r rs ih =>
      obtain ⟨hr, hrs⟩ := List.nodup_cons.mp hnodup
      refine Ends.bind ?_
      by_cases hnew : isNew plan d.constructed r = true
      · have hsame : rs.filter (isNew plan (d.constructed.insert r)) =
            rs.filter (isNew plan d.constructed) := by
          refine List.filter_congr fun x hx => ?_
          have hne : x ≠ r := fun heq => hr (heq ▸ hx)
          simp [isNew, hne]
        rw [List.filter_cons_of_pos hnew] at h ⊢
        refine Ends.congr (constructNew_of_isNew hnew) (ends_withHost ?_)
        refine (Ends.of_bind h).mono (fun _ s hs => ?_) fun _ _ hstop => ⟨rfl, hstop⟩
        rw [← hsame] at hs
        have hrest := ih (d := { d with constructed := d.constructed.insert r, host := s }) hrs hs
        refine hrest.mono (fun _ e he => ?_) fun _ e he => ?_
        · obtain ⟨heq, hmem, hQ⟩ := he
          refine ⟨heq, fun x => ?_, hQ⟩
          rw [hmem, hsame, IdSet.mem_insert, List.mem_cons]
          tauto
        · exact he
      · rw [List.filter_cons_of_neg hnew] at h ⊢
        exact Ends.congr (constructNew_of_not_isNew hnew) (Ends.pure (ih hrs h))

/-- The calls that begin a pass, given the resources that are constructed already. -/
def beginCalls (host : Host σ η) (plan : Plan) (constructed : IdSet .resource) (p : PassId)
    (pass : Pass) : EStateM RunError σ (IdMap .resource η) := do
  host.constructAll (pass.resources.toList.filter (isNew plan constructed))
  (host.request p).adaptExcept .ofFault

/-- **A pass begins**: what it newly constructs is noted, and it runs with its handles. -/
theorem ends_beginPass (hpass : frame.pass? p = some pass) {Q : IdMap .resource η → σ → Prop}
    {S : RunError → σ → Prop} (h : Ends (beginCalls host plan d.constructed p pass) d.host Q S) :
    Ends (beginPass host frame plan p) d
      (fun _ e => ∃ handles, e = { d with
          constructed := e.constructed
          host := e.host
          running := d.running ++ [(p, handles)] } ∧
        (∀ x, x ∈ e.constructed ↔
          x ∈ d.constructed ∨ x ∈ pass.resources ∧ isNew plan d.constructed x) ∧ Q handles e.host)
      fun err e => e = { d with constructed := e.constructed, host := e.host } ∧ S err e.host := by
  unfold beginPass Run.lookUpPass
  rw [hpass]
  refine Ends.bind (Ends.pure (Ends.bind ?_))
  refine (ends_constructNew pass.resources.nodup_toList (Ends.of_bind h)).mono
    (fun _ e he => ?_) fun _ _ hstop => hstop
  obtain ⟨heq, hmem, hrequest⟩ := he
  refine Ends.bind (ends_withHost (hrequest.mono (fun handles s hs => ?_) fun _ s hs => ?_))
  · refine ends_modify ⟨handles, ?_, fun x => ?_, hs⟩
    · rw [heq]
    · rw [hmem, List.mem_filter]
      rfl
  · refine ⟨?_, hs⟩
    rw [heq]

/-! ### Finish a pass -/

/-- One pass less is to use the resource. -/
def countDown (users : IdMap .resource Nat) (r : ResourceId) : IdMap .resource Nat :=
  users.insert r (users.getD r 1 - 1)

/-- What becomes of the storage of a resource when that many passes are left to use each. -/
def release (plan : Plan) (users : IdMap .resource Nat) (r : ResourceId) : Events :=
  if users.getD r 0 > 0 then .none
  else match plan.moves.forward.get? r with
    | none => ⟨[], [], [r]⟩
    | some dst => ⟨[], [⟨dst, r⟩], if users.getD dst 0 = 0 then [dst] else []⟩

/-- What becomes of the storage of several resources when one pass less is to use each. -/
def releases (plan : Plan) (users : IdMap .resource Nat) : List ResourceId → List Events
  | [] => []
  | r :: rs => release plan (countDown users r) r :: releases plan (countDown users r) rs

theorem releaseUse_eq {r : ResourceId} : releaseUse host plan r d =
    withHost (host.releaseAll (release plan (countDown d.users r) r))
      { d with users := countDown d.users r } := by
  have hleft : (countDown d.users r).getD r 0 = d.users.getD r 1 - 1 :=
    IdMap.getD_insert.trans (if_pos rfl)
  unfold release
  rw [hleft]
  show (if _ then _ else _ : EStateM RunError (Dispatch σ η) Unit) _ = _
  by_cases hpos : d.users.getD r 1 - 1 > 0
  · rw [if_pos hpos, if_pos hpos]
    rfl
  · rw [if_neg hpos, if_neg hpos]
    show (if _ then _ else _ : EStateM RunError (Dispatch σ η) Unit) _ = _
    cases hforward : plan.moves.forward.get? r with
    | none =>
        have hall : host.releaseAll ⟨[], [], [r]⟩ = (host.destruct r).adaptExcept .ofFault := by
          show (pure () >>= fun _ => host.destructAll [r]) = _
          rw [pure_bind]
          exact bind_pure_unit
        rw [if_neg (by simp [IdMap.contains, hforward])]
        simp only [hall]
        rfl
    | some dst =>
        have hmove : host.moveAll [⟨dst, r⟩] = (host.move ⟨dst, r⟩).adaptExcept .ofFault :=
          bind_pure_unit
        have hlookUp : (Run.lookUpDestination plan r : EStateM RunError (Dispatch σ η) ResourceId) =
            pure dst := by rw [Run.lookUpDestination, hforward]
        rw [if_pos (by simp [IdMap.contains, hforward]), hlookUp, pure_bind]
        simp only [Host.releaseAll, withHost_bind, hmove]
        by_cases hunused : (countDown d.users r).getD dst 0 = 0
        · have hdestruct : host.destructAll [dst] = (host.destruct dst).adaptExcept .ofFault :=
            bind_pure_unit
          simp only [if_pos hunused, hdestruct]
          show EStateM.bind _ (fun _ => if (countDown d.users r).getD dst 0 = 0 then _ else _) _ = _
          simp only [if_pos hunused]
          rfl
        · simp only [if_neg hunused]
          show EStateM.bind _ (fun _ => if (countDown d.users r).getD dst 0 = 0 then _ else _) _ = _
          simp only [if_neg hunused]
          rfl

theorem ends_releaseUse {rs : List ResourceId} {Q : σ → Prop} {S : RunError → σ → Prop}
    (h : Ends ((releases plan d.users rs).forM host.releaseAll) d.host (fun _ => Q) S) :
    Ends (rs.forM (releaseUse host plan)) d
      (fun _ e => e = { d with users := rs.foldl countDown d.users, host := e.host } ∧ Q e.host)
      fun err e => (∃ pre, pre <+: rs ∧
        e = { d with users := pre.foldl countDown d.users, host := e.host }) ∧ S err e.host := by
  induction rs generalizing d with
  | nil => exact Ends.pure ⟨rfl, h⟩
  | cons r rs ih =>
      refine Ends.bind (Ends.congr releaseUse_eq (ends_withHost ?_))
      refine (Ends.of_bind h).mono (fun _ s hs => ?_) fun _ s hs => ?_
      · have hrest := ih (d := { d with users := countDown d.users r, host := s }) hs
        refine hrest.mono (fun _ e he => he) fun _ e he => ?_
        obtain ⟨⟨pre, hpre, heq⟩, hstop⟩ := he
        exact ⟨⟨r :: pre, (List.cons_prefix_cons).mpr ⟨rfl, hpre⟩, heq⟩, hstop⟩
      · exact ⟨⟨[r], (List.cons_prefix_cons).mpr ⟨rfl, List.nil_prefix⟩, rfl⟩, hs⟩

/-- The calls that finish a pass, given how many passes are to use each resource. -/
def finishCalls (host : Host σ η) (plan : Plan) (users : IdMap .resource Nat) (p : PassId)
    (pass : Pass) (handles : IdMap .resource η) : EStateM RunError σ Unit := do
  Run.doWork host (fun _ => holdUpPanic host pass) p pass handles
  (releases plan users pass.resources.toList).forM host.releaseAll

/-- **A pass is finished**: it does not run any more, whether or not it is complete; its resources
are counted down as far as its storage was given up, and in the end its successors as well. -/
theorem ends_finishPass {handles : IdMap .resource η} (hpass : frame.pass? p = some pass)
    {Q : σ → Prop} {S : RunError → σ → Prop}
    (h : Ends (finishCalls host plan d.users p pass handles) d.host (fun _ => Q) S) :
    Ends (finishPass host frame plan (p, handles)) d
      (fun _ e => e = { d with
          users := pass.resources.toList.foldl countDown d.users
          running := d.running.eraseP fun e => e.1 = p
          frontier := d.frontier.complete plan.graph p
          host := e.host } ∧ Q e.host)
      fun err e => (∃ pre, pre <+: pass.resources.toList ∧ e = { d with
          users := pre.foldl countDown d.users
          running := d.running.eraseP fun e => e.1 = p
          host := e.host }) ∧ S err e.host := by
  unfold finishPass Run.lookUpPass
  refine Ends.bind (ends_modify ?_)
  rw [hpass]
  refine Ends.bind (Ends.pure (Ends.bind (ends_withHost ?_)))
  refine (Ends.of_bind h).mono (fun _ s hs => Ends.bind ?_) fun _ s hs => ?_
  · have hloop := ends_releaseUse
      (d := { d with running := d.running.eraseP fun e => e.1 = p, host := s }) hs
    refine hloop.mono (fun _ e he => ends_modify ?_) fun _ e he => he
    obtain ⟨heq, hQ⟩ := he
    refine ⟨?_, hQ⟩
    rw [heq]
  · exact ⟨⟨[], List.nil_prefix, rfl⟩, hs⟩

/-! ### How a turn ends -/

/-- A turn that does not end in a panic of storage leaves its error, if it has one. -/
theorem settle_of_ends {act : EStateM RunError (Dispatch σ η) Unit}
    {returned : Dispatch σ η → Prop} {stopped : RunError → Dispatch σ η → Prop}
    (h : Ends act d (fun _ => returned) fun err e =>
      (∀ text, err ≠ .panicked text) ∧ stopped err e) :
    isReturned (act d) = true ∧ returned (settle (act d)) ∨
      isReturned (act d) = false ∧ ∃ err e, stopped err e ∧ settle (act d) = e.fail err := by
  cases hact : act d with
  | ok _ e => exact Or.inl ⟨rfl, h.ok hact⟩
  | error err e =>
      obtain ⟨hpanic, hstop⟩ := h.error hact
      refine Or.inr ⟨rfl, err, e, hstop, ?_⟩
      cases err with
      | panicked text => exact absurd rfl (hpanic text)
      | _ => rfl

end Dispatch

/-! ### Faults -/

/-- Storage may refuse a call but does not panic, and the work of passes may do as it likes. -/
structure Host.Calm (host : Host σ η) : Prop where
  construct : ∀ r s, Ends (host.construct r) s (fun _ _ => True)
    fun fault _ => ∃ error, fault = .refused error
  move : ∀ m s, Ends (host.move m) s (fun _ _ => True)
    fun fault _ => ∃ error, fault = .refused error
  destruct : ∀ r s, Ends (host.destruct r) s (fun _ _ => True)
    fun fault _ => ∃ error, fault = .refused error
  request : ∀ p s, Ends (host.request p) s (fun _ _ => True)
    fun fault _ => ∃ error, fault = .refused error

/-- However a call to storage or the work of a pass stops, the error that it leaves is as stated. -/
structure Host.Leaves (host : Host σ η) (P : RunError → Prop) : Prop where
  construct : ∀ r, StopsWith ((host.construct r).adaptExcept RunError.ofFault) P
  move : ∀ m, StopsWith ((host.move m).adaptExcept RunError.ofFault) P
  destruct : ∀ r, StopsWith ((host.destruct r).adaptExcept RunError.ofFault) P
  request : ∀ p, StopsWith ((host.request p).adaptExcept RunError.ofFault) P
  failed : ∀ p name text, P (.passFailed p name text)
  heldUp : P .workerPanicked

namespace Host.Leaves

variable {host : Host σ η} {plan : Plan} {P : RunError → Prop} {p : PassId} {pass : Pass}
  {handles : IdMap .resource η}

theorem constructAll (h : host.Leaves P) (rs : List ResourceId) :
    StopsWith (host.constructAll rs) P := .forM fun r _ => h.construct r

theorem releaseAll (h : host.Leaves P) (events : Events) : StopsWith (host.releaseAll events) P :=
  .bind (.forM fun m _ => h.move m) fun _ => .forM fun r _ => h.destruct r

theorem applyPrologue (h : host.Leaves P) (events : Events) :
    StopsWith (host.applyPrologue events) P :=
  .bind (h.constructAll events.constructs) fun _ => h.releaseAll events

theorem doWork {onPanic : String → EStateM RunError σ Unit} (h : host.Leaves P)
    (hpanic : ∀ text, StopsWith (onPanic text) P) :
    StopsWith (Run.doWork host onPanic p pass handles) P := by
  intro s
  unfold Ends Run.doWork
  cases host.work p pass handles s with
  | ok _ t => trivial
  | error fault t =>
      cases fault with
      | failed text => exact h.failed p pass.name text
      | panicked text => exact hpanic text t

theorem beginCalls (h : host.Leaves P) (constructed : IdSet .resource) :
    StopsWith (Dispatch.beginCalls host plan constructed p pass) P :=
  .bind (h.constructAll _) fun _ => h.request p

theorem finishCalls (h : host.Leaves P) (users : IdMap .resource Nat) :
    StopsWith (Dispatch.finishCalls host plan users p pass handles) P :=
  .bind (h.doWork fun _ _ => h.heldUp) fun _ => .forM fun events _ => h.releaseAll events

end Host.Leaves

/-- A call that is refused leaves an error that is no panic. -/
theorem Host.Calm.leaves {host : Host σ η} (h : host.Calm) :
    host.Leaves fun e => ∀ text, e ≠ .panicked text := by
  have hrefused : ∀ {α : Type} {act : EStateM StorageFault σ α},
      (∀ s, Ends act s (fun _ _ => True) fun fault _ => ∃ error, fault = .refused error) →
      StopsWith (act.adaptExcept RunError.ofFault) fun e => ∀ text, e ≠ .panicked text := by
    intro α act hact s
    apply Ends.adaptExcept
    apply (hact s).mono fun _ _ _ => trivial
    rintro _ _ ⟨error, rfl⟩ text heq
    cases heq
  exact ⟨fun r => hrefused (h.construct r), fun m => hrefused (h.move m),
    fun r => hrefused (h.destruct r), fun p => hrefused (h.request p), fun _ _ _ _ => nofun,
    fun _ => nofun⟩

/-- Pooled storage never panics. -/
theorem Storage.host_calm {κ η ς τ : Type} [DecidableEq κ] [DecidableEq ς] (frame : Frame)
    (allocate : κ → EStateM StorageError τ η) (faults : IdMap .pass WorkFault) :
    (Storage.host (ς := ς) frame allocate faults).Calm where
  construct _ _ := Ends.adaptExcept (Ends.always.mono (fun _ _ h => h) fun e _ _ => ⟨e, rfl⟩)
  move _ _ := Ends.adaptExcept (Ends.always.mono (fun _ _ h => h) fun e _ _ => ⟨e, rfl⟩)
  destruct _ _ := Ends.adaptExcept (Ends.always.mono (fun _ _ h => h) fun e _ _ => ⟨e, rfl⟩)
  request _ _ := Ends.adaptExcept (Ends.always.mono (fun _ _ h => h) fun e _ _ => ⟨e, rfl⟩)

end FramePlan
