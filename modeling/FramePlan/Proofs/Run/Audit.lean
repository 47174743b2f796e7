import FramePlan.Proofs.Run.Projection
import FramePlan.Proofs.Run.Trace
import FramePlan.Run.Audit

/-!
# What an audit tells

A turn goes well just when all calls that were made in it returned, and a turn that finishes a pass
is the one in which the pass did its work. This is read off the calls themselves, so it leaves a
worker no way to fail without a call that failed, or to go on after one.

* `Audited.auditor_projects` — an auditor does not show.
* `Dispatch.Trace.adds` — what the calls of a trace add to the record.
-/

namespace FramePlan

variable {ε ε' σ η α β : Type}

namespace Audited

variable {s t u : Audited σ η} {ok ok' : Bool} {passes passes' : List PassId}

/-! ### What calls add to the record -/

/-- Some more calls lead to the second state. Among them is the work of the passes, and they all
returned if `ok`, while one of them did not if not. -/
structure Adds (ok : Bool) (passes : List PassId) (s t : Audited σ η) : Prop where
  faultless : t.faultless = (s.faultless && ok)
  worked : t.worked = s.worked ++ passes

theorem Adds.refl : Adds true [] s s := ⟨(Bool.and_true _).symm, (List.append_nil _).symm⟩

theorem Adds.trans (h : Adds ok passes s t) (h' : Adds ok' passes' t u) :
    Adds (ok && ok') (passes ++ passes') s u where
  faultless := by rw [h'.faultless, h.faultless, Bool.and_assoc]
  worked := by rw [h'.worked, h.worked, List.append_assoc]

theorem Adds.entry (call : Call η) (host : σ) :
    Adds ok call.worked?.toList s ⟨host, s.entries ++ [⟨call, ok⟩]⟩ where
  faultless := by simp [Audited.faultless]
  worked := by cases hcall : call.worked? <;> simp [Audited.worked, hcall]

/-- However the action ends, its calls are in the record, and whether it returned. -/
def Audits (act : EStateM ε (Audited σ η) α) (passes : List PassId) : Prop :=
  ∀ s, Ends act s (fun _ t => Adds true passes s t) fun _ t => Adds false passes s t

namespace Audits

variable {act : EStateM ε (Audited σ η) α}

theorem bind {next : α → EStateM ε (Audited σ η) β} (h : Audits act passes)
    (hnext : ∀ a, Audits (next a) []) : Audits (act >>= next) passes := by
  intro s
  apply Ends.bind
  apply (h s).mono _ fun _ _ ht => ht
  intro a t ht
  apply (hnext a t).mono
  · exact fun _ _ hu => List.append_nil passes ▸ ht.trans hu
  · exact fun _ _ hu => List.append_nil passes ▸ ht.trans hu

theorem adaptExcept {f : ε → ε'} (h : Audits act passes) : Audits (act.adaptExcept f) passes := by
  intro s
  apply Ends.adaptExcept
  exact h s

theorem forM {xs : List β} {act : β → EStateM ε (Audited σ η) Unit} (h : ∀ x, Audits (act x) []) :
    Audits (xs.forM act) [] := by
  induction xs with
  | nil => exact fun _ => Ends.pure .refl
  | cons x xs ih => exact bind (h x) fun _ => ih

end Audits

/-! ### The auditor -/

theorem ends_attest {call : Call η} {act : EStateM ε σ α} {returned : α → Audited σ η → Prop}
    {stopped : ε → Audited σ η → Prop}
    (h : Ends act s.host (fun a host => returned a ⟨host, s.entries ++ [⟨call, true⟩]⟩)
      fun e host => stopped e ⟨host, s.entries ++ [⟨call, false⟩]⟩) :
    Ends (attest call act) s returned stopped := by
  unfold Ends attest
  cases hact : act s.host with
  | ok a host => exact h.ok hact
  | error e host => exact h.error hact

theorem audits_attest (call : Call η) (act : EStateM ε σ α) :
    Audits (attest call act) call.worked?.toList := fun _ =>
  ends_attest (Ends.always.mono (fun _ host _ => .entry call host) fun _ host _ =>
    .entry call host)

theorem projects_attest (call : Call η) (act : EStateM ε σ α) :
    Projects Audited.host (attest call act) act := fun _ => ends_attest Ends.self

variable {host : Host σ η}

/-- **An auditor does not show.** -/
theorem auditor_projects (host : Host σ η) : (auditor host).Projects Audited.host host where
  construct _ := projects_attest _ _
  move _ := projects_attest _ _
  destruct _ := projects_attest _ _
  request _ := projects_attest _ _
  work _ _ _ := projects_attest _ _
  log _ _ := rfl

/-- An audited host does not panic if it does not panic by itself. -/
theorem auditor_calm (h : host.Calm) : (auditor host).Calm where
  construct r s := ends_attest (h.construct r s.host)
  move m s := ends_attest (h.move m s.host)
  destruct r s := ends_attest (h.destruct r s.host)
  request p s := ends_attest (h.request p s.host)

/-! ### The calls of a run -/

variable {frame : Frame} {plan : Plan} {p : PassId} {pass : Pass} {handles : IdMap .resource η}

theorem audits_constructAll (rs : List ResourceId) : Audits ((auditor host).constructAll rs) [] :=
  .forM fun r => (audits_attest (.construct r) (host.construct r)).adaptExcept

theorem audits_releaseAll (events : Events) : Audits ((auditor host).releaseAll events) [] :=
  .bind (.forM fun m => (audits_attest (.move m) (host.move m)).adaptExcept) fun _ =>
    .forM fun r => (audits_attest (.destruct r) (host.destruct r)).adaptExcept

theorem audits_applyPrologue (events : Events) :
    Audits ((auditor host).applyPrologue events) [] :=
  .bind (audits_constructAll _) fun _ => audits_releaseAll events

theorem audits_doWork : Audits (Run.doWork (auditor host)
    (fun _ => Dispatch.holdUpPanic (auditor host) pass) p pass handles) [p] := by
  intro s
  have hwork : Ends ((auditor host).work p pass handles) s _ _ := audits_attest _ _ s
  unfold Ends Run.doWork
  cases hact : (auditor host).work p pass handles s with
  | ok _ t => exact hwork.ok hact
  | error fault t =>
      -- The failure is logged after the call, which leaves the record as it is.
      have ht := hwork.error hact
      cases fault with
      | failed text => exact ⟨ht.faultless, ht.worked⟩
      | panicked text => exact ⟨ht.faultless, ht.worked⟩

theorem audits_beginCalls (constructed : IdSet .resource) :
    Audits (Dispatch.beginCalls (auditor host) plan constructed p pass) [] :=
  .bind (audits_constructAll _) fun _ =>
    (audits_attest (.request p) (host.request p)).adaptExcept

theorem audits_finishCalls (users : IdMap .resource Nat) :
    Audits (Dispatch.finishCalls (auditor host) plan users p pass handles) [p] :=
  .bind audits_doWork fun _ => .forM fun events => audits_releaseAll events

end Audited

/-! ### Turns -/

namespace Dispatch

open Audited

variable {host : Host σ η} {frame : Frame} {plan : Plan} {p : PassId} {pass : Pass}
  {d : Dispatch (Audited σ η) η}

theorem host_settle_error (err : RunError) : (settle (.error err d)).host = d.host := by
  cases err <;> rfl

/-- What is settled after a turn is what the calls of the turn left. -/
theorem adds_settle {act : EStateM RunError (Dispatch (Audited σ η) η) Unit}
    {passes : List PassId}
    (h : Ends act d (fun _ e => Adds true passes d.host e.host)
      fun _ e => Adds false passes d.host e.host) :
    Adds (isReturned (act d)) passes d.host (settle (act d)).host := by
  cases hact : act d with
  | ok _ e => exact h.ok hact
  | error err e =>
      rw [host_settle_error]
      exact h.error hact

theorem adds_beginPass (hpass : frame.pass? p = some pass) :
    Adds (isReturned (beginPass (auditor host) frame plan p d)) [] d.host
      (settle (beginPass (auditor host) frame plan p d)).host := by
  apply adds_settle
  apply (ends_beginPass hpass (audits_beginCalls d.constructed d.host)).mono
  · rintro _ e ⟨_, _, _, hadds⟩
    exact hadds
  · exact fun _ _ he => he.2

theorem adds_finishPass {handles : IdMap .resource η} (hpass : frame.pass? p = some pass) :
    Adds (isReturned (finishPass (auditor host) frame plan (p, handles) d)) [p] d.host
      (d.finish (auditor host) frame plan (p, handles)).host := by
  apply adds_settle
  exact (ends_finishPass hpass (audits_finishCalls d.users d.host)).mono (fun _ _ he => he.2)
    fun _ _ he => he.2

/-- **What the calls of a trace add to the record**: the work of the passes that its turns finish,
and a fault just when one of its turns did not go well. -/
theorem Trace.adds {s : Audited σ η} {turns : List Turn} (hf : plan.Fits frame)
    (hcalm : host.Calm)
    (h : Trace (auditor host) frame plan (Dispatch.start plan s) turns d) :
    Adds (turns.all Turn.isOk) (Turn.ranIn turns) s d.host := by
  induction h with
  | nil => exact .refl
  | @begin turns d e p frontier htrace hbegin htake ih =>
      obtain ⟨_, _, rfl⟩ := begin?_eq_some hbegin htake
      obtain ⟨_, hready, _⟩ := take?_eq_some htake
      have horderly := (htrace.tracked hf (auditor_calm hcalm)).orderly
      obtain ⟨pass, hpass⟩ := hf.mem_order_iff_pass?.mp (horderly.roster.fresh hf hready).1
      rw [List.all_append, Turn.ranIn_append_begin]
      have hturn : Adds (isReturned (beginPass (auditor host) frame plan p { d with frontier })) []
          d.host _ := adds_beginPass hpass
      simpa [Turn.isOk] using ih.trans hturn
  | @finish turns d running htrace hrunning ih =>
      obtain ⟨p, handles⟩ := running
      have horderly := (htrace.tracked hf (auditor_calm hcalm)).orderly
      have hbegun := (horderly.running p (List.mem_map.mpr ⟨_, hrunning, rfl⟩)).1
      obtain ⟨pass, hpass⟩ := hf.mem_order_iff_pass?.mp (horderly.roster.mem_order hf hbegun)
      rw [List.all_append, Turn.ranIn_append_finish]
      have hturn : Adds (isReturned (finishPass (auditor host) frame plan (p, handles) d)) [p]
          d.host _ := adds_finishPass hpass
      simpa [Turn.isOk] using ih.trans hturn
  | stall htrace hstall _ =>
      have horderly := (htrace.tracked hf (auditor_calm hcalm)).orderly
      rw [horderly.not_stall hf] at hstall
      cases hstall

end Dispatch

end FramePlan
