import FramePlan.Proofs.Plan.Live
import FramePlan.Proofs.Run.Observer
import FramePlan.Proofs.Storage.Ledger
import FramePlan.Proofs.Storage.Supply

/-!
# Sequential runs on pooled storage

A sequential run asks pooled storage for nothing that it refuses, gives each pass the handles of
its resources while those that are live at its position are bound, and leaves nothing behind.

* `Run.lifecycle_sound` — the joint statement.
-/

namespace FramePlan

open History Account

namespace Plan

namespace Fits

variable {plan : Plan} {frame : Frame}

/-- Whoever comes to storage in the script gives it up. -/
theorem not_holds_script (hf : plan.Fits frame) (r : ResourceId) : ¬ Holds plan.script r := by
  have hall := hf.legal_script.2
  have hreleased : ∀ x, frame.Released plan.order x := fun x p hp => hf.mem_order_of_touches hp
  rintro ⟨hopened, hnot⟩
  apply hnot
  apply hall.gone_iff.mpr
  refine ⟨hreleased r, ?_⟩
  rcases (hall.opened_iff hf).mp hopened with ⟨_, ⟨p, _, hp⟩ | ⟨_, hd⟩⟩ | ⟨s, hs, _⟩
  · exact Or.inl ⟨p, hp⟩
  · exact Or.inr (Or.inl hd)
  · exact Or.inr (Or.inr ⟨s, hs, hreleased s⟩)

end Fits

/-- The works of the script come in the order of the plan. -/
theorem filterMap_worked?_script (plan : Plan) :
    plan.script.filterMap Observed.worked? = plan.order := by
  have hevents : ∀ events : Events,
      events.before.filterMap Observed.worked? = [] ∧
        events.after.filterMap Observed.worked? = [] := by
    intro events
    simp [Events.before, Events.after, List.filterMap_append, List.filterMap_map, Observed.worked?,
      Function.comp_def]
  have hpasses : ∀ schedule : List ScheduledPass,
      (schedule.flatMap ScheduledPass.script).filterMap Observed.worked? =
        schedule.map (·.pass) := by
    intro schedule
    induction schedule with
    | nil => rfl
    | cons scheduled schedule ih =>
        rw [List.flatMap_cons, List.filterMap_append, ih]
        simp [ScheduledPass.script, List.filterMap_append, List.filterMap_cons, hevents,
          Observed.worked?]
  unfold script order
  rw [List.filterMap_append, List.filterMap_append, (hevents _).1, (hevents _).2, hpasses]
  rfl

end Plan

namespace Run

variable {κ η ς τ ω : Type} {frame : Frame} {plan : Plan}
  {allocate : κ → EStateM StorageError τ η}
  {work : PassId → Pass → IdMap .resource η → EStateM WorkFault ω Unit}

/-- What a history of the plan on pooled storage keeps. -/
def Tended (frame : Frame) (allocate : κ → EStateM StorageError τ η) (s : Storage κ η ς τ)
    (L : Ledger η) (t : Storage κ η ς τ) : Prop :=
  Follows frame allocate s.account L t.account ∧ Granted frame L t.account

/-- Storage in which nothing of the frame is bound is tended before the run. -/
theorem Tended.empty {s : Storage κ η ς τ}
    (hunbound : ∀ r, frame.hasResource r → s.isConstructed r = false) :
    Tended frame allocate s Ledger.empty s :=
  ⟨Follows.empty fun r hr => Storage.isConstructed_eq_false_iff.mp (hunbound r hr), Granted.empty⟩

/-- What a pass gets to see at its position. -/
theorem view_live (hf : plan.Fits frame) {s : Storage κ η ς τ} {L : Ledger η}
    {v : View (Storage κ η ς τ) η} {pre post : List PassId} {rest : List Action}
    (horder : plan.order = pre ++ v.pass :: post)
    (hscript : plan.script = L.history ++ .work v.pass :: rest)
    (hgrant : (v.pass, v.handles) ∈ L.grants) (htended : Tended frame allocate s L v.host) :
    (∃ pass, frame.pass? v.pass = some pass ∧
        ∀ r, v.handles.contains r ↔ r ∈ pass.inputs ∨ r ∈ pass.outputs) ∧
      (∀ r h, v.handles.get? r = some h → v.host.handle? r = some h) ∧
      ∀ r, frame.hasResource r → (v.host.isConstructed r ↔ plan.Live pre.length r) := by
  obtain ⟨before, after, hsplit, hcovers⟩ := hf.exists_before_work horder
  have hbefore : L.history = before := split_unique hf.legal_script.1.nodup hscript hsplit
  rw [← hbefore] at hcovers
  obtain ⟨hkeys, hcurrent⟩ := htended.2 v.pass v.handles hgrant
  have hp : v.pass ∈ plan.order := horder ▸ by simp
  obtain ⟨pass, hpass⟩ := hf.mem_order_iff_pass?.mp hp
  refine ⟨⟨pass, hpass, fun r => ?_⟩, fun r h hget => ?_, fun r hr => ?_⟩
  · rw [IdMap.contains, Option.isSome_iff_ne_none, hkeys, ← Pass.mem_resources,
      Frame.touches_iff_mem hpass]
  · have htouch : frame.Touches v.pass r := (hkeys r).mp (by rw [hget]; simp)
    have hnotGone : ¬ Gone L.history r := by
      intro hgone
      exact hf.notMem_pre horder ((hcovers.gone_iff.mp hgone).1 v.pass htouch)
    obtain ⟨origin, howner⟩ := hcurrent r h hget hnotGone
    rw [Storage.owners_get?] at howner
    unfold Storage.handle?
    cases hbound : v.host.bound.get? r with
    | none =>
        rw [hbound] at howner
        cases howner
    | some binding =>
        rw [hbound] at howner
        cases howner
        rfl
  · rw [Storage.isConstructed_iff, htended.1.inside r hr]
    exact hf.holds_iff_live horder hcovers

variable [DecidableEq κ] [DecidableEq ς]

/-- Pooled storage serves the runs of a plan whose constructs are registered. -/
theorem tended_keeps (hf : plan.Fits frame) {s : Storage κ η ς τ}
    (hregistered : ∀ r ∈ plan.constructs, s.registrations.contains r)
    (hallocate : NeverFails allocate s.supply) :
    (Storage.host frame allocate ∅).Keeps frame plan (Tended frame allocate s) False :=
  ((follows_kept hf).and granted_kept).host_serves (follows_serves hf hregistered hallocate).and

/-- **Sequential runs are sound on pooled storage.** If nothing of the frame is bound, what the plan
constructs is registered, the allocator never fails and the work of passes succeeds, then the run
succeeds and binds what was bound before. Each pass gets handles for its inputs and outputs and
nothing else, in the order of the plan, and while it works the resources of the frame that are bound
are those that are live at its position. -/
theorem lifecycle_sound (hdeclared : frame.Declared) (hplan : Plan.ofFrame frame = .ok plan)
    (s : Storage κ η ς τ) (own : ω)
    (hunbound : ∀ r, frame.hasResource r → s.isConstructed r = false)
    (hregistered : ∀ r ∈ plan.constructs, s.registrations.contains r)
    (hallocate : NeverFails allocate s.supply)
    (hwork : ∀ p pass handles own, ∃ own', work p pass handles own = .ok () own') :
    ∃ t, Run.sequential (Observed.observer (Storage.host frame allocate ∅) work) frame plan
        (Observed.start s own) = .ok () t ∧
      (∀ r, t.host.isConstructed r = s.isConstructed r) ∧
      t.views.map (·.pass) = plan.order ∧
      ∀ k v, t.views[k]? = some v →
        (∃ pass, frame.pass? v.pass = some pass ∧
          ∀ r, v.handles.contains r ↔ r ∈ pass.inputs ∨ r ∈ pass.outputs) ∧
        (∀ r h, v.handles.get? r = some h → v.host.handle? r = some h) ∧
        ∀ r, frame.hasResource r → (v.host.isConstructed r ↔ plan.Live k r) := by
  have hf := Plan.fits_of_ofFrame hdeclared hplan
  have hworks : ∀ p pass handles own,
      Ends (work p pass handles) own (fun _ _ => True) fun _ _ => False :=
    fun p pass handles own => Ends.of_exists_ok ⟨(), hwork p pass handles own⟩
  have hkeeps := (tended_keeps hf hregistered hallocate).observer hworks
  obtain ⟨_, t, hrun, grants, htended, hseen⟩ := (hkeeps.sequential (s := Observed.start s own) hf
    ⟨Tended.empty hunbound, Observed.Seen.empty⟩).exists_ok
  have hpasses : t.views.map (·.pass) = plan.order :=
    hseen.passes.trans plan.filterMap_worked?_script
  refine ⟨t, hrun, fun r => ?_, hpasses, fun k v hv => ?_⟩
  · apply Bool.eq_iff_iff.mpr
    by_cases hr : frame.hasResource r
    · rw [Storage.isConstructed_iff, htended.1.inside r hr, hunbound r hr]
      simp [hf.not_holds_script r]
    · rw [Storage.isConstructed_iff, Storage.isConstructed_iff, htended.1.outside r hr]
  · obtain ⟨L, rest, hscript, hgrant, hview⟩ := hseen.taken v (List.mem_of_getElem? hv)
    have hk : plan.order[k]? = some v.pass := by
      rw [← hpasses, List.getElem?_map, hv]
      rfl
    obtain ⟨hlt, hget⟩ := List.getElem?_eq_some_iff.mp hk
    have horder : plan.order = plan.order.take k ++ v.pass :: plan.order.drop (k + 1) := by
      rw [← hget, List.getElem_cons_drop, List.take_append_drop]
    have hlength : (plan.order.take k).length = k := by
      rw [List.length_take]
      omega
    have hlive := view_live hf horder hscript hgrant hview
    rw [hlength] at hlive
    exact hlive

/-- The passes of a run can count themselves. -/
theorem lifecycle_sound_relay : ∃ t, Run.sequential
    (Observed.observer (Storage.host Frame.relay Supply.allocate ∅)
      fun _ _ _ n => .ok () (n + 1)) Frame.relay Plan.relay
      (Observed.start Storage.relay 0) = .ok () t ∧
    t.views.map (·.pass) = [⟨0⟩, ⟨1⟩, ⟨2⟩, ⟨3⟩] := by
  obtain ⟨t, hrun, _, hpasses, _⟩ := lifecycle_sound ⟨_, _, rfl⟩ Plan.ofFrame_relay Storage.relay 0
    (fun _ _ => rfl) (by decide) (Supply.neverFails rfl rfl) fun _ _ _ n => ⟨n + 1, rfl⟩
  exact ⟨t, hrun, hpasses⟩

end Run

end FramePlan
