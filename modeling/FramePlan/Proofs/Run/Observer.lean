import FramePlan.Proofs.Alike
import FramePlan.Proofs.Run.Dispatch
import FramePlan.Proofs.Run.Sequential
import FramePlan.Run.Observer
import FramePlan.Run.Recorder

/-!
# Observed and recorded runs keep what plain ones keep

An observer and a recorder only look at the calls of a run. What a host keeps it keeps under them,
and what they take down agrees with the ledger.

* `Host.Keeps.observer` — each view was taken in the middle of the history of the run.
* `Host.Keeps.recorder` — the recorded calls are the history of the run.
-/

namespace FramePlan

open History

variable {σ ω η : Type}

namespace Observed

variable {host : Host σ η} {s : Observed σ ω η}
  {work : PassId → Pass → IdMap .resource η → EStateM WorkFault ω Unit}

theorem ends_withHost {ε α : Type} {act : EStateM ε σ α}
    {returned : α → Observed σ ω η → Prop} {stopped : ε → Observed σ ω η → Prop}
    (h : Ends act s.host (fun a t => returned a { s with host := t })
      fun e t => stopped e { s with host := t }) : Ends (withHost act) s returned stopped := by
  unfold Ends withHost
  cases hact : act s.host with
  | ok a t => exact h.ok hact
  | error e t => exact h.error hact

theorem ends_withOwn {ε α : Type} {act : EStateM ε ω α}
    {returned : α → Observed σ ω η → Prop} {stopped : ε → Observed σ ω η → Prop}
    (h : Ends act s.own (fun a t => returned a { s with own := t })
      fun e t => stopped e { s with own := t }) : Ends (withOwn act) s returned stopped := by
  unfold Ends withOwn
  cases hact : act s.own with
  | ok a t => exact h.ok hact
  | error e t => exact h.error hact

theorem alike_withHost {ε α : Type} {act act' : EStateM ε σ α} {u : Observed σ ω η}
    {returned stopped : Observed σ ω η → Observed σ ω η → Prop}
    (h : Alike act act' s.host u.host
      (fun x y => returned { s with host := x } { u with host := y })
      fun x y => stopped { s with host := x } { u with host := y }) :
    Alike (withHost act) (withHost act') s u returned stopped := by
  cases h with
  | of_ok hact hact' hret =>
      exact Alike.of_ok (by rw [withHost, hact]) (by rw [withHost, hact']) hret
  | of_error hact hact' hstop =>
      exact Alike.of_error (by rw [withHost, hact]) (by rw [withHost, hact']) hstop

/-- An observed host does not panic if it does not panic by itself. -/
theorem observer_calm (h : host.Calm) : (observer host work).Calm where
  construct r s := ends_withHost (h.construct r s.host)
  move m s := ends_withHost (h.move m s.host)
  destruct r s := ends_withHost (h.destruct r s.host)
  request p s := ends_withHost (h.request p s.host)

/-- The pass of an action that is the work of a pass. -/
def worked? : Action → Option PassId
  | .work p => some p
  | _ => none

/-- The views were taken in the middle of the history, when the relation held of its beginning. -/
structure Seen (I : Ledger η → σ → Prop) (L : Ledger η) (views : List (View σ η)) : Prop where
  passes : views.map (·.pass) = L.history.filterMap worked?
  taken : ∀ v ∈ views, ∃ L' post, L.history = L'.history ++ .work v.pass :: post ∧
    (v.pass, v.handles) ∈ L'.grants ∧ I L' v.host

namespace Seen

variable {I : Ledger η → σ → Prop} {L : Ledger η} {views : List (View σ η)}

theorem empty : Seen I Ledger.empty ([] : List (View σ η)) :=
  ⟨rfl, fun _ hv => absurd hv List.not_mem_nil⟩

/-- One more action that is no work leaves the views as they are. -/
theorem snoc {L' : Ledger η} {a : Action} (h : Seen I L views) (ha : worked? a = none)
    (hL : L'.history = L.history ++ [a]) : Seen I L' views := by
  constructor
  · rw [hL, List.filterMap_append, h.passes]
    simp [ha]
  · intro v hv
    obtain ⟨L'', post, hsplit, hgrant, hI⟩ := h.taken v hv
    refine ⟨L'', post ++ [a], ?_, hgrant, hI⟩
    rw [hL, hsplit, List.append_assoc, List.cons_append]

/-- Work adds a view. -/
theorem worked {p : PassId} {handles : IdMap .resource η} {s : σ} (h : Seen I L views)
    (hgrant : (p, handles) ∈ L.grants) (hs : I L s) :
    Seen I (L.add [.work p]) (views ++ [⟨p, handles, s⟩]) := by
  constructor
  · rw [Ledger.add, List.filterMap_append, List.map_append, h.passes]
    rfl
  · intro v hv
    rcases List.mem_append.mp hv with hv | hv
    · obtain ⟨L', post, hsplit, hgrant', hI⟩ := h.taken v hv
      refine ⟨L', post ++ [.work p], ?_, hgrant', hI⟩
      rw [Ledger.add, hsplit, List.append_assoc, List.cons_append]
    · cases List.mem_singleton.mp hv
      exact ⟨L, [], rfl, hgrant, hs⟩

end Seen

end Observed

namespace Recorded

variable {host : Host σ η} {s : Recorded σ η}

theorem ends_withHost {ε α : Type} {act : EStateM ε σ α} {returned : α → Recorded σ η → Prop}
    {stopped : ε → Recorded σ η → Prop}
    (h : Ends act s.host (fun a t => returned a { s with host := t })
      fun e t => stopped e { s with host := t }) : Ends (withHost act) s returned stopped := by
  unfold Ends withHost
  cases hact : act s.host with
  | ok a t => exact h.ok hact
  | error e t => exact h.error hact

/-- A call that is not tripped is recorded and gets through. -/
theorem ends_storageCall {α : Type} {call : Call η} {act : EStateM StorageFault σ α}
    {returned : α → Recorded σ η → Prop} {stopped : StorageFault → Recorded σ η → Prop}
    (h : Ends act s.host
      (fun a t => returned a ⟨t, s.next + 1, s.calls.push call⟩)
      fun e t => stopped e ⟨t, s.next + 1, s.calls.push call⟩) :
    Ends (storageCall noTrips call act) s returned stopped :=
  ends_withHost (s := ⟨s.host, s.next + 1, s.calls.push call⟩) h

theorem alike_withHost {ε α : Type} {act act' : EStateM ε σ α} {u : Recorded σ η}
    {returned stopped : Recorded σ η → Recorded σ η → Prop}
    (h : Alike act act' s.host u.host
      (fun x y => returned { s with host := x } { u with host := y })
      fun x y => stopped { s with host := x } { u with host := y }) :
    Alike (withHost act) (withHost act') s u returned stopped := by
  cases h with
  | of_ok hact hact' hret =>
      exact Alike.of_ok (by rw [withHost, hact]) (by rw [withHost, hact']) hret
  | of_error hact hact' hstop =>
      exact Alike.of_error (by rw [withHost, hact]) (by rw [withHost, hact']) hstop

/-- A call that is not tripped ends alike if it does so without being recorded. -/
theorem alike_storageCall {α : Type} {call call' : Call η} {act act' : EStateM StorageFault σ α}
    {u : Recorded σ η} {returned stopped : Recorded σ η → Recorded σ η → Prop}
    (h : Alike act act' s.host u.host
      (fun x y => returned ⟨x, s.next + 1, s.calls.push call⟩ ⟨y, u.next + 1, u.calls.push call'⟩)
      fun x y => stopped ⟨x, s.next + 1, s.calls.push call⟩ ⟨y, u.next + 1, u.calls.push call'⟩) :
    Alike (storageCall noTrips call act) (storageCall noTrips call' act') s u returned stopped :=
  (alike_withHost (s := ⟨s.host, s.next + 1, s.calls.push call⟩)
    (u := ⟨u.host, u.next + 1, u.calls.push call'⟩) h).congr rfl rfl

/-- One more call is recorded after those of a history. -/
theorem actions_push {history : List Action} (h : s.actions = history) (call : Call η) (t : σ)
    (n : Nat) : (⟨t, n, s.calls.push call⟩ : Recorded σ η).actions = history ++ [call.action] := by
  unfold actions at *
  rw [Array.toList_push, List.map_append, h]
  rfl

/-- A recorded host does not panic if it does not panic by itself. -/
theorem recorder_calm (h : host.Calm) : (recorder noTrips host).Calm where
  construct r s := ends_storageCall (h.construct r s.host)
  move m s := ends_storageCall (h.move m s.host)
  destruct r s := ends_storageCall (h.destruct r s.host)
  request p s := ends_storageCall (h.request p s.host)

end Recorded

namespace Host.Keeps

variable {host : Host σ η} {frame : Frame} {plan : Plan} {I : Ledger η → σ → Prop} {stops : Prop}
  {work : PassId → Pass → IdMap .resource η → EStateM WorkFault ω Unit}

/-- **Each view was taken in the middle of the history of the run.** -/
theorem observer (h : host.Keeps frame plan I stops)
    (hwork : ∀ p pass handles own, Ends (work p pass handles) own (fun _ _ => True)
      fun _ _ => stops) :
    (Observed.observer host work).Keeps frame plan
      (fun L s => I L s.host ∧ Observed.Seen I L s.views) stops where
  log note hs := ⟨h.log note hs.1, hs.2⟩
  construct hs hp hm := Observed.ends_withHost ((h.construct hs.1 hp hm).mono
    (fun _ _ ht => ⟨ht, hs.2.snoc rfl rfl⟩) fun _ _ hstop => hstop)
  move hs hp hm := Observed.ends_withHost ((h.move hs.1 hp hm).mono
    (fun _ _ ht => ⟨ht, hs.2.snoc rfl rfl⟩) fun _ _ hstop => hstop)
  destruct hs hp hm := Observed.ends_withHost ((h.destruct hs.1 hp hm).mono
    (fun _ _ ht => ⟨ht, hs.2.snoc rfl rfl⟩) fun _ _ hstop => hstop)
  request hs hp hm := Observed.ends_withHost ((h.request hs.1 hp hm).mono
    (fun _ _ ht => ⟨ht, hs.2.snoc rfl rfl⟩) fun _ _ hstop => hstop)
  work := by
    intro L s p pass handles hs hp hm hpass hgrant
    have hview := hs.2.worked hgrant hs.1
    apply Ends.bind
    apply ends_modify
    apply Ends.bind
    apply Observed.ends_withHost
    apply (h.work hs.1 hp hm hpass hgrant).mono _ fun _ _ hstop => hstop
    intro _ t ht
    apply Observed.ends_withOwn
    exact (hwork p pass handles s.own).mono (fun _ _ _ => ⟨ht, hview⟩) fun _ _ hstop => hstop

/-- **The recorded calls are the history of the run.** -/
theorem recorder (h : host.Keeps frame plan I stops) :
    (Recorded.recorder Recorded.noTrips host).Keeps frame plan
      (fun L s => I L s.host ∧ s.actions = L.history) stops where
  log note hs := ⟨h.log note hs.1, hs.2⟩
  construct hs hp hm := Recorded.ends_storageCall ((h.construct hs.1 hp hm).mono
    (fun _ _ ht => ⟨ht, Recorded.actions_push hs.2 _ _ _⟩) fun _ _ hstop => hstop)
  move hs hp hm := Recorded.ends_storageCall ((h.move hs.1 hp hm).mono
    (fun _ _ ht => ⟨ht, Recorded.actions_push hs.2 _ _ _⟩) fun _ _ hstop => hstop)
  destruct hs hp hm := Recorded.ends_storageCall ((h.destruct hs.1 hp hm).mono
    (fun _ _ ht => ⟨ht, Recorded.actions_push hs.2 _ _ _⟩) fun _ _ hstop => hstop)
  request hs hp hm := Recorded.ends_storageCall ((h.request hs.1 hp hm).mono
    (fun _ _ ht => ⟨ht, Recorded.actions_push hs.2 _ _ _⟩) fun _ _ hstop => hstop)
  work := by
    intro L s p pass handles hs hp hm hpass hgrant
    apply Recorded.ends_withHost
    apply (h.work hs.1 hp hm hpass hgrant).mono _ fun _ _ hstop => hstop
    intro _ t ht
    exact ⟨ht, Recorded.actions_push hs.2 _ _ _⟩

end Host.Keeps

end FramePlan
