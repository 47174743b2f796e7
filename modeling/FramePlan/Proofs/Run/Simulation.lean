import FramePlan.Proofs.Run.Agreement
import FramePlan.Proofs.Run.Reorder
import FramePlan.Proofs.Run.Round

/-!
# Calls in two runs at once

A worker that is alone and a sequential run make the same calls, except that after the work of a
pass storage may be given up in another order. Instances may then be pooled in another order, but as
many of them under each key, so that the next call that fails is the same one and fails alike. This
holds whatever is registered and pooled, and whichever allocations fail.

* `Reordered` — what may differ between the calls of the two runs.
* `Dispatch.alike_openPass`, `Dispatch.alike_closePass` — the calls around the work of a pass.
-/

namespace FramePlan

open History Account

/-- The same actions, except for the order in which storage is given up right after the work of a
pass. -/
inductive Reordered : List Action → List Action → Prop
  | nil : Reordered [] []
  | snoc {h h' : List Action} (a : Action) : Reordered h h' → Reordered (h ++ [a]) (h' ++ [a])
  | released {h h' block block' : List Action} (p : PassId) : Reordered h h' →
    (∀ a ∈ block, a.GivesUp) → block.Perm block' →
    Reordered (h ++ .work p :: block) (h' ++ .work p :: block')

theorem Action.GivesUp.not_work {a : Action} (h : a.GivesUp) : Observed.worked? a = none := by
  rcases h with ⟨m, rfl⟩ | ⟨r, rfl⟩ <;> rfl

namespace Reordered

variable {h h' : List Action}

/-- The same passes do their work, and in the same order. -/
theorem filterMap_worked? (hr : Reordered h h') :
    h.filterMap Observed.worked? = h'.filterMap Observed.worked? := by
  induction hr with
  | nil => rfl
  | snoc a _ ih => rw [List.filterMap_append, List.filterMap_append, ih]
  | @released h h' block block' p _ hgives hblock ih =>
      have hnone : block.filterMap Observed.worked? = [] :=
        List.filterMap_eq_nil_iff.mpr fun a ha => (hgives a ha).not_work
      have hnone' : block'.filterMap Observed.worked? = [] :=
        List.filterMap_eq_nil_iff.mpr fun a ha => (hgives a (hblock.mem_iff.mpr ha)).not_work
      rw [List.filterMap_append, List.filterMap_append, List.filterMap_cons, List.filterMap_cons,
        hnone, hnone', ih]

end Reordered

variable {κ η ς τ ω : Type}

namespace Dispatch

/-- The states of watched storage. -/
abbrev Watched (κ η ς τ ω : Type) : Type := Recorded (Observed (Storage κ η ς τ) ω η) η

/-- The passes that did their work, in order. -/
def ran (t : Watched κ η ς τ ω) : List PassId := t.actions.filterMap Observed.worked?

/-- How a run by one worker compares with a sequential run, when the given passes did their work. -/
structure Simulates [DecidableEq κ] (passes : List PassId) (t u : Watched κ η ς τ ω) : Prop where
  /-- Both made the same calls, except for the order in which storage was given up after the work
  of a pass. -/
  calls : Reordered t.actions u.actions
  /-- The same passes did their work, in the same order. -/
  ran : ran t = passes ∧ ran u = passes
  stats : t.host.host.stats = u.host.host.stats
  /-- As many instances wait under each key. -/
  available : ∀ key, t.host.host.pool.available key = u.host.host.pool.available key

variable [DecidableEq κ]

/-- What two runs have in common while they go on: on top of what is to be shown, storage has the
same profile. -/
structure Akin (passes : List PassId) (t u : Watched κ η ς τ ω) : Prop where
  calls : Reordered t.actions u.actions
  ran : ran t = passes
  profile : t.host.host.profile = u.host.host.profile

namespace Akin

variable {passes : List PassId} {t u : Watched κ η ς τ ω}

theorem simulates (h : Akin passes t u) : Simulates passes t u where
  calls := h.calls
  ran := ⟨h.ran, h.calls.filterMap_worked?.symm.trans h.ran⟩
  stats := congrArg Profile.stats h.profile
  available key := congrFun (congrArg Profile.available h.profile) key

/-- Both runs made one more call, which was no work. -/
theorem snoc {t' u' : Watched κ η ς τ ω} {a : Action} (h : Akin passes t u)
    (ha : Observed.worked? a = none) (ht : t'.actions = t.actions ++ [a])
    (hu : u'.actions = u.actions ++ [a]) (hprofile : t'.host.host.profile = u'.host.host.profile) :
    Akin passes t' u' where
  calls := by
    rw [ht, hu]
    exact h.calls.snoc a
  ran := by
    have hnone : [a].filterMap Observed.worked? = [] := by simp [ha]
    rw [Dispatch.ran, ht, List.filterMap_append, hnone, List.append_nil]
    exact h.ran
  profile := hprofile

/-- In both runs a pass did its work, and storage was given up, in whatever order. -/
theorem released {t' u' : Watched κ η ς τ ω} {p : PassId} {block block' : List Action}
    (h : Akin passes t u) (hgives : ∀ a ∈ block, a.GivesUp) (hblock : block.Perm block')
    (ht : t'.actions = t.actions ++ .work p :: block)
    (hu : u'.actions = u.actions ++ .work p :: block')
    (hprofile : t'.host.host.profile = u'.host.host.profile) :
    Akin (passes ++ [p]) t' u' where
  calls := by
    rw [ht, hu]
    exact h.calls.released p hgives hblock
  ran := by
    have hnone : block.filterMap Observed.worked? = [] :=
      List.filterMap_eq_nil_iff.mpr fun a ha => (hgives a ha).not_work
    have hwork : (Action.work p :: block).filterMap Observed.worked? = [p] := by
      rw [List.filterMap_cons, hnone]
      rfl
    rw [Dispatch.ran, ht, List.filterMap_append, hwork]
    exact congrArg (· ++ [p]) h.ran
  profile := hprofile

end Akin

/-! ### Calls to storage -/

section Calls

variable {frame : Frame} {plan : Plan} {allocate : κ → EStateM StorageError τ η}
  {work : PassId → Pass → IdMap .resource η → EStateM WorkFault ω Unit} {passes : List PassId}
  {t u : Watched κ η ς τ ω}

/-- A call that ends alike on pooled storage ends alike on watched storage. -/
theorem alike_call {α : Type} {call : Call η} {act : EStateM StorageFault (Storage κ η ς τ) α}
    (h : Akin passes t u) (hcall : Observed.worked? call.action = none)
    (hact : Alike act act t.host.host u.host.host (fun x y => x.profile = y.profile)
      fun x y => x.profile = y.profile) :
    Alike (Recorded.storageCall Recorded.noTrips call (Observed.withHost act))
      (Recorded.storageCall Recorded.noTrips call (Observed.withHost act)) t u (Akin passes)
      (Akin passes) := by
  apply Recorded.alike_storageCall
  apply Observed.alike_withHost
  apply hact.mono
  · intro x y hprofile
    exact h.snoc hcall (Recorded.actions_push rfl ..) (Recorded.actions_push rfl ..) hprofile
  · intro x y hprofile
    exact h.snoc hcall (Recorded.actions_push rfl ..) (Recorded.actions_push rfl ..) hprofile

variable [DecidableEq ς]

theorem alike_construct {r : ResourceId} (h : Akin passes t u) :
    Alike ((watched frame allocate work).construct r) ((watched frame allocate work).construct r)
      t u (Akin passes) (Akin passes) :=
  alike_call h rfl (Alike.adaptExcept (Storage.construct_mirrors.alike h.profile))

theorem alike_move {m : Move} (h : Akin passes t u) :
    Alike ((watched frame allocate work).move m) ((watched frame allocate work).move m)
      t u (Akin passes) (Akin passes) :=
  alike_call h rfl (Alike.adaptExcept (Storage.move_mirrors.alike h.profile))

theorem alike_destruct {r : ResourceId} (h : Akin passes t u) :
    Alike ((watched frame allocate work).destruct r) ((watched frame allocate work).destruct r)
      t u (Akin passes) (Akin passes) :=
  alike_call h rfl (Alike.adaptExcept (Storage.destruct_mirrors.alike h.profile))

theorem alike_request {p : PassId} (h : Akin passes t u) :
    Alike ((watched frame allocate work).request p) ((watched frame allocate work).request p)
      t u (Akin passes) (Akin passes) :=
  alike_call h rfl (Alike.adaptExcept (Storage.request_mirrors.alike h.profile))

theorem alike_constructAll {rs : List ResourceId} (h : Akin passes t u) :
    Alike ((watched frame allocate work).constructAll rs)
      ((watched frame allocate work).constructAll rs) t u (Akin passes) (Akin passes) :=
  Alike.forM (fun _ _ _ _ h => Alike.adaptExcept (alike_construct h)) h

/-- What comes before any pass. -/
theorem alike_prologue {events : Events} (h : Akin passes t u) :
    Alike ((watched frame allocate work).applyPrologue events)
      ((watched frame allocate work).applyPrologue events) t u (Akin passes) (Akin passes) := by
  apply Alike.bind (alike_constructAll h)
  intro _ _ t u h
  apply Alike.bind (Alike.forM (fun _ _ _ _ h => Alike.adaptExcept (alike_move h)) h)
  intro _ _ t u h
  exact Alike.forM (fun _ _ _ _ h => Alike.adaptExcept (alike_destruct h)) h

theorem alike_openPass {rs : List ResourceId} {p : PassId} (h : Akin passes t u) :
    Alike ((watched frame allocate work).openPass rs p)
      ((watched frame allocate work).openPass rs p) t u (Akin passes) (Akin passes) := by
  apply Alike.bind (alike_constructAll h)
  exact fun _ _ _ _ h => Alike.adaptExcept (alike_request h)

/-! ### Giving up storage -/

/-- Storage that is given up legally is given up. -/
theorem ends_giveUp {a₀ : Account κ η ς τ} {L : Ledger η} {a : Action}
    (h : Follows frame allocate a₀ L t.host.host.account) (hf : plan.Fits frame)
    (ha : a.GivesUp) (hp : Permits frame L.history a) (hm : a ∈ plan.script) :
    Ends ((watched frame allocate work).giveUp a) t
      (fun _ u => Follows frame allocate a₀ (L.add [a]) u.host.host.account ∧
        u.host.host.profile = t.host.host.profile.giveUp a ∧ u.actions = t.actions ++ [a])
      fun _ _ => False := by
  rcases ha with ⟨m, rfl⟩ | ⟨r, rfl⟩
  · apply Ends.adaptExcept
    apply Recorded.ends_storageCall
    apply Observed.ends_withHost
    apply Ends.adaptExcept
    apply (h.ends_move hf hp hm).mono _ fun _ _ hstop => hstop
    rintro _ x ⟨hfollows, hprofile⟩
    exact ⟨hfollows, hprofile, Recorded.actions_push rfl ..⟩
  · apply Ends.adaptExcept
    apply Recorded.ends_storageCall
    apply Observed.ends_withHost
    apply Ends.adaptExcept
    apply (h.ends_destruct hf hp hm).mono _ fun _ _ hstop => hstop
    rintro _ x ⟨hfollows, hprofile⟩
    exact ⟨hfollows, hprofile, Recorded.actions_push rfl ..⟩

/-- So is what several resources hold. -/
theorem ends_releases {a₀ : Account κ η ς τ} {L : Ledger η} {releases : List Events}
    (h : Follows frame allocate a₀ L t.host.host.account) (hf : plan.Fits frame)
    (hgives : ∀ a ∈ releases.flatMap Events.after, a.GivesUp)
    (hlegal : LegalFrom frame L.history (releases.flatMap Events.after))
    (hscript : ∀ a ∈ releases.flatMap Events.after, a ∈ plan.script) :
    Ends (releases.forM (watched frame allocate work).releaseAll) t
      (fun _ u => u.host.host.profile =
          (releases.flatMap Events.after).foldl Profile.giveUp t.host.host.profile ∧
        u.actions = t.actions ++ releases.flatMap Events.after) fun _ _ => False := by
  rw [Host.forM_releaseAll]
  apply (Ends.forM (I := fun pre u => Follows frame allocate a₀ (L.add pre) u.host.host.account ∧
    u.host.host.profile = pre.foldl Profile.giveUp t.host.host.profile ∧
    u.actions = t.actions ++ pre) _ _).mono _ fun _ _ hstop => hstop
  · rintro pre a post u hsplit ⟨hfollows, hprofile, hactions⟩
    have ha : a ∈ releases.flatMap Events.after := by simp [hsplit]
    have hpermit := legalFrom_iff.mp hlegal pre a post hsplit
    apply (ends_giveUp hfollows hf (hgives a ha) hpermit (hscript a ha)).mono _
      fun _ _ hstop => hstop
    rintro _ v ⟨hfollows', hprofile', hactions'⟩
    rw [Ledger.add_add] at hfollows'
    rw [hprofile] at hprofile'
    rw [hactions, List.append_assoc] at hactions'
    exact ⟨hfollows', by rw [hprofile', List.foldl_append]; rfl, hactions'⟩
  · rw [Ledger.add_nil, List.append_nil]
    exact ⟨h, rfl, rfl⟩
  · exact fun _ u hu => hu.2

/-! ### The work of passes -/

/-- Each pass succeeds, or fails with a text, whatever handles it gets and whatever other passes
did. -/
structure Decided (work : PassId → Pass → IdMap .resource η → EStateM WorkFault ω Unit)
    (verdict : PassId → Option String) : Prop where
  succeeds : ∀ {p} pass handles own, verdict p = none →
    ∃ own', work p pass handles own = .ok () own'
  fails : ∀ {p text} pass handles own, verdict p = some text →
    ∃ own', work p pass handles own = .error (.failed text) own'

/-- A pass did its work, well or not, which left storage as it was. -/
structure Worked (p : PassId) (t u : Watched κ η ς τ ω) : Prop where
  account : u.host.host.account = t.host.host.account
  profile : u.host.host.profile = t.host.host.profile
  actions : u.actions = t.actions ++ [.work p]

variable {verdict : PassId → Option String} {p : PassId} {pass : Pass}
  {handles : IdMap .resource η} {onPanic : String → EStateM RunError (Watched κ η ς τ ω) Unit}

/-- The work of a pass ends as decided. -/
theorem Decided.ends_work (h : Decided work verdict) :
    Ends ((watched (ς := ς) frame allocate work).work p pass handles) t
      (fun _ u => verdict p = none ∧ Worked p t u)
      fun fault u => ∃ text, verdict p = some text ∧ fault = .failed text ∧ Worked p t u := by
  apply Recorded.ends_withHost
  apply Ends.bind
  apply ends_modify
  apply Ends.bind
  apply Observed.ends_withHost
  apply Ends.pure
  apply Observed.ends_withOwn
  cases hverdict : verdict p with
  | none =>
      obtain ⟨own', hown⟩ := h.succeeds pass handles t.host.own hverdict
      exact Ends.of_ok hown ⟨rfl, rfl, rfl, Recorded.actions_push rfl ..⟩
  | some text =>
      obtain ⟨own', hown⟩ := h.fails pass handles t.host.own hverdict
      exact Ends.of_error hown ⟨text, rfl, rfl, rfl, rfl, Recorded.actions_push rfl ..⟩

/-- A run that lets the pass do its work goes on, or stops with the failure. -/
theorem Decided.ends_doWork (h : Decided work verdict) :
    Ends (Run.doWork (watched frame allocate work) onPanic p pass handles) t
      (fun _ u => verdict p = none ∧ Worked p t u)
      fun e u => ∃ text, verdict p = some text ∧ e = .passFailed p pass.name text ∧
        Worked p t u := by
  have hwork : Ends ((watched frame allocate work).work p pass handles) t _ _ := h.ends_work
  cases hresult : (watched frame allocate work).work p pass handles t with
  | ok _ u =>
      exact Ends.of_ok (a := ()) (by rw [Run.doWork, hresult]) (hwork.ok hresult)
  | error fault u =>
      obtain ⟨text, hverdict, rfl, hworked⟩ := hwork.error hresult
      have hlogged : ∀ note, Worked p t ((watched frame allocate work).log note u) :=
        fun _ => ⟨hworked.account, hworked.profile, hworked.actions⟩
      exact Ends.of_error (by rw [Run.doWork, hresult]) ⟨text, hverdict, rfl, hlogged _⟩

/-! ### Closing a pass -/

/-- The pass can be closed: what is to be given up ripens with it, and is given up legally. -/
structure Closes (frame : Frame) (plan : Plan) (allocate : κ → EStateM StorageError τ η)
    (a₀ : Account κ η ς τ) (done : List PassId) (p : PassId) (releases : List Events)
    (t : Watched κ η ς τ ω) : Prop where
  ripe : Releases frame plan.moves (Plan.Ripens frame done p) (releases.flatMap Events.after)
  legal : ∃ L : Ledger η, Follows frame allocate a₀ L t.host.host.account ∧
    LegalFrom frame L.history (.work p :: releases.flatMap Events.after)
  script : ∀ a ∈ releases.flatMap Events.after, a ∈ plan.script

variable {a₀ b₀ : Account κ η ς τ} {done : List PassId} {releases releases' : List Events}

/-- All that ripens is given up after the work of the pass, and nothing after a failure. -/
theorem Closes.ends (h : Closes frame plan allocate a₀ done p releases t) (hf : plan.Fits frame)
    (hdecided : Decided work verdict) :
    Ends ((watched frame allocate work).closePass onPanic p pass releases handles) t
      (fun _ u => verdict p = none ∧ u.host.host.profile =
          (releases.flatMap Events.after).foldl Profile.giveUp t.host.host.profile ∧
        u.actions = t.actions ++ .work p :: releases.flatMap Events.after)
      fun e u => ∃ text, verdict p = some text ∧ e = .passFailed p pass.name text ∧
        Worked p t u := by
  obtain ⟨L, hfollows, hpermit, hlegal⟩ := h.legal
  apply Ends.bind
  apply hdecided.ends_doWork.mono _ fun _ _ hstop => hstop
  rintro _ v ⟨hverdict, hworked⟩
  have hnext : Follows frame allocate a₀ (L.add [.work p]) v.host.host.account := by
    rw [hworked.account]
    exact (follows_kept hf).work hfollows hpermit
  apply (ends_releases hnext hf h.ripe.gives_up hlegal h.script).mono _ fun _ _ hstop => hstop.elim
  rintro _ u ⟨hprofile, hactions⟩
  rw [hworked.profile] at hprofile
  rw [hworked.actions, List.append_assoc] at hactions
  exact ⟨hverdict, hprofile, hactions⟩

/-- **A pass is closed alike** wherever what is given up is read off: storage has the same profile
whatever the order in which it is given up. -/
theorem alike_closePass {handles' : IdMap .resource η}
    {onPanic' : String → EStateM RunError (Watched κ η ς τ ω) Unit} (h : Akin passes t u)
    (hf : plan.Fits frame) (hp : p ∈ plan.order) (hdecided : Decided work verdict)
    (ht : Closes frame plan allocate a₀ done p releases t)
    (hu : Closes frame plan allocate b₀ done p releases' u) :
    Alike ((watched frame allocate work).closePass onPanic p pass releases handles)
      ((watched frame allocate work).closePass onPanic' p pass releases' handles') t u
      (Akin (passes ++ [p])) (Akin (passes ++ [p])) := by
  have hswaps := hf.swaps_releases hp ht.ripe hu.ripe
  apply Alike.of_ends (ht.ends hf hdecided) (hu.ends hf hdecided)
  · rintro t' u' ⟨_, htprofile, htactions⟩ ⟨_, huprofile, huactions⟩
    apply h.released ht.ripe.gives_up hswaps.perm htactions huactions
    rw [htprofile, huprofile, h.profile]
    exact Profile.foldl_giveUp hswaps ht.ripe.gives_up _
  · rintro e e' t' u' ⟨text, hverdict, rfl, htworked⟩ ⟨text', hverdict', rfl, huworked⟩
    cases hverdict.symm.trans hverdict'
    refine ⟨rfl, h.released (fun a ha => absurd ha List.not_mem_nil) .nil htworked.actions
      huworked.actions ?_⟩
    rw [htworked.profile, huworked.profile, h.profile]
  · rintro t' e u' ⟨hverdict, _⟩ ⟨text, hverdict', _⟩
    cases hverdict.symm.trans hverdict'
  · rintro e t' u' ⟨text, hverdict, _⟩ ⟨hverdict', _⟩
    cases hverdict.symm.trans hverdict'

end Calls

end Dispatch

end FramePlan
