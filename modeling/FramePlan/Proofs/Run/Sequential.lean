import FramePlan.Proofs.Outcome
import FramePlan.Proofs.Plan.Script
import FramePlan.Run.Sequential

/-!
# Runs keep what their calls keep

A `Ledger` is what the calls of a run add up to. A host keeps a relation between ledgers and its
states when each single call does, made when it is legal; then a whole run of a plan keeps it, as
the run makes legal calls only.

* `Host.Keeps` — the obligations, one for each kind of call.
* `Host.Keeps.sequential` — a sequential run acts out the script of its plan.
-/

namespace FramePlan

open History

variable {σ η : Type}

/-- No run refuses a plan of the frame for the number of its passes. -/
theorem Plan.Fits.checkPassCount_eq {frame : Frame} {plan : Plan} (hf : plan.Fits frame) :
    (Run.checkPassCount frame plan : EStateM RunError σ Unit) = pure () :=
  if_pos hf.passCount_eq

/-- The actions of a run so far, and the handles that its passes got. -/
structure Ledger (η : Type) where
  history : List Action
  grants : List (PassId × IdMap .resource η)

namespace Ledger

/-- Nothing was done. -/
def empty : Ledger η := ⟨[], []⟩

/-- Some more actions were done, none of them a request. -/
def add (L : Ledger η) (block : List Action) : Ledger η := { L with history := L.history ++ block }

/-- A pass got its handles. -/
def grant (L : Ledger η) (p : PassId) (handles : IdMap .resource η) : Ledger η :=
  ⟨L.history ++ [.request p], L.grants ++ [(p, handles)]⟩

theorem add_nil (L : Ledger η) : L.add [] = L := by
  unfold add
  rw [List.append_nil]

theorem add_add (L : Ledger η) (block rest : List Action) :
    (L.add block).add rest = L.add (block ++ rest) := by
  unfold add
  rw [List.append_assoc]

end Ledger

/-- Each call of a run of the plan, made when it is legal, keeps a relation between the ledger and
the state of the host, or it does not return; the latter only if the run may stop. -/
structure Host.Keeps (host : Host σ η) (frame : Frame) (plan : Plan) (I : Ledger η → σ → Prop)
    (stops : Prop) : Prop where
  log : ∀ {L s} note, I L s → I L (host.log note s)
  construct : ∀ {L s r}, I L s → Permits frame L.history (.construct r) →
    .construct r ∈ plan.script →
    Ends (host.construct r) s (fun _ t => I (L.add [.construct r]) t) fun _ _ => stops
  move : ∀ {L s m}, I L s → Permits frame L.history (.move m) → .move m ∈ plan.script →
    Ends (host.move m) s (fun _ t => I (L.add [.move m]) t) fun _ _ => stops
  destruct : ∀ {L s r}, I L s → Permits frame L.history (.destruct r) →
    .destruct r ∈ plan.script →
    Ends (host.destruct r) s (fun _ t => I (L.add [.destruct r]) t) fun _ _ => stops
  request : ∀ {L s p}, I L s → Permits frame L.history (.request p) →
    .request p ∈ plan.script →
    Ends (host.request p) s (fun handles t => I (L.grant p handles) t) fun _ _ => stops
  work : ∀ {L s p pass handles}, I L s → Permits frame L.history (.work p) →
    .work p ∈ plan.script → frame.pass? p = some pass → (p, handles) ∈ L.grants →
    Ends (host.work p pass handles) s (fun _ t => I (L.add [.work p]) t) fun _ _ => stops

namespace Host.Keeps

variable {host : Host σ η} {frame : Frame} {plan : Plan} {I J : Ledger η → σ → Prop}
  {stops : Prop} {L : Ledger η} {s : σ}

/-- Two relations are kept together. -/
theorem and {stops' : Prop} (h : host.Keeps frame plan I stops)
    (h' : host.Keeps frame plan J stops') :
    host.Keeps frame plan (fun L s => I L s ∧ J L s) (stops ∧ stops') where
  log note hs := ⟨h.log note hs.1, h'.log note hs.2⟩
  construct hs hp hm := (h.construct hs.1 hp hm).and (h'.construct hs.2 hp hm)
  move hs hp hm := (h.move hs.1 hp hm).and (h'.move hs.2 hp hm)
  destruct hs hp hm := (h.destruct hs.1 hp hm).and (h'.destruct hs.2 hp hm)
  request hs hp hm := (h.request hs.1 hp hm).and (h'.request hs.2 hp hm)
  work hs hp hm hpass hg := (h.work hs.1 hp hm hpass hg).and (h'.work hs.2 hp hm hpass hg)

/-! ### Loops over calls -/

/-- A loop of calls of one kind keeps what each of them keeps. -/
theorem forM {α : Type} {action : α → Action} {act : α → EStateM RunError σ Unit} {xs : List α}
    (hact : ∀ {L s x}, I L s → Permits frame L.history (action x) → action x ∈ plan.script →
      Ends (act x) s (fun _ t => I (L.add [action x]) t) fun _ _ => stops)
    (hs : I L s) (hlegal : LegalFrom frame L.history (xs.map action))
    (hscript : ∀ a ∈ xs.map action, a ∈ plan.script) :
    Ends (xs.forM act) s (fun _ t => I (L.add (xs.map action)) t) fun _ _ => stops := by
  induction xs generalizing L s with
  | nil =>
      refine Ends.pure ?_
      rw [List.map_nil, Ledger.add_nil]
      exact hs
  | cons x xs ih =>
      obtain ⟨hpermit, hrest⟩ := hlegal
      refine Ends.bind ((hact hs hpermit (hscript _ (by simp))).mono (fun _ t ht => ?_)
        fun _ _ hstop => hstop)
      have hloop := ih ht hrest fun a ha => hscript a (List.mem_cons_of_mem _ ha)
      rw [Ledger.add_add] at hloop
      exact hloop

theorem constructAll (h : host.Keeps frame plan I stops) {rs : List ResourceId} (hs : I L s)
    (hlegal : LegalFrom frame L.history (rs.map .construct))
    (hscript : ∀ a ∈ rs.map Action.construct, a ∈ plan.script) :
    Ends (host.constructAll rs) s (fun _ t => I (L.add (rs.map .construct)) t)
      fun _ _ => stops :=
  forM (fun hs hp hm => Ends.adaptExcept (h.construct hs hp hm)) hs hlegal hscript

theorem moveAll (h : host.Keeps frame plan I stops) {ms : List Move} (hs : I L s)
    (hlegal : LegalFrom frame L.history (ms.map .move))
    (hscript : ∀ a ∈ ms.map Action.move, a ∈ plan.script) :
    Ends (host.moveAll ms) s (fun _ t => I (L.add (ms.map .move)) t) fun _ _ => stops :=
  forM (fun hs hp hm => Ends.adaptExcept (h.move hs hp hm)) hs hlegal hscript

theorem destructAll (h : host.Keeps frame plan I stops) {rs : List ResourceId} (hs : I L s)
    (hlegal : LegalFrom frame L.history (rs.map .destruct))
    (hscript : ∀ a ∈ rs.map Action.destruct, a ∈ plan.script) :
    Ends (host.destructAll rs) s (fun _ t => I (L.add (rs.map .destruct)) t) fun _ _ => stops :=
  forM (fun hs hp hm => Ends.adaptExcept (h.destruct hs hp hm)) hs hlegal hscript

/-- The events that give up storage. -/
theorem releaseAll (h : host.Keeps frame plan I stops) {events : Events} (hs : I L s)
    (hlegal : LegalFrom frame L.history events.after)
    (hscript : ∀ a ∈ events.after, a ∈ plan.script) :
    Ends (host.moveAll events.moves >>= fun _ => host.destructAll events.destructs) s
      (fun _ t => I (L.add events.after) t) fun _ _ => stops := by
  obtain ⟨hmoves, hdestructs⟩ := legalFrom_append.mp hlegal
  have hmoveAll := h.moveAll hs hmoves fun a ha => hscript a (List.mem_append_left _ ha)
  refine Ends.bind (hmoveAll.mono (fun _ t ht => ?_) fun _ _ hstop => hstop)
  have hdestructAll := h.destructAll ht hdestructs fun a ha =>
    hscript a (List.mem_append_right _ ha)
  rw [Ledger.add_add] at hdestructAll
  exact hdestructAll

theorem applyPrologue (h : host.Keeps frame plan I stops) {events : Events} (hs : I L s)
    (hlegal : LegalFrom frame L.history (events.before ++ events.after))
    (hscript : ∀ a ∈ events.before ++ events.after, a ∈ plan.script) :
    Ends (host.applyPrologue events) s (fun _ t => I (L.add (events.before ++ events.after)) t)
      fun _ _ => stops := by
  obtain ⟨hbefore, hafter⟩ := legalFrom_append.mp hlegal
  have hconstructAll := h.constructAll hs hbefore fun a ha =>
    hscript a (List.mem_append_left _ ha)
  refine Ends.bind (hconstructAll.mono (fun _ t ht => ?_) fun _ _ hstop => hstop)
  have hreleaseAll := h.releaseAll ht hafter fun a ha => hscript a (List.mem_append_right _ ha)
  rw [Ledger.add_add] at hreleaseAll
  exact hreleaseAll

/-- What comes before any pass. -/
theorem prologue (h : host.Keeps frame plan I stops) (hf : plan.Fits frame)
    (hs : I Ledger.empty s) :
    Ends (host.applyPrologue plan.prologue) s
      (fun _ t => I ⟨plan.prologue.before ++ plan.prologue.after, []⟩ t) fun _ _ => stops := by
  have hlegal : LegalFrom frame [] (plan.prologue.before ++ plan.prologue.after) :=
    (legal_append.mp hf.legal_script.1).1
  exact h.applyPrologue hs hlegal fun a ha => List.mem_append_left _ ha

/-- The work of a pass, whatever is done about a panic as long as it does not return. -/
theorem doWork (h : host.Keeps frame plan I stops) {onPanic : String → EStateM RunError σ Unit}
    {p : PassId} {pass : Pass} {handles : IdMap .resource η}
    (hpanic : ∀ text s, ∃ e t, onPanic text s = .error e t) (hs : I L s)
    (hpermit : Permits frame L.history (.work p)) (hscript : .work p ∈ plan.script)
    (hpass : frame.pass? p = some pass) (hgrant : (p, handles) ∈ L.grants) :
    Ends (Run.doWork host onPanic p pass handles) s (fun _ t => I (L.add [.work p]) t)
      fun _ _ => stops := by
  have hwork := h.work hs hpermit hscript hpass hgrant
  unfold Ends Run.doWork
  cases hresult : host.work p pass handles s with
  | ok _ t => exact hwork.ok hresult
  | error fault t =>
      cases fault with
      | failed text => exact hwork.error hresult
      | panicked text =>
          obtain ⟨e, u, hu⟩ := hpanic text t
          simp only [hu]
          exact hwork.error hresult

/-! ### Sequential runs -/

theorem lookUpPass {p : PassId} {pass : Pass} (hpass : frame.pass? p = some pass)
    {returned : Pass → σ → Prop} {stopped : RunError → σ → Prop} (hs : returned pass s) :
    Ends (Run.lookUpPass frame p) s returned stopped := by
  unfold Run.lookUpPass
  rw [hpass]
  exact Ends.pure hs

theorem runPass (h : host.Keeps frame plan I stops) {scheduled : ScheduledPass} (hs : I L s)
    (hpass : ∃ pass, frame.pass? scheduled.pass = some pass)
    (hlegal : LegalFrom frame L.history scheduled.script)
    (hscript : ∀ a ∈ scheduled.script, a ∈ plan.script) :
    Ends (Run.runPass host frame scheduled) s
      (fun _ t => ∃ grants, I ⟨L.history ++ scheduled.script, grants⟩ t) fun _ _ => stops := by
  obtain ⟨pass, hpass⟩ := hpass
  obtain ⟨p, events⟩ := scheduled
  unfold ScheduledPass.script at hlegal hscript ⊢
  simp only at hlegal hscript hpass ⊢
  obtain ⟨hbegin, hafter⟩ := legalFrom_append.mp hlegal
  obtain ⟨hbefore, hrequest, hwork, _⟩ := legalFrom_append.mp hbegin
  refine Ends.bind (lookUpPass hpass ?_)
  have hconstructAll := h.constructAll hs hbefore fun a ha =>
    hscript a (List.mem_append_left _ (List.mem_append_left _ ha))
  refine Ends.bind (hconstructAll.mono (fun _ t ht => ?_) fun _ _ hstop => hstop)
  have hgrant := h.request ht hrequest (hscript _ (by simp))
  refine Ends.bind (Ends.adaptExcept (hgrant.mono (fun handles u hu => ?_)
    fun _ _ hstop => hstop))
  have hdone := h.doWork (fun text v => ⟨.panicked text, v, rfl⟩) hu hwork (hscript _ (by simp))
    hpass (List.mem_append_right _ (List.mem_singleton.mpr rfl))
  refine Ends.bind (hdone.mono (fun _ v hv => ?_) fun _ _ hstop => hstop)
  have hworked : ((L.add events.before).grant p handles).add [.work p] =
      ⟨L.history ++ (events.before ++ [.request p, .work p]), L.grants ++ [(p, handles)]⟩ := by
    simp [Ledger.add, Ledger.grant]
  have hreleaseAll := h.releaseAll (hworked ▸ hv) hafter fun a ha =>
    hscript a (List.mem_append_right _ ha)
  refine hreleaseAll.mono (fun _ w hw => ⟨L.grants ++ [(p, handles)], ?_⟩) fun _ _ hstop => hstop
  unfold Ledger.add at hw
  rw [List.append_assoc] at hw
  exact hw

/-- **A sequential run acts out the script of its plan.** -/
theorem sequential (h : host.Keeps frame plan I stops) (hf : plan.Fits frame)
    (hs : I Ledger.empty s) :
    Ends (Run.sequential host frame plan) s (fun _ t => ∃ grants, I ⟨plan.script, grants⟩ t)
      fun _ _ => stops := by
  have hlegal := hf.legal_script.1
  unfold Run.sequential
  rw [hf.checkPassCount_eq, pure_bind]
  refine Ends.bind (ends_modify ?_)
  refine Ends.bind ((h.prologue hf (h.log _ hs)).mono (fun _ t ht => ?_) fun _ _ hstop => hstop)
  refine (Ends.forM (I := fun pre t => ∃ grants, I ⟨plan.prologue.before ++ plan.prologue.after ++
    pre.flatMap ScheduledPass.script, grants⟩ t) (fun pre scheduled post t hsplit hpre => ?_)
    ⟨_, by simpa using ht⟩).mono (fun _ t ht => ht) fun _ _ hstop => hstop
  obtain ⟨grants, hgrants⟩ := hpre
  have hscript : plan.script = (plan.prologue.before ++ plan.prologue.after ++
      pre.flatMap ScheduledPass.script) ++ (scheduled.script ++
        post.flatMap ScheduledPass.script) := by
    unfold Plan.script
    rw [hsplit]
    simp
  rw [hscript] at hlegal
  have hpass := (legalFrom_append.mp (legal_append.mp hlegal).2).1
  have horder : scheduled.pass ∈ plan.order := by
    unfold Plan.order
    rw [hsplit]
    simp
  have hrun := h.runPass hgrants (hf.mem_order_iff_pass?.mp horder) hpass fun a ha =>
    hscript ▸ List.mem_append_right _ (List.mem_append_left _ ha)
  refine hrun.mono (fun _ u hu => ?_) fun _ _ hstop => hstop
  simpa using hu

end Host.Keeps

end FramePlan
