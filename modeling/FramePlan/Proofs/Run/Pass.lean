import FramePlan.Proofs.Run.Dispatch
import FramePlan.Proofs.Run.Sequential

/-!
# The calls of one pass

Both kinds of runs make the same kinds of calls around a pass: they open it, which gives its
resources their storage and the pass its handles, and close it, which lets the pass do its work and
gives up the storage that no pass uses any more. They differ in where they read off which resources
these are. Whatever the passes that run at the same time, the calls are legal.

* `Host.Keeps.openPass`, `Host.Keeps.closePass` — a host keeps what each single call keeps.
-/

namespace FramePlan

open History

variable {σ η : Type}

namespace Host

/-- Gives resources their storage, and a pass its handles. -/
def openPass (host : Host σ η) (constructs : List ResourceId) (p : PassId) :
    EStateM RunError σ (IdMap .resource η) := do
  host.constructAll constructs
  (host.request p).adaptExcept .ofFault

/-- Lets a pass do its work, and gives up storage. -/
def closePass (host : Host σ η) (onPanic : String → EStateM RunError σ Unit) (p : PassId)
    (pass : Pass) (releases : List Events) (handles : IdMap .resource η) :
    EStateM RunError σ Unit := do
  Run.doWork host onPanic p pass handles
  releases.forM host.releaseAll

namespace Keeps

variable {host : Host σ η} {frame : Frame} {plan : Plan} {I : Ledger η → σ → Prop} {stops : Prop}
  {L : Ledger η} {s : σ} {begun done : List PassId} {p : PassId} {pass : Pass}

/-- **The calls that open a pass** are legal if its predecessors are complete, and the resources are
those that no pass used before. -/
theorem openPass {rs : List ResourceId} (h : host.Keeps frame plan I stops) (hf : plan.Fits frame)
    (hs : I L s) (hlegal : Legal frame L.history) (hc : plan.Covers frame begun done L.history)
    (hrs : rs.Nodup)
    (hmem : ∀ r, r ∈ rs ↔ plan.moves.backward.get? r = none ∧ frame.Touches p r ∧
      ∀ q ∈ begun, ¬ frame.Touches q r)
    (horder : ∀ q ∈ begun ++ [p], q ∈ plan.order) (hdoneOrder : ∀ q ∈ done, q ∈ plan.order)
    (hbegun : p ∉ begun) (hdone : p ∉ done) (hpreds : ∀ a, plan.graph.Precedes a p → a ∈ done) :
    Ends (host.openPass rs p) s
      (fun handles t => ∃ L' : Ledger η, Legal frame L'.history ∧
        plan.Covers frame (begun ++ [p]) done L'.history ∧
        L'.grants = L.grants ++ [(p, handles)] ∧ I L' t) fun _ _ => stops := by
  obtain ⟨hblock, hcovers⟩ := hf.legal_begin hc hrs hmem hbegun hdone hpreds
  have hscript : ∀ a ∈ rs.map Action.construct ++ [.request p], a ∈ plan.script := by
    intro a ha
    exact Plan.Fits.mem_of_covers hcovers hf.legal_script.2 horder hdoneOrder
      (List.mem_append_right _ ha)
  obtain ⟨hconstructs, hrequest, _⟩ := legalFrom_append.mp hblock
  apply Ends.bind
  apply (h.constructAll hs hconstructs fun a ha =>
    hscript a (List.mem_append_left _ ha)).mono _ fun _ _ hstop => hstop
  intro _ t ht
  apply Ends.adaptExcept
  apply (h.request ht hrequest (hscript _ (by simp))).mono _ fun _ _ hstop => hstop
  intro handles u hu
  have hall := hlegal.append hblock
  rw [← List.append_assoc] at hall hcovers
  exact ⟨_, hall, hcovers, rfl, hu⟩

/-- A loop over releases keeps what each call keeps. -/
theorem releaseEach (h : host.Keeps frame plan I stops) {releases : List Events} {s : σ}
    (hs : I L s) (hlegal : LegalFrom frame L.history (releases.flatMap Events.after))
    (hscript : ∀ a ∈ releases.flatMap Events.after, a ∈ plan.script) :
    Ends (releases.forM host.releaseAll) s
      (fun _ t => I (L.add (releases.flatMap Events.after)) t) fun _ _ => stops := by
  induction releases generalizing L s with
  | nil =>
      apply Ends.pure
      rw [List.flatMap_nil, Ledger.add_nil]
      exact hs
  | cons events releases ih =>
      rw [List.flatMap_cons] at hlegal hscript ⊢
      obtain ⟨hfirst, hrest⟩ := legalFrom_append.mp hlegal
      apply Ends.bind
      apply (h.releaseAll hs hfirst fun a ha =>
        hscript a (List.mem_append_left _ ha)).mono _ fun _ _ hstop => hstop
      intro _ t ht
      have hloop := ih ht hrest fun a ha => hscript a (List.mem_append_right _ ha)
      rw [Ledger.add_add] at hloop
      exact hloop

/-- **The calls that close a pass** are legal if what gives up its storage is what ripens with
the pass. -/
theorem closePass {releases : List Events} {handles : IdMap .resource η}
    {onPanic : String → EStateM RunError σ Unit} (h : host.Keeps frame plan I stops)
    (hf : plan.Fits frame) (hpanic : ∀ text s, ∃ e t, onPanic text s = .error e t) (hs : I L s)
    (hlegal : Legal frame L.history) (hc : plan.Covers frame begun done L.history)
    (hblock : Releases frame plan.moves (Plan.Ripens frame done p)
      (releases.flatMap Events.after))
    (hpass : frame.pass? p = some pass) (hgrant : (p, handles) ∈ L.grants)
    (horder : ∀ q ∈ begun, q ∈ plan.order) (hdoneOrder : ∀ q ∈ done, q ∈ plan.order)
    (hbegun : p ∈ begun) (hdone : p ∉ done) (hpreds : ∀ a, plan.graph.Precedes a p → a ∈ done) :
    Ends (host.closePass onPanic p pass releases handles) s
      (fun _ t => ∃ L' : Ledger η, Legal frame L'.history ∧
        plan.Covers frame begun (done ++ [p]) L'.history ∧ L'.grants = L.grants ∧ I L' t)
      fun _ _ => stops := by
  obtain ⟨hclose, hcovers⟩ := hf.legal_finish hlegal hc hblock hbegun hdone hpreds
  have hdoneOrder' : ∀ q ∈ done ++ [p], q ∈ plan.order := by
    intro q hq
    rcases List.mem_append.mp hq with hq | hq
    · exact hdoneOrder q hq
    · exact List.mem_singleton.mp hq ▸ horder p hbegun
  have hscript : ∀ a ∈ .work p :: releases.flatMap Events.after, a ∈ plan.script := by
    intro a ha
    exact Plan.Fits.mem_of_covers hcovers hf.legal_script.2 horder hdoneOrder'
      (List.mem_append_right _ ha)
  have hall := hlegal.append hclose
  obtain ⟨hwork, hreleases⟩ := hclose
  apply Ends.bind
  apply (h.doWork hpanic hs hwork (hscript _ (by simp)) hpass hgrant).mono _
    fun _ _ hstop => hstop
  intro _ t ht
  apply (h.releaseEach ht hreleases fun a ha =>
    hscript a (List.mem_cons_of_mem _ ha)).mono _ fun _ _ hstop => hstop
  intro _ u hu
  rw [Ledger.add_add] at hu
  exact ⟨L.add (.work p :: releases.flatMap Events.after), hall, hcovers, rfl, hu⟩

end Keeps

end Host

end FramePlan
