import FramePlan.Proofs.Run.Pass
import FramePlan.Proofs.Run.Release
import FramePlan.Proofs.Run.Turn

/-!
# Interleavings act out histories of the plan

However workers interleave their turns, the calls that they make are legal, and add up to a history
that covers the passes that have begun and those that are complete. So the same obligations on each
single call that carry a sequential run carry every interleaving.

* `Host.Keeps.beginCalls`, `Host.Keeps.finishCalls` — the calls of one turn.
* `Dispatch.Reachable.inStep` — what holds of every dispatch that is reachable.
-/

namespace FramePlan

open History

variable {σ η : Type}

namespace Dispatch

/-- The calls that led to a dispatch without an error add up to the ledger. -/
structure Acted (frame : Frame) (plan : Plan) (I : Ledger η → σ → Prop) (begun : List PassId)
    (d : Dispatch σ η) (L : Ledger η) : Prop where
  legal : Legal frame L.history
  covers : plan.Covers frame begun d.frontier.done L.history
  grants : ∀ running ∈ d.running, running ∈ L.grants
  keeps : I L d.host

end Dispatch

namespace Host.Keeps

open Dispatch

variable {host : Host σ η} {frame : Frame} {plan : Plan} {I : Ledger η → σ → Prop} {stops : Prop}
  {begun : List PassId} {d : Dispatch σ η} {L : Ledger η} {p : PassId} {pass : Pass}

/-- What comes before any worker starts is the prologue. -/
theorem openParallel {s : σ} (h : host.Keeps frame plan I stops) (hf : plan.Fits frame)
    (workers : WorkerCount) (hs : I Ledger.empty s) :
    Ends (Run.openParallel workers host frame plan) s
      (fun _ t => I ⟨plan.prologue.before ++ plan.prologue.after, []⟩ t) fun _ _ => stops := by
  unfold Run.openParallel
  rw [hf.checkPassCount_eq, pure_bind]
  apply Ends.bind
  apply ends_modify
  exact h.prologue hf (h.log _ hs)

/-- **The calls that begin the head of the queue** are legal. -/
theorem beginCalls {rest : List PassId} (h : host.Keeps frame plan I stops) (hf : plan.Fits frame)
    (horderly : Orderly frame plan begun d) (herror : d.error = none)
    (hready : d.frontier.ready = p :: rest) (hpass : frame.pass? p = some pass)
    (hacted : Acted frame plan I begun d L) :
    Ends (Dispatch.beginCalls host plan d.constructed p pass) d.host
      (fun handles t => ∃ L' : Ledger η, Legal frame L'.history ∧
        plan.Covers frame (begun ++ [p]) d.frontier.done L'.history ∧
        L'.grants = L.grants ++ [(p, handles)] ∧ I L' t) fun _ _ => stops := by
  obtain ⟨hp, hbegun, hdone, _⟩ := horderly.roster.fresh hf hready
  have horder : ∀ q ∈ begun ++ [p], q ∈ plan.order := by
    intro q hq
    rcases List.mem_append.mp hq with hq | hq
    · exact horderly.roster.mem_order hf hq
    · exact List.mem_singleton.mp hq ▸ hp
  have hdoneOrder : ∀ q ∈ d.frontier.done, q ∈ plan.order :=
    fun q hq => horderly.roster.mem_order hf (horderly.frontier.done_taken q hq)
  exact h.openPass hf hacted.keeps hacted.legal hacted.covers (pass.resources.nodup_toList.filter _)
    (fun _ => (horderly.books herror).mem_new hpass) horder hdoneOrder hbegun hdone
    fun a ha => horderly.done_of_precedes_head hready ha

/-- **The calls that finish a running pass** are legal. -/
theorem finishCalls {handles : IdMap .resource η} (h : host.Keeps frame plan I stops)
    (hf : plan.Fits frame) (horderly : Orderly frame plan begun d) (herror : d.error = none)
    (hrunning : (p, handles) ∈ d.running) (hpass : frame.pass? p = some pass)
    (hacted : Acted frame plan I begun d L) :
    Ends (Dispatch.finishCalls host plan d.users p pass handles) d.host
      (fun _ t => ∃ L' : Ledger η, Legal frame L'.history ∧
        plan.Covers frame begun (d.frontier.done ++ [p]) L'.history ∧ L'.grants = L.grants ∧
        I L' t) fun _ _ => stops := by
  have hruns : p ∈ d.runningPasses := List.mem_map.mpr ⟨_, hrunning, rfl⟩
  obtain ⟨hbegun, hdone⟩ := horderly.running p hruns
  exact h.closePass hf (fun text s => ⟨_, _, rfl⟩) hacted.keeps hacted.legal hacted.covers
    (horderly.releases_ripe hf herror hruns hpass) hpass (hacted.grants _ hrunning)
    (fun q hq => horderly.roster.mem_order hf hq)
    (fun q hq => horderly.roster.mem_order hf (horderly.frontier.done_taken q hq)) hbegun hdone
    fun a ha => horderly.done_of_precedes hbegun ha

end Host.Keeps

namespace Dispatch

variable {host : Host σ η} {frame : Frame} {plan : Plan} {I : Ledger η → σ → Prop} {stops : Prop}
  {begun : List PassId} {d e : Dispatch σ η}

/-- When all passes are done, the whole script was acted out. -/
theorem Acted.perm_script {L : Ledger η} (h : Acted frame plan I begun d L) (hf : plan.Fits frame)
    (horderly : Orderly frame plan begun d) (hlength : d.frontier.done.length = plan.passCount) :
    L.history.Perm plan.script := by
  have hdone := horderly.done_perm hf hlength
  apply hf.perm_script h.covers h.legal
  · intro p
    exact ⟨horderly.roster.mem_order hf,
      fun hp => horderly.frontier.done_taken p (hdone.mem_iff.mpr hp)⟩
  · intro p
    exact hdone.mem_iff

/-- What is known of a dispatch that some passes have begun in. -/
structure InStep (frame : Frame) (plan : Plan) (I : Ledger η → σ → Prop) (stops : Prop)
    (begun : List PassId) (d : Dispatch σ η) : Prop where
  orderly : Orderly frame plan begun d
  acted : d.error = none → ∃ L, Acted frame plan I begun d L
  stopped : d.error ≠ none → stops

/-- A pass begins. -/
theorem InStep.begin (h : InStep frame plan I stops begun d) (hf : plan.Fits frame)
    (hcalm : host.Calm) (hkeeps : host.Keeps frame plan I stops)
    (hbegin : d.begin? host frame plan = some e) :
    (∃ p, InStep frame plan I stops (begun ++ [p]) e) ∧
      (e.error = none ∨ ∀ running ∈ e.running, running ∈ d.running) := by
  obtain ⟨p, frontier, htake⟩ := exists_take?_of_begin? hbegin
  obtain ⟨herror, _, _⟩ := begin?_eq_some hbegin htake
  obtain ⟨rest, hready, _⟩ := take?_eq_some htake
  obtain ⟨pass, hpass⟩ := hf.mem_order_iff_pass?.mp (h.orderly.roster.fresh hf hready).1
  obtain ⟨L, hacted⟩ := h.acted herror
  obtain ⟨horderly, hdone, hturn⟩ := h.orderly.begin_turn hcalm hpass hbegin htake
    (hkeeps.beginCalls hf h.orderly herror hready hpass hacted)
  rcases hturn with ⟨_, hnone, handles, hruns, L', hlegal, hcovers, hgrants, hI⟩ |
    ⟨_, hsome, hruns, hstops⟩
  · refine ⟨⟨p, horderly, fun _ => ⟨L', hlegal, ?_, ?_, hI⟩, fun hne => absurd hnone hne⟩,
      Or.inl hnone⟩
    · rw [hdone]
      exact hcovers
    · intro running hmem
      rw [hgrants, List.mem_append]
      rw [hruns, List.mem_append] at hmem
      exact hmem.imp (hacted.grants running) id
  · refine ⟨⟨p, horderly, fun hnone => absurd hnone hsome, fun _ => hstops⟩, Or.inr ?_⟩
    rw [hruns]
    exact fun _ hmem => hmem

/-- A running pass is finished, also after an error. -/
theorem InStep.finish {running : PassId × IdMap .resource η}
    (h : InStep frame plan I stops begun d) (hf : plan.Fits frame) (hcalm : host.Calm)
    (hkeeps : host.Keeps frame plan I stops) (hrunning : running ∈ d.running) :
    InStep frame plan I stops begun (d.finish host frame plan running) ∧
      ∀ other ∈ (d.finish host frame plan running).running, other ∈ d.running := by
  obtain ⟨p, handles⟩ := running
  have hruns : p ∈ d.runningPasses := List.mem_map.mpr ⟨_, hrunning, rfl⟩
  obtain ⟨pass, hpass⟩ := hf.mem_order_iff_pass?.mp
    (h.orderly.roster.mem_order hf (h.orderly.running p hruns).1)
  have hfewer : ∀ other ∈ d.running.eraseP (fun x => x.1 = p), other ∈ d.running :=
    fun _ hmem => List.mem_of_mem_eraseP hmem
  by_cases herror : d.error = none
  · obtain ⟨L, hacted⟩ := h.acted herror
    obtain ⟨horderly, hrest, hturn⟩ := h.orderly.finish_turn hf hcalm hpass hrunning
      (hkeeps.finishCalls hf h.orderly herror hrunning hpass hacted)
    rw [hrest]
    refine ⟨⟨horderly, fun hnone => ?_, fun hne => ?_⟩, hfewer⟩
    · rcases hturn with ⟨_, _, hdone, L', hlegal, hcovers, hgrants, hI⟩ | ⟨_, hsome, _⟩
      · refine ⟨L', hlegal, ?_, ?_, hI⟩
        · rw [hdone]
          exact hcovers
        · intro other hmem
          rw [hgrants]
          rw [hrest] at hmem
          exact hacted.grants other (hfewer other hmem)
      · exact absurd hnone hsome
    · rcases hturn with ⟨_, hsame, _⟩ | ⟨_, _, _, hstops⟩
      · exact absurd (hsame.trans herror) hne
      · exact hstops
  · obtain ⟨horderly, hrest, hturn⟩ := h.orderly.finish_turn hf hcalm hpass hrunning Ends.always
    rw [hrest]
    refine ⟨⟨horderly, fun hnone => ?_, fun _ => h.stopped herror⟩, hfewer⟩
    rcases hturn with ⟨_, hsame, _⟩ | ⟨_, hsome, _⟩
    · exact absurd (hsame.symm.trans hnone) herror
    · exact absurd hnone hsome

/-- One turn keeps a dispatch in step, and if it leaves an error it lets no pass run that did not
run before. -/
theorem InStep.step (h : InStep frame plan I stops begun d) (hf : plan.Fits frame)
    (hcalm : host.Calm) (hkeeps : host.Keeps frame plan I stops)
    (hstep : Step host frame plan d e) :
    (∃ begun', InStep frame plan I stops begun' e) ∧
      (e.error = none ∨ ∀ running ∈ e.running, running ∈ d.running) := by
  cases hstep with
  | begin hbegin =>
      obtain ⟨⟨p, hinStep⟩, hrunning⟩ := h.begin hf hcalm hkeeps hbegin
      exact ⟨⟨_, hinStep⟩, hrunning⟩
  | finish hrunning =>
      obtain ⟨hinStep, hfewer⟩ := h.finish hf hcalm hkeeps hrunning
      exact ⟨⟨_, hinStep⟩, Or.inr hfewer⟩
  | stall hstall =>
      rw [h.orderly.not_stall hf] at hstall
      cases hstall

/-- **Every dispatch that is reachable after the prologue is in step** with a history of the
plan. -/
theorem Reachable.inStep {s : σ} (h : Reachable host frame plan (Dispatch.start plan s) d)
    (hf : plan.Fits frame) (hcalm : host.Calm) (hkeeps : host.Keeps frame plan I stops)
    (hs : I ⟨plan.prologue.before ++ plan.prologue.after, []⟩ s) :
    ∃ begun, InStep frame plan I stops begun d := by
  induction h with
  | refl =>
      obtain ⟨hlegal, hcovers⟩ := hf.legal_prologue
      refine ⟨[], Orderly.start hf s, fun _ => ⟨⟨plan.prologue.before ++ plan.prologue.after, []⟩,
        hlegal, hcovers, ?_, hs⟩, fun hne => ?_⟩
      · exact fun running hmem => absurd hmem List.not_mem_nil
      · exact absurd rfl hne
  | step _ hstep ih =>
      obtain ⟨begun, hinStep⟩ := ih
      exact (hinStep.step hf hcalm hkeeps hstep).1

end Dispatch

end FramePlan
