import FramePlan.Proofs.Run.Lifecycle
import FramePlan.Proofs.Run.Lockstep
import FramePlan.Proofs.Run.Scheduling
import FramePlan.Proofs.Storage.Counts
import FramePlan.Run.Recorder

/-!
# Parallel and sequential runs agree

Workers construct, move and destruct resources by counting users, and a sequential run does so by
the plan. On pooled storage neither is ever refused a call, and in the end both made the same calls,
in whatever order the workers took their turns.

* `Account.Settled` — what storage is like when the whole script was acted out.
* `Dispatch.agreement` — the joint statement.
-/

namespace FramePlan

open History Account

variable {κ η ς τ ω : Type}

namespace Account

variable {frame : Frame} {plan : Plan} {allocate : κ → EStateM StorageError τ η} {L : Ledger η}
  {a₀ a : Account κ η ς τ}

/-- Everything that the plan says was done: storage owns what it owned before, and its counts went
up by what is in the script. -/
structure Settled (plan : Plan) (a₀ a : Account κ η ς τ) : Prop where
  owners : a.owners = a₀.owners
  moved : a.stats.moved = a₀.stats.moved + plan.script.countP Action.isMove
  acquired : a.stats.allocated + a.stats.reused =
    a₀.stats.allocated + a₀.stats.reused + plan.script.countP a₀.acquires
  recycled : a.stats.recycled = a₀.stats.recycled + plan.script.countP a₀.acquires

theorem settled_of_perm (hf : plan.Fits frame)
    (hunbound : ∀ r, frame.hasResource r → a₀.owners.get? r = none)
    (hfollows : Follows frame allocate a₀ L a) (hcounted : Counted a₀ L a)
    (hperm : L.history.Perm plan.script) : Settled plan a₀ a := by
  have howners : a.owners = a₀.owners := by
    apply IdMap.ext
    intro r
    by_cases hr : frame.hasResource r
    · rw [hunbound r hr]
      by_contra hne
      apply hf.not_holds_script r
      obtain ⟨hopened, hnot⟩ := (hfollows.inside r hr).mp hne
      unfold Opened at hopened
      unfold Gone at hnot
      simp only [hperm.mem_iff] at hopened hnot
      exact ⟨hopened, hnot⟩
    · exact hfollows.outside r hr
  have hmoved := hcounted.moved
  have hacquired := hcounted.acquired
  have hrecycled := hcounted.recycled
  have htemporals : a.temporals = a₀.temporals := by
    unfold temporals
    rw [howners]
  rw [hperm.countP_eq] at hmoved hacquired hrecycled
  exact ⟨howners, hmoved, hacquired, by omega⟩

end Account

namespace Run

/-- What a history of the plan on pooled storage adds up to. -/
def Tallied (frame : Frame) (allocate : κ → EStateM StorageError τ η) (s : Storage κ η ς τ)
    (L : Ledger η) (t : Storage κ η ς τ) : Prop :=
  Follows frame allocate s.account L t.account ∧ Counted s.account L t.account

theorem Tallied.empty {frame : Frame} {allocate : κ → EStateM StorageError τ η}
    {s : Storage κ η ς τ} (hunbound : ∀ r, frame.hasResource r → s.isConstructed r = false) :
    Tallied frame allocate s Ledger.empty s :=
  ⟨Follows.empty fun r hr => Storage.isConstructed_eq_false_iff.mp (hunbound r hr), Counted.empty⟩

variable [DecidableEq κ] [DecidableEq ς] {frame : Frame} {plan : Plan}
  {allocate : κ → EStateM StorageError τ η}

theorem tallied_keeps (hf : plan.Fits frame) {s : Storage κ η ς τ}
    (hregistered : ∀ r ∈ plan.constructs, s.registrations.contains r)
    (hallocate : NeverFails allocate s.supply) :
    (Storage.host frame allocate ∅).Keeps frame plan (Tallied frame allocate s) False :=
  ((follows_kept hf).and counted_kept).host_serves (follows_serves hf hregistered hallocate).and

end Run

namespace Dispatch

/-- Storage before any call. -/
def unwatched (s : Storage κ η ς τ) (own : ω) : Recorded (Observed (Storage κ η ς τ) ω η) η :=
  Recorded.start (Observed.start s own)

/-- Two runs made the same calls, in whatever order, and left the same behind. -/
structure Agree (t u : Recorded (Observed (Storage κ η ς τ) ω η) η) : Prop where
  actions : t.actions.Perm u.actions
  isConstructed : ∀ r, t.host.host.isConstructed r = u.host.host.isConstructed r
  acquired : t.host.host.stats.allocated + t.host.host.stats.reused =
    u.host.host.stats.allocated + u.host.host.stats.reused
  recycled : t.host.host.stats.recycled = u.host.host.stats.recycled
  moved : t.host.host.stats.moved = u.host.host.stats.moved

theorem agree_of_perm {frame : Frame} {plan : Plan} {allocate : κ → EStateM StorageError τ η}
    {s : Storage κ η ς τ} {t u : Recorded (Observed (Storage κ η ς τ) ω η) η} {L M : Ledger η}
    (hf : plan.Fits frame) (hunbound : ∀ r, frame.hasResource r → s.isConstructed r = false)
    (ht : Run.Tallied frame allocate s L t.host.host) (htactions : t.actions = L.history)
    (hL : L.history.Perm plan.script)
    (hu : Run.Tallied frame allocate s M u.host.host) (huactions : u.actions = M.history)
    (hM : M.history.Perm plan.script) : Agree t u := by
  have hunbound' : ∀ r, frame.hasResource r → s.account.owners.get? r = none :=
    fun r hr => Storage.isConstructed_eq_false_iff.mp (hunbound r hr)
  have htsettled := settled_of_perm hf hunbound' ht.1 ht.2 hL
  have husettled := settled_of_perm hf hunbound' hu.1 hu.2 hM
  refine ⟨?_, fun r => ?_, ?_, ?_, ?_⟩
  · rw [htactions, huactions]
    exact hL.trans hM.symm
  · apply Bool.eq_iff_iff.mpr
    rw [Storage.isConstructed_iff, Storage.isConstructed_iff, htsettled.owners, husettled.owners]
  · exact htsettled.acquired.trans husettled.acquired.symm
  · exact htsettled.recycled.trans husettled.recycled.symm
  · exact htsettled.moved.trans husettled.moved.symm

variable [DecidableEq κ] [DecidableEq ς]

/-- Pooled storage whose calls are recorded, and whose passes do some work. -/
def watched (frame : Frame) (allocate : κ → EStateM StorageError τ η)
    (work : PassId → Pass → IdMap .resource η → EStateM WorkFault ω Unit) :
    Host (Recorded (Observed (Storage κ η ς τ) ω η) η) η :=
  Recorded.recorder Recorded.noTrips (Observed.observer (Storage.host frame allocate ∅) work)

theorem watched_calm (frame : Frame) (allocate : κ → EStateM StorageError τ η)
    (work : PassId → Pass → IdMap .resource η → EStateM WorkFault ω Unit) :
    (watched (ς := ς) frame allocate work).Calm :=
  Recorded.recorder_calm (Observed.observer_calm (Storage.host_calm frame allocate ∅))

/-- **Parallel and sequential runs agree** on pooled storage. If nothing of the frame is bound, what
the plan constructs is registered, the allocator never fails and the work of passes succeeds, then
no call is refused in whatever order workers take their turns. When all passes are done the calls
are those of the sequential run, the same resources are bound, and as many instances were acquired,
recycled and moved. The run that is computed is an instance. -/
theorem agreement {frame : Frame} {plan : Plan} {allocate : κ → EStateM StorageError τ η}
    {work : PassId → Pass → IdMap .resource η → EStateM WorkFault ω Unit}
    (hdeclared : frame.Declared) (hplan : Plan.ofFrame frame = .ok plan)
    (s : Storage κ η ς τ) (own : ω)
    (hunbound : ∀ r, frame.hasResource r → s.isConstructed r = false)
    (hregistered : ∀ r ∈ plan.constructs, s.registrations.contains r)
    (hallocate : NeverFails allocate s.supply)
    (hwork : ∀ p pass handles own, ∃ own', work p pass handles own = .ok () own')
    (workers : WorkerCount) :
    ∃ first sequential,
      Run.openParallel workers (watched frame allocate work) frame plan (unwatched s own) =
        .ok () first ∧
      Run.sequential (watched frame allocate work) frame plan (unwatched s own) =
        .ok () sequential ∧
      (∀ d, Reachable (watched frame allocate work) frame plan (Dispatch.start plan first) d →
        d.error = none ∧ d.lost = 0 ∧
          (d.frontier.done.length = plan.passCount → Agree d.host sequential)) ∧
      ∃ d, Reachable (watched frame allocate work) frame plan (Dispatch.start plan first) d ∧
        d.frontier.done.length = plan.passCount ∧
        Run.parallel workers (watched frame allocate work) frame plan (unwatched s own) =
          .ok () d.host := by
  have hf := Plan.fits_of_ofFrame hdeclared hplan
  have hworks : ∀ p pass handles own,
      Ends (work p pass handles) own (fun _ _ => True) fun _ _ => False :=
    fun p pass handles own => Ends.of_exists_ok ⟨(), hwork p pass handles own⟩
  have hcalm := watched_calm (ς := ς) frame allocate work
  have hkeeps := ((Run.tallied_keeps hf hregistered hallocate).observer hworks).recorder
  have hstart : (Run.Tallied frame allocate s Ledger.empty s ∧
      Observed.Seen (Run.Tallied frame allocate s) Ledger.empty []) ∧
      (unwatched s own).actions = (Ledger.empty : Ledger η).history :=
    ⟨⟨Run.Tallied.empty hunbound, Observed.Seen.empty⟩, rfl⟩
  obtain ⟨_, first, hopen, hfirst⟩ :=
    (hkeeps.openParallel (s := unwatched s own) hf workers hstart).exists_ok
  obtain ⟨_, t, hrun, grants, ⟨htallied, _⟩, hactions⟩ :=
    (hkeeps.sequential (s := unwatched s own) hf hstart).exists_ok
  have hall : ∀ d, Reachable (watched frame allocate work) frame plan
      (Dispatch.start plan first) d → d.error = none ∧ d.lost = 0 ∧
        (d.frontier.done.length = plan.passCount → Agree d.host t) := by
    intro d hd
    obtain ⟨begun, hinStep⟩ := hd.inStep hf hcalm hkeeps hfirst
    have herror : d.error = none := by
      by_contra hne
      exact hinStep.stopped hne
    refine ⟨herror, hinStep.orderly.lost, fun hlength => ?_⟩
    obtain ⟨L, hacted⟩ := hinStep.acted herror
    obtain ⟨⟨htallied', _⟩, hactions'⟩ := hacted.keeps
    have hperm := hacted.perm_script hf hinStep.orderly hlength
    exact agree_of_perm hf hunbound htallied' hactions' hperm htallied hactions (List.Perm.refl _)
  refine ⟨first, t, hopen, hrun, hall, ?_⟩
  obtain ⟨turns, d, htrace, hend⟩ := exists_trace_of_parallel hf hcalm workers hopen
  have hd := reachable_iff_exists_trace.mpr ⟨turns, htrace⟩
  rcases hend with ⟨_, hlength, hparallel⟩ | ⟨e, hsome, _⟩
  · exact ⟨d, hd, hlength, hparallel⟩
  · rw [(hall d hd).1] at hsome
    cases hsome

/-- Two workers on the relay leave behind what one leaves behind. -/
theorem agreement_relay : ∃ sequential d : Recorded (Observed (Storage String Int String Supply)
      Nat Int) Int,
    Run.sequential (watched Frame.relay Supply.allocate fun _ _ _ n => .ok () (n + 1)) Frame.relay
      Plan.relay (unwatched Storage.relay 0) = .ok () sequential ∧
    Run.parallel ⟨2, by decide⟩ (watched Frame.relay Supply.allocate fun _ _ _ n => .ok () (n + 1))
      Frame.relay Plan.relay (unwatched Storage.relay 0) = .ok () d ∧ Agree d sequential := by
  obtain ⟨first, sequential, _, hrun, hall, d, hd, hlength, hparallel⟩ :=
    agreement ⟨_, _, rfl⟩ Plan.ofFrame_relay Storage.relay 0 (fun _ _ => rfl) (by decide)
      (Supply.neverFails rfl rfl) (fun _ _ _ n => ⟨n + 1, rfl⟩) ⟨2, by decide⟩
  exact ⟨sequential, d.host, hrun, hparallel, (hall d hd).2.2 hlength⟩

end Dispatch

end FramePlan
