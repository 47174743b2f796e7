import FramePlan.Proofs.Run.Simulation

/-!
# A single worker simulates a sequential run

A worker that is alone works the passes off in rounds, in the order of the plan. Pass by pass it
makes the calls that a sequential run makes, until the first call that fails, which is the same one
and leaves the same error.

* `Dispatch.alike_pass` — one pass, wherever what it gives up is read off.
* `Dispatch.alike_drive` — the passes that are left.
* `Dispatch.single_worker` — whole runs.
-/

namespace FramePlan

open History Account

variable {κ η ς τ ω : Type}

namespace Dispatch

/-- What workers answer when they leave this dispatch behind. -/
def answer {σ : Type} (d : Dispatch σ η) : EStateM.Result RunError σ Unit :=
  match d.outcome with
  | .ok _ => .ok () d.host
  | .error e => .error e d.host

section Passes

variable [DecidableEq κ] [DecidableEq ς] {frame : Frame} {plan : Plan}
  {allocate : κ → EStateM StorageError τ η}
  {work : PassId → Pass → IdMap .resource η → EStateM WorkFault ω Unit}
  {verdict : PassId → Option String}
  {I : Ledger η → Watched κ η ς τ ω → Prop} {a₀ : Account κ η ς τ} {t u : Watched κ η ς τ ω}
  {pre post : List PassId} {p : PassId} {pass : Pass} {releases releases' : List Events}
  {onPanic onPanic' : String → EStateM RunError (Watched κ η ς τ ω) Unit}

/-- Two runs worked off the same passes, and are alike so far. -/
structure Abreast (frame : Frame) (plan : Plan) (I : Ledger η → Watched κ η ς τ ω → Prop)
    (passes : List PassId) (t u : Watched κ η ς τ ω) : Prop where
  akin : Akin passes t u
  left : WorkedOff frame plan I passes t
  right : WorkedOff frame plan I passes u

/-- Two runs stopped alike, when some first passes of the plan had done their work. -/
def StoppedAlike (plan : Plan) (t u : Watched κ η ς τ ω) : Prop :=
  ∃ passes, passes <+: plan.order ∧ Akin passes t u

variable (hkeeps : (watched frame allocate work).Keeps frame plan I True)
  (hfollows : ∀ {L t}, I L t → Follows frame allocate a₀ L t.host.host.account)
  (hf : plan.Fits frame)

include hkeeps hf

/-- What comes before any pass ends alike. -/
theorem alike_opening (hakin : Akin [] t u) (ht : I Ledger.empty t) (hu : I Ledger.empty u) :
    Alike ((watched frame allocate work).applyPrologue plan.prologue)
      ((watched frame allocate work).applyPrologue plan.prologue) t u
      (Abreast frame plan I []) (StoppedAlike plan) := by
  obtain ⟨hlegal, hcovers⟩ := hf.legal_prologue
  have hopen : ∀ {t}, I Ledger.empty t → Ends
      ((watched frame allocate work).applyPrologue plan.prologue) t
      (fun _ => WorkedOff frame plan I []) fun _ _ => True := by
    intro t ht
    apply (hkeeps.prologue hf ht).mono _ fun _ _ hstop => hstop
    exact fun _ _ hI => ⟨_, hlegal, hcovers, hI⟩
  apply ((alike_prologue hakin).and (hopen ht) (hopen hu)).mono
  · exact fun _ _ hreturned => ⟨hreturned.1, hreturned.2.1, hreturned.2.2⟩
  · exact fun _ _ hstopped => ⟨[], List.nil_prefix, hstopped⟩

include hfollows

/-- When the next pass of the plan is open it can be closed. -/
theorem ends_openPass (hsplit : plan.order = pre ++ p :: post)
    (hripe : Releases frame plan.moves (Plan.Ripens frame pre p) (releases.flatMap Events.after))
    (ht : WorkedOff frame plan I pre t) :
    Ends ((watched frame allocate work).openPass (plan.eventsAt pre.length).constructs p) t
      (fun _ => Closes frame plan allocate a₀ pre p releases) fun _ _ => True := by
  apply (hkeeps.openNext hf hsplit ht).mono _ fun _ _ hstop => hstop
  rintro handles u ⟨L, hlegal, hcovers, _, hu⟩
  obtain ⟨hclose, hcovers'⟩ := hf.legal_finish hlegal hcovers hripe (by simp)
    (hf.notMem_pre hsplit) fun _ ha => hf.mem_pre_of_precedes hsplit ha
  have horder : ∀ q ∈ pre ++ [p], q ∈ plan.order :=
    fun _ hq => Plan.Fits.mem_order_of_snoc hsplit hq
  refine ⟨hripe, ⟨L, hfollows hu, hclose⟩, fun a ha => ?_⟩
  exact Plan.Fits.mem_of_covers hcovers' hf.legal_script.2 horder horder
    (List.mem_append_right _ (List.mem_cons_of_mem _ ha))

variable (hdecided : Decided work verdict)

include hdecided

/-- **The next pass of the plan ends alike** wherever the storage that it gives up is read off. -/
theorem alike_pass (hpanic : ∀ text t, ∃ e u, onPanic text t = .error e u)
    (hpanic' : ∀ text t, ∃ e u, onPanic' text t = .error e u)
    (hsplit : plan.order = pre ++ p :: post) (hpass : frame.pass? p = some pass)
    (hripe : Releases frame plan.moves (Plan.Ripens frame pre p) (releases.flatMap Events.after))
    (hripe' : Releases frame plan.moves (Plan.Ripens frame pre p) (releases'.flatMap Events.after))
    (h : Abreast frame plan I pre t u) :
    Alike
      ((watched frame allocate work).passCalls onPanic (plan.eventsAt pre.length).constructs p pass
        releases)
      ((watched frame allocate work).passCalls onPanic' (plan.eventsAt pre.length).constructs p pass
        releases') t u
      (Abreast frame plan I (pre ++ [p])) (StoppedAlike plan) := by
  have hp : p ∈ plan.order := by simp [hsplit]
  have hbefore : pre <+: plan.order := ⟨p :: post, hsplit.symm⟩
  have hupto : pre ++ [p] <+: plan.order := ⟨post, by simp [hsplit]⟩
  have hcalls : Alike
      ((watched frame allocate work).passCalls onPanic (plan.eventsAt pre.length).constructs p pass
        releases)
      ((watched frame allocate work).passCalls onPanic' (plan.eventsAt pre.length).constructs p pass
        releases') t u (Akin (pre ++ [p])) (StoppedAlike plan) := by
    have hopen := Alike.and (alike_openPass h.akin)
      (ends_openPass hkeeps hfollows hf hsplit hripe h.left)
      (ends_openPass hkeeps hfollows hf hsplit hripe' h.right)
    apply Alike.bind (hopen.mono (fun _ _ hopened => hopened) fun _ _ hstopped =>
      ⟨pre, hbefore, hstopped⟩)
    rintro _ _ t' u' ⟨hakin, ht, hu⟩
    apply (alike_closePass hakin hf hp hdecided ht hu).mono
    · exact fun _ _ hclosed => hclosed
    · exact fun _ _ hstopped => ⟨pre ++ [p], hupto, hstopped⟩
  apply (hcalls.and (hkeeps.passCalls hf hpanic hsplit hpass hripe h.left)
    (hkeeps.passCalls hf hpanic' hsplit hpass hripe' h.right)).mono
  · exact fun _ _ hreturned => ⟨hreturned.1, hreturned.2.1, hreturned.2.2⟩
  · exact fun _ _ hstopped => hstopped

variable {d : Dispatch (Watched κ η ς τ ω) η}
  (horder : plan.graph.order = .ok plan.order)

include horder

/-- A round of a worker that is alone ends like the pass of a sequential run. -/
theorem alike_round (hsplit : plan.order = pre ++ p :: post) (hpass : frame.pass? p = some pass)
    (hidle : Idle frame plan pre d) (h : Abreast frame plan I pre t d.host) :
    Alike (Run.runPass (watched frame allocate work) frame ⟨p, plan.eventsAt pre.length⟩)
      (roundCalls (watched frame allocate work) plan d p pass) t d.host
      (Abreast frame plan I (pre ++ [p])) (StoppedAlike plan) := by
  have hripe : Releases frame plan.moves (Plan.Ripens frame pre p)
      ([plan.eventsAt pre.length].flatMap Events.after) := by
    rw [List.flatMap_singleton]
    exact hf.releases_eventsAt hsplit
  rw [Run.runPass_eq hpass, roundCalls, hidle.constructs hf hsplit hpass]
  exact alike_pass hkeeps hfollows hf hdecided (fun _ _ => ⟨_, _, rfl⟩) (fun _ _ => ⟨_, _, rfl⟩)
    hsplit hpass hripe (hidle.releases hf horder hsplit hpass) h

/-- **The passes that are left end alike** in a sequential run and with a worker that is alone. -/
theorem alike_drive {workers n : Nat} (hworkers : plan.order ≠ [] → 0 < workers)
    (hn : post.length ≤ n) (hsplit : plan.order = pre ++ post) (hidle : Idle frame plan pre d)
    (h : Abreast frame plan I pre t d.host) :
    Alike
      (((post.zipIdx pre.length).map fun e => ⟨e.1, plan.eventsAt e.2⟩).forM
        (Run.runPass (watched frame allocate work) frame))
      (fun _ => (d.drive (watched frame allocate work) frame plan workers n).answer) t d.host
      (Akin plan.order) (StoppedAlike plan) := by
  have hcalm := watched_calm (ς := ς) frame allocate work
  induction post generalizing pre d t n with
  | nil =>
      rw [List.append_nil] at hsplit
      subst hsplit
      have hanswer : d.answer = .ok () d.host := by
        rw [answer, outcome, hidle.error, hidle.orderly.lost]
        rfl
      rw [hidle.drive_eq hf]
      exact Alike.of_ok rfl hanswer h.akin
  | cons p post ih =>
      obtain ⟨n, rfl⟩ : ∃ m, n = m + 1 :=
        Nat.exists_eq_add_one_of_ne_zero (Nat.ne_zero_of_lt hn)
      have hp : p ∈ plan.order := by simp [hsplit]
      have hworker := hworkers (List.ne_nil_of_mem hp)
      obtain ⟨pass, hpass⟩ := hf.mem_order_iff_pass?.mp hp
      have hround := alike_round hkeeps hfollows hf hdecided horder hsplit hpass hidle h
      rw [List.zipIdx_cons, List.map_cons]
      cases hrun : Run.runPass (watched frame allocate work) frame ⟨p, plan.eventsAt pre.length⟩ t
        with
      | ok _ t' =>
          obtain ⟨_, u', hcalls, hnext⟩ := hround.ok hrun
          obtain ⟨e, hidle', rfl, hdrive⟩ := hidle.drive_of_ok (n := n) hf hcalm horder hsplit hpass
            hworker hcalls
          have hrest := ih (Nat.le_of_succ_le_succ hn) (by simp [hsplit]) hidle' hnext
          rw [List.length_append, List.length_singleton] at hrest
          exact hrest.congr (bind_of_ok hrun) (congrArg answer hdrive)
      | error err t' =>
          obtain ⟨u', hcalls, hstopped⟩ := hround.error hrun
          obtain ⟨herror, hhost⟩ := hidle.drive_of_fail (n := n) hf hcalm horder hsplit hpass
            hworker hcalls
          have hanswer : (d.drive (watched frame allocate work) frame plan workers (n + 1)).answer =
              .error err u' := by
            rw [answer, outcome, herror, hhost]
          exact Alike.of_error (bind_of_error hrun) hanswer hstopped

/-- Whole runs end alike, whatever the relation that their calls keep. -/
theorem alike_run (hakin : Akin [] t u) (ht : I Ledger.empty t) (hu : I Ledger.empty u) :
    Alike (Run.sequential (watched frame allocate work) frame plan)
      (Run.parallel (.atLeastOne 1) (watched frame allocate work) frame plan) t u
      (Akin plan.order) (StoppedAlike plan) := by
  have hworkers : plan.order ≠ [] → 0 < min 1 plan.passCount := by
    intro hne
    rw [← Plan.Fits.length_order]
    exact Nat.lt_min.mpr ⟨Nat.one_pos, List.length_pos_iff.mpr hne⟩
  have hlength : plan.order.length ≤ plan.passCount + 1 :=
    Nat.le_succ_of_le (Nat.le_of_eq Plan.Fits.length_order)
  have hlog : ∀ note note',
      Alike (modify ((watched frame allocate work).log note) : EStateM RunError _ Unit)
        (modify ((watched frame allocate work).log note') : EStateM RunError _ Unit) t u
        (fun t u => Akin [] t u ∧ I Ledger.empty t ∧ I Ledger.empty u) (StoppedAlike plan) :=
    fun _ _ => Alike.modify ⟨⟨hakin.calls, hakin.ran, hakin.profile⟩, hkeeps.log _ ht,
      hkeeps.log _ hu⟩
  rw [Run.sequential, Run.parallel, Run.openParallel, hf.checkPassCount_eq]
  simp only [bind_assoc, pure_bind]
  apply Alike.bind (hlog _ _)
  rintro _ _ t u ⟨hakin, ht, hu⟩
  apply Alike.bind (alike_opening hkeeps hf hakin ht hu)
  intro _ _ t u h
  rw [hf.schedule]
  exact (alike_drive hkeeps hfollows hf hdecided horder hworkers hlength rfl
    (Idle.start hf horder u) h).congr rfl rfl

end Passes

variable [DecidableEq κ] [DecidableEq ς]

/-- **A single worker simulates a sequential run** on pooled storage in which nothing of the frame
is bound. Whatever is registered and pooled, whatever states passes require, whichever allocations
fail, and whichever passes fail, both runs return or both stop with the same error. They let the
same passes do their work in the same order, all of them if they return, and make the same calls,
except for the order in which storage is given up after the work of a pass. In the end the counts of
storage are the same, and as many instances are pooled under each key. -/
theorem single_worker {frame : Frame} {plan : Plan} {allocate : κ → EStateM StorageError τ η}
    {work : PassId → Pass → IdMap .resource η → EStateM WorkFault ω Unit}
    {verdict : PassId → Option String} (hdeclared : frame.Declared)
    (hplan : Plan.ofFrame frame = .ok plan) (s : Storage κ η ς τ) (own : ω)
    (hunbound : ∀ r, frame.hasResource r → s.isConstructed r = false)
    (hdecided : Decided work verdict) :
    Alike (Run.sequential (watched frame allocate work) frame plan)
      (Run.parallel (.atLeastOne 1) (watched frame allocate work) frame plan) (unwatched s own)
      (unwatched s own) (Simulates plan.order)
      fun t u => ∃ ran, ran <+: plan.order ∧ Simulates ran t u := by
  have hf := Plan.fits_of_ofFrame hdeclared hplan
  have horder := Plan.order_of_ofFrame hplan
  have hworks : ∀ p pass handles own,
      Ends (work p pass handles) own (fun _ _ => True) fun _ _ => True :=
    fun _ _ _ _ => Ends.always
  have hkept : Kept frame plan allocate (Follows (η := η) frame allocate s.account) :=
    follows_kept hf
  have hkeeps := ((hkept.host_keeps (ς := ς) ∅).observer hworks).recorder
  have hfollows : Follows frame allocate s.account (Ledger.empty : Ledger η) s.account :=
    Follows.empty fun r hr => Storage.isConstructed_eq_false_iff.mp (hunbound r hr)
  have hakin : Akin [] (unwatched s own) (unwatched s own) := ⟨.nil, rfl, rfl⟩
  apply (alike_run hkeeps (fun hI => hI.1.1) hf hdecided horder hakin
    ⟨⟨hfollows, Observed.Seen.empty⟩, rfl⟩ ⟨⟨hfollows, Observed.Seen.empty⟩, rfl⟩).mono
  · exact fun _ _ hall => hall.simulates
  · rintro t u ⟨ran, hprefix, hran⟩
    exact ⟨ran, hprefix, hran.simulates⟩

/-- Work that counts the passes, of which one has nothing to show the picture on. -/
def screenless (p : PassId) (_ : Pass) (_ : IdMap .resource Int) : EStateM WorkFault Nat Unit :=
  if p = ⟨3⟩ then throw (.failed "no screen") else modify (· + 1)

/-- A picture that cannot be shown is drawn all the same, by one worker as in a sequential run. -/
theorem single_worker_relay : ∃ t u,
    Run.sequential (watched Frame.relay Supply.allocate screenless) Frame.relay Plan.relay
      (unwatched Storage.relay 0) = .error (.passFailed ⟨3⟩ "show" "no screen") t ∧
    Run.parallel (.atLeastOne 1) (watched Frame.relay Supply.allocate screenless) Frame.relay
      Plan.relay (unwatched Storage.relay 0) = .error (.passFailed ⟨3⟩ "show" "no screen") u ∧
    ∃ ran, ran <+: Plan.relay.order ∧ Simulates ran t u := by
  have hdecided : Decided screenless fun p => if p = ⟨3⟩ then some "no screen" else none := by
    constructor
    · intro p pass handles own hverdict
      have hp : p ≠ ⟨3⟩ := by
        rintro rfl
        cases hverdict
      exact ⟨own + 1, by rw [screenless, if_neg hp]; rfl⟩
    · intro p text pass handles own hverdict
      obtain ⟨rfl, rfl⟩ : p = ⟨3⟩ ∧ "no screen" = text := by simpa using hverdict
      exact ⟨own, rfl⟩
  have hruns : (match Run.sequential (watched Frame.relay Supply.allocate screenless) Frame.relay
      Plan.relay (unwatched Storage.relay 0) with
    | .ok _ _ => none
    | .error e _ => some e) = some (.passFailed ⟨3⟩ "show" "no screen") := by decide +kernel
  cases hrun : Run.sequential (watched Frame.relay Supply.allocate screenless) Frame.relay
      Plan.relay (unwatched Storage.relay 0) with
  | ok _ t =>
      rw [hrun] at hruns
      cases hruns
  | error e t =>
      rw [hrun] at hruns
      cases hruns
      obtain ⟨u, hparallel, hsimulates⟩ := (single_worker ⟨_, _, rfl⟩ Plan.ofFrame_relay
        Storage.relay 0 (fun _ _ => rfl) hdecided).error hrun
      exact ⟨t, u, rfl, hparallel, hsimulates⟩

end Dispatch

end FramePlan
