import FramePlan.Proofs.Run.Lockstep
import FramePlan.Proofs.Run.Observer
import FramePlan.Proofs.Storage.Ownership
import FramePlan.Proofs.Storage.Supply

/-!
# Passes that run together do not race

Two passes run at the same time only if neither precedes the other, and then what they share they
both read only. As no instance has two owners, they share an instance only if they share its
resource.

* `Dispatch.Reachable.raceFree` — from one turn to all of them.
* `Dispatch.exclusion_sound` — the statement for pooled storage.
-/

namespace FramePlan

open History Account

variable {κ η ς τ σ ω : Type}

namespace Dispatch

/-- The pass has the resource among its inputs, and not among its outputs. -/
def ReadsOnly (frame : Frame) (p : PassId) (r : ResourceId) : Prop :=
  frame.Reads p r ∧ ¬ frame.Outputs p r

/-- What two passes that run have both got a handle of is one resource, which both only read. -/
def RaceFree (frame : Frame) (running : List (PassId × IdMap .resource η)) : Prop :=
  ∀ p ps q qs, (p, ps) ∈ running → (q, qs) ∈ running → p ≠ q → ∀ x y h,
    ps.get? x = some h → qs.get? y = some h → x = y ∧ ReadsOnly frame p x ∧ ReadsOnly frame q x

theorem RaceFree.mono {running fewer : List (PassId × IdMap .resource η)}
    (h : RaceFree frame running) (hfewer : ∀ x ∈ fewer, x ∈ running) : RaceFree frame fewer :=
  fun p ps q qs hp hq => h p ps q qs (hfewer _ hp) (hfewer _ hq)

variable {frame : Frame} {plan : Plan} {begun : List PassId} {d : Dispatch σ η} {p q : PassId}
  {r : ResourceId}

/-- No pass that runs precedes another. -/
theorem Orderly.not_precedes (h : Orderly frame plan begun d) (hp : p ∈ d.runningPasses)
    (hq : q ∈ d.runningPasses) : ¬ plan.graph.Precedes p q :=
  fun hpq => (h.running p hp).2 (h.done_of_precedes (h.running q hq).1 hpq)

/-- So what it shares with another it only reads. -/
theorem Orderly.readsOnly (h : Orderly frame plan begun d) (hf : plan.Fits frame) (hne : p ≠ q)
    (hp : p ∈ d.runningPasses) (hq : q ∈ d.runningPasses) (hpr : frame.Touches p r)
    (hqr : frame.Touches q r) : ReadsOnly frame p r := by
  have hnot : ¬ frame.Outputs p r := by
    intro hout
    rcases hf.conflict hne hout hqr with hpq | hqp
    · exact h.not_precedes hp hq hpq
    · exact h.not_precedes hq hp hqp
  refine ⟨?_, hnot⟩
  rcases Frame.touches_iff.mp hpr with hreads | hout
  · exact hreads
  · exact absurd (Frame.outputs_iff.mpr hout) hnot

/-- A pass that runs holds the current handles of its resources. -/
theorem Acted.current {I : Ledger η → σ → Prop} {L : Ledger η} {a : Account κ η ς τ}
    {handles : IdMap .resource η} {x : ResourceId} {h : η} (hacted : Acted frame plan I begun d L)
    (horderly : Orderly frame plan begun d) (hgranted : Granted frame L a)
    (hrunning : (p, handles) ∈ d.running) (hget : handles.get? x = some h) :
    frame.Touches p x ∧ ∃ origin, a.owners.get? x = some (h, origin) := by
  obtain ⟨hkeys, hcurrent⟩ := hgranted p handles (hacted.grants _ hrunning)
  have htouch : frame.Touches p x := (hkeys x).mp (by simp [hget])
  have hruns : p ∈ d.runningPasses := List.mem_map.mpr ⟨_, hrunning, rfl⟩
  refine ⟨htouch, hcurrent x h hget fun hgone => ?_⟩
  -- The storage of a resource is given up by its last user, and this one still runs.
  exact (horderly.running p hruns).2 ((hacted.covers.gone_iff.mp hgone).1 p htouch)

theorem Acted.raceFree {I : Ledger η → σ → Prop} {L : Ledger η} {a : Account κ η ς τ}
    (hacted : Acted frame plan I begun d L) (hf : plan.Fits frame)
    (horderly : Orderly frame plan begun d) (hgranted : Granted frame L a)
    (hnodup : a.handles.Nodup) : RaceFree frame d.running := by
  intro p ps q qs hp hq hne x y h hx hy
  obtain ⟨hpx, _, hownx⟩ := hacted.current horderly hgranted hp hx
  obtain ⟨hqy, _, howny⟩ := hacted.current horderly hgranted hq hy
  have hxy : x = y := eq_of_handle hnodup hownx howny
  subst hxy
  have hpruns : p ∈ d.runningPasses := List.mem_map.mpr ⟨_, hp, rfl⟩
  have hqruns : q ∈ d.runningPasses := List.mem_map.mpr ⟨_, hq, rfl⟩
  exact ⟨rfl, horderly.readsOnly hf hne hpruns hqruns hpx hqy,
    horderly.readsOnly hf hne.symm hqruns hpruns hqy hpx⟩

/-- **Passes that run together do not race**, if a host keeps them from it as long as there is no
error: after one no more passes begin. -/
theorem Reachable.raceFree {host : Host σ η} {I : Ledger η → σ → Prop} {stops : Prop} {s : σ}
    (h : Reachable host frame plan (Dispatch.start plan s) d) (hf : plan.Fits frame)
    (hcalm : host.Calm) (hkeeps : host.Keeps frame plan I stops)
    (hs : I ⟨plan.prologue.before ++ plan.prologue.after, []⟩ s)
    (hI : ∀ L t, I L t → ∃ a : Account κ η ς τ, Granted frame L a ∧ a.handles.Nodup) :
    RaceFree frame d.running := by
  induction h with
  | refl => exact fun p ps _ _ hp => absurd hp List.not_mem_nil
  | step hreach hstep ih =>
      obtain ⟨begun, hinStep⟩ := hreach.inStep hf hcalm hkeeps hs
      obtain ⟨⟨begun', hinStep'⟩, hnone | hfewer⟩ := hinStep.step hf hcalm hkeeps hstep
      · obtain ⟨L, hacted⟩ := hinStep'.acted hnone
        obtain ⟨a, hgranted, hnodup⟩ := hI L _ hacted.keeps
        exact hacted.raceFree hf hinStep'.orderly hgranted hnodup
      · exact ih.mono hfewer

end Dispatch

namespace Run

variable {frame : Frame} {plan : Plan} {allocate : κ → EStateM StorageError τ η}

/-- What a history of the plan on pooled storage leaves to each pass. -/
def Owned (frame : Frame) (allocate : κ → EStateM StorageError τ η) (s : Storage κ η ς τ)
    (L : Ledger η) (t : Storage κ η ς τ) : Prop :=
  Exclusive allocate s.account L t.account ∧ Granted frame L t.account

theorem Owned.empty {s : Storage κ η ς τ} (hunbound : ∀ r, s.isConstructed r = false)
    (hpool : s.pool = ∅) : Owned frame allocate s Ledger.empty s :=
  ⟨Exclusive.empty (fun r => Storage.isConstructed_eq_false_iff.mp (hunbound r)) hpool,
    Granted.empty⟩

theorem owned_keeps [DecidableEq κ] [DecidableEq ς] (frame : Frame) (plan : Plan)
    {s : Storage κ η ς τ}
    (hdistinguishes : s.account.Distinguishes allocate) :
    (Storage.host frame allocate ∅).Keeps frame plan (Owned frame allocate s) True :=
  ((exclusive_kept hdistinguishes).and granted_kept).host_keeps ∅

end Run

namespace Dispatch

variable [DecidableEq κ] [DecidableEq ς]

/-- **No two passes race on an instance of pooled storage**, in whatever order workers take their
turns and whatever fails in them, if nothing is bound or waits in the pool at the start and handles
tell instances apart. -/
theorem exclusion_sound {frame : Frame} {plan : Plan} {allocate : κ → EStateM StorageError τ η}
    {work : PassId → Pass → IdMap .resource η → EStateM WorkFault ω Unit}
    (hdeclared : frame.Declared) (hplan : Plan.ofFrame frame = .ok plan)
    (s : Storage κ η ς τ) (own : ω) (hunbound : ∀ r, s.isConstructed r = false)
    (hpool : s.pool = ∅) (hdistinguishes : s.account.Distinguishes allocate)
    (workers : WorkerCount) (first : Observed (Storage κ η ς τ) ω η)
    (hopen : Run.openParallel workers (Observed.observer (Storage.host frame allocate ∅) work)
      frame plan (Observed.start s own) = .ok () first)
    (d : Dispatch (Observed (Storage κ η ς τ) ω η) η)
    (hd : Reachable (Observed.observer (Storage.host frame allocate ∅) work) frame plan
      (Dispatch.start plan first) d) : RaceFree frame d.running := by
  have hf := Plan.fits_of_ofFrame hdeclared hplan
  have hwork : ∀ p pass handles own,
      Ends (work p pass handles) own (fun _ _ => True) fun _ _ => True :=
    fun _ _ _ _ => Ends.always
  have hkeeps := (Run.owned_keeps frame plan hdistinguishes).observer hwork
  have hfirst := (hkeeps.openParallel (s := Observed.start s own) hf workers
    ⟨Run.Owned.empty hunbound hpool, Observed.Seen.empty⟩).ok hopen
  exact hd.raceFree hf (Observed.observer_calm (Storage.host_calm frame allocate ∅)) hkeeps hfirst
    fun _ t ht => ⟨t.host.account, ht.1.2, ht.1.1.nodup⟩

end Dispatch

/-- Zero is not among the numbers that the allocator gives. -/
theorem Storage.relay_distinguishes : Storage.relay.account.Distinguishes Supply.allocate := by
  have himports : ∀ r h, Storage.relay.account.Imports r h → r = ⟨1⟩ ∧ h = 0 := by
    rintro r h ⟨external, hreg⟩
    have hregistrations : Storage.relay.account.registrations.get? r =
        if r = ⟨1⟩ then some (.imported 0 "shown")
        else if r = ⟨0⟩ then some (.temporal "colour") else none :=
      IdMap.get?_insert.trans (congrArg _ IdMap.get?_insert)
    rw [hregistrations] at hreg
    split at hreg
    · cases hreg
      exact ⟨‹_›, rfl⟩
    · split at hreg <;> cases hreg
  constructor
  · intro r x h hr hx
    rw [(himports r h hr).1, (himports x h hx).1]
  · intro hs supply hissues
    obtain ⟨hnodup, hbounds⟩ := Supply.distinct_of_issues hissues
    refine ⟨hnodup, fun h hh r hr => ?_⟩
    have hpos := (hbounds h hh).1
    have hzero := (himports r h hr).2
    have hmade : Storage.relay.account.supply.made = 0 := rfl
    omega

namespace Dispatch

/-- A host whose passes count themselves. -/
def counting : Host (Observed (Storage String Int String Supply) Nat Int) Int :=
  Observed.observer (Storage.host Frame.relay Supply.allocate ∅) fun _ _ _ n => .ok () (n + 1)

/-- Whoever cuts and whoever tints the draft can do so at the same time. -/
theorem exclusion_sound_relay : ∃ first d,
    Run.openParallel ⟨2, by decide⟩ counting Frame.relay Plan.relay
      (Observed.start Storage.relay 0) = .ok () first ∧
    Reachable counting Frame.relay Plan.relay (Dispatch.start Plan.relay first) d ∧
    d.runningPasses = [⟨1⟩, ⟨2⟩] ∧ RaceFree Frame.relay d.running := by
  have hsound := exclusion_sound ⟨_, _, rfl⟩ Plan.ofFrame_relay Storage.relay 0 (fun _ => rfl) rfl
    Storage.relay_distinguishes ⟨2, by decide⟩ _ (rfl : Run.openParallel _ counting _ _ _ = _)
  have hstart : Reachable counting Frame.relay Plan.relay (Dispatch.start Plan.relay
      (counting.log ⟨.debug, "ParallelExecutor: running 'relay' (4 passes, 2 workers)"⟩
        (Observed.start Storage.relay 0))) _ := .refl
  have hdraw := hstart.step (.begin rfl)
  have hdrawn := hdraw.step (.finish (List.mem_cons_self ..))
  obtain ⟨d, hcut, hnext⟩ : ∃ d, Reachable counting Frame.relay Plan.relay _ d ∧
      (d.begin? counting Frame.relay Plan.relay).map runningPasses = some [⟨1⟩, ⟨2⟩] :=
    ⟨_, hdrawn.step (.begin rfl), by decide +kernel⟩
  obtain ⟨e, htint, hruns⟩ := Option.map_eq_some_iff.mp hnext
  exact ⟨_, e, rfl, hcut.step (.begin htint), hruns, hsound _ (hcut.step (.begin htint))⟩

end Dispatch

end FramePlan
