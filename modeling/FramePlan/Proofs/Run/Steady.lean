import FramePlan.Proofs.Run.Agreement
import FramePlan.Proofs.Run.Script
import FramePlan.Proofs.Storage.Demand

/-!
# Steady runs

A run that went through once can go on for ever: the same plan is run again without asking the
allocator for anything, does to the counts of storage what it did the first time, and leaves as many
instances in the pool.

* `Account.Steered.admits` — what has been enough for a script is enough for its next action.
* `Account.Kept.ends_act` — an action that storage has everything for is taken.
* `Run.ends_spared` — storage that has enough runs a plan without the allocator.
* `Run.steady_sound` — the joint statement.
-/

namespace FramePlan

open History Account

variable {κ η ς τ ω : Type}

/-- A call that returns on storage returns in an observed run. -/
theorem Acting.ends_call {α : Type} {act : EStateM StorageError (Storage κ η ς τ) α}
    {s : Acting (Observed (Storage κ η ς τ) ω η) η} {served : α → Storage κ η ς τ → Prop}
    {returned : α → Acting (Observed (Storage κ η ς τ) ω η) η → Prop}
    (h : Ends act s.host.host served fun _ _ => False)
    (hreturned : ∀ a t, served a t → returned a { s with host.host := t }) :
    Ends (withHost ((Observed.withHost (act.adaptExcept .refused)).adaptExcept .ofFault)) s
      returned fun _ _ => False :=
  ends_withHost (Ends.adaptExcept (Observed.ends_withHost (Ends.adaptExcept
    (h.mono hreturned fun _ _ hstop => hstop))))

variable [DecidableEq κ] {frame : Frame} {plan : Plan} {allocate : κ → EStateM StorageError τ η}
  {action : Action} {r : ResourceId}
  {work : PassId → Pass → IdMap .resource η → EStateM WorkFault ω Unit}

namespace Account

variable {a₀ a b c : Account κ η ς τ} {L : Ledger η}

/-! ### What a run needs -/

/-- Storage has what an action takes, with no need of the allocator. -/
def Admits (frame : Frame) (a : Account κ η ς τ) : Action → Prop
  | .construct r => a.owners.get? r = none ∧
    ∃ registration, a.registrations.get? r = some registration ∧
      ∀ key, registration.origin.key? = some key → a.pool.available key ≠ 0
  | .move m => a.owners.get? m.dst = none ∧ a.owners.get? m.src ≠ none
  | .destruct r => a.owners.get? r ≠ none
  | .request p => frame.pass? p ≠ none ∧ ∀ r, frame.Touches p r → a.owners.get? r ≠ none
  | .work p => frame.pass? p ≠ none

/-- The allocator was left alone, and under each key there are as many instances as before. -/
structure Spares (a b : Account κ η ς τ) : Prop where
  supply : b.supply = a.supply
  allocated : b.stats.allocated = a.stats.allocated
  holdings : ∀ key, b.holdings key = a.holdings key

theorem Spares.refl : Spares a a := ⟨rfl, rfl, fun _ => rfl⟩

theorem Spares.trans (h : Spares a b) (h' : Spares b c) : Spares a c :=
  ⟨h'.supply.trans h.supply, h'.allocated.trans h.allocated,
    fun key => (h'.holdings key).trans (h.holdings key)⟩

theorem Spares.of_stock
    (h : b.stock.Perm a.stock ∧ b.supply = a.supply ∧ b.stats.allocated = a.stats.allocated) :
    Spares a b :=
  ⟨h.2.1, h.2.2, fun _ => holdings_of_stock h.1⟩

/-- Storage is ready for a run of the plan without the allocator. -/
structure Primed (frame : Frame) (plan : Plan) (a : Account κ η ς τ) : Prop where
  unbound : ∀ r, frame.hasResource r → a.owners.get? r = none
  registered : ∀ r ∈ plan.constructs, a.registrations.contains r
  covers : Covers a plan.script a

/-- The second account is the first one again, as far as it matters for more runs. -/
structure Restored (a b : Account κ η ς τ) : Prop where
  registrations : b.registrations = a.registrations
  owners : b.owners = a.owners
  holdings : ∀ key, b.holdings key = a.holdings key

theorem Restored.refl : Restored a a := ⟨rfl, rfl, fun _ => rfl⟩

theorem Restored.trans (h : Restored a b) (h' : Restored b c) : Restored a c :=
  ⟨h'.registrations.trans h.registrations, h'.owners.trans h.owners,
    fun key => (h'.holdings key).trans (h.holdings key)⟩

theorem Restored.of_pool (hregistrations : b.registrations = a.registrations)
    (howners : b.owners = a.owners) (hpool : b.pool = a.pool) : Restored a b where
  registrations := hregistrations
  owners := howners
  holdings key := by rw [holdings_eq, holdings_eq, origins, origins, howners, hpool]

/-- As many instances wait in the pool. -/
theorem Restored.available (h : Restored a b) (key : κ) :
    b.pool.available key = a.pool.available key := by
  have hsame := h.holdings key
  rw [holdings_eq, holdings_eq, origins, origins, h.owners] at hsame
  exact Nat.add_left_cancel hsame

/-- What is ready stays ready. -/
theorem Primed.restored (h : Primed frame plan a) (hab : Restored a b) : Primed frame plan b where
  unbound r hr := by rw [hab.owners]; exact h.unbound r hr
  registered r hr := by rw [hab.registrations]; exact h.registered r hr
  covers before hbefore key := by
    rw [originsAfter_congr hab.registrations hab.owners, hab.holdings]
    exact h.covers before hbefore key

/-! ### The account of a run -/

/-- What is known of the account at each point of a run of the plan. -/
def Steered (frame : Frame) (allocate : κ → EStateM StorageError τ η) (a₀ : Account κ η ς τ)
    (L : Ledger η) (a : Account κ η ς τ) : Prop :=
  (Follows frame allocate a₀ L a ∧ Counted a₀ L a) ∧ Tracks a₀ L a

theorem Steered.empty (hunbound : ∀ r, frame.hasResource r → a.owners.get? r = none) :
    Steered frame allocate a Ledger.empty a :=
  ⟨⟨Follows.empty hunbound, Counted.empty⟩, Tracks.empty⟩

theorem steered_kept (hf : plan.Fits frame) :
    Kept frame plan allocate (Steered frame allocate a₀) :=
  ((follows_kept hf).and counted_kept).and tracks_kept

/-- **What has been enough for the script is enough for its next action.** -/
theorem Steered.admits (h : Steered frame allocate a₀ L a) (hf : plan.Fits frame)
    (hprimed : Primed frame plan a₀) (hspares : Spares a₀ a) {after : List Action}
    (hsplit : plan.script = L.history ++ action :: after)
    (hpermit : Permits frame L.history action) : a.Admits frame action := by
  have hscript : action ∈ plan.script := by rw [hsplit]; simp
  obtain ⟨⟨hfollows, _⟩, htracks⟩ := h
  cases action with
  | construct r =>
      obtain ⟨hfree, hreg⟩ := hfollows.serves_construct hf hprimed.registered hpermit hscript
      obtain ⟨registration, hreg⟩ := Option.ne_none_iff_exists'.mp hreg
      refine ⟨hfree, registration, hreg, fun key hkey => ?_⟩
      have hcovers := hprimed.covers
      rw [hsplit] at hcovers
      exact hcovers.available_ne_zero rfl htracks (hspares.holdings key) hfree hreg hkey
  | move m => exact hfollows.serves_move hf hpermit hscript
  | destruct r => exact hfollows.serves_destruct hf hpermit hscript
  | request p => exact hfollows.serves_request hf hpermit hscript
  | work p =>
      obtain ⟨pass, hpass⟩ := hf.mem_order_iff_pass?.mp ((hf.legal_script.2.work _).mp hscript)
      exact Option.ne_none_iff_exists'.mpr ⟨pass, hpass⟩

/-- A run that is over has given back what it took. -/
theorem Steered.settled (h : Steered frame allocate a₀ L a) (hf : plan.Fits frame)
    (hunbound : ∀ r, frame.hasResource r → a₀.owners.get? r = none)
    (hL : L.history = plan.script) : Settled plan a₀ a :=
  settled_of_perm hf hunbound h.1.1 h.1.2 (hL ▸ List.Perm.refl _)

/-- **A run that is over leaves storage ready for the next one.** -/
theorem Steered.primed (h : Steered frame allocate a₀ L a) (hf : plan.Fits frame)
    (hunbound : ∀ r, frame.hasResource r → a₀.owners.get? r = none)
    (hregistered : ∀ r ∈ plan.constructs, a₀.registrations.contains r)
    (hL : L.history = plan.script) : Primed frame plan a where
  unbound r hr := by rw [(h.settled hf hunbound hL).owners]; exact hunbound r hr
  registered r hr := by rw [h.2.registrations]; exact hregistered r hr
  covers before hbefore key := by
    rw [originsAfter_congr h.2.registrations (h.settled hf hunbound hL).owners]
    exact h.2.covers before (hL ▸ hbefore) key

end Account

/-! ### Single calls -/

/-- **What waits in the pool is used first.** -/
theorem Storage.ends_construct_admitted {s : Storage κ η ς τ}
    (h : s.account.Admits frame (.construct r)) :
    Ends (construct allocate frame r) s
      (fun _ t => s.account.owners.get? r = none ∧ Constructs allocate r s.account t.account ∧
        Spares s.account t.account) fun _ _ => False := by
  obtain ⟨hfree, registration, hreg, havailable⟩ := h
  have hprofile : ∃ p, Profile.construct allocate r s.profile = .ok () p ∧ p.supply = s.supply ∧
      p.stats.allocated = s.stats.allocated := by
    have horigin : ¬ (s.profile.origin r).isSome := mt isSome_origin_iff.mp (not_not.mpr hfree)
    have hreg' : s.profile.registrations.get? r = some registration := hreg
    rw [Profile.construct, if_neg horigin, hreg']
    cases registration with
    | imported handle external => exact ⟨_, rfl, rfl, rfl⟩
    | temporal key =>
        have hne : s.profile.available key ≠ 0 := havailable key rfl
        simp only [if_neg hne]
        exact ⟨_, rfl, rfl, rfl⟩
  obtain ⟨p, hok, hsupply, hallocated⟩ := hprofile
  refine (ends_construct.and (construct_mirrors.ends hok)).mono ?_ fun _ _ hstop => hstop.2
  rintro _ t ⟨⟨_, hconstructs⟩, hprofile⟩
  refine ⟨hfree, hconstructs, ?_⟩
  rcases hconstructs.stock hfree with hsame | ⟨_, _, _, _, hmore⟩
  · exact .of_stock hsame
  · -- Then the allocator would have been called.
    have hless : t.stats.allocated = s.stats.allocated :=
      (congrArg (·.stats.allocated) hprofile).trans hallocated
    exact absurd (hless.symm.trans hmore) (Nat.succ_ne_self _).symm

section Calls

variable [DecidableEq ς]

/-- Work that succeeds leaves storage as it is. -/
theorem Observed.ends_doWork
    (hwork : ∀ p pass handles own, ∃ own', work p pass handles own = .ok () own')
    {onPanic : String → EStateM RunError (Observed (Storage κ η ς τ) ω η) Unit} {p : PassId}
    {pass : Pass} {handles : IdMap .resource η} {s : Observed (Storage κ η ς τ) ω η} :
    Ends (Run.doWork (observer (Storage.host frame allocate ∅) work) onPanic p pass handles) s
      (fun _ t => t.host = s.host) fun _ _ => False := by
  obtain ⟨own', hown⟩ := hwork p pass handles s.own
  have hworked : (observer (Storage.host frame allocate ∅) work).work p pass handles s =
      .ok () ⟨s.host, own', s.views ++ [⟨p, handles, s.host⟩]⟩ := by
    refine (bind_of_ok rfl).trans ((bind_of_ok rfl).trans ?_)
    simp only [withOwn, hown]
  refine Ends.of_ok (a := ()) (t := ⟨s.host, own', s.views ++ [⟨p, handles, s.host⟩]⟩) ?_ rfl
  rw [Run.doWork, hworked]

/-- **An action that storage has everything for is taken**, and keeps what the calls of a run
keep. -/
theorem Account.Kept.ends_act {J : Ledger η → Account κ η ς τ → Prop} {L : Ledger η}
    {s : Acting (Observed (Storage κ η ς τ) ω η) η} (h : Kept frame plan allocate J)
    (hwork : ∀ p pass handles own, ∃ own', work p pass handles own = .ok () own')
    (hs : J L s.host.host.account) (hpermit : Permits frame L.history action)
    (hscript : action ∈ plan.script) (hadmits : s.host.host.account.Admits frame action) :
    Ends ((Observed.observer (Storage.host frame allocate ∅) work).act frame action) s
      (fun _ t => (∃ M : Ledger η, M.history = L.history ++ [action] ∧ J M t.host.host.account) ∧
        Spares s.host.host.account t.host.host.account) fun _ _ => False := by
  cases action with
  | construct r =>
      refine Acting.ends_call (Storage.ends_construct_admitted hadmits) ?_
      rintro _ t ⟨hfree, hconstructs, hspares⟩
      exact ⟨⟨L.add [.construct r], rfl, h.construct hs hpermit hscript hfree hconstructs⟩, hspares⟩
  | move m =>
      have hmove : Ends (Storage.move frame m) s.host.host
          (fun _ t => s.host.host.account.owners.get? m.dst = none ∧
            Moves m s.host.host.account t.account) fun _ _ => False := by
        refine Storage.ends_move.mono (fun _ _ ht => ht) ?_
        rintro _ _ (hbound | hnone)
        · exact hbound hadmits.1
        · exact hadmits.2 hnone
      refine Acting.ends_call hmove ?_
      rintro _ t ⟨hfree, hmoves⟩
      exact ⟨⟨L.add [.move m], rfl, h.move hs hpermit hscript hfree hmoves⟩,
        .of_stock (hmoves.stock hfree)⟩
  | destruct r =>
      refine Acting.ends_call
        (Storage.ends_destruct.mono (fun _ _ ht => ht) fun _ _ hnone => hadmits hnone) ?_
      intro _ t hdestructs
      exact ⟨⟨L.add [.destruct r], rfl, h.destruct hs hpermit hscript hdestructs⟩,
        .of_stock hdestructs.stock⟩
  | request p =>
      have hrequest : Ends (Storage.request frame p) s.host.host
          (fun handles t => t.account = s.host.host.account ∧
            s.host.host.account.Grants frame p handles) fun _ _ => False := by
        refine Storage.ends_request.mono (fun _ _ ht => ht) ?_
        rintro _ _ (hnone | ⟨x, htouch, hnone⟩)
        · exact hadmits.1 hnone
        · exact hadmits.2 x htouch hnone
      refine Ends.bind (Acting.ends_call hrequest ?_)
      rintro handles t ⟨hsame, hgrants⟩
      refine ends_modify ?_
      simp only [hsame]
      exact ⟨⟨L.grant p handles, rfl, h.request hs hpermit hgrants⟩, .refl⟩
  | work p =>
      obtain ⟨pass, hpass⟩ := Option.ne_none_iff_exists'.mp hadmits
      refine Ends.bind (Acting.ends_withHost (Host.Keeps.lookUpPass hpass ?_))
      refine Ends.bind (Ends.of_ok (a := s) (t := s) rfl ?_)
      refine Acting.ends_withHost ((Observed.ends_doWork hwork).mono ?_ fun _ _ hstop => hstop)
      intro _ t hsame
      simp only [hsame]
      exact ⟨⟨L.add [.work p], rfl, h.work hs hpermit⟩, .refl⟩

end Calls

namespace Run

/-! ### Whole runs -/

/-- Storage after some actions of a run that left the allocator alone. -/
def Spared (frame : Frame) (allocate : κ → EStateM StorageError τ η) (s : Storage κ η ς τ)
    (before : List Action) (t : Storage κ η ς τ) : Prop :=
  (∃ L : Ledger η, L.history = before ∧ Steered frame allocate s.account L t.account) ∧
    Spares s.account t.account

variable {s : Storage κ η ς τ}

theorem Spared.restored {t : Storage κ η ς τ} (h : Spared frame allocate s plan.script t)
    (hf : plan.Fits frame) (hunbound : ∀ r, frame.hasResource r → s.account.owners.get? r = none) :
    Settled plan s.account t.account ∧ Restored s.account t.account := by
  obtain ⟨⟨L, hL, hsteered⟩, hspares⟩ := h
  have hsettled := hsteered.settled hf hunbound hL
  exact ⟨hsettled, hsteered.2.registrations, hsettled.owners, hspares.holdings⟩

variable [DecidableEq ς]

/-- **Storage that has enough runs a plan without the allocator.** -/
theorem ends_spared (hf : plan.Fits frame)
    (hwork : ∀ p pass handles own, ∃ own', work p pass handles own = .ok () own')
    (hprimed : Primed frame plan s.account) (own : ω) :
    Ends (sequential (Observed.observer (Storage.host frame allocate ∅) work) frame plan)
      (Observed.start s own) (fun _ t => Spared frame allocate s plan.script t.host)
      fun _ _ => False := by
  have hround : ∀ before action after
      (u : Acting (Observed (Storage κ η ς τ) ω η) η), plan.script = before ++ action :: after →
      Spared frame allocate s before u.host.host →
      Ends ((Observed.observer (Storage.host frame allocate ∅) work).act frame action) u
        (fun _ v => Spared frame allocate s (before ++ [action]) v.host.host)
        fun _ _ => False := by
    rintro before action after u hsplit ⟨⟨L, rfl, hsteered⟩, hspares⟩
    have hlegal := hf.legal_script.1
    rw [hsplit] at hlegal
    have hpermit : Permits frame L.history action := (legal_append.mp hlegal).2.1
    have hadmits := hsteered.admits hf hprimed hspares hsplit hpermit
    have hmem : action ∈ plan.script := by rw [hsplit]; simp
    refine ((steered_kept hf).ends_act hwork hsteered hpermit hmem hadmits).mono ?_
      fun _ _ hstop => hstop
    rintro _ v ⟨hv, hmore⟩
    exact ⟨hv, hspares.trans hmore⟩
  have hstart : Spared frame allocate s [] s :=
    ⟨⟨Ledger.empty, rfl, Steered.empty hprimed.unbound⟩, .refl⟩
  have hacts := sequential_acts (Observed.observer (Storage.host frame allocate ∅) work) hf
    (Observed.start s own) ∅
  refine (hacts.ends (Ends.forM (I := fun before u => Spared frame allocate s before u.host.host)
    hround hstart)).mono ?_ fun _ _ hstop => hstop.elim fun _ h => h.2
  rintro _ _ ⟨u, rfl, hu⟩
  exact hu

/-- What is known of a run is known of one that succeeds, whether it calls the allocator or not. -/
theorem steered_of_ok (hf : plan.Fits frame)
    (hunbound : ∀ r, frame.hasResource r → s.account.owners.get? r = none)
    {own : ω} {t : Observed (Storage κ η ς τ) ω η}
    (hrun : sequential (Observed.observer (Storage.host frame allocate ∅) work) frame plan
      (Observed.start s own) = .ok () t) :
    ∃ L : Ledger η, L.history = plan.script ∧
      Steered frame allocate s.account L t.host.account := by
  have hhost : (Storage.host frame allocate ∅).Keeps frame plan
      (fun L u => Steered frame allocate s.account L u.account) True :=
    (steered_kept hf).host_keeps ∅
  have hworks : ∀ p pass handles own,
      Ends (work p pass handles) own (fun _ _ => True) fun _ _ => True :=
    fun _ _ _ _ => Ends.always
  obtain ⟨grants, hsteered, _⟩ := ((hhost.observer hworks).sequential hf
    ⟨Steered.empty hunbound, Observed.Seen.empty⟩).ok hrun
  exact ⟨_, rfl, hsteered⟩

/-! ### One run after another -/

/-- What storage can be like after more runs of the plan. What is done to it between them changes
neither what is registered, nor who owns what, nor the pool. -/
inductive Later (frame : Frame) (plan : Plan) (allocate : κ → EStateM StorageError τ η)
    (work : PassId → Pass → IdMap .resource η → EStateM WorkFault ω Unit) (t : Storage κ η ς τ) :
    Storage κ η ς τ → Prop where
  | refl : Later frame plan allocate work t t
  | run {u : Storage κ η ς τ} {own : ω} {v : Observed (Storage κ η ς τ) ω η} :
    Later frame plan allocate work t u →
    sequential (Observed.observer (Storage.host frame allocate ∅) work) frame plan
      (Observed.start u own) = .ok () v →
    Later frame plan allocate work t v.host
  | between {u v : Storage κ η ς τ} : Later frame plan allocate work t u →
    v.registrations = u.registrations → v.account.owners = u.account.owners → v.pool = u.pool →
    Later frame plan allocate work t v

/-- Runs without the allocator leave storage as the first of them found it. -/
theorem Later.restored {t u : Storage κ η ς τ} (h : Later frame plan allocate work t u)
    (hf : plan.Fits frame)
    (hwork : ∀ p pass handles own, ∃ own', work p pass handles own = .ok () own')
    (hprimed : Primed frame plan t.account) : Restored t.account u.account := by
  induction h with
  | refl => exact .refl
  | run _ hrun ih =>
      have hready := hprimed.restored ih
      have hspared := (ends_spared hf hwork hready _).ok hrun
      exact ih.trans (hspared.restored hf hready.unbound).2
  | between _ hregistrations howners hpool ih =>
      exact ih.trans (.of_pool hregistrations howners hpool)

/-- **Steady runs allocate nothing.** If nothing of the frame is bound, what the plan constructs is
registered and the work of passes succeeds, then after one run that succeeds each later run succeeds
without a call to the allocator. Each recycles and moves as many instances as the first run, reuses
as many as that one allocated and reused, and leaves as many in the pool under each key. -/
theorem steady_sound {allocate : κ → EStateM StorageError τ η} (hdeclared : frame.Declared)
    (hplan : Plan.ofFrame frame = .ok plan) (s : Storage κ η ς (Metered κ η τ)) (own : ω)
    (hunbound : ∀ r, frame.hasResource r → s.isConstructed r = false)
    (hregistered : ∀ r ∈ plan.constructs, s.registrations.contains r)
    (hwork : ∀ p pass handles own, ∃ own', work p pass handles own = .ok () own')
    {t : Observed (Storage κ η ς (Metered κ η τ)) ω η}
    (hrun : sequential (Observed.observer (Storage.host frame (Metered.meter allocate) ∅) work)
      frame plan (Observed.start s own) = .ok () t) :
    ∃ acquired recycled moved,
      t.host.stats.allocated + t.host.stats.reused =
        s.stats.allocated + s.stats.reused + acquired ∧
      t.host.stats.recycled = s.stats.recycled + recycled ∧
      t.host.stats.moved = s.stats.moved + moved ∧
      ∀ u, Later frame plan (Metered.meter allocate) work t.host u → ∀ own', ∃ v,
        sequential (Observed.observer (Storage.host frame (Metered.meter allocate) ∅) work) frame
          plan (Observed.start u own') = .ok () v ∧
        v.host.supply = u.supply ∧
        v.host.stats.allocated = u.stats.allocated ∧
        v.host.stats.reused = u.stats.reused + acquired ∧
        v.host.stats.recycled = u.stats.recycled + recycled ∧
        v.host.stats.moved = u.stats.moved + moved ∧
        ∀ key, v.host.pool.available key = t.host.pool.available key := by
  have hf := Plan.fits_of_ofFrame hdeclared hplan
  have hfree : ∀ r, frame.hasResource r → s.account.owners.get? r = none :=
    fun r hr => Storage.isConstructed_eq_false_iff.mp (hunbound r hr)
  obtain ⟨L, hL, hsteered⟩ := steered_of_ok hf hfree hrun
  have hfirst := hsteered.settled hf hfree hL
  have hprimed := hsteered.primed hf hfree hregistered hL
  refine ⟨_, _, _, hfirst.acquired, hfirst.recycled, hfirst.moved, fun u hu own' => ?_⟩
  have hrestored := hu.restored hf hwork hprimed
  have hready := hprimed.restored hrestored
  obtain ⟨_, v, hv, hspared⟩ := (ends_spared hf hwork hready own').exists_ok
  obtain ⟨hsettled, hagain⟩ := hspared.restored hf hready.unbound
  -- The plan acquires the same instances in each run, as the registrations are the same.
  have hsame : u.account.acquires = s.account.acquires :=
    acquires_congr (hrestored.registrations.trans hsteered.2.registrations)
  have hallocated : v.host.stats.allocated = u.stats.allocated := hspared.2.allocated
  have hacquired : v.host.stats.allocated + v.host.stats.reused =
      u.stats.allocated + u.stats.reused + plan.script.countP u.account.acquires :=
    hsettled.acquired
  have hrecycled := hsettled.recycled
  rw [hsame] at hacquired hrecycled
  exact ⟨v, hv, hspared.2.supply, hallocated, by omega, hrecycled, hsettled.moved,
    (hrestored.trans hagain).available⟩

/-- The storage of the relay, with an allocator whose calls are taken down. -/
def meteredRelay : Storage String Int String (Metered String Int Supply) :=
  ((Storage.empty (.start ⟨[], none, 0⟩)).registerTemporal ⟨0⟩ "colour").registerImported ⟨1⟩ 0
    "shown"

/-- The second run of the relay reuses what the first one allocated. -/
theorem steady_sound_relay : ∃ t v,
    sequential (Observed.observer (Storage.host Frame.relay (Metered.meter Supply.allocate) ∅)
      fun _ _ _ n => .ok () (n + 1)) Frame.relay Plan.relay (Observed.start meteredRelay 0) =
        .ok () t ∧
    sequential (Observed.observer (Storage.host Frame.relay (Metered.meter Supply.allocate) ∅)
      fun _ _ _ n => .ok () (n + 1)) Frame.relay Plan.relay (Observed.start t.host t.own) =
        .ok () v ∧
    v.host.supply = t.host.supply ∧
    v.host.stats.reused = t.host.stats.reused + (t.host.stats.allocated + t.host.stats.reused) := by
  have hreturned : Dispatch.isReturned (sequential
      (Observed.observer (Storage.host Frame.relay (Metered.meter Supply.allocate) ∅)
        fun _ _ _ n => .ok () (n + 1)) Frame.relay Plan.relay
      (Observed.start meteredRelay 0)) = true := by decide +kernel
  cases hrun : sequential
      (Observed.observer (Storage.host Frame.relay (Metered.meter Supply.allocate) ∅)
        fun _ _ _ n => .ok () (n + 1)) Frame.relay Plan.relay (Observed.start meteredRelay 0) with
  | error e t =>
      rw [hrun] at hreturned
      cases hreturned
  | ok _ t =>
      obtain ⟨acquired, _, _, hacquired, _, _, hlater⟩ := steady_sound ⟨_, _, rfl⟩
        Plan.ofFrame_relay meteredRelay 0 (fun _ _ => rfl) (by decide)
        (fun _ _ _ n => ⟨n + 1, rfl⟩) hrun
      obtain ⟨v, hv, hsupply, _, hreused, _⟩ := hlater t.host .refl t.own
      have hfirst : t.host.stats.allocated + t.host.stats.reused = 0 + acquired := hacquired
      exact ⟨t, v, rfl, hv, hsupply, by rw [hreused, hfirst, Nat.zero_add]⟩

end Run

end FramePlan
