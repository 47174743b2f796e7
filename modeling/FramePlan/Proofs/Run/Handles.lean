import FramePlan.Proofs.Plan.Precedence
import FramePlan.Proofs.Run.Exclusion
import FramePlan.Proofs.Run.Lifecycle
import FramePlan.Proofs.Storage.Handover

/-!
# Handles follow resources

In a sequential run the handle of a resource is the same for all passes that use it, and moves hand
it on. Two resources that are in use at the same time have different handles, though both may have
got theirs from the pool.

* `Plan.Fits.handed_of_covers` — the moves of the plan are made before what they lead to is used.
* `Run.handles_sound` — the joint statement.
-/

namespace FramePlan

open History Account

namespace Plan

namespace Fits

variable {plan : Plan} {frame : Frame} {h : List Action} {p q : PassId} {a b r : ResourceId}
  {pre post : List PassId}

/-- Before a resource is used, its storage was handed on to it. -/
theorem handed_of_covers (hf : plan.Fits frame) (hsplit : plan.order = pre ++ q :: post)
    (hc : plan.Covers frame (pre ++ [q]) pre h) (hab : plan.HandsOn a b)
    (hq : frame.Touches q b) : Handed h a b := by
  have hmove : ∀ {x d}, plan.moves.forward.get? x = some d → plan.HandsOn x b →
      .move ⟨d, x⟩ ∈ h := by
    intro x d hforward hxb
    apply (hc.move ⟨d, x⟩).mpr
    exact ⟨hforward, fun p hp => hf.mem_pre_of_precedes hsplit (hf.precedes_of_handsOn hxb hp hq)⟩
  induction hab using Relation.TransGen.head_induction_on with
  | single hforward => exact .single (hmove hforward (.single hforward))
  | head hforward hrest ih => exact .head (hmove hforward (.head hforward hrest)) ih

/-- A resource has its storage until its span is over. -/
theorem not_gone_of_le_last (hf : plan.Fits frame) (hsplit : plan.order = pre ++ q :: post)
    (hc : plan.Covers frame (pre ++ [q]) pre h) {span : Span} (hspan : plan.span? r = some span)
    (hle : pre.length ≤ span.last) : ¬ Gone h r := by
  intro hgone
  have hlt := (hf.released_iff_last_lt hsplit).mp (hc.gone_iff.mp hgone).1 span hspan
  omega

theorem not_gone_of_touches (hf : plan.Fits frame) (hsplit : plan.order = pre ++ q :: post)
    (hc : plan.Covers frame (pre ++ [q]) pre h) (hq : frame.Touches q r) : ¬ Gone h r :=
  fun hgone => hf.notMem_pre hsplit ((hc.gone_iff.mp hgone).1 q hq)

/-- A pass splits the order into those that come before it and those that come after it. -/
theorem exists_split (hf : plan.Fits frame) (hq : frame.Touches q r) :
    ∃ pre post, plan.order = pre ++ q :: post ∧ pre.length = plan.order.idxOf q := by
  obtain ⟨pre, post, hsplit⟩ := List.append_of_mem (hf.mem_order_of_touches hq)
  exact ⟨pre, post, hsplit, (hf.idxOf_self hsplit).symm⟩

theorem mem_snoc_of_idxOf_le (hf : plan.Fits frame) (hsplit : plan.order = pre ++ q :: post)
    (hp : p ∈ plan.order) (hle : plan.order.idxOf p ≤ plan.order.idxOf q) : p ∈ pre ++ [q] := by
  rw [hf.idxOf_self hsplit] at hle
  rcases Nat.lt_or_eq_of_le hle with hlt | heq
  · exact List.mem_append_left _ ((idxOf_lt_iff hsplit).mp hlt)
  · rw [(hf.idxOf_eq_iff hsplit hp).mp heq]
    exact List.mem_append_right _ (List.mem_singleton.mpr rfl)

end Fits

end Plan

namespace Host.Keeps

variable {σ ω η : Type} {host : Host σ η} {frame : Frame} {plan : Plan} {I : Ledger η → σ → Prop}
  {stops : Prop} {work : PassId → Pass → IdMap .resource η → EStateM WorkFault ω Unit}

/-- Each view has the handles that its pass was granted. -/
theorem viewed (h : host.Keeps frame plan I stops)
    (hwork : ∀ p pass handles own, Ends (work p pass handles) own (fun _ _ => True)
      fun _ _ => stops) :
    (Observed.observer host work).Keeps frame plan
      (fun L s => I L s.host ∧ ∀ v ∈ s.views, (v.pass, v.handles) ∈ L.grants) stops where
  log note hs := ⟨h.log note hs.1, hs.2⟩
  construct hs hp hm := Observed.ends_withHost ((h.construct hs.1 hp hm).mono
    (fun _ _ ht => ⟨ht, hs.2⟩) fun _ _ hstop => hstop)
  move hs hp hm := Observed.ends_withHost ((h.move hs.1 hp hm).mono
    (fun _ _ ht => ⟨ht, hs.2⟩) fun _ _ hstop => hstop)
  destruct hs hp hm := Observed.ends_withHost ((h.destruct hs.1 hp hm).mono
    (fun _ _ ht => ⟨ht, hs.2⟩) fun _ _ hstop => hstop)
  request hs hp hm := Observed.ends_withHost ((h.request hs.1 hp hm).mono
    (fun _ _ ht => ⟨ht, fun v hv => List.mem_append_left _ (hs.2 v hv)⟩) fun _ _ hstop => hstop)
  work := by
    intro L s p pass handles hs hp hm hpass hgrant
    apply Ends.bind
    apply ends_modify
    apply Ends.bind
    apply Observed.ends_withHost
    apply (h.work hs.1 hp hm hpass hgrant).mono _ fun _ _ hstop => hstop
    intro _ t ht
    apply Observed.ends_withOwn
    apply (hwork p pass handles s.own).mono _ fun _ _ hstop => hstop
    refine fun _ _ _ => ⟨ht, fun v hv => ?_⟩
    rcases List.mem_append.mp hv with hv | hv
    · exact hs.2 v hv
    · rw [List.mem_singleton.mp hv]
      exact hgrant

end Host.Keeps

namespace Run

variable {κ η ς τ ω : Type} {frame : Frame} {plan : Plan}
  {allocate : κ → EStateM StorageError τ η}
  {work : PassId → Pass → IdMap .resource η → EStateM WorkFault ω Unit}

/-- Each pass of the order has a view, if those of the views are the order. -/
theorem exists_view {σ : Type} {views : List (View σ η)} {q : PassId}
    (hpasses : views.map (·.pass) = plan.order) (hq : q ∈ plan.order) :
    ∃ v ∈ views, v.pass = q := by
  rw [← hpasses] at hq
  exact List.mem_map.mp hq

/-- What is known of handles at each point of a run that tells instances apart. -/
def Told (frame : Frame) (allocate : κ → EStateM StorageError τ η) (a₀ : Account κ η ς τ)
    (L : Ledger η) (a : Account κ η ς τ) : Prop :=
  Traced frame L a ∧ Exclusive allocate a₀ L a

/-- What a history of the plan on pooled storage keeps: no call is refused, each pass has got the
handles of its resources, and at each point so far instances were told apart. -/
def Attested (frame : Frame) (allocate : κ → EStateM StorageError τ η) (s : Storage κ η ς τ)
    (L : Ledger η) (t : Storage κ η ς τ) : Prop :=
  Follows frame allocate s.account L t.account ∧ Granted frame L t.account ∧
    Told frame allocate s.account L t.account ∧ Always (Told frame allocate s.account) L

theorem Attested.empty {s : Storage κ η ς τ} (hunbound : ∀ r, s.isConstructed r = false)
    (hpool : s.pool = ∅) : Attested frame allocate s Ledger.empty s := by
  have howners : ∀ r, s.account.owners.get? r = none := fun r =>
    Storage.isConstructed_eq_false_iff.mp (hunbound r)
  have htold : Told frame allocate s.account Ledger.empty s.account :=
    ⟨Traced.empty, Exclusive.empty howners hpool⟩
  exact ⟨Follows.empty fun r _ => howners r, Granted.empty, htold, Always.empty htold⟩

theorem attested_keeps [DecidableEq κ] [DecidableEq ς] (hf : plan.Fits frame)
    {s : Storage κ η ς τ} (hregistered : ∀ r ∈ plan.constructs, s.registrations.contains r)
    (hallocate : NeverFails allocate s.supply)
    (hdistinguishes : s.account.Distinguishes allocate) :
    (Storage.host frame allocate ∅).Keeps frame plan (Attested frame allocate s) False := by
  have htold : Kept frame plan allocate (Told frame allocate s.account) :=
    traced_kept.and (exclusive_kept hdistinguishes)
  exact ((follows_kept hf).and (granted_kept.and htold.always)).host_serves
    (follows_serves hf hregistered hallocate).and

/-- Handles that passes were granted in the course of a whole run. -/
structure Granting (frame : Frame) (plan : Plan) (allocate : κ → EStateM StorageError τ η)
    (a₀ : Account κ η ς τ) (L : Ledger η) : Prop where
  complete : L.history = plan.script
  keys : ∀ {p handles r}, (p, handles) ∈ L.grants → (handles.get? r ≠ none ↔ frame.Touches p r)
  always : Always (Told frame allocate a₀) L

namespace Granting

variable {a₀ : Account κ η ς τ} {L : Ledger η} {p q : PassId} {ps qs : IdMap .resource η}
  {a b x y : ResourceId}

/-- While a pass works, the owners have the handles that were granted up to then. -/
theorem exists_owners (h : Granting frame plan allocate a₀ L) (hf : plan.Fits frame)
    {pre post : List PassId} (hsplit : plan.order = pre ++ q :: post) :
    ∃ (M : Ledger η) (c : Account κ η ς τ), plan.Covers frame (pre ++ [q]) pre M.history ∧
      c.handles.Nodup ∧
      ∀ {p handles r g d}, (p, handles) ∈ L.grants → p ∈ pre ++ [q] → handles.get? r = some g →
        Handed M.history r d → ¬ Gone M.history d → ∃ origin, c.owners.get? d = some (g, origin) := by
  obtain ⟨before, after, hscript, hcovers⟩ := hf.exists_before_work hsplit
  obtain ⟨M, c, rfl, hgrants, htraced, hexclusive⟩ :=
    h.always before (.work q :: after) (h.complete.trans hscript)
  refine ⟨M, c, hcovers, hexclusive.nodup, fun hmem hp hget hhanded hnot => ?_⟩
  exact htraced.current (hgrants _ _ hmem ((hcovers.request _).mpr hp)) hget hhanded hnot

/-- **Moves hand on the handle** that the passes before them got. -/
theorem get?_eq_of_handed (h : Granting frame plan allocate a₀ L) (hf : plan.Fits frame)
    (hp : (p, ps) ∈ L.grants) (hq : (q, qs) ∈ L.grants) (hpa : frame.Touches p a)
    (hqb : frame.Touches q b) (hle : plan.order.idxOf p ≤ plan.order.idxOf q)
    (hab : a = b ∨ plan.HandsOn a b) : ps.get? a = qs.get? b := by
  obtain ⟨pre, post, hsplit, _⟩ := hf.exists_split hqb
  obtain ⟨M, c, hcovers, _, howners⟩ := h.exists_owners hf hsplit
  have hmem := hf.mem_snoc_of_idxOf_le hsplit (hf.mem_order_of_touches hpa) hle
  have hnot := hf.not_gone_of_touches hsplit hcovers hqb
  have hhanded : Handed M.history a b := by
    rcases hab with rfl | hab
    · exact .refl
    · exact hf.handed_of_covers hsplit hcovers hab hqb
  obtain ⟨g, hg⟩ := Option.ne_none_iff_exists'.mp ((h.keys hp).mpr hpa)
  obtain ⟨g', hg'⟩ := Option.ne_none_iff_exists'.mp ((h.keys hq).mpr hqb)
  obtain ⟨_, hown⟩ := howners hp hmem hg hhanded hnot
  obtain ⟨_, hown'⟩ := howners hq (List.mem_append_right _ (List.mem_singleton.mpr rfl)) hg' .refl
    hnot
  rw [hown] at hown'
  cases hown'
  rw [hg, hg']

/-- **Resources that are in use at the same time have different handles.** The second of the two
passes is the first to use its resource, and comes before the other resource is used up. -/
theorem get?_ne_of_overlap (h : Granting frame plan allocate a₀ L) (hf : plan.Fits frame)
    (hp : (p, ps) ∈ L.grants) (hq : (q, qs) ∈ L.grants) (hpx : frame.Touches p x)
    (hqy : frame.Touches q y) (hle : plan.order.idxOf p ≤ plan.order.idxOf q) {span : Span}
    (hspan : plan.span? x = some span) (hlast : plan.order.idxOf q ≤ span.last) (hne : x ≠ y) :
    ps.get? x ≠ qs.get? y := by
  intro heq
  obtain ⟨pre, post, hsplit, hlength⟩ := hf.exists_split hqy
  obtain ⟨M, c, hcovers, hnodup, howners⟩ := h.exists_owners hf hsplit
  have hmem := hf.mem_snoc_of_idxOf_le hsplit (hf.mem_order_of_touches hpx) hle
  have hnotx := hf.not_gone_of_le_last hsplit hcovers hspan (hlength ▸ hlast)
  have hnoty := hf.not_gone_of_touches hsplit hcovers hqy
  obtain ⟨g, hg⟩ := Option.ne_none_iff_exists'.mp ((h.keys hp).mpr hpx)
  obtain ⟨_, hown⟩ := howners hp hmem hg .refl hnotx
  obtain ⟨_, hown'⟩ := howners hq (List.mem_append_right _ (List.mem_singleton.mpr rfl))
    (heq.symm.trans hg) .refl hnoty
  exact hne (eq_of_handle hnodup hown hown')

end Granting

variable [DecidableEq κ] [DecidableEq ς]

/-- **Handles follow resources and moves.** If nothing is bound or released, what the plan constructs
is registered, the allocator never fails, handles tell instances apart and the work of passes
succeeds, then the run succeeds, and its passes get handles for what they touch. Passes that touch
one resource get the same handle for it, and so do passes that touch what it is moved into; two
resources whose spans meet have different handles. -/
theorem handles_sound (hdeclared : frame.Declared) (hplan : Plan.ofFrame frame = .ok plan)
    (s : Storage κ η ς τ) (own : ω) (hunbound : ∀ r, s.isConstructed r = false)
    (hpool : s.pool = ∅) (hregistered : ∀ r ∈ plan.constructs, s.registrations.contains r)
    (hallocate : NeverFails allocate s.supply)
    (hdistinguishes : s.account.Distinguishes allocate)
    (hwork : ∀ p pass handles own, ∃ own', work p pass handles own = .ok () own') :
    ∃ t, Run.sequential (Observed.observer (Storage.host frame allocate ∅) work) frame plan
        (Observed.start s own) = .ok () t ∧
      t.views.map (·.pass) = plan.order ∧
      (∀ v ∈ t.views, ∀ r, v.handles.get? r ≠ none ↔ frame.Touches v.pass r) ∧
      (∀ v ∈ t.views, ∀ w ∈ t.views, ∀ a b, frame.Touches v.pass a → frame.Touches w.pass b →
        a = b ∨ plan.HandsOn a b → v.handles.get? a = w.handles.get? b) ∧
      ∀ v ∈ t.views, ∀ w ∈ t.views, ∀ x y, frame.Touches v.pass x → frame.Touches w.pass y →
        x ≠ y → ∀ spanx spany, plan.span? x = some spanx → plan.span? y = some spany →
          spanx.first ≤ spany.last → spany.first ≤ spanx.last →
            v.handles.get? x ≠ w.handles.get? y := by
  have hf := Plan.fits_of_ofFrame hdeclared hplan
  have hworks : ∀ p pass handles own,
      Ends (work p pass handles) own (fun _ _ => True) fun _ _ => False :=
    fun p pass handles own => Ends.of_exists_ok ⟨(), hwork p pass handles own⟩
  have hhost := attested_keeps hf hregistered hallocate hdistinguishes
  have hstart : Attested frame allocate s Ledger.empty s := Attested.empty hunbound hpool
  have hkeeps := (hhost.observer hworks).and (hhost.viewed hworks)
  have hends := hkeeps.sequential (s := Observed.start s own) hf
    ⟨⟨hstart, Observed.Seen.empty⟩, hstart, fun _ hv => absurd hv List.not_mem_nil⟩
  obtain ⟨_, t, hrun, grants, ⟨_, hseen⟩, ⟨_, hgranted, _, halways⟩, hviews⟩ :=
    (hends.mono (fun _ _ ht => ht) fun _ _ hstop => hstop.1).exists_ok
  have hpasses : t.views.map (·.pass) = plan.order :=
    hseen.passes.trans plan.filterMap_worked?_script
  have hgranting : Granting frame plan allocate s.account ⟨plan.script, grants⟩ :=
    ⟨rfl, fun hmem => (hgranted _ _ hmem).1 _, halways⟩
  have hsame : ∀ v ∈ t.views, ∀ w ∈ t.views, ∀ a b, frame.Touches v.pass a →
      frame.Touches w.pass b → a = b ∨ plan.HandsOn a b →
        v.handles.get? a = w.handles.get? b := by
    intro v hv w hw a b hva hwb hab
    rcases Nat.le_total (plan.order.idxOf v.pass) (plan.order.idxOf w.pass) with hle | hle
    · exact hgranting.get?_eq_of_handed hf (hviews v hv) (hviews w hw) hva hwb hle hab
    · rcases hab with rfl | hab
      · exact (hgranting.get?_eq_of_handed hf (hviews w hw) (hviews v hv) hwb hva hle
          (Or.inl rfl)).symm
      · have hlt := hf.idxOf_lt_of_handsOn hab hva hwb
        omega
  -- The one that is used first is not used up when the other is used for the first time.
  have hapart : ∀ v ∈ t.views, ∀ w ∈ t.views, ∀ x y, frame.Touches v.pass x →
      frame.Touches w.pass y → x ≠ y → ∀ spanx spany, plan.span? x = some spanx →
        plan.span? y = some spany → spanx.first ≤ spany.first → spany.first ≤ spanx.last →
          v.handles.get? x ≠ w.handles.get? y := by
    intro v hv w hw x y hvx hwy hne spanx spany hspanx hspany hfirst hlast
    obtain ⟨p, hpx, hp⟩ := (hf.first_spec hspanx).1
    obtain ⟨q, hqy, hq⟩ := (hf.first_spec hspany).1
    obtain ⟨v', hv', rfl⟩ := exists_view hpasses (hf.mem_order_of_touches hpx)
    obtain ⟨w', hw', rfl⟩ := exists_view hpasses (hf.mem_order_of_touches hqy)
    rw [hsame v hv v' hv' x x hvx hpx (Or.inl rfl), hsame w hw w' hw' y y hwy hqy (Or.inl rfl)]
    exact hgranting.get?_ne_of_overlap hf (hviews v' hv') (hviews w' hw') hpx hqy
      (by omega) hspanx (by omega) hne
  refine ⟨t, hrun, hpasses, fun v hv r => hgranting.keys (hviews v hv), hsame, ?_⟩
  intro v hv w hw x y hvx hwy hne spanx spany hspanx hspany hxy hyx
  rcases Nat.le_total spanx.first spany.first with hle | hle
  · exact hapart v hv w hw x y hvx hwy hne spanx spany hspanx hspany hle hyx
  · exact (hapart w hw v hv y x hwy hvx hne.symm spany spanx hspany hspanx hle hxy).symm

/-- The final picture gets the storage of the draft; the mask, which is shown beside it, is another
one. -/
theorem handles_sound_relay : ∃ t, Run.sequential
    (Observed.observer (Storage.host Frame.relay Supply.allocate ∅)
      fun _ _ _ n => .ok () (n + 1)) Frame.relay Plan.relay
      (Observed.start Storage.relay 0) = .ok () t ∧
    ∃ v ∈ t.views, ∃ w ∈ t.views, v.pass = ⟨0⟩ ∧ w.pass = ⟨3⟩ ∧
      v.handles.get? ⟨0⟩ = w.handles.get? ⟨2⟩ ∧ w.handles.get? ⟨2⟩ ≠ w.handles.get? ⟨1⟩ := by
  obtain ⟨t, hrun, hpasses, _, hsame, hapart⟩ := handles_sound ⟨_, _, rfl⟩ Plan.ofFrame_relay
    Storage.relay 0 (fun _ => rfl) rfl (by decide) (Supply.neverFails rfl rfl)
    Storage.relay_distinguishes fun _ _ _ n => ⟨n + 1, rfl⟩
  obtain ⟨v, hv, hvdraw⟩ := exists_view (q := ⟨0⟩) hpasses (by decide)
  obtain ⟨w, hw, hwshow⟩ := exists_view (q := ⟨3⟩) hpasses (by decide)
  have hdraft : Frame.relay.Touches v.pass ⟨0⟩ := hvdraw ▸ ⟨_, rfl, by decide⟩
  have hfinal : Frame.relay.Touches w.pass ⟨2⟩ := hwshow ▸ ⟨_, rfl, by decide⟩
  have hmask : Frame.relay.Touches w.pass ⟨1⟩ := hwshow ▸ ⟨_, rfl, by decide⟩
  exact ⟨t, hrun, v, hv, w, hw, hvdraw, hwshow,
    hsame v hv w hw ⟨0⟩ ⟨2⟩ hdraft hfinal (Or.inr (.single rfl)),
    hapart w hw w hw ⟨2⟩ ⟨1⟩ hfinal hmask (by decide) _ _ rfl rfl (by decide) (by decide)⟩

end Run

end FramePlan
