import FramePlan.Proofs.History
import FramePlan.Proofs.Plan.Basic
import Mathlib.Data.List.Perm.Basic

/-!
# The script of a plan is legal

`Plan.Covers` says what a run of a plan did when some passes have begun and some are complete. It
is the invariant of both executors: to begin a pass and to finish one are legal steps from any
history that covers the passes before, whatever their order, and lead to such a history again.

* `Plan.Fits.legal_begin`, `Plan.Fits.legal_finish` — the two steps.
* `Plan.Fits.legal_script` — so the script is legal, and covers all passes.
-/

namespace FramePlan

open History

namespace Plan

/-- What a run of the plan did when the first passes have begun and the second ones are
complete. -/
structure Covers (plan : Plan) (frame : Frame) (begun done : List PassId) (h : List Action) :
    Prop where
  construct : ∀ r, .construct r ∈ h ↔ plan.moves.backward.get? r = none ∧
    ((∃ p ∈ begun, frame.Touches p r) ∨
      ¬ frame.Touched r ∧ ∃ d, plan.moves.forward.get? r = some d)
  move : ∀ m, .move m ∈ h ↔
    plan.moves.forward.get? m.src = some m.dst ∧ frame.Released done m.src
  destruct : ∀ r, .destruct r ∈ h ↔ plan.moves.forward.get? r = none ∧ frame.Released done r ∧
    (frame.Touched r ∨ ∃ s, plan.moves.backward.get? r = some s ∧ frame.Released done s)
  request : ∀ p, .request p ∈ h ↔ p ∈ begun
  work : ∀ p, .work p ∈ h ↔ p ∈ done

/-- What is done to begin the pass at a position. -/
def beginAt (plan : Plan) (k : Nat) (p : PassId) : List Action :=
  (plan.eventsAt k).before ++ [.request p]

/-- What is done to finish the pass at a position. -/
def finishAt (plan : Plan) (k : Nat) (p : PassId) : List Action :=
  .work p :: (plan.eventsAt k).after

/-- The actions of some passes that come one after another from a position on. -/
def scriptFrom (plan : Plan) (k : Nat) : List PassId → List Action
  | [] => []
  | p :: ps => plan.beginAt k p ++ plan.finishAt k p ++ plan.scriptFrom (k + 1) ps

theorem scriptFrom_append {plan : Plan} (k : Nat) (ps qs : List PassId) :
    plan.scriptFrom k (ps ++ qs) =
      plan.scriptFrom k ps ++ plan.scriptFrom (k + ps.length) qs := by
  induction ps generalizing k with
  | nil => rfl
  | cons p ps ih =>
      have hk : k + 1 + ps.length = k + (ps.length + 1) := by omega
      simp only [List.cons_append, scriptFrom, ih, List.length_cons, List.append_assoc, hk]

/-- When the pass is complete after some others, the resource is used for the last time. -/
def Ripens (frame : Frame) (done : List PassId) (p : PassId) (r : ResourceId) : Prop :=
  frame.Touches p r ∧ frame.Released (done ++ [p]) r

theorem released_snoc {frame : Frame} {done : List PassId} {p : PassId} {r : ResourceId} :
    frame.Released (done ++ [p]) r ↔ frame.Released done r ∨ Ripens frame done p r := by
  constructor
  · intro hreleased
    by_cases hp : frame.Touches p r
    · exact Or.inr ⟨hp, hreleased⟩
    · refine Or.inl fun q hq => (List.mem_append.mp (hreleased q hq)).resolve_right fun hqp => ?_
      exact hp (List.mem_singleton.mp hqp ▸ hq)
  · rintro (hreleased | hripe)
    · exact fun q hq => List.mem_append_left _ (hreleased q hq)
    · exact hripe.2

theorem released_of_not_touched {frame : Frame} {done : List PassId} {r : ResourceId}
    (h : ¬ frame.Touched r) : frame.Released done r := fun p hp => absurd ⟨p, hp⟩ h

theorem released_nil {frame : Frame} {r : ResourceId} :
    frame.Released [] r ↔ ¬ frame.Touched r := by
  constructor
  · rintro hreleased ⟨p, hp⟩
    exact absurd (hreleased p hp) List.not_mem_nil
  · exact released_of_not_touched

theorem mem_constructs_iff {plan : Plan} {r : ResourceId} :
    r ∈ plan.constructs ↔ .construct r ∈ plan.script := by
  simp [constructs, script, ScheduledPass.script, Events.before, Events.after]

namespace Covers

variable {plan : Plan} {frame : Frame} {begun done : List PassId} {h : List Action}
  {r : ResourceId} {p : PassId}

theorem opened_iff (hc : plan.Covers frame begun done h) (hf : plan.Fits frame) :
    Opened h r ↔
      (plan.moves.backward.get? r = none ∧ ((∃ p ∈ begun, frame.Touches p r) ∨
        ¬ frame.Touched r ∧ ∃ d, plan.moves.forward.get? r = some d)) ∨
      ∃ s, plan.moves.backward.get? r = some s ∧ frame.Released done s := by
  unfold Opened
  rw [hc.construct]
  simp only [hc.move, hf.forward_iff]

theorem gone_iff (hc : plan.Covers frame begun done h) :
    Gone h r ↔ frame.Released done r ∧
      (frame.Touched r ∨ (∃ d, plan.moves.forward.get? r = some d) ∨
        ∃ s, plan.moves.backward.get? r = some s ∧ frame.Released done s) := by
  unfold Gone
  rw [hc.destruct]
  simp only [hc.move]
  cases hforward : plan.moves.forward.get? r with
  | none => simp
  | some d => simp

/-- A running pass finds storage at all its resources. -/
theorem holds_of_touches (hc : plan.Covers frame begun done h) (hf : plan.Fits frame)
    (hbegun : p ∈ begun) (hdone : p ∉ done) (hpreds : ∀ a, plan.graph.Precedes a p → a ∈ done)
    (hp : frame.Touches p r) : Holds h r := by
  constructor
  · rw [hc.opened_iff hf]
    cases hback : plan.moves.backward.get? r with
    | none => exact Or.inl ⟨rfl, Or.inl ⟨p, hbegun, hp⟩⟩
    | some s =>
        refine Or.inr ⟨s, rfl, fun a ha => hpreds a ?_⟩
        exact hf.move_precedes (hf.forward_iff.mpr hback) ha hp
  · intro hgone
    exact hdone ((hc.gone_iff.mp hgone).1 p hp)

end Covers

namespace Fits

variable {plan : Plan} {frame : Frame} {begun done : List PassId} {h : List Action}
  {p : PassId}

/-! ### A pass begins -/

/-- **A pass whose predecessors are complete begins legally**, with the resources constructed that
no pass used before. -/
theorem legal_begin (hf : plan.Fits frame) (hc : plan.Covers frame begun done h)
    {rs : List ResourceId} (hrs : rs.Nodup)
    (hmem : ∀ r, r ∈ rs ↔ plan.moves.backward.get? r = none ∧ frame.Touches p r ∧
      ∀ q ∈ begun, ¬ frame.Touches q r)
    (hbegun : p ∉ begun) (hdone : p ∉ done)
    (hpreds : ∀ a, plan.graph.Precedes a p → a ∈ done) :
    LegalFrom frame h (rs.map .construct ++ [.request p]) ∧
      plan.Covers frame (begun ++ [p]) done (h ++ (rs.map .construct ++ [.request p])) := by
  have hcovers : plan.Covers frame (begun ++ [p]) done
      (h ++ (rs.map .construct ++ [.request p])) := by
    refine ⟨fun r => ?_, fun m => ?_, fun r => ?_, fun q => ?_, fun q => ?_⟩
    · simp only [List.mem_append, List.mem_map, List.mem_singleton, Action.construct.injEq,
        exists_eq_right, reduceCtorEq, or_false, hc.construct, hmem]
      constructor
      · rintro (⟨hback, ⟨q, hq, hr⟩ | hrest⟩ | ⟨hback, hp, _⟩)
        · exact ⟨hback, Or.inl ⟨q, Or.inl hq, hr⟩⟩
        · exact ⟨hback, Or.inr hrest⟩
        · exact ⟨hback, Or.inl ⟨p, Or.inr rfl, hp⟩⟩
      · rintro ⟨hback, ⟨q, hq | rfl, hr⟩ | hrest⟩
        · exact Or.inl ⟨hback, Or.inl ⟨q, hq, hr⟩⟩
        · by_cases hold : ∃ x ∈ begun, frame.Touches x r
          · exact Or.inl ⟨hback, Or.inl hold⟩
          · exact Or.inr ⟨hback, hr, fun x hx htouch => hold ⟨x, hx, htouch⟩⟩
        · exact Or.inl ⟨hback, Or.inr hrest⟩
    · simp [hc.move]
    · simp [hc.destruct]
    · simp [hc.request]
    · simp [hc.work]
  refine ⟨legalFrom_append.mpr ⟨legalFrom_constructs hrs fun r hr => ?_, ?_, trivial⟩, hcovers⟩
  · obtain ⟨hback, hp, hnew⟩ := (hmem r).mp hr
    rw [hc.opened_iff hf]
    rintro (⟨_, ⟨q, hq, htouch⟩ | ⟨hnone, _⟩⟩ | ⟨s, hs, _⟩)
    · exact hnew q hq htouch
    · exact hnone ⟨p, hp⟩
    · rw [hback] at hs
      cases hs
  · constructor
    · simpa [hc.request] using hbegun
    · intro r hp
      have hholds := hcovers.holds_of_touches hf (by simp) hdone hpreds hp
      -- The request itself neither opens nor gives up storage.
      rw [← List.append_assoc] at hholds
      exact holds_request.mp hholds

/-! ### A pass is finished -/

theorem covers_releases (hc : plan.Covers frame begun done h)
    {block : List Action} (hblock : Releases frame plan.moves (Ripens frame done p) block) :
    plan.Covers frame begun (done ++ [p]) (h ++ .work p :: block) := by
  have hother : ∀ a ∈ block, (∃ m, a = .move m) ∨ ∃ r, a = .destruct r := hblock.gives_up
  refine ⟨fun r => ?_, fun m => ?_, fun r => ?_, fun q => ?_, fun q => ?_⟩
  · have hnot : Action.construct r ∉ block := by
      intro hmem
      rcases hother _ hmem with ⟨m, hm⟩ | ⟨x, hx⟩
      · cases hm
      · cases hx
    simp [hc.construct, hnot]
  · simp only [List.mem_append, List.mem_cons, reduceCtorEq, false_or, hc.move, hblock.mem_move,
      released_snoc]
    tauto
  · simp only [List.mem_append, List.mem_cons, reduceCtorEq, false_or, hc.destruct,
      hblock.mem_destruct, released_snoc]
    by_cases htouched : frame.Touched r
    · simp only [htouched, not_true, true_or, and_true, false_and, or_false]
      tauto
    · have hreleased : frame.Released done r := released_of_not_touched htouched
      have hripe : ¬ Ripens frame done p r := fun hr => htouched ⟨p, hr.1⟩
      simp only [htouched, hreleased, hripe, not_false_eq_true, true_and, false_or, true_or]
      constructor
      · rintro (⟨hd, s, hs, hrel⟩ | ⟨hd, s, hs, hrel⟩)
        · exact ⟨hd, s, hs, Or.inl hrel⟩
        · exact ⟨hd, s, hs, Or.inr hrel⟩
      · rintro ⟨hd, s, hs, hrel | hrel⟩
        · exact Or.inl ⟨hd, s, hs, hrel⟩
        · exact Or.inr ⟨hd, s, hs, hrel⟩
  · have hnot : Action.request q ∉ block := by
      intro hmem
      rcases hother _ hmem with ⟨m, hm⟩ | ⟨x, hx⟩
      · cases hm
      · cases hx
    simp [hc.request, hnot]
  · have hnot : Action.work q ∉ block := by
      intro hmem
      rcases hother _ hmem with ⟨m, hm⟩ | ⟨x, hx⟩
      · cases hm
      · cases hx
    simp [hc.work, hnot]

/-- **A running pass is finished legally**, with the storage given up that no pass uses any
more. -/
theorem legal_finish (hf : plan.Fits frame) (hlegal : Legal frame h)
    (hc : plan.Covers frame begun done h) {block : List Action}
    (hblock : Releases frame plan.moves (Ripens frame done p) block)
    (hbegun : p ∈ begun) (hdone : p ∉ done)
    (hpreds : ∀ a, plan.graph.Precedes a p → a ∈ done) :
    LegalFrom frame h (.work p :: block) ∧
      plan.Covers frame begun (done ++ [p]) (h ++ .work p :: block) := by
  refine ⟨⟨⟨(hc.request p).mpr hbegun, fun hw => hdone ((hc.work p).mp hw)⟩, ?_⟩,
    covers_releases hc hblock⟩
  have hwork : Legal frame (h ++ [.work p]) :=
    hlegal.append ⟨⟨(hc.request p).mpr hbegun, fun hw => hdone ((hc.work p).mp hw)⟩, trivial⟩
  have hopened : ∀ {r}, Opened (h ++ [.work p]) r ↔ Opened h r := by
    intro r
    rw [opened_append]
    simp [Opened]
  have hgone : ∀ {r}, Gone (h ++ [.work p]) r ↔ Gone h r := by
    intro r
    rw [gone_append]
    simp [Gone]
  refine legalFrom_releases hf.moves.paired hwork hblock (fun r hr => ?_) fun s d hforward hs => ?_
  · exact holds_work.mpr (hc.holds_of_touches hf hbegun hdone hpreds hr.1)
  · rw [hopened, hc.opened_iff hf]
    have hback := hf.forward_iff.mp hforward
    rintro (⟨hnone, _⟩ | ⟨s', hs', hreleased⟩)
    · rw [hback] at hnone
      cases hnone
    · rw [hback] at hs'
      cases hs'
      exact hdone (hreleased p hs.1)

/-! ### The script -/

/-- The moves of a slot, and after them its destructs, give up storage. -/
theorem releases_after {events : Events} {ripe : ResourceId → Prop}
    (hpaired : plan.moves.Paired) (hmoves : events.moves.Nodup)
    (hdestructs : events.destructs.Nodup)
    (hmove : ∀ m, m ∈ events.moves ↔ plan.moves.forward.get? m.src = some m.dst ∧ ripe m.src)
    (hdestruct : ∀ r, r ∈ events.destructs ↔ plan.moves.forward.get? r = none ∧
      (ripe r ∨ ¬ frame.Touched r ∧ ∃ s, plan.moves.backward.get? r = some s ∧ ripe s)) :
    Releases frame plan.moves ripe events.after := by
  unfold Events.after
  refine ⟨?_, fun a ha => ?_, fun m => ?_, fun r => ?_, fun pre r post hsplit => ?_⟩
  · refine List.nodup_append.mpr ⟨hmoves.map fun m m' hm => Action.move.inj hm,
      hdestructs.map fun r r' hr => Action.destruct.inj hr, fun a ha b hb hab => ?_⟩
    obtain ⟨m, _, rfl⟩ := List.mem_map.mp ha
    obtain ⟨r, _, rfl⟩ := List.mem_map.mp hb
    cases hab
  · rcases List.mem_append.mp ha with ha | ha
    · obtain ⟨m, _, rfl⟩ := List.mem_map.mp ha
      exact Or.inl ⟨m, rfl⟩
    · obtain ⟨r, _, rfl⟩ := List.mem_map.mp ha
      exact Or.inr ⟨r, rfl⟩
  · simpa using hmove m
  · simpa using hdestruct r
  · have hr : r ∈ events.destructs := by
      have hmem : Action.destruct r ∈ events.moves.map .move ++ events.destructs.map .destruct :=
        hsplit ▸ by simp
      simpa using hmem
    rcases ((hdestruct r).mp hr).2 with hripe | ⟨_, s, hs, hripe⟩
    · exact Or.inl hripe
    · have hsrc : (⟨r, s⟩ : Move) ∈ events.moves := (hmove ⟨r, s⟩).mpr ⟨(hpaired s r).mpr hs, hripe⟩
      refine Or.inr ⟨s, ?_⟩
      have hmem : Action.move ⟨r, s⟩ ∈ events.moves.map Action.move :=
        List.mem_map.mpr ⟨_, hsrc, rfl⟩
      rcases List.append_eq_append_iff.mp hsplit with ⟨mid, rfl, _⟩ | ⟨mid, hmid, htail⟩
      · exact List.mem_append_left _ hmem
      · cases mid with
        | nil =>
            rw [List.append_nil] at hmid
            exact hmid ▸ hmem
        | cons a mid =>
            have hhead : Action.destruct r ∈ events.moves.map Action.move := by
              rw [hmid, ← (List.cons_eq_cons.mp htail).1]
              simp
            simp at hhead

/-- The prologue hands on the storage that nobody uses before it is moved. -/
theorem releases_prologue (hf : plan.Fits frame) : Releases frame plan.moves
    (fun r => ¬ frame.Touched r ∧ ∃ d, plan.moves.forward.get? r = some d)
    plan.prologue.after := by
  refine releases_after hf.moves.paired ?_ ?_ (fun m => ?_) fun r => ?_
  · rw [hf.prologue]
    exact Events.nodup_moves
  · rw [hf.prologue]
    exact Events.nodup_destructs
  · rw [hf.mem_prologue_moves]
    constructor
    · rintro ⟨hforward, hnone⟩
      exact ⟨hforward, hnone, _, hforward⟩
    · rintro ⟨hforward, hnone, _⟩
      exact ⟨hforward, hnone⟩
  · rw [hf.mem_prologue_destructs]
    constructor
    · rintro ⟨hforward, hnone, s, hs, hsnone⟩
      exact ⟨hforward, Or.inr ⟨hnone, s, hs, hsnone, r, hf.forward_iff.mpr hs⟩⟩
    · rintro ⟨hforward, ⟨_, d, hd⟩ | ⟨hnone, s, hs, hsnone, _⟩⟩
      · rw [hforward] at hd
        cases hd
      · exact ⟨hforward, hnone, s, hs, hsnone⟩

/-- The events after a pass give up what no later pass uses. -/
theorem releases_eventsAt (hf : plan.Fits frame) {pre post : List PassId}
    (hsplit : plan.order = pre ++ p :: post) :
    Releases frame plan.moves (Ripens frame pre p) (plan.eventsAt pre.length).after :=
  releases_after hf.moves.paired Events.nodup_moves Events.nodup_destructs
    (fun _ => hf.mem_moves hsplit) fun _ => hf.mem_destructs hsplit

theorem covers_prologue (hf : plan.Fits frame) :
    plan.Covers frame [] [] (plan.prologue.before ++ plan.prologue.after) := by
  have hafter := hf.releases_prologue
  have hnot : ∀ {a}, (∀ r, a ≠ .construct r) → a ∉ plan.prologue.before := by
    intro a ha hmem
    obtain ⟨r, _, rfl⟩ := List.mem_map.mp hmem
    exact ha r rfl
  have hnot' : ∀ {a}, (∀ m, a ≠ .move m) → (∀ r, a ≠ .destruct r) → a ∉ plan.prologue.after := by
    intro a hm hr hmem
    rcases hafter.gives_up a hmem with ⟨m, rfl⟩ | ⟨r, rfl⟩
    · exact hm m rfl
    · exact hr r rfl
  refine ⟨fun r => ?_, fun m => ?_, fun r => ?_, fun q => ?_, fun q => ?_⟩
  · rw [List.mem_append, or_iff_left (hnot' (by simp) (by simp))]
    unfold Events.before
    simp [hf.mem_prologue_constructs]
  · rw [List.mem_append, or_iff_right (hnot (by simp)), hafter.mem_move, released_nil]
    constructor
    · rintro ⟨hforward, hnone, _⟩
      exact ⟨hforward, hnone⟩
    · rintro ⟨hforward, hnone⟩
      exact ⟨hforward, hnone, _, hforward⟩
  · rw [List.mem_append, or_iff_right (hnot (by simp)), hafter.mem_destruct]
    simp only [released_nil]
    constructor
    · rintro ⟨hforward, ⟨_, d, hd⟩ | ⟨hnone, s, hs, hsnone, _⟩⟩
      · rw [hforward] at hd
        cases hd
      · exact ⟨hforward, hnone, Or.inr ⟨s, hs, hsnone⟩⟩
    · rintro ⟨hforward, hnone, htouched | ⟨s, hs, hsnone⟩⟩
      · exact absurd htouched hnone
      · exact ⟨hforward, Or.inr ⟨hnone, s, hs, hsnone, r, hf.forward_iff.mpr hs⟩⟩
  · rw [List.mem_append, or_iff_left (hnot' (by simp) (by simp))]
    simpa using hnot (a := .request q) (by simp)
  · rw [List.mem_append, or_iff_left (hnot' (by simp) (by simp))]
    simpa using hnot (a := .work q) (by simp)

theorem legal_prologue (hf : plan.Fits frame) :
    Legal frame (plan.prologue.before ++ plan.prologue.after) ∧
      plan.Covers frame [] [] (plan.prologue.before ++ plan.prologue.after) := by
  have hbefore : LegalFrom frame [] plan.prologue.before := by
    refine legalFrom_constructs ?_ fun r _ => by simp [Opened]
    rw [hf.prologue]
    exact Events.nodup_constructs
  have hopened : ∀ {r}, Opened plan.prologue.before r ↔ r ∈ plan.prologue.constructs :=
    opened_constructs
  refine ⟨legalFrom_append.mpr ⟨hbefore, ?_⟩, hf.covers_prologue⟩
  refine legalFrom_releases hf.moves.paired hbefore hf.releases_prologue ?_ ?_
  · rintro r ⟨hnone, d, hd⟩
    refine ⟨hopened.mpr (hf.mem_prologue_constructs.mpr ⟨?_, hnone, d, hd⟩),
      not_gone_constructs _⟩
    cases hback : plan.moves.backward.get? r with
    | none => rfl
    | some s => exact absurd (hf.touched_of_inner hback hd) hnone
  · intro s d hforward _
    rw [List.nil_append, hopened, hf.mem_prologue_constructs]
    rintro ⟨hback, _⟩
    rw [hf.forward_iff.mp hforward] at hback
    cases hback

theorem script_eq (hf : plan.Fits frame) :
    plan.script = plan.prologue.before ++ plan.prologue.after ++ plan.scriptFrom 0 plan.order := by
  have hpasses : ∀ k ps, (List.map (fun e => (⟨e.1, plan.eventsAt e.2⟩ : ScheduledPass))
      (List.zipIdx ps k)).flatMap ScheduledPass.script = plan.scriptFrom k ps := by
    intro k ps
    induction ps generalizing k with
    | nil => rfl
    | cons p ps ih =>
        rw [List.zipIdx_cons, List.map_cons, List.flatMap_cons, ih, scriptFrom]
        simp [ScheduledPass.script, beginAt, finishAt]
  unfold Plan.script
  rw [hf.schedule]
  exact congrArg _ (hpasses 0 plan.order)

/-- A pass is begun and finished when those before it in the order are complete. -/
theorem legal_pass (hf : plan.Fits frame) {pre post : List PassId}
    (hsplit : plan.order = pre ++ p :: post) (hlegal : Legal frame h)
    (hc : plan.Covers frame pre pre h) :
    (LegalFrom frame h (plan.beginAt pre.length p) ∧
      plan.Covers frame (pre ++ [p]) pre (h ++ plan.beginAt pre.length p)) ∧
    LegalFrom frame (h ++ plan.beginAt pre.length p) (plan.finishAt pre.length p) ∧
      plan.Covers frame (pre ++ [p]) (pre ++ [p])
        (h ++ plan.beginAt pre.length p ++ plan.finishAt pre.length p) := by
  have hp : p ∉ pre := hf.notMem_pre hsplit
  have hpreds : ∀ a, plan.graph.Precedes a p → a ∈ pre :=
    fun _ ha => hf.mem_pre_of_precedes hsplit ha
  have hconstructs : (plan.eventsAt pre.length).constructs.Nodup := Events.nodup_constructs
  have hbegin := hf.legal_begin hc hconstructs (fun _ => hf.mem_constructs hsplit) hp hp hpreds
  exact ⟨hbegin, hf.legal_finish (hlegal.append hbegin.1) hbegin.2 (hf.releases_eventsAt hsplit)
    (by simp) hp hpreds⟩

theorem legal_passes (hf : plan.Fits frame) (mid : List PassId) {pre post : List PassId}
    (hsplit : plan.order = pre ++ mid ++ post) (hlegal : Legal frame h)
    (hc : plan.Covers frame pre pre h) :
    LegalFrom frame h (plan.scriptFrom pre.length mid) ∧
      plan.Covers frame (pre ++ mid) (pre ++ mid) (h ++ plan.scriptFrom pre.length mid) := by
  induction mid generalizing pre h with
  | nil =>
      refine ⟨trivial, ?_⟩
      rw [scriptFrom, List.append_nil, List.append_nil]
      exact hc
  | cons p mid ih =>
      have hhere : plan.order = pre ++ p :: (mid ++ post) := by simpa using hsplit
      have hnext : plan.order = (pre ++ [p]) ++ mid ++ post := by simpa using hsplit
      obtain ⟨⟨hbegin, _⟩, hfinish, hcovers⟩ := hf.legal_pass hhere hlegal hc
      have hpass : LegalFrom frame h (plan.beginAt pre.length p ++ plan.finishAt pre.length p) :=
        legalFrom_append.mpr ⟨hbegin, hfinish⟩
      rw [List.append_assoc] at hcovers
      obtain ⟨hrest, hcovers'⟩ := ih hnext (hlegal.append hpass) hcovers
      rw [List.length_append, List.length_singleton] at hrest hcovers'
      refine ⟨legalFrom_append.mpr ⟨hpass, hrest⟩, ?_⟩
      simpa [scriptFrom] using hcovers'

/-- **The script of a plan is legal, and covers all passes.** -/
theorem legal_script (hf : plan.Fits frame) :
    Legal frame plan.script ∧ plan.Covers frame plan.order plan.order plan.script := by
  obtain ⟨hprologue, hcovers⟩ := hf.legal_prologue
  have hsplit : plan.order = [] ++ plan.order ++ [] := by simp
  obtain ⟨hpasses, hall⟩ := hf.legal_passes plan.order hsplit hprologue hcovers
  rw [hf.script_eq]
  exact ⟨legal_append.mpr ⟨hprologue, hpasses⟩, hall⟩

/-- When more passes have begun and more are complete, more was done. -/
theorem mem_of_covers {begun' done' : List PassId} {h' : List Action} {a : Action}
    (hc : plan.Covers frame begun done h) (hc' : plan.Covers frame begun' done' h')
    (hbegun : ∀ p ∈ begun, p ∈ begun') (hdone : ∀ p ∈ done, p ∈ done') (ha : a ∈ h) : a ∈ h' := by
  have hreleased : ∀ r, frame.Released done r → frame.Released done' r :=
    fun r hr p hp => hdone p (hr p hp)
  cases a with
  | construct r =>
      obtain ⟨hback, husers⟩ := (hc.construct r).mp ha
      apply (hc'.construct r).mpr
      refine ⟨hback, husers.imp ?_ id⟩
      rintro ⟨p, hp, htouch⟩
      exact ⟨p, hbegun p hp, htouch⟩
  | move m =>
      obtain ⟨hforward, hover⟩ := (hc.move m).mp ha
      exact (hc'.move m).mpr ⟨hforward, hreleased _ hover⟩
  | destruct r =>
      obtain ⟨hforward, hover, husers⟩ := (hc.destruct r).mp ha
      apply (hc'.destruct r).mpr
      refine ⟨hforward, hreleased r hover, husers.imp id ?_⟩
      rintro ⟨s, hs, hover⟩
      exact ⟨s, hs, hreleased s hover⟩
  | request p => exact (hc'.request p).mpr (hbegun p ((hc.request p).mp ha))
  | work p => exact (hc'.work p).mpr (hdone p ((hc.work p).mp ha))

/-- **Whatever a run did is in the script, and in the end it is all of it.** -/
theorem perm_script (hf : plan.Fits frame) (hc : plan.Covers frame begun done h)
    (hlegal : Legal frame h) (hbegun : ∀ p, p ∈ begun ↔ p ∈ plan.order)
    (hdone : ∀ p, p ∈ done ↔ p ∈ plan.order) : h.Perm plan.script := by
  obtain ⟨hscript, hall⟩ := hf.legal_script
  apply (List.perm_ext_iff_of_nodup hlegal.nodup hscript.nodup).mpr
  intro a
  constructor
  · exact mem_of_covers hc hall (fun p => (hbegun p).mp) fun p => (hdone p).mp
  · exact mem_of_covers hall hc (fun p => (hbegun p).mpr) fun p => (hdone p).mpr

/-- The script is about resources of the frame only. -/
theorem hasResource_of_script (hf : plan.Fits frame) :
    (∀ r, .construct r ∈ plan.script → frame.hasResource r) ∧
      (∀ m, .move m ∈ plan.script → frame.hasResource m.src ∧ frame.hasResource m.dst) ∧
      ∀ r, .destruct r ∈ plan.script → frame.hasResource r := by
  have hall := hf.legal_script.2
  refine ⟨fun r hr => ?_, fun m hm => ?_, fun r hr => ?_⟩
  · apply hf.hasResource_of_contains
    rcases ((hall.construct r).mp hr).2 with ⟨p, _, hp⟩ | ⟨_, d, hd⟩
    · exact hf.contains_of_touched ⟨p, hp⟩
    · exact (hf.contains_of_forward hd).1
  · obtain ⟨hsrc, hdst⟩ := hf.contains_of_forward ((hall.move m).mp hm).1
    exact ⟨hf.hasResource_of_contains hsrc, hf.hasResource_of_contains hdst⟩
  · apply hf.hasResource_of_contains
    rcases ((hall.destruct r).mp hr).2.2 with htouched | ⟨s, hs, _⟩
    · exact hf.contains_of_touched htouched
    · exact (hf.contains_of_forward (hf.forward_iff.mpr hs)).2

/-- What comes before the work of a pass in the script covers the passes before it. -/
theorem exists_before_work (hf : plan.Fits frame) {pre post : List PassId}
    (hsplit : plan.order = pre ++ p :: post) :
    ∃ before after, plan.script = before ++ .work p :: after ∧
      plan.Covers frame (pre ++ [p]) pre before := by
  obtain ⟨hprologue, hcovers⟩ := hf.legal_prologue
  have hstart : plan.order = [] ++ pre ++ p :: post := by simpa using hsplit
  obtain ⟨hpasses, hpre⟩ := hf.legal_passes pre hstart hprologue hcovers
  obtain ⟨⟨_, hbegin⟩, _⟩ := hf.legal_pass hsplit (hprologue.append hpasses) hpre
  refine ⟨_, (plan.eventsAt pre.length).after ++ plan.scriptFrom (pre.length + 1) post, ?_, hbegin⟩
  rw [hf.script_eq, hsplit, scriptFrom_append, scriptFrom, Nat.zero_add]
  simp [finishAt]

end Fits

end Plan

/-! ### A small plan -/

/-- A draft is drawn, a mask is cut from it while it is tinted, and then the mask is shown together
with the final picture, to which the storage of the draft is handed over. -/
def Frame.relay : Frame := .ofDeclarations "relay"
  [.resource "draft", .resource "mask", .resource "final",
    .pass ⟨.general, "draw", [], [⟨0⟩]⟩, .pass ⟨.general, "cut", [⟨0⟩], [⟨1⟩]⟩,
    .pass ⟨.general, "tint", [⟨0⟩], []⟩, .pass ⟨.general, "show", [⟨1⟩, ⟨2⟩], []⟩,
    .move ⟨⟨2⟩, ⟨0⟩⟩]

/-- The plan of that frame. -/
def Plan.relay : Plan :=
  match Plan.ofFrame Frame.relay with
  | .ok plan => plan
  | .error _ => .empty

theorem Plan.ofFrame_relay : Plan.ofFrame Frame.relay = .ok Plan.relay := rfl

example : Plan.relay.script =
    [.construct ⟨0⟩, .request ⟨0⟩, .work ⟨0⟩, .construct ⟨1⟩, .request ⟨1⟩, .work ⟨1⟩,
      .request ⟨2⟩, .work ⟨2⟩, .move ⟨⟨2⟩, ⟨0⟩⟩, .request ⟨3⟩, .work ⟨3⟩, .destruct ⟨1⟩,
      .destruct ⟨2⟩] := by decide

end FramePlan
