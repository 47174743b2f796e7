import FramePlan.Proofs.Plan.Script
import FramePlan.Proofs.Run.Orderly

/-!
# What a finished pass releases

To finish a pass is to count its resources down, and to give up the storage of those that come down
to zero. The counts alone decide that, but while the books of the dispatch are right they decide
what the plan would: storage is given up by the resources that ripen with the pass.

* `Dispatch.Orderly.releases_ripe` — the counts and the plan agree.
-/

namespace FramePlan

open History

variable {σ η : Type}

namespace Dispatch

variable {frame : Frame} {plan : Plan} {begun : List PassId} {d : Dispatch σ η} {p : PassId}
  {pass : Pass} {users users' : IdMap .resource Nat} {r : ResourceId}

/-- The storage of the resource is given up by the action, once no pass is left to use it. -/
def GivenUpBy (frame : Frame) (plan : Plan) (r : ResourceId) (a : Action) : Prop :=
  plan.moves.forward.get? r = none ∧ a = .destruct r ∨
    ∃ dst, plan.moves.forward.get? r = some dst ∧
      (a = .move ⟨dst, r⟩ ∨ ¬ frame.Touched dst ∧ a = .destruct dst)

theorem GivenUpBy.move_or_destruct {a : Action} (h : GivenUpBy frame plan r a) :
    (∃ m, a = .move m) ∨ ∃ x, a = .destruct x := by
  rcases h with ⟨_, rfl⟩ | ⟨dst, _, rfl | ⟨_, rfl⟩⟩
  · exact Or.inr ⟨r, rfl⟩
  · exact Or.inl ⟨⟨dst, r⟩, rfl⟩
  · exact Or.inr ⟨dst, rfl⟩

theorem givenUpBy_move_iff {m : Move} : GivenUpBy frame plan r (.move m) ↔
    r = m.src ∧ plan.moves.forward.get? m.src = some m.dst := by
  constructor
  · rintro (⟨_, heq⟩ | ⟨dst, hdst, heq | ⟨_, heq⟩⟩)
    · cases heq
    · cases heq
      exact ⟨rfl, hdst⟩
    · cases heq
  · rintro ⟨rfl, hdst⟩
    exact Or.inr ⟨m.dst, hdst, Or.inl rfl⟩

theorem givenUpBy_destruct_iff (hf : plan.Fits frame) {x : ResourceId} :
    GivenUpBy frame plan x (.destruct r) ↔ plan.moves.forward.get? r = none ∧
      (x = r ∨ ¬ frame.Touched r ∧ plan.moves.backward.get? r = some x) := by
  constructor
  · rintro (⟨hnone, heq⟩ | ⟨dst, hdst, heq | ⟨hnot, heq⟩⟩)
    · cases heq
      exact ⟨hnone, Or.inl rfl⟩
    · cases heq
    · cases heq
      have hback := hf.forward_iff.mp hdst
      refine ⟨?_, Or.inr ⟨hnot, hback⟩⟩
      cases hforward : plan.moves.forward.get? r with
      | none => rfl
      | some _ => exact absurd (hf.touched_of_inner hback hforward) hnot
  · rintro ⟨hnone, rfl | ⟨hnot, hback⟩⟩
    · exact Or.inl ⟨hnone, rfl⟩
    · exact Or.inr ⟨r, hf.forward_iff.mpr hback, Or.inr ⟨hnot, rfl⟩⟩

/-- An action gives up the storage of one resource that passes use. -/
theorem GivenUpBy.unique {r' : ResourceId} {a : Action} (h : GivenUpBy frame plan r a)
    (h' : GivenUpBy frame plan r' a) (hf : plan.Fits frame) (hr : frame.Touched r)
    (hr' : frame.Touched r') : r = r' := by
  rcases h.move_or_destruct with ⟨m, rfl⟩ | ⟨x, rfl⟩
  · exact (givenUpBy_move_iff.mp h).1.trans (givenUpBy_move_iff.mp h').1.symm
  · obtain ⟨_, rfl | ⟨hnot, hback⟩⟩ := (givenUpBy_destruct_iff hf).mp h
    · obtain ⟨_, rfl | ⟨hnot, _⟩⟩ := (givenUpBy_destruct_iff hf).mp h'
      · rfl
      · exact absurd hr hnot
    · obtain ⟨_, rfl | ⟨_, hback'⟩⟩ := (givenUpBy_destruct_iff hf).mp h'
      · exact absurd hr' hnot
      · exact Option.some.inj (hback.symm.trans hback')

/-! ### One resource -/

theorem release_congr (hr : users.getD r 0 = users'.getD r 0)
    (hdst : ∀ dst, plan.moves.forward.get? r = some dst → users.getD dst 0 = users'.getD dst 0) :
    release plan users r = release plan users' r := by
  unfold release
  rw [hr]
  cases hforward : plan.moves.forward.get? r with
  | none => rfl
  | some dst => simp only [hdst dst hforward]

theorem mem_after_release {a : Action} : a ∈ (release plan users r).after ↔ users.getD r 0 = 0 ∧
    (plan.moves.forward.get? r = none ∧ a = .destruct r ∨
      ∃ dst, plan.moves.forward.get? r = some dst ∧
        (a = .move ⟨dst, r⟩ ∨ users.getD dst 0 = 0 ∧ a = .destruct dst)) := by
  unfold release
  by_cases hpos : users.getD r 0 > 0
  · have hne : users.getD r 0 ≠ 0 := by omega
    simp [Events.after, Events.none, hne, hpos]
  · have hzero : users.getD r 0 = 0 := by omega
    rw [if_neg hpos]
    cases hforward : plan.moves.forward.get? r with
    | none => simp [Events.after, hzero]
    | some dst => by_cases hunused : users.getD dst 0 = 0 <;> simp [Events.after, hzero, hunused]

theorem nodup_after_release : (release plan users r).after.Nodup := by
  unfold release
  by_cases hpos : users.getD r 0 > 0
  · simp [Events.after, Events.none, hpos]
  · rw [if_neg hpos]
    cases plan.moves.forward.get? r with
    | none => simp [Events.after]
    | some dst => by_cases hunused : users.getD dst 0 = 0 <;> simp [Events.after, hunused]

theorem after_release_of_unused {dst : ResourceId} (hr : users.getD r 0 = 0)
    (hdst : plan.moves.forward.get? r = some dst) (hunused : users.getD dst 0 = 0) :
    (release plan users r).after = [.move ⟨dst, r⟩, .destruct dst] := by
  simp [release, Events.after, hr, hdst, hunused]

/-! ### The resources of a pass -/

/-- Each resource is released as if it were the only one, if none is moved into another. -/
theorem releases_eq_map {rs : List ResourceId} (hnodup : rs.Nodup)
    (hapart : ∀ r ∈ rs, ∀ dst, plan.moves.forward.get? r = some dst → dst ∉ rs) :
    releases plan users rs = rs.map fun r => release plan (countDown users r) r := by
  induction rs generalizing users with
  | nil => rfl
  | cons r rs ih =>
      obtain ⟨hr, hrs⟩ := List.nodup_cons.mp hnodup
      have hrest : ∀ x ∈ rs, ∀ dst, plan.moves.forward.get? x = some dst → dst ∉ rs :=
        fun x hx dst hdst hmem => hapart x (by simp [hx]) dst hdst (by simp [hmem])
      rw [releases, List.map_cons, ih hrs hrest]
      congr 1
      apply List.map_congr_left
      intro x hx
      have hne : x ≠ r := fun heq => hr (heq ▸ hx)
      apply release_congr
      · rw [getD_countDown (x := x), if_pos rfl, getD_countDown (x := x), if_pos rfl,
          getD_countDown_of_ne 1 hne]
      · intro dst hdst
        have hdr : dst ≠ r := by
          intro heq
          subst heq
          exact hapart x (by simp [hx]) dst hdst (by simp)
        simp only [getD_countDown, getD_countDown_of_ne 1 hne, if_neg hdr]

namespace Orderly

/-- A running pass uses no resource that one of its resources is moved into. -/
theorem not_touches_destination (h : Orderly frame plan begun d) (hf : plan.Fits frame)
    (hruns : p ∈ d.runningPasses) (hp : frame.Touches p r) {dst : ResourceId}
    (hdst : plan.moves.forward.get? r = some dst) : ¬ frame.Touches p dst := by
  intro hpdst
  obtain ⟨hbegun, hdone⟩ := h.running p hruns
  exact hdone (h.done_of_precedes hbegun (hf.move_precedes hdst hp hpdst))

/-- The count of a resource of a running pass comes down to zero just when it ripens with it. -/
theorem countDown_eq_zero_iff (h : Orderly frame plan begun d) (hf : plan.Fits frame)
    (herror : d.error = none) (hruns : p ∈ d.runningPasses) (hp : frame.Touches p r) :
    (countDown d.users r).getD r 0 = 0 ↔ Plan.Ripens frame d.frontier.done p r := by
  have hleft := hf.usersLeft_snoc hp (h.running p hruns).2
  have husers := (h.books herror).users r
  rw [getD_countDown, if_pos rfl, getD_one_of_pos (by omega), husers, hleft]
  unfold Plan.Ripens
  rw [← hf.usersLeft_eq_zero_iff]
  constructor
  · intro hzero
    exact ⟨hp, by omega⟩
  · rintro ⟨_, hzero⟩
    omega

/-- The destination of a resource of a running pass has no users left just when it never had
one. -/
theorem destination_eq_zero_iff (h : Orderly frame plan begun d) (hf : plan.Fits frame)
    (herror : d.error = none) (hruns : p ∈ d.runningPasses) (hp : frame.Touches p r)
    {dst : ResourceId} (hdst : plan.moves.forward.get? r = some dst) :
    (countDown d.users r).getD dst 0 = 0 ↔ ¬ frame.Touched dst := by
  have hnot := h.not_touches_destination hf hruns hp hdst
  have hne : dst ≠ r := by
    intro heq
    subst heq
    exact hnot hp
  rw [getD_countDown_of_ne 0 hne, (h.books herror).users dst, hf.usersLeft_eq_zero_iff]
  constructor
  · rintro hreleased ⟨b, hb⟩
    -- A user of the destination waits for the pass, so it cannot be complete.
    have hbegun := h.frontier.done_taken b (hreleased b hb)
    exact (h.running p hruns).2 (h.done_of_precedes hbegun (hf.move_precedes hdst hp hb))
  · exact Plan.released_of_not_touched

/-- What a running pass releases, resource by resource. -/
theorem mem_releases (h : Orderly frame plan begun d) (hf : plan.Fits frame)
    (herror : d.error = none) (hruns : p ∈ d.runningPasses) (hp : frame.Touches p r) {a : Action} :
    a ∈ (release plan (countDown d.users r) r).after ↔
      Plan.Ripens frame d.frontier.done p r ∧ GivenUpBy frame plan r a := by
  rw [mem_after_release, h.countDown_eq_zero_iff hf herror hruns hp]
  apply and_congr_right
  intro _
  apply or_congr_right
  apply exists_congr
  intro dst
  apply and_congr_right
  intro hdst
  rw [h.destination_eq_zero_iff hf herror hruns hp hdst]

/-- What a running pass releases in all. -/
theorem mem_flatMap_releases (h : Orderly frame plan begun d) (hf : plan.Fits frame)
    (herror : d.error = none) (hruns : p ∈ d.runningPasses) (hpass : frame.pass? p = some pass)
    {a : Action} :
    a ∈ pass.resources.toList.flatMap (fun r => (release plan (countDown d.users r) r).after) ↔
      ∃ r, Plan.Ripens frame d.frontier.done p r ∧ GivenUpBy frame plan r a := by
  rw [List.mem_flatMap]
  constructor
  · rintro ⟨r, hr, ha⟩
    have hp := (Frame.touches_iff_mem hpass).mpr hr
    exact ⟨r, (h.mem_releases hf herror hruns hp).mp ha⟩
  · rintro ⟨r, hripe, ha⟩
    exact ⟨r, (Frame.touches_iff_mem hpass).mp hripe.1,
      (h.mem_releases hf herror hruns hripe.1).mpr ⟨hripe, ha⟩⟩

theorem nodup_flatMap_releases (h : Orderly frame plan begun d) (hf : plan.Fits frame)
    (herror : d.error = none) (hruns : p ∈ d.runningPasses) (hpass : frame.pass? p = some pass) :
    (pass.resources.toList.flatMap
      fun r => (release plan (countDown d.users r) r).after).Nodup := by
  rw [List.nodup_flatMap]
  refine ⟨fun r _ => nodup_after_release, pass.resources.nodup_toList.imp_of_mem ?_⟩
  intro r r' hr hr' hne a ha ha'
  have hp := (Frame.touches_iff_mem hpass).mpr hr
  have hp' := (Frame.touches_iff_mem hpass).mpr hr'
  have hgiven := ((h.mem_releases hf herror hruns hp).mp ha).2
  have hgiven' := ((h.mem_releases hf herror hruns hp').mp ha').2
  exact hne (hgiven.unique hgiven' hf ⟨p, hp⟩ ⟨p, hp'⟩)

/-- **The counts and the plan agree**: a running pass releases what ripens with it. -/
theorem releases_ripe (h : Orderly frame plan begun d) (hf : plan.Fits frame)
    (herror : d.error = none) (hruns : p ∈ d.runningPasses) (hpass : frame.pass? p = some pass) :
    Releases frame plan.moves (Plan.Ripens frame d.frontier.done p)
      ((releases plan d.users pass.resources.toList).flatMap Events.after) := by
  have hapart : ∀ r ∈ pass.resources.toList, ∀ dst, plan.moves.forward.get? r = some dst →
      dst ∉ pass.resources.toList := by
    intro r hr dst hdst hmem
    have hp := (Frame.touches_iff_mem hpass).mpr hr
    exact h.not_touches_destination hf hruns hp hdst ((Frame.touches_iff_mem hpass).mpr hmem)
  rw [releases_eq_map pass.resources.nodup_toList hapart, List.flatMap_map]
  have hnodup := h.nodup_flatMap_releases hf herror hruns hpass
  refine ⟨hnodup, fun a ha => ?_, fun m => ?_, fun r => ?_, fun pre r post hsplit => ?_⟩
  · obtain ⟨r, _, hgiven⟩ := (h.mem_flatMap_releases hf herror hruns hpass).mp ha
    exact hgiven.move_or_destruct
  · rw [h.mem_flatMap_releases hf herror hruns hpass]
    simp only [givenUpBy_move_iff]
    constructor
    · rintro ⟨r, hripe, rfl, hdst⟩
      exact ⟨hdst, hripe⟩
    · rintro ⟨hdst, hripe⟩
      exact ⟨m.src, hripe, rfl, hdst⟩
  · rw [h.mem_flatMap_releases hf herror hruns hpass]
    simp only [givenUpBy_destruct_iff hf]
    constructor
    · rintro ⟨x, hripe, hnone, rfl | ⟨hnot, hback⟩⟩
      · exact ⟨hnone, Or.inl hripe⟩
      · exact ⟨hnone, Or.inr ⟨hnot, x, hback, hripe⟩⟩
    · rintro ⟨hnone, hripe | ⟨hnot, s, hback, hripe⟩⟩
      · exact ⟨r, hripe, hnone, Or.inl rfl⟩
      · exact ⟨s, hripe, hnone, Or.inr ⟨hnot, hback⟩⟩
  · have hr : Action.destruct r ∈ pass.resources.toList.flatMap
        (fun r => (release plan (countDown d.users r) r).after) := hsplit ▸ by simp
    obtain ⟨x, hripe, hgiven⟩ := (h.mem_flatMap_releases hf herror hruns hpass).mp hr
    obtain ⟨_, rfl | ⟨hnot, hback⟩⟩ := (givenUpBy_destruct_iff hf).mp hgiven
    · exact Or.inl hripe
    · -- The destruct stands where its resource was released, right after the move into it.
      have hdst := hf.forward_iff.mpr hback
      obtain ⟨front, back, hxs⟩ := List.append_of_mem ((Frame.touches_iff_mem hpass).mp hripe.1)
      have hblock := after_release_of_unused
        ((h.countDown_eq_zero_iff hf herror hruns hripe.1).mpr hripe) hdst
        ((h.destination_eq_zero_iff hf herror hruns hripe.1 hdst).mpr hnot)
      have hplace : pass.resources.toList.flatMap
            (fun r => (release plan (countDown d.users r) r).after) =
          (front.flatMap (fun r => (release plan (countDown d.users r) r).after) ++
            [.move ⟨r, x⟩]) ++ Action.destruct r ::
            back.flatMap (fun r => (release plan (countDown d.users r) r).after) := by
        rw [hxs, List.flatMap_append, List.flatMap_cons, hblock]
        simp
      have hpre := split_unique hnodup hplace hsplit
      subst hpre
      exact Or.inr ⟨x, by simp⟩

end Orderly

end Dispatch

end FramePlan
