import FramePlan.Proofs.Plan.Script

/-!
# Which resources hold storage when

The history of a run says which resources hold storage. While a pass of a sequential run does its
work this can be read off the plan: from the spans of the resources and from the moves.

* `Plan.Live` — the resources that the plan has storage for at a position.
* `Plan.Fits.holds_iff_live` — they are those that hold storage.
-/

namespace FramePlan

open History

namespace Plan

/-- The resource has storage while the pass at the position runs: some pass is still to use it, and
either it is not moved into and some pass used it by then, or no pass uses any more what is moved
into it. -/
def Live (plan : Plan) (k : Nat) (r : ResourceId) : Prop :=
  ∃ span, plan.span? r = some span ∧ k ≤ span.last ∧
    (plan.moves.backward.get? r = none ∧ span.first ≤ k ∨
      ∃ s, plan.moves.backward.get? r = some s ∧
        ∀ before, plan.span? s = some before → before.last < k)

namespace Fits

variable {plan : Plan} {frame : Frame} {h : List Action} {p : PassId} {r : ResourceId}
  {pre post : List PassId}

/-- A resource is released when its span is over. -/
theorem released_iff_last_lt (hf : plan.Fits frame) (hsplit : plan.order = pre ++ p :: post) :
    frame.Released pre r ↔ ∀ span, plan.span? r = some span → span.last < pre.length := by
  constructor
  · intro hreleased span hspan
    obtain ⟨⟨l, hl, hlast⟩, _⟩ := hf.last_spec hspan
    rw [← hlast]
    exact (idxOf_lt_iff hsplit).mpr (hreleased l hl)
  · intro hover q hq
    obtain ⟨span, hspan⟩ := hf.exists_span_iff.mpr ⟨q, hq⟩
    have hle := (hf.last_spec hspan).2 q hq
    exact (idxOf_lt_iff hsplit).mp (Nat.lt_of_le_of_lt hle (hover span hspan))

/-- A resource was used when its span has begun. -/
theorem used_iff_first_le (hf : plan.Fits frame) (hsplit : plan.order = pre ++ p :: post)
    {span : Span} (hspan : plan.span? r = some span) :
    (∃ q ∈ pre ++ [p], frame.Touches q r) ↔ span.first ≤ pre.length := by
  obtain ⟨⟨f, htouch, hfirst⟩, hle⟩ := hf.first_spec hspan
  constructor
  · rintro ⟨q, hq, hqr⟩
    apply Nat.le_trans (hle q hqr)
    rcases List.mem_append.mp hq with hq | hq
    · exact Nat.le_of_lt ((idxOf_lt_iff hsplit).mpr hq)
    · rw [List.mem_singleton.mp hq]
      exact Nat.le_of_eq (hf.idxOf_self hsplit)
  · intro hbegun
    refine ⟨f, ?_, htouch⟩
    rcases Nat.lt_or_eq_of_le hbegun with hlt | heq
    · rw [← hfirst] at hlt
      exact List.mem_append_left _ ((idxOf_lt_iff hsplit).mp hlt)
    · rw [← hfirst] at heq
      rw [(hf.idxOf_eq_iff hsplit (hf.mem_order_of_touches htouch)).mp heq]
      exact List.mem_append_right _ (List.mem_singleton.mpr rfl)

/-- **While the pass at a position runs, the live resources hold storage**, and no others. -/
theorem holds_iff_live (hf : plan.Fits frame) (hsplit : plan.order = pre ++ p :: post)
    (hc : plan.Covers frame (pre ++ [p]) pre h) : Holds h r ↔ plan.Live pre.length r := by
  unfold Holds
  rw [hc.opened_iff hf, hc.gone_iff]
  by_cases htouched : frame.Touched r
  · obtain ⟨span, hspan⟩ := hf.exists_span_iff.mpr htouched
    have hspan' : plan.span? r = some span := hspan
    have hlast : frame.Released pre r ↔ span.last < pre.length := by
      rw [hf.released_iff_last_lt hsplit]
      constructor
      · intro hover
        exact hover span hspan
      · intro hlt other hother
        rw [hspan'] at hother
        cases hother
        exact hlt
    simp only [htouched, true_or, and_true, not_true, false_and, or_false, hlast, Nat.not_lt]
    rw [hf.used_iff_first_le hsplit hspan']
    simp only [hf.released_iff_last_lt hsplit]
    constructor
    · rintro ⟨hopened, hleft⟩
      exact ⟨span, hspan', hleft, hopened⟩
    · rintro ⟨other, hother, hleft, hopened⟩
      rw [hspan'] at hother
      cases hother
      exact ⟨hopened, hleft⟩
  · -- A resource that no pass uses gives its storage up as soon as it comes to it.
    constructor
    · rintro ⟨hopened, hnot⟩
      apply absurd _ hnot
      refine ⟨released_of_not_touched htouched, Or.inr ?_⟩
      rcases hopened with ⟨_, ⟨q, _, hq⟩ | ⟨_, hd⟩⟩ | hs
      · exact absurd ⟨q, hq⟩ htouched
      · exact Or.inl hd
      · exact Or.inr hs
    · rintro ⟨span, hspan, _⟩
      exact absurd (hf.exists_span_iff.mp ⟨span, hspan⟩) htouched

end Fits

end Plan

end FramePlan
