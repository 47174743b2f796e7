import FramePlan.Proofs.Plan.Script
import FramePlan.Proofs.Storage.Instances
import FramePlan.Storage.Supply

/-!
# What a refused request leaves behind

A request prepares the resources of a pass in ascending order and stops at the first one without an
instance. Those before it are prepared by then: their instances are in the states that the pass
requires, and the changes are on record. So a refused request may leave instances in other states
than it found them in, but it never changes who owns what.

* `Storage.PreparedThrough` — what the preparation of some resources comes to.
* `Storage.refused_request` — what a request does, refused or not.
* `Storage.refused_request_relay` — a refused request that changes a state.
-/

namespace FramePlan

variable {κ η ς τ : Type}

namespace Storage

variable [DecidableEq ς] {s t u : Storage κ η ς τ} {p : PassId} {r : ResourceId} {frame : Frame}
  {rs : List ResourceId}

/-- The change of state that the resource is due for when the pass requests it. -/
def due? (s : Storage κ η ς τ) (p : PassId) (r : ResourceId) : Option (Transition ς) :=
  (s.requiredState? p r).bind fun state =>
    if s.state? r = some state then none else some ⟨r, some p, s.state? r, state⟩

theorem due?_eq_none_iff : s.due? p r = none ↔ Ready p r s := by
  unfold due? Ready
  cases s.requiredState? p r with
  | none => simp
  | some state => simp

/-- The resources are bound, and each is brought into the state that the pass requires, if it
requires any. The changes are on record; if there are none, nothing happened at all. -/
structure PreparedThrough (p : PassId) (s : Storage κ η ς τ) (rs : List ResourceId)
    (t : Storage κ η ς τ) : Prop where
  bound : ∀ r ∈ rs, s.isConstructed r
  account : t.account = s.account
  passStates : t.passStates = s.passStates
  prepared : ∀ r ∈ rs, t.state? r = (s.requiredState? p r).or (s.state? r)
  others : ∀ r, r ∉ rs → t.state? r = s.state? r
  transitions : t.transitions.toList = s.transitions.toList ++ rs.filterMap (s.due? p)
  idle : (∀ r ∈ rs, Ready p r s) → t = s

namespace PreparedThrough

theorem nil : PreparedThrough p s [] s where
  bound _ hr := absurd hr List.not_mem_nil
  account := rfl
  passStates := rfl
  prepared _ hr := absurd hr List.not_mem_nil
  others _ _ := rfl
  transitions := (List.append_nil _).symm
  idle _ := rfl

theorem isConstructed_eq (h : PreparedThrough p s rs t) :
    t.isConstructed r = s.isConstructed r := by
  rw [Bool.eq_iff_iff, Storage.isConstructed_iff, Storage.isConstructed_iff, h.account]

/-- What is prepared first does not matter to other resources. -/
theorem append {rs' : List ResourceId} (h : PreparedThrough p s rs t)
    (h' : PreparedThrough p t rs' u) (hapart : ∀ r ∈ rs', r ∉ rs) :
    PreparedThrough p s (rs ++ rs') u := by
  have hrequired : ∀ r, t.requiredState? p r = s.requiredState? p r :=
    fun _ => requiredState?_congr h.passStates
  have hstate : ∀ r ∈ rs', t.state? r = s.state? r := fun r hr => h.others r (hapart r hr)
  have hdue : ∀ r ∈ rs', t.due? p r = s.due? p r := by
    intro r hr
    unfold due?
    rw [hrequired, hstate r hr]
  constructor
  case bound =>
    intro r hr
    rcases List.mem_append.mp hr with hr | hr
    · exact h.bound r hr
    · exact h.isConstructed_eq ▸ h'.bound r hr
  case account => exact h'.account.trans h.account
  case passStates => exact h'.passStates.trans h.passStates
  case prepared =>
    intro r hr
    rcases List.mem_append.mp hr with hr | hr
    · rw [h'.others r fun hr' => hapart r hr' hr]
      exact h.prepared r hr
    · rw [h'.prepared r hr, hrequired, hstate r hr]
  case others =>
    intro r hr
    rw [List.mem_append, not_or] at hr
    rw [h'.others r hr.2, h.others r hr.1]
  case transitions =>
    rw [h'.transitions, h.transitions, List.filterMap_append, List.append_assoc,
      List.filterMap_congr hdue]
  case idle =>
    intro hready
    have hsame := h.idle fun r hr => hready r (List.mem_append_left _ hr)
    subst hsame
    exact h'.idle fun r hr => hready r (List.mem_append_right _ hr)

/-- One resource is prepared. -/
theorem of_prepared (hbound : s.isConstructed r) (haccount : t.account = s.account)
    (h : Prepared p r s t) : PreparedThrough p s [r] t := by
  have hconstructed : ∀ x ∈ [r], s.isConstructed x := List.forall_mem_singleton.mpr hbound
  cases h with
  | there hready =>
      have hprepared : s.state? r = (s.requiredState? p r).or (s.state? r) := by
        cases hrequired : s.requiredState? p r with
        | none => rfl
        | some state => exact hready state hrequired
      have hnews : [r].filterMap (s.due? p) = [] := by
        rw [List.filterMap_cons, due?_eq_none_iff.mpr hready, List.filterMap_nil]
      exact
        { bound := hconstructed
          account := rfl
          passStates := rfl
          prepared := List.forall_mem_singleton.mpr hprepared
          others := fun _ _ => rfl
          transitions := by rw [hnews, List.append_nil]
          idle := fun _ => rfl }
  | @brought _ binding state hget hrequired hne hinsert _ hpassStates htransitions =>
      have hbefore : s.state? r = binding.held.state := by
        unfold state?
        rw [hget]
        rfl
      have hprepared : t.state? r = (s.requiredState? p r).or (s.state? r) := by
        rw [hrequired, state?, hinsert, IdMap.get?_insert_self]
        rfl
      have hdue : s.due? p r = some ⟨r, some p, binding.held.state, state⟩ := by
        unfold due?
        rw [hrequired, hbefore, Option.bind_some, if_neg hne]
      constructor
      case bound => exact hconstructed
      case account => exact haccount
      case passStates => exact hpassStates
      case prepared => exact List.forall_mem_singleton.mpr hprepared
      case others =>
        intro x hx
        rw [List.mem_singleton] at hx
        rw [state?, hinsert, IdMap.get?_insert_of_ne hx]
        rfl
      case transitions =>
        rw [htransitions, Array.toList_push, List.filterMap_cons, hdue]
        rfl
      case idle =>
        intro hready
        have hthere := hready r List.mem_cons_self state hrequired
        exact absurd (hbefore.symm.trans hthere) hne

/-- Nothing happened if nothing was recorded. -/
theorem eq_iff (h : PreparedThrough p s rs t) : t = s ↔ t.transitions = s.transitions := by
  constructor
  · rintro rfl
    rfl
  · intro hsame
    have hnone := h.transitions
    rw [hsame, List.self_eq_append_right, List.filterMap_eq_nil_iff] at hnone
    exact h.idle fun r hr => due?_eq_none_iff.mp (hnone r hr)

end PreparedThrough

/-- The ways to refuse a request: the pass is unknown, or the first of its resources that has no
instance is found, and those before it are prepared. -/
inductive Refusal (frame : Frame) (p : PassId) (s : Storage κ η ς τ) :
    StorageError → Storage κ η ς τ → Prop where
  | unknownPass : frame.pass? p = none → Refusal frame p s (.unknownPass p) s
  | notConstructed {pass : Pass} {before after : List ResourceId} {r : ResourceId}
      {t : Storage κ η ς τ} :
    frame.pass? p = some pass → pass.resources.toList = before ++ r :: after →
    ¬ s.isConstructed r → PreparedThrough p s before t →
    Refusal frame p s (.notConstructed r) t

theorem stopped_prepare : Ends (prepare p r) s (fun _ _ => s.isConstructed r)
    fun e t => e = .notConstructed r ∧ ¬ s.isConstructed r ∧ t = s := by
  unfold Ends prepare isConstructed IdMap.contains
  cases hbound : s.bound.get? r with
  | none => exact ⟨rfl, by simp, rfl⟩
  | some binding =>
      cases s.requiredState? p r with
      | none => rfl
      | some state => by_cases hthere : binding.held.state = some state <;> simp [hthere]

/-- **What a request does.** It returns when all resources of the pass have instances, and all of
them are prepared. Otherwise it is refused for the first that has none, and those before it are
prepared; so storage is as it was before just when there was nothing to record. -/
theorem refused_request : Ends (request frame p) s
    (fun _ t => ∃ pass, frame.pass? p = some pass ∧ PreparedThrough p s pass.resources.toList t)
    fun e t => Refusal frame p s e t ∧ (t = s ↔ t.transitions = s.transitions) := by
  unfold request
  cases hpass : frame.pass? p with
  | none => exact ⟨.unknownPass hpass, fun _ => rfl, fun _ => rfl⟩
  | some pass =>
      have hprepares : Ends (pass.resources.toList.mapM fun r => return (r, ← prepare p r)) s
          (fun _ t => PreparedThrough p s pass.resources.toList t)
          fun e t => Refusal frame p s e t ∧ (t = s ↔ t.transitions = s.transitions) := by
        apply Ends.mapM (I := PreparedThrough p s) _ .nil
        intro pre r post t hsplit ht
        have hnew : ∀ x ∈ [r], x ∉ pre := by
          intro x hx hpre
          rw [List.mem_singleton] at hx
          subst hx
          have hnodup := pass.resources.nodup_toList
          rw [hsplit, List.nodup_append] at hnodup
          exact hnodup.2.2 x hpre x List.mem_cons_self rfl
        apply Ends.bind
        apply ((stopped_prepare.and instances_prepare).and ends_prepare).mono
        · rintro _ u ⟨⟨hbound, hprepared⟩, haccount, _⟩
          exact Ends.pure (ht.append (.of_prepared hbound haccount hprepared) hnew)
        · rintro _ _ ⟨⟨⟨rfl, hunbound, rfl⟩, _⟩, _⟩
          rw [ht.isConstructed_eq] at hunbound
          exact ⟨.notConstructed hpass hsplit hunbound ht, ht.eq_iff⟩
      apply Ends.bind
      exact hprepares.mono (fun _ _ h => Ends.pure ⟨pass, rfl, h⟩) fun _ _ h => h

/-- The mask of the relay has an instance, and the picture that it is shown with has none. -/
def early : Storage String Int String Supply :=
  ((Session.start ⟨[], none, 0⟩).performAll Supply.allocate [.registerTemporal ⟨1⟩ "colour",
    .registerPassState ⟨3⟩ ⟨1⟩ "shown", .construct .relay ⟨1⟩]).storage

/-- The mask cannot be shown yet, but it is in the state for it. -/
theorem refused_request_relay : ∃ t, request .relay ⟨3⟩ early = .error (.notConstructed ⟨2⟩) t ∧
    early.state? ⟨1⟩ = none ∧ t.state? ⟨1⟩ = some "shown" ∧
    early.transitions = #[] ∧ t.transitions = #[⟨⟨1⟩, some ⟨3⟩, none, "shown"⟩] ∧ t ≠ early := by
  refine ⟨_, rfl, rfl, rfl, rfl, rfl, fun hsame => ?_⟩
  have hstate := congrArg (fun s : Storage String Int String Supply => s.state? ⟨1⟩) hsame
  exact absurd hstate (by decide)

end Storage

end FramePlan
