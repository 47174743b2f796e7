import FramePlan.Proofs.Storage.Instances

/-!
# What passes require of resources

A pass requires of a resource the state that was registered for the two last. No call but a
registration has a say in that, whether it is refused or not.

* `lastPassState?` — the state that was registered last in the course of some calls.
* `Session.requiredState?_performAll` — it is the one that is required.
-/

namespace FramePlan

variable {κ η ς τ α : Type}

/-- The state that a call registers for the pass and the resource, if it does. -/
def StorageCall.passState? (p : PassId) (r : ResourceId) : StorageCall κ η ς → Option ς
  | .registerPassState p' r' state => if p' = p ∧ r' = r then some state else none
  | _ => none

/-- The state that some calls register for the pass and the resource last, if they do. -/
def lastPassState? (p : PassId) (r : ResourceId) (calls : List (StorageCall κ η ς)) : Option ς :=
  (calls.filterMap (·.passState? p r)).getLast?

section Last

variable {p : PassId} {r : ResourceId} {calls : List (StorageCall κ η ς)}
  {call : StorageCall κ η ς}

theorem lastPassState?_snoc :
    lastPassState? p r (calls ++ [call]) = (call.passState? p r).or (lastPassState? p r calls) := by
  unfold lastPassState?
  rw [List.filterMap_append, List.getLast?_append]
  cases hcall : call.passState? p r <;> simp [hcall]

end Last

namespace Storage

variable {s t : Storage κ η ς τ} {frame : Frame} {p p' : PassId} {r r' : ResourceId}

/-! ### What calls leave as it is -/

/-- However the action ends, the same states are required as before. -/
def KeepsPassStates (act : EStateM StorageError (Storage κ η ς τ) α) : Prop :=
  ∀ s, Ends act s (fun _ t => t.passStates = s.passStates) fun _ t => t.passStates = s.passStates

theorem passStates_countAcquired (isReused : Bool) :
    (s.countAcquired isReused).passStates = s.passStates := by
  cases isReused <;> rfl

theorem construct_keepsPassStates [DecidableEq κ] {allocate : κ → EStateM StorageError τ η} :
    KeepsPassStates (construct (ς := ς) allocate frame r) := by
  intro s
  unfold Ends construct
  by_cases hbound : s.bound.contains r
  · rw [if_pos hbound]
  rw [if_neg hbound]
  cases s.registrations.get? r with
  | none => rfl
  | some registration =>
      cases registration with
      | imported handle external => rfl
      | temporal key =>
          cases hresult : s.pool.acquireOrCreate (m := EStateM StorageError τ) key
              (fun key => do return (⟨← allocate key, none⟩ : Instance η ς)) s.supply with
          | ok taken supply =>
              simp only [hresult]
              exact passStates_countAcquired _
          | error e supply => simp only [hresult]

theorem destruct_keepsPassStates [DecidableEq ς] :
    KeepsPassStates (destruct (κ := κ) (η := η) (ς := ς) (τ := τ) frame r) := by
  intro s
  unfold Ends destruct
  cases s.bound.get? r with
  | none => rfl
  | some binding =>
      obtain ⟨held, origin⟩ := binding
      cases origin with
      | imported external =>
          simp only
          split <;> rfl
      | temporal key => rfl

theorem move_keepsPassStates {m : Move} :
    KeepsPassStates (move (κ := κ) (η := η) (ς := ς) (τ := τ) frame m) := by
  intro s
  unfold Ends move
  by_cases hbound : s.bound.contains m.dst
  · rw [if_pos hbound]
  rw [if_neg hbound]
  cases s.bound.get? m.src <;> rfl

theorem request_keepsPassStates [DecidableEq ς] :
    KeepsPassStates (request (κ := κ) (η := η) (ς := ς) (τ := τ) frame p) := by
  intro s
  unfold request
  cases frame.pass? p with
  | none => exact rfl
  | some pass =>
      have hprepares : Ends (pass.resources.toList.mapM fun r => return (r, ← prepare p r)) s
          (fun _ t => t.passStates = s.passStates) fun _ t => t.passStates = s.passStates := by
        apply Ends.mapM (I := fun _ (t : Storage κ η ς τ) => t.passStates = s.passStates) _ rfl
        intro _ r _ t _ ht
        apply Ends.bind
        apply instances_prepare.mono
        · exact fun _ _ hu => Ends.pure (hu.passStates.trans ht)
        · rintro _ _ rfl
          exact ht
      exact Ends.bind (hprepares.mono (fun _ _ h => Ends.pure h) fun _ _ h => h)

/-! ### Registrations -/

theorem requiredState?_registerPassState {state : ς} :
    (s.registerPassState p' r' state).requiredState? p r =
      if p' = p ∧ r' = r then some state else s.requiredState? p r := by
  unfold requiredState? registerPassState
  simp only [IdMap.get?_insert]
  by_cases hp : p = p'
  · subst hp
    rw [if_pos rfl, Option.bind_some, IdMap.get?_insert, IdMap.getD]
    by_cases hr : r = r'
    · simp [hr]
    · rw [if_neg hr, if_neg fun h => hr h.2.symm]
      cases s.passStates.get? p <;> simp
  · rw [if_neg hp, if_neg fun h => hp h.1.symm]

end Storage

namespace Session

variable [DecidableEq κ] [DecidableEq ς] {s : Session κ η ς τ}
  {allocate : κ → EStateM StorageError τ η} {p : PassId} {r : ResourceId}

/-- **One call**: what is required is what it registers, or what was required before. -/
theorem requiredState?_perform (call : StorageCall κ η ς) :
    (s.perform allocate call).storage.requiredState? p r =
      (call.passState? p r).or (s.storage.requiredState? p r) := by
  have hkeeps : ∀ {α : Type} {act : EStateM StorageError (Storage κ η ς τ) α},
      Storage.KeepsPassStates act →
      (s.act act).storage.requiredState? p r = s.storage.requiredState? p r := by
    intro α act h
    obtain ⟨t, heq, ht⟩ := act_ends (h s.storage)
    rw [heq]
    exact Storage.requiredState?_congr ht
  cases call with
  | registerPassState p' r' state =>
      refine Storage.requiredState?_registerPassState.trans ?_
      by_cases hsame : p' = p ∧ r' = r <;> simp [StorageCall.passState?, hsame]
  | registerImported => rfl
  | registerTemporal => rfl
  | construct => exact hkeeps Storage.construct_keepsPassStates
  | destruct => exact hkeeps Storage.destruct_keepsPassStates
  | move => exact hkeeps Storage.move_keepsPassStates
  | request => exact hkeeps Storage.request_keepsPassStates
  | takeTransitions => rfl
  | releasePool => rfl

/-- **After some calls the state is required that they registered last.** -/
theorem requiredState?_performAll (allocate : κ → EStateM StorageError τ η) (supply : τ)
    (calls : List (StorageCall κ η ς)) :
    ((start supply).performAll allocate calls).storage.requiredState? p r =
      lastPassState? p r calls := by
  induction calls using List.reverseRecOn with
  | nil => rfl
  | append_singleton calls call ih =>
      have hlast : (start supply).performAll allocate (calls ++ [call]) =
          ((start supply).performAll allocate calls).perform allocate call :=
        List.foldl_concat ..
      rw [hlast, requiredState?_perform, ih, lastPassState?_snoc]

end Session

end FramePlan
