import FramePlan.Proofs.Storage.Session

/-!
# Calls and instances

What the calls do to the instances that are bound and released, and what they record of it. The
account of storage leaves the states of instances out; here they are what it is about.

* `Storage.instances_construct`, `Storage.instances_destruct`, `Storage.instances_move` — single
  resources.
* `Storage.instances_prepare` — the state of one instance.
* `Storage.request_ready` — after a request each instance is in the state that was required.
-/

namespace FramePlan

variable {κ η ς τ : Type}

namespace Storage

variable {s t : Storage κ η ς τ} {r : ResourceId} {frame : Frame}

/-- Instances and their records are the same. -/
structure SameInstances (s t : Storage κ η ς τ) : Prop where
  bound : t.bound = s.bound
  pool : t.pool = s.pool
  transitions : t.transitions = s.transitions

theorem SameInstances.refl (s : Storage κ η ς τ) : SameInstances s s := ⟨rfl, rfl, rfl⟩

/-! ### Single resources -/

/-- The ways to come to an instance, which is taken out of the pool or new. -/
inductive Acquires [DecidableEq κ] (s : Storage κ η ς τ) (r : ResourceId)
    (pool : FreeLists κ (Instance η ς)) : Binding κ η ς → Prop where
  | imported {handle : η} {external : ς} :
    s.registrations.get? r = some (.imported handle external) → pool = s.pool →
    Acquires s r pool ⟨⟨handle, some external⟩, .imported external⟩
  | reused {key : κ} {value : Instance η ς} :
    s.registrations.get? r = some (.temporal key) → s.pool.acquire? key = some (value, pool) →
    Acquires s r pool ⟨value, .temporal key⟩
  | made {key : κ} {handle : η} :
    s.registrations.get? r = some (.temporal key) → s.pool.acquire? key = none → pool = s.pool →
    Acquires s r pool ⟨⟨handle, none⟩, .temporal key⟩

/-- What it takes to construct a resource. -/
structure Constructed [DecidableEq κ] (s : Storage κ η ς τ) (r : ResourceId)
    (t : Storage κ η ς τ) : Prop where
  free : s.bound.get? r = none
  bound : ∃ binding, Acquires s r t.pool binding ∧ t.bound = s.bound.insert r binding
  transitions : t.transitions = s.transitions

theorem not_contains_bound : ¬ s.bound.contains r ↔ s.bound.get? r = none := by
  rw [IdMap.contains, Bool.not_eq_true, Option.isSome_eq_false_iff, Option.isNone_iff_eq_none]

section Acquire

variable {α : Type} [DecidableEq κ] {lists rest : FreeLists κ α} {key : κ}
  {create : κ → EStateM StorageError τ α}

theorem acquireOrCreate_of_some {a : α} (hsome : lists.acquire? key = some (a, rest)) :
    lists.acquireOrCreate key create = pure (.reused a, rest) := by
  unfold FreeLists.acquireOrCreate
  rw [hsome]

theorem acquireOrCreate_of_none (hnone : lists.acquire? key = none) :
    lists.acquireOrCreate key create = (do return (.created (← create key), lists)) := by
  unfold FreeLists.acquireOrCreate
  rw [hnone]

end Acquire

theorem instances_construct [DecidableEq κ] {allocate : κ → EStateM StorageError τ η} :
    Ends (construct allocate frame r) s (fun _ t => Constructed s r t)
      fun _ t => SameInstances s t := by
  unfold Ends construct
  by_cases hbound : s.bound.contains r
  · rw [if_pos hbound]
    exact .refl s
  have hfree := not_contains_bound.mp hbound
  rw [if_neg hbound]
  cases hreg : s.registrations.get? r with
  | none => exact .refl s
  | some registration =>
      cases registration with
      | imported handle external => exact ⟨hfree, ⟨_, .imported hreg rfl, rfl⟩, rfl⟩
      | temporal key =>
          have hcreate : Ends (do return (⟨← allocate key, none⟩ : Instance η ς)) s.supply
              (fun value _ => ∃ handle, value = ⟨handle, none⟩) fun _ _ => True :=
            Ends.bind (Ends.self.mono (fun handle _ _ => Ends.pure ⟨handle, rfl⟩)
              fun _ _ _ => trivial)
          cases hpool : s.pool.acquire? key with
          | some taken =>
              obtain ⟨value, rest⟩ := taken
              simp only [acquireOrCreate_of_some hpool]
              exact ⟨hfree, ⟨_, .reused hreg hpool, rfl⟩, rfl⟩
          | none =>
              cases hvalue : (do return (⟨← allocate key, none⟩ : Instance η ς)) s.supply with
              | ok value supply =>
                  obtain ⟨handle, rfl⟩ := hcreate.ok hvalue
                  simp only [acquireOrCreate_of_none hpool, bind_of_ok hvalue]
                  exact ⟨hfree, ⟨_, .made hreg hpool rfl, rfl⟩, rfl⟩
              | error e supply =>
                  simp only [acquireOrCreate_of_none hpool, bind_of_error hvalue]
                  exact ⟨rfl, rfl, rfl⟩

/-- The ways to give an instance up, with what is recorded of it. -/
inductive GivesUp [DecidableEq ς] (s : Storage κ η ς τ) (r : ResourceId) (held : Instance η ς)
    (pool : FreeLists κ (Instance η ς)) : Origin κ ς → List (Transition ς) → Prop where
  | returned {external : ς} : held.state = some external → pool = s.pool →
    GivesUp s r held pool (.imported external) []
  | restored {external : ς} : held.state ≠ some external → pool = s.pool →
    GivesUp s r held pool (.imported external) [⟨r, none, held.state, external⟩]
  | released {key : κ} : pool = s.pool.release key held →
    GivesUp s r held pool (.temporal key) []

/-- What it takes to destruct a resource. -/
structure Destructed [DecidableEq ς] (s : Storage κ η ς τ) (r : ResourceId)
    (t : Storage κ η ς τ) : Prop where
  bound : t.bound = s.bound.erase r
  held : ∃ binding news, s.bound.get? r = some binding ∧
    GivesUp s r binding.held t.pool binding.origin news ∧
    t.transitions.toList = s.transitions.toList ++ news

theorem instances_destruct [DecidableEq ς] :
    Ends (destruct frame r) s (fun _ t => Destructed s r t)
      fun _ t => t = s ∧ s.bound.get? r = none := by
  unfold Ends destruct
  cases hbound : s.bound.get? r with
  | none => exact ⟨rfl, rfl⟩
  | some binding =>
      obtain ⟨held, origin⟩ := binding
      cases origin with
      | imported external =>
          by_cases hthere : held.state = some external
          · simp only [if_pos hthere]
            exact ⟨rfl, _, _, hbound, .returned hthere rfl, (List.append_nil _).symm⟩
          · simp only [if_neg hthere]
            exact ⟨rfl, _, _, hbound, .restored hthere rfl, Array.toList_push⟩
      | temporal key => exact ⟨rfl, _, _, hbound, .released rfl, (List.append_nil _).symm⟩

/-- What it takes to move a resource. -/
structure Moved (s : Storage κ η ς τ) (m : Move) (t : Storage κ η ς τ) : Prop where
  free : s.bound.get? m.dst = none
  bound : ∃ binding, s.bound.get? m.src = some binding ∧
    t.bound = (s.bound.erase m.src).insert m.dst binding
  pool : t.pool = s.pool
  transitions : t.transitions = s.transitions

theorem instances_move {m : Move} : Ends (move frame m) s (fun _ t => Moved s m t)
      fun _ t => t = s ∧ (s.bound.get? m.dst ≠ none ∨ s.bound.get? m.src = none) := by
  unfold Ends move
  by_cases hbound : s.bound.contains m.dst
  · rw [if_pos hbound]
    exact ⟨rfl, Or.inl fun hnone => not_contains_bound.mpr hnone hbound⟩
  have hfree := not_contains_bound.mp hbound
  rw [if_neg hbound]
  cases hsrc : s.bound.get? m.src with
  | none => exact ⟨rfl, Or.inr rfl⟩
  | some binding => exact ⟨hfree, ⟨binding, hsrc, rfl⟩, rfl, rfl⟩

/-! ### Requests -/

variable {p : PassId}

/-- The resource is in the state that the pass requires, if it requires any. -/
def Ready (p : PassId) (r : ResourceId) (s : Storage κ η ς τ) : Prop :=
  ∀ state, s.requiredState? p r = some state → s.state? r = some state

/-- The ways to prepare an instance: it was in the state before, or it is brought into it. -/
inductive Prepared (p : PassId) (r : ResourceId) (s : Storage κ η ς τ) : Storage κ η ς τ → Prop where
  | there : Ready p r s → Prepared p r s s
  | brought {t : Storage κ η ς τ} {binding : Binding κ η ς} {state : ς} :
    s.bound.get? r = some binding → s.requiredState? p r = some state →
    binding.held.state ≠ some state →
    t.bound = s.bound.insert r { binding with held.state := some state } →
    t.pool = s.pool → t.passStates = s.passStates →
    t.transitions = s.transitions.push ⟨r, some p, binding.held.state, state⟩ → Prepared p r s t

theorem instances_prepare [DecidableEq ς] :
    Ends (prepare p r) s (fun _ t => Prepared p r s t) fun _ t => t = s := by
  unfold Ends prepare
  cases hbound : s.bound.get? r with
  | none => rfl
  | some binding =>
      have hstate : s.state? r = binding.held.state := by
        unfold state?
        rw [hbound]
        rfl
      cases hrequired : s.requiredState? p r with
      | none => exact .there fun state hsome => by rw [hrequired] at hsome; cases hsome
      | some state =>
          by_cases hthere : binding.held.state = some state
          · simp only [if_pos hthere]
            refine .there fun state' hsome => ?_
            rw [hrequired] at hsome
            cases hsome
            exact hstate.trans hthere
          · simp only [if_neg hthere]
            exact .brought hbound hrequired hthere rfl rfl rfl rfl

theorem Prepared.passStates (h : Prepared p r s t) : t.passStates = s.passStates := by
  cases h with
  | there => rfl
  | brought _ _ _ _ _ hpassStates _ => exact hpassStates

theorem requiredState?_congr (h : t.passStates = s.passStates) :
    t.requiredState? p r = s.requiredState? p r := by
  unfold requiredState?
  rw [h]

theorem Prepared.ready (h : Prepared p r s t) : Ready p r t := by
  cases h with
  | there hthere => exact hthere
  | brought hbound hrequired hne hinsert _ hpassStates _ =>
      intro state hsome
      rw [requiredState?_congr hpassStates, hrequired] at hsome
      cases hsome
      unfold state?
      rw [hinsert, IdMap.get?_insert_self]
      rfl

/-- To prepare one resource leaves the others ready. -/
theorem Prepared.ready_of_ready {x : ResourceId} (h : Prepared p r s t) (hx : Ready p x s) :
    Ready p x t := by
  by_cases hxr : x = r
  · exact hxr ▸ h.ready
  intro state hsome
  rw [requiredState?_congr h.passStates] at hsome
  cases h with
  | there => exact hx state hsome
  | brought _ _ _ hinsert _ _ _ =>
      have hthere := hx state hsome
      unfold state? at hthere ⊢
      rw [hinsert, IdMap.get?_insert_of_ne hxr]
      exact hthere

/-- **What is requested is ready**: each resource of the pass is in the state that is required. -/
theorem request_ready [DecidableEq ς] : Ends (request frame p) s
    (fun _ t => t.passStates = s.passStates ∧ ∀ r, frame.Touches p r → Ready p r t)
    fun _ _ => True := by
  unfold request
  cases hpass : frame.pass? p with
  | none => trivial
  | some pass =>
      have hprepares : Ends (pass.resources.toList.mapM fun r => return (r, ← prepare p r)) s
          (fun _ t => t.passStates = s.passStates ∧ ∀ r ∈ pass.resources.toList, Ready p r t)
          fun _ _ => True := by
        apply Ends.mapM (I := fun rs (t : Storage κ η ς τ) =>
          t.passStates = s.passStates ∧ ∀ r ∈ rs, Ready p r t) _
          ⟨rfl, fun _ hr => absurd hr List.not_mem_nil⟩
        rintro pre r post t _ ⟨hsame, hpre⟩
        apply Ends.bind
        apply instances_prepare.mono _ fun _ _ _ => trivial
        intro _ u hu
        refine Ends.pure ⟨hu.passStates.trans hsame, fun x hx => ?_⟩
        rcases List.mem_append.mp hx with hx | hx
        · exact hu.ready_of_ready (hpre x hx)
        · rw [List.mem_singleton] at hx
          exact hx ▸ hu.ready
      apply Ends.bind
      apply hprepares.mono _ fun _ _ _ => trivial
      rintro _ t ⟨hsame, ht⟩
      refine Ends.pure ⟨hsame, fun r hr => ?_⟩
      exact ht r (IdSet.mem_toList.mpr ((Frame.touches_iff_mem hpass).mp hr))

end Storage

end FramePlan
