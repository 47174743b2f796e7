import FramePlan.Proofs.Storage.Account
import FramePlan.Storage.Session

/-!
# What a call does to storage

Each call to storage does one of a few things to the account, and what it does is said once here. A
refused call does nothing, except that the allocator may have been asked for a handle and failed.

* `Storage.refused_construct`, `Storage.refused_destruct`, `Storage.refused_move` — nothing is bound
  or released by a call that is refused.
* `Account.Performs`, `Session.performs` — what each call does to the account.
-/

namespace FramePlan

variable {κ η ς τ : Type}

namespace Storage

variable {s : Storage κ η ς τ} {r : ResourceId} {frame : Frame}

/-! ### Refused calls -/

/-- A construct that is refused may have asked the allocator, and that is all it did. -/
theorem refused_construct [DecidableEq κ] {allocate : κ → EStateM StorageError τ η} :
    Ends (construct allocate frame r) s (fun _ _ => True) fun e t => t = s ∨
      ∃ key supply, allocate key s.supply = .error e supply ∧ t = { s with supply } := by
  unfold Ends construct
  by_cases hbound : s.bound.contains r
  · rw [if_pos hbound]
    exact Or.inl rfl
  rw [if_neg hbound]
  cases hreg : s.registrations.get? r with
  | none => exact Or.inl rfl
  | some registration =>
      cases registration with
      | imported handle external => trivial
      | temporal key =>
          have hcreate : Ends (do return (⟨← allocate key, none⟩ : Instance η ς)) s.supply
              (fun _ _ => True) fun e supply => allocate key s.supply = .error e supply :=
            Ends.bind (Ends.self.mono (fun _ _ _ => Ends.pure trivial) fun _ _ h => h)
          cases hresult : s.pool.acquireOrCreate (m := EStateM StorageError τ) key
              (fun key => do return (⟨← allocate key, none⟩ : Instance η ς)) s.supply with
          | ok taken supply => simp only [hresult]
          | error e supply =>
              have hvalue := ends_acquireOrCreate.error hresult
              simp only [hresult]
              exact Or.inr ⟨key, supply, hcreate.error hvalue, rfl⟩

/-- A destruct that is refused does nothing. -/
theorem refused_destruct [DecidableEq ς] :
    Ends (destruct frame r) s (fun _ _ => True) fun _ t => t = s := by
  unfold Ends destruct
  cases hbound : s.bound.get? r with
  | none => rfl
  | some binding =>
      obtain ⟨held, origin⟩ := binding
      cases origin <;> trivial

/-- A move that is refused does nothing. -/
theorem refused_move {m : Move} : Ends (move frame m) s (fun _ _ => True) fun _ t => t = s := by
  unfold Ends move
  by_cases hbound : s.bound.contains m.dst
  · rw [if_pos hbound]
  rw [if_neg hbound]
  cases s.bound.get? m.src <;> trivial

/-- To bring an instance into a state does nothing if the resource has none. -/
theorem refused_prepare [DecidableEq ς] {p : PassId} :
    Ends (prepare p r) s (fun _ _ => True) fun _ t => t = s := by
  unfold Ends prepare
  cases hbound : s.bound.get? r with
  | none => rfl
  | some binding =>
      cases hstate : s.requiredState? p r with
      | none => trivial
      | some state => by_cases hthere : binding.held.state = some state <;> simp [hthere]

/-- A request does not change who owns what, whether it is refused or not. -/
theorem account_request [DecidableEq ς] {p : PassId} :
    Ends (request frame p) s (fun _ t => t.account = s.account)
      fun _ t => t.account = s.account := by
  unfold request
  cases frame.pass? p with
  | none => exact rfl
  | some pass =>
      have hprepares : Ends (pass.resources.toList.mapM fun r => return (r, ← prepare p r)) s
          (fun _ t => t.account = s.account) fun _ t => t.account = s.account := by
        apply Ends.mapM (I := fun _ (t : Storage κ η ς τ) => t.account = s.account) _ rfl
        intro _ r _ t _ ht
        apply Ends.bind
        apply (ends_prepare.and refused_prepare).mono
        · exact fun _ _ hu => Ends.pure (hu.1.1.trans ht)
        · rintro _ _ ⟨_, rfl⟩
          exact ht
      exact Ends.bind (hprepares.mono (fun _ _ h => Ends.pure h) fun _ _ h => h)

end Storage

/-! ### Calls and the account -/

namespace Account

/-- What a call can do to the account of storage, and the instances that it takes out of the pool. A
call does what its name says, or nothing. -/
inductive Performs (allocate : κ → EStateM StorageError τ η) (a : Account κ η ς τ) :
    StorageCall κ η ς → Account κ η ς τ → List (κ × η) → Prop where
  | nothing (call : StorageCall κ η ς) : Performs allocate a call a []
  | imported {r : ResourceId} {handle : η} {external : ς} :
    Performs allocate a (.registerImported r handle external)
      { a with registrations := a.registrations.insert r (.imported handle external) } []
  | temporal {r : ResourceId} {key : κ} : Performs allocate a (.registerTemporal r key)
      { a with registrations := a.registrations.insert r (.temporal key) } []
  | constructed {b : Account κ η ς τ} {frame : Frame} {r : ResourceId} :
    a.owners.get? r = none → Constructs allocate r a b →
    Performs allocate a (.construct frame r) b []
  | failed {frame : Frame} {r : ResourceId} {key : κ} {e : StorageError} {supply : τ} :
    allocate key a.supply = .error e supply →
    Performs allocate a (.construct frame r) { a with supply } []
  | destructed {b : Account κ η ς τ} {frame : Frame} {r : ResourceId} :
    Destructs r a b → Performs allocate a (.destruct frame r) b []
  | moved {b : Account κ η ς τ} {frame : Frame} {m : Move} :
    a.owners.get? m.dst = none → Moves m a b → Performs allocate a (.move frame m) b []
  | emptied : Performs allocate a .releasePool { a with pool := ∅ }
      (a.pool.entries.map fun e => (e.1, e.2.handle))

end Account

namespace Session

variable {s : Session κ η ς τ} {allocate : κ → EStateM StorageError τ η}

/-- What is left of a call is what it ends with. -/
theorem act_ends {α : Type} {call : EStateM StorageError (Storage κ η ς τ) α}
    {P : Storage κ η ς τ → Prop} (h : Ends call s.storage (fun _ => P) fun _ => P) :
    ∃ t, s.act call = { s with storage := t } ∧ P t := by
  unfold act
  cases hcall : call s.storage with
  | ok a t => exact ⟨t, rfl, h.ok hcall⟩
  | error e t => exact ⟨t, rfl, h.error hcall⟩

variable [DecidableEq κ] [DecidableEq ς]

/-- **Each call does to the account what it can do.** -/
theorem performs (s : Session κ η ς τ) (allocate : κ → EStateM StorageError τ η)
    (call : StorageCall κ η ς) :
    ∃ returned, Account.Performs allocate s.storage.account call
        (s.perform allocate call).storage.account returned ∧
      (s.perform allocate call).returned = s.returned ++ returned := by
  have hacts : ∀ {α : Type} {act : EStateM StorageError (Storage κ η ς τ) α},
      Ends act s.storage
        (fun _ t => Account.Performs allocate s.storage.account call t.account [])
        (fun _ t => Account.Performs allocate s.storage.account call t.account []) →
      Account.Performs allocate s.storage.account call (s.act act).storage.account [] ∧
        (s.act act).returned = s.returned ++ [] := by
    intro α act h
    obtain ⟨t, heq, ht⟩ := act_ends h
    rw [heq, List.append_nil]
    exact ⟨ht, rfl⟩
  cases call with
  | registerImported r handle external => exact ⟨[], .imported, (List.append_nil _).symm⟩
  | registerTemporal r key => exact ⟨[], .temporal, (List.append_nil _).symm⟩
  | registerPassState p r state => exact ⟨[], .nothing _, (List.append_nil _).symm⟩
  | construct frame r =>
      refine ⟨[], hacts ((Storage.ends_construct.and Storage.refused_construct).mono ?_ ?_)⟩
      · rintro _ t ⟨⟨hfree, hconstructs⟩, _⟩
        exact .constructed hfree hconstructs
      · rintro e _ ⟨_, rfl | ⟨key, supply, hfail, rfl⟩⟩
        · exact .nothing _
        · exact .failed hfail
  | destruct frame r =>
      refine ⟨[], hacts ((Storage.ends_destruct.and Storage.refused_destruct).mono ?_ ?_)⟩
      · exact fun _ t ht => .destructed ht.1
      · rintro e _ ⟨_, rfl⟩
        exact .nothing _
  | move frame m =>
      refine ⟨[], hacts ((Storage.ends_move.and Storage.refused_move).mono ?_ ?_)⟩
      · exact fun _ t ht => .moved ht.1.1 ht.1.2
      · rintro e _ ⟨_, rfl⟩
        exact .nothing _
  | request frame p =>
      refine ⟨[], hacts (Storage.account_request.mono ?_ ?_)⟩
      · intro _ t ht
        rw [ht]
        exact .nothing _
      · intro _ t ht
        rw [ht]
        exact .nothing _
  | takeTransitions => exact ⟨[], .nothing _, (List.append_nil _).symm⟩
  | releasePool => exact ⟨_, .emptied, rfl⟩

end Session

end FramePlan
