import FramePlan.Frame.Access
import FramePlan.Proofs.IdMap
import FramePlan.Proofs.Outcome
import FramePlan.Storage.Basic

/-!
# The account of storage

Who owns what does not depend on the states that instances are in, nor on what was recorded. The
account of storage leaves both out, and each call has one description of what it does to it: which
ways there are for it to return, and why it does not.

* `Storage.ends_construct`, `Storage.ends_destruct`, `Storage.ends_move`, `Storage.ends_request` —
  the calls and the account.
-/

namespace FramePlan

variable {κ η ς τ : Type}

/-- What storage owns. -/
structure Account (κ η ς τ : Type) where
  registrations : IdMap .resource (Registration κ η ς)
  /-- The handle of each bound resource, and what becomes of its instance in the end. -/
  owners : IdMap .resource (η × Origin κ ς)
  pool : FreeLists κ (Instance η ς)
  supply : τ
  stats : Stats

/-- What a binding is in the account. -/
def Binding.owner (binding : Binding κ η ς) : η × Origin κ ς :=
  (binding.held.handle, binding.origin)

namespace Storage

/-- The account of storage. -/
def account (s : Storage κ η ς τ) : Account κ η ς τ where
  registrations := s.registrations
  owners := s.bound.map fun _ binding => binding.owner
  pool := s.pool
  supply := s.supply
  stats := s.stats

end Storage

/-- From the first state the allocator comes to another, and makes some handles on the way. -/
inductive Issues (allocate : κ → EStateM StorageError τ η) (first : τ) : List η → τ → Prop where
  | nil : Issues allocate first [] first
  | made {hs : List η} {supply next : τ} {key : κ} {h : η} : Issues allocate first hs supply →
    allocate key supply = .ok h next → Issues allocate first (hs ++ [h]) next

/-- From the first state on, the allocator never fails. -/
def NeverFails (allocate : κ → EStateM StorageError τ η) (first : τ) : Prop :=
  ∀ hs supply key, Issues allocate first hs supply → ∃ h next, allocate key supply = .ok h next

namespace Account

/-- The ways to construct a resource. -/
inductive Constructs (allocate : κ → EStateM StorageError τ η) (r : ResourceId)
    (a : Account κ η ς τ) : Account κ η ς τ → Prop where
  | imported {handle : η} {external : ς} :
    a.registrations.get? r = some (.imported handle external) →
    Constructs allocate r a
      { a with owners := a.owners.insert r (handle, .imported external) }
  | reused {key : κ} {value : Instance η ς} {before after : List (κ × Instance η ς)} :
    a.registrations.get? r = some (.temporal key) →
    a.pool.entries = before ++ (key, value) :: after →
    Constructs allocate r a
      { a with
        owners := a.owners.insert r (value.handle, .temporal key)
        pool := ⟨before ++ after⟩
        stats.reused := a.stats.reused + 1 }
  | allocated {key : κ} {handle : η} {supply : τ} :
    a.registrations.get? r = some (.temporal key) →
    allocate key a.supply = .ok handle supply →
    Constructs allocate r a
      { a with
        owners := a.owners.insert r (handle, .temporal key)
        supply
        stats.allocated := a.stats.allocated + 1 }

/-- The ways to destruct a resource. -/
inductive Destructs (r : ResourceId) (a : Account κ η ς τ) : Account κ η ς τ → Prop where
  | imported {handle : η} {external : ς} :
    a.owners.get? r = some (handle, .imported external) →
    Destructs r a { a with owners := a.owners.erase r }
  | temporal {key : κ} {value : Instance η ς} :
    a.owners.get? r = some (value.handle, .temporal key) →
    Destructs r a
      { a with
        owners := a.owners.erase r
        pool := a.pool.release key value
        stats.recycled := a.stats.recycled + 1 }

/-- The way to move a resource. -/
inductive Moves (m : Move) (a : Account κ η ς τ) : Account κ η ς τ → Prop where
  | moved {owner : η × Origin κ ς} :
    a.owners.get? m.src = some owner →
    Moves m a
      { a with
        owners := (a.owners.erase m.src).insert m.dst owner
        stats.moved := a.stats.moved + 1 }

/-- The handles of a pass: for each of its resources that of the owner, and no others. -/
def Grants (frame : Frame) (p : PassId) (handles : IdMap .resource η) (a : Account κ η ς τ) :
    Prop :=
  ∀ r, (frame.Touches p r →
      ∃ h origin, a.owners.get? r = some (h, origin) ∧ handles.get? r = some h) ∧
    (¬ frame.Touches p r → handles.get? r = none)

end Account

namespace Storage

variable {s t : Storage κ η ς τ} {r : ResourceId}

theorem owners_get? : s.account.owners.get? r = (s.bound.get? r).map Binding.owner := by
  unfold account
  rw [IdMap.get?_map]

theorem contains_bound : s.bound.contains r = true ↔ s.account.owners.get? r ≠ none := by
  rw [owners_get?, IdMap.contains]
  cases s.bound.get? r <;> simp

theorem owners_of_bound {binding : Binding κ η ς} (h : s.bound.get? r = some binding) :
    s.account.owners.get? r = some (binding.held.handle, binding.origin) := by
  rw [owners_get?, h]
  rfl

theorem owners_of_unbound (h : s.bound.get? r = none) : s.account.owners.get? r = none := by
  rw [owners_get?, h]
  rfl

theorem owners_of_not_contains (h : ¬ s.bound.contains r) : s.account.owners.get? r = none :=
  not_not.mp (mt contains_bound.mpr h)

theorem isConstructed_iff : s.isConstructed r = true ↔ s.account.owners.get? r ≠ none :=
  contains_bound

theorem isConstructed_eq_false_iff :
    s.isConstructed r = false ↔ s.account.owners.get? r = none := by
  rw [← Bool.not_eq_true, isConstructed_iff, not_not]

/-! ### Records leave the account as it is -/

theorem account_trace (text : String) : (s.trace text).account = s.account := rfl

theorem account_bind (binding : Binding κ η ς) : (s.bind r binding).account =
    { s.account with owners := s.account.owners.insert r binding.owner } := by
  unfold account bind
  simp only [IdMap.map_insert]

theorem account_unbind :
    (s.unbind r).account = { s.account with owners := s.account.owners.erase r } := by
  unfold account unbind
  simp only [IdMap.map_erase]

/-! ### Single resources -/

theorem account_release {key : κ} {value : Instance η ς} :
    ({ s.unbind r with
      pool := s.pool.release key value
      stats.recycled := s.stats.recycled + 1 } : Storage κ η ς τ).account =
    { s.account with
      owners := s.account.owners.erase r
      pool := s.account.pool.release key value
      stats.recycled := s.account.stats.recycled + 1 } := by
  unfold account unbind
  simp only [IdMap.map_erase]

section Keys

variable [DecidableEq κ] {frame : Frame}

/-- The ways to come to a value. -/
theorem ends_acquireOrCreate {α : Type} {lists : FreeLists κ α} {key : κ}
    {create : κ → EStateM StorageError τ α} {supply : τ} :
    Ends (lists.acquireOrCreate key create) supply
      (fun taken supply' => (∃ value rest, lists.acquire? key = some (value, rest) ∧
          taken = (.reused value, rest) ∧ supply' = supply) ∨
        ∃ value, create key supply = .ok value supply' ∧ taken = (.created value, lists))
      fun e supply' => create key supply = .error e supply' := by
  unfold FreeLists.acquireOrCreate
  cases lists.acquire? key with
  | some taken => exact Ends.pure (Or.inl ⟨taken.1, taken.2, rfl, rfl, rfl⟩)
  | none =>
      apply Ends.bind
      apply Ends.self.mono _ fun _ _ hstop => hstop
      intro value supply' hcreate
      exact Ends.pure (Or.inr ⟨value, hcreate, rfl⟩)

theorem ends_construct {allocate : κ → EStateM StorageError τ η} :
    Ends (construct allocate frame r) s
      (fun _ t => s.account.owners.get? r = none ∧
        Account.Constructs allocate r s.account t.account)
      fun _ _ => s.account.owners.get? r ≠ none ∨ s.account.registrations.get? r = none ∨
        ∃ key e supply, allocate key s.account.supply = .error e supply := by
  unfold Ends construct
  by_cases hbound : s.bound.contains r
  · rw [if_pos hbound]
    exact Or.inl (contains_bound.mp hbound)
  have hfree := owners_of_not_contains hbound
  rw [if_neg hbound]
  cases hreg : s.registrations.get? r with
  | none => exact Or.inr (Or.inl hreg)
  | some registration =>
      cases registration with
      | imported handle external =>
          refine ⟨hfree, ?_⟩
          rw [account_bind, account_trace]
          exact .imported hreg
      | temporal key =>
          have hcreate : Ends (do return (⟨← allocate key, none⟩ : Instance η ς)) s.supply
              (fun value supply => ∃ handle, allocate key s.supply = .ok handle supply ∧
                value = ⟨handle, none⟩)
              fun e supply => allocate key s.supply = .error e supply :=
            Ends.bind (Ends.self.mono (fun handle supply h => Ends.pure ⟨handle, h, rfl⟩)
              fun _ _ h => h)
          cases hresult : s.pool.acquireOrCreate (m := EStateM StorageError τ) key
              (fun key => do return (⟨← allocate key, none⟩ : Instance η ς)) s.supply with
          | ok taken supply =>
              simp only [hresult, account_bind]
              rcases ends_acquireOrCreate.ok hresult with
                ⟨value, rest, hpool, rfl, rfl⟩ | ⟨value, hvalue, rfl⟩
              · obtain ⟨before, after, hentries, rfl⟩ := FreeLists.entries_of_acquire? hpool
                exact ⟨hfree, .reused hreg hentries⟩
              · obtain ⟨handle, hallocate, rfl⟩ := hcreate.ok hvalue
                exact ⟨hfree, .allocated hreg hallocate⟩
          | error e supply =>
              have hvalue := ends_acquireOrCreate.error hresult
              simp only [hresult]
              exact Or.inr (Or.inr ⟨key, e, supply, hcreate.error hvalue⟩)

end Keys

theorem ends_move {frame : Frame} {m : Move} : Ends (move frame m) s
      (fun _ t => s.account.owners.get? m.dst = none ∧ Account.Moves m s.account t.account)
      fun _ _ => s.account.owners.get? m.dst ≠ none ∨ s.account.owners.get? m.src = none := by
  unfold Ends move
  by_cases hbound : s.bound.contains m.dst
  · rw [if_pos hbound]
    exact Or.inl (contains_bound.mp hbound)
  have hfree := owners_of_not_contains hbound
  rw [if_neg hbound]
  cases hsrc : s.bound.get? m.src with
  | none => exact Or.inr (owners_of_unbound hsrc)
  | some binding =>
      simp only [account_bind, account_unbind]
      exact ⟨hfree, .moved (owners_of_bound hsrc)⟩

section States

variable [DecidableEq ς] {frame : Frame} {p : PassId}

theorem ends_destruct : Ends (destruct frame r) s
      (fun _ t => Account.Destructs r s.account t.account)
      fun _ _ => s.account.owners.get? r = none := by
  unfold Ends destruct
  cases hbound : s.bound.get? r with
  | none => exact owners_of_unbound hbound
  | some binding =>
      obtain ⟨held, origin⟩ := binding
      have howner := owners_of_bound hbound
      cases origin with
      | imported external =>
          have hdestructs := Account.Destructs.imported howner
          rw [← account_unbind] at hdestructs
          simp only
          split
          · exact hdestructs
          · exact hdestructs
      | temporal key =>
          have hdestructs := Account.Destructs.temporal howner
          rw [← account_release] at hdestructs
          exact hdestructs

/-- To bring an instance into a state does not change who owns it. -/
theorem ends_prepare : Ends (prepare p r) s
      (fun handle t => t.account = s.account ∧
        ∃ origin, s.account.owners.get? r = some (handle, origin))
      fun _ _ => s.account.owners.get? r = none := by
  unfold Ends prepare
  cases hbound : s.bound.get? r with
  | none => exact owners_of_unbound hbound
  | some binding =>
      have howner := owners_of_bound hbound
      have hbind : ∀ state, (s.bind r { binding with held.state := state }).account =
          s.account := by
        intro state
        have hinsert : s.account.owners.insert r binding.owner = s.account.owners :=
          IdMap.insert_self howner
        rw [account_bind]
        exact congrArg (fun owners => { s.account with owners }) hinsert
      cases hstate : s.requiredState? p r with
      | none => exact ⟨rfl, _, howner⟩
      | some state =>
          by_cases hthere : binding.held.state = some state
          · simp only [if_pos hthere, true_and]
            exact ⟨_, howner⟩
          · simp only [if_neg hthere]
            exact ⟨hbind _, _, howner⟩

theorem ends_prepareAll {rs : List ResourceId} :
    Ends (rs.mapM fun r => return (r, ← prepare p r)) s
      (fun es t => t.account = s.account ∧ es.map (·.1) = rs ∧
        ∀ e ∈ es, ∃ origin, s.account.owners.get? e.1 = some (e.2, origin))
      fun _ _ => ∃ r ∈ rs, s.account.owners.get? r = none := by
  induction rs generalizing s with
  | nil => exact Ends.pure ⟨rfl, rfl, fun e he => absurd he List.not_mem_nil⟩
  | cons r rs ih =>
      rw [List.mapM_cons]
      apply Ends.bind
      apply Ends.bind
      apply ends_prepare.mono
      · rintro handle t ⟨hsame, howner⟩
        apply Ends.pure
        apply Ends.bind
        apply ih.mono
        · rintro es u ⟨hsame', hkeys, howners⟩
          apply Ends.pure
          rw [hsame] at hsame' howners
          refine ⟨hsame', congrArg _ hkeys, fun e he => ?_⟩
          rcases List.mem_cons.mp he with rfl | he
          · exact howner
          · exact howners e he
        · rintro _ _ ⟨x, hx, hnone⟩
          rw [hsame] at hnone
          exact ⟨x, List.mem_cons_of_mem _ hx, hnone⟩
      · intro _ _ hnone
        exact ⟨r, List.mem_cons_self .., hnone⟩

/-- The handles of a pass are those of its resources. -/
theorem ends_request : Ends (request frame p) s
      (fun handles t => t.account = s.account ∧ s.account.Grants frame p handles)
      fun _ _ => frame.pass? p = none ∨
        ∃ r, frame.Touches p r ∧ s.account.owners.get? r = none := by
  unfold request
  cases hpass : frame.pass? p with
  | none => exact Or.inl rfl
  | some pass =>
      have htouch : ∀ r, frame.Touches p r ↔ r ∈ pass.resources.toList := by
        intro r
        rw [IdSet.mem_toList, Frame.touches_iff_mem hpass]
      apply Ends.bind
      apply ends_prepareAll.mono
      · rintro es t ⟨hsame, hkeys, howners⟩
        apply Ends.pure
        have hnodup : (es.map (·.1)).Nodup := hkeys ▸ pass.resources.nodup_toList
        refine ⟨hsame, fun r => ⟨fun hr => ?_, fun hr => ?_⟩⟩
        · rw [htouch, ← hkeys] at hr
          obtain ⟨⟨_, h⟩, he, rfl⟩ := List.mem_map.mp hr
          obtain ⟨origin, howner⟩ := howners _ he
          exact ⟨h, origin, howner, (IdMap.get?_ofList hnodup).mpr he⟩
        · rw [Option.eq_none_iff_forall_ne_some]
          intro h hget
          rw [htouch, ← hkeys] at hr
          exact hr (List.mem_map.mpr ⟨_, (IdMap.get?_ofList hnodup).mp hget, rfl⟩)
      · rintro _ _ ⟨r, hr, hnone⟩
        exact Or.inr ⟨r, (htouch r).mpr hr, hnone⟩

end States

end Storage

end FramePlan
