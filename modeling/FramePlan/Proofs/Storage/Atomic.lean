import FramePlan.Proofs.Storage.Instances
import FramePlan.Storage.Meter

/-!
# Calls are all or nothing

Whether a call returns is decided by what it finds: which resources are bound, how they are
registered, and for a construct whether an instance waits. A refused call leaves storage as it was,
except that the allocator may have been asked, which happens last. A call that returns changes the
bindings of the resources that it names, and of no others.

* `Storage.construct_of_bound`, `Storage.construct_of_unregistered`, `Storage.construct_of_failed`,
  `Storage.construct_of_registered`, `Storage.construct_of_made` — what a construct comes to, for
  each situation that it can find.
* `Storage.RefusesConstruct`, `Storage.RefusesMove` — why a call is refused.
* `Storage.calls_atomic` — construct, destruct and move are all or nothing.
-/

namespace FramePlan

variable {κ η ς τ : Type}

namespace Metered

variable {allocate : κ → EStateM StorageError τ η} {key : κ} {m : Metered κ η τ} {supply : τ}

theorem meter_of_ok {handle : η}
    (hok : allocate key m.supply = .ok handle supply) :
    meter allocate key m = .ok handle ⟨supply, m.calls ++ [(key, some handle)]⟩ := by
  unfold meter
  rw [hok]

theorem meter_of_error {e : StorageError}
    (hfail : allocate key m.supply = .error e supply) :
    meter allocate key m = .error e ⟨supply, m.calls ++ [(key, none)]⟩ := by
  unfold meter
  rw [hfail]

end Metered

namespace Storage

section

variable {s t : Storage κ η ς τ} {r : ResourceId} {m : Move} {frame : Frame} {supply : τ}

theorem not_isConstructed : ¬ s.isConstructed r ↔ s.bound.get? r = none := not_contains_bound

/-- Only these resources may be bound to something else. -/
def KeepsOthers (rs : List ResourceId) (s t : Storage κ η ς τ) : Prop :=
  ∀ x, x ∉ rs → t.bound.get? x = s.bound.get? x

/-! ### Constructs -/

/-- The resource is bound, and the allocator came to a state. -/
structure Binds (s : Storage κ η ς τ) (r : ResourceId) (supply : τ) (t : Storage κ η ς τ) :
    Prop where
  bound : ∃ binding, t.bound = s.bound.insert r binding
  supply : t.supply = supply

theorem Binds.isConstructed (h : Binds s r supply t) : t.isConstructed r := by
  obtain ⟨binding, hbound⟩ := h.bound
  unfold Storage.isConstructed IdMap.contains
  rw [hbound, IdMap.get?_insert_self]
  rfl

theorem Binds.keepsOthers (h : Binds s r supply t) : KeepsOthers [r] s t := by
  obtain ⟨binding, hbound⟩ := h.bound
  intro x hx
  rw [hbound, IdMap.get?_insert_of_ne (fun heq => hx (List.mem_singleton.mpr heq))]

section Construct

variable [DecidableEq κ]

/-- The resource is temporal, and no instance waits under its key. -/
def Lacks (s : Storage κ η ς τ) (r : ResourceId) (key : κ) : Prop :=
  s.registrations.get? r = some (.temporal key) ∧ s.pool.available key = 0

variable {allocate : κ → EStateM StorageError τ η} {key : κ}

theorem construct_of_bound (hbound : s.isConstructed r) :
    construct allocate frame r s = .error (.alreadyConstructed r) s := by
  unfold isConstructed at hbound
  simp only [construct, hbound, if_true]

theorem construct_of_unregistered (hfree : ¬ s.isConstructed r)
    (hreg : s.registrations.get? r = none) :
    construct allocate frame r s = .error (.unregistered r) s := by
  unfold isConstructed at hfree
  simp only [construct, hfree, hreg, if_false, Bool.false_eq_true]

theorem construct_of_failed {e : StorageError} (hfree : ¬ s.isConstructed r)
    (hlacks : s.Lacks r key) (hfail : allocate key s.supply = .error e supply) :
    construct allocate frame r s = .error e { s with supply } := by
  have hnone := FreeLists.acquire?_eq_none_iff_available.mpr hlacks.2
  have hcreate : (do return (⟨← allocate key, none⟩ : Instance η ς)) s.supply = .error e supply :=
    bind_of_error hfail
  unfold isConstructed at hfree
  simp only [construct, hfree, hlacks.1, acquireOrCreate_of_none hnone, bind_of_error hcreate,
    if_false, Bool.false_eq_true]

theorem construct_of_made {handle : η} (hfree : ¬ s.isConstructed r) (hlacks : s.Lacks r key)
    (hok : allocate key s.supply = .ok handle supply) :
    ∃ t, construct allocate frame r s = .ok () t ∧ Binds s r supply t := by
  have hnone := FreeLists.acquire?_eq_none_iff_available.mpr hlacks.2
  have hcreate : (do return (⟨← allocate key, none⟩ : Instance η ς)) s.supply =
      .ok ⟨handle, none⟩ supply := bind_of_ok hok
  unfold isConstructed at hfree
  simp only [construct, hfree, hlacks.1, acquireOrCreate_of_none hnone, bind_of_ok hcreate,
    if_false, Bool.false_eq_true]
  exact ⟨_, rfl, ⟨_, rfl⟩, rfl⟩

/-- An instance is there, owned elsewhere or released before. -/
theorem construct_of_registered (hfree : ¬ s.isConstructed r)
    (hreg : s.registrations.get? r ≠ none) (hhas : ∀ key, ¬ s.Lacks r key) :
    ∃ t, construct allocate frame r s = .ok () t ∧ Binds s r s.supply t := by
  unfold isConstructed at hfree
  cases hregistration : s.registrations.get? r with
  | none => exact absurd hregistration hreg
  | some registration =>
      cases registration with
      | imported handle external =>
          simp only [construct, hfree, hregistration, if_false, Bool.false_eq_true]
          exact ⟨_, rfl, ⟨_, rfl⟩, rfl⟩
      | temporal key =>
          cases hpool : s.pool.acquire? key with
          | none =>
              have hnone := FreeLists.acquire?_eq_none_iff_available.mp hpool
              exact absurd ⟨hregistration, hnone⟩ (hhas key)
          | some taken =>
              obtain ⟨value, rest⟩ := taken
              simp only [construct, hfree, hregistration, acquireOrCreate_of_some hpool, if_false,
                Bool.false_eq_true]
              exact ⟨_, rfl, ⟨_, rfl⟩, rfl⟩

end Construct

/-! ### Destructs and moves -/

theorem destruct_decided [DecidableEq ς] : Ends (destruct frame r) s
    (fun _ t => s.isConstructed r ∧ ¬ t.isConstructed r ∧ KeepsOthers [r] s t ∧
      t.supply = s.supply)
    fun e t => ¬ s.isConstructed r ∧ e = .notConstructed r ∧ t = s := by
  have hsupply : Ends (destruct frame r) s (fun _ t => t.supply = s.supply)
      fun e _ => e = .notConstructed r := by
    unfold Ends destruct
    cases s.bound.get? r with
    | none => rfl
    | some binding =>
        obtain ⟨held, origin⟩ := binding
        cases origin with
        | imported external =>
            by_cases hthere : held.state = some external
            · simp only [if_pos hthere]
              rfl
            · simp only [if_neg hthere]
              rfl
        | temporal key => rfl
  apply (instances_destruct.and hsupply).mono
  · rintro _ t ⟨hdestructed, hsame⟩
    obtain ⟨binding, _, hbound, _⟩ := hdestructed.held
    refine ⟨?_, ?_, ?_, hsame⟩
    · exact not_not.mp fun hfree => by cases (not_isConstructed.mp hfree).symm.trans hbound
    · rw [not_isConstructed, hdestructed.bound, IdMap.get?_erase, if_pos rfl]
    · intro x hx
      rw [hdestructed.bound, IdMap.get?_erase,
        if_neg fun heq => hx (List.mem_singleton.mpr heq)]
  · rintro e _ ⟨⟨rfl, hfree⟩, rfl⟩
    exact ⟨not_isConstructed.mpr hfree, rfl, rfl⟩

/-- Why a move is refused: its target is bound, or else its source is not. -/
inductive RefusesMove (s : Storage κ η ς τ) (m : Move) : StorageError → Prop where
  | alreadyConstructed : s.isConstructed m.dst → RefusesMove s m (.alreadyConstructed m.dst)
  | notConstructed : ¬ s.isConstructed m.dst → ¬ s.isConstructed m.src →
    RefusesMove s m (.notConstructed m.src)

theorem RefusesMove.unique {e e' : StorageError} (h : RefusesMove s m e) (h' : RefusesMove s m e') :
    e = e' := by
  cases h with
  | alreadyConstructed hbound =>
      cases h' with
      | alreadyConstructed => rfl
      | notConstructed hfree => exact absurd hbound hfree
  | notConstructed hfree =>
      cases h' with
      | alreadyConstructed hbound => exact absurd hbound hfree
      | notConstructed => rfl

theorem RefusesMove.dst_bound {e : StorageError} (h : RefusesMove s m e)
    (hsrc : s.isConstructed m.src) : s.isConstructed m.dst := by
  cases h with
  | alreadyConstructed hbound => exact hbound
  | notConstructed _ hfree => exact absurd hsrc hfree

/-- What a move that returns does: the target has the instance that the source had. -/
structure MovesOver (s : Storage κ η ς τ) (m : Move) (t : Storage κ η ς τ) : Prop where
  handedOver : t.bound.get? m.dst = s.bound.get? m.src
  freed : ¬ t.isConstructed m.src
  others : KeepsOthers [m.src, m.dst] s t
  supply : t.supply = s.supply

theorem move_decided : Ends (move frame m) s
    (fun _ t => s.isConstructed m.src ∧ ¬ s.isConstructed m.dst ∧ MovesOver s m t)
    fun e t => RefusesMove s m e ∧ t = s := by
  unfold Ends move
  by_cases hbound : s.bound.contains m.dst
  · rw [if_pos hbound]
    exact ⟨.alreadyConstructed hbound, rfl⟩
  rw [if_neg hbound]
  cases hsrc : s.bound.get? m.src with
  | none => exact ⟨.notConstructed hbound (not_isConstructed.mpr hsrc), rfl⟩
  | some binding =>
      have hne : m.src ≠ m.dst := by
        intro heq
        rw [heq, not_contains_bound.mp hbound] at hsrc
        cases hsrc
      refine ⟨?_, hbound, ?_, ?_, ?_, rfl⟩
      · exact not_not.mp fun hfree => by cases (not_isConstructed.mp hfree).symm.trans hsrc
      · exact IdMap.get?_insert_self.trans hsrc.symm
      · rw [not_isConstructed]
        refine (IdMap.get?_insert_of_ne hne).trans ?_
        exact IdMap.get?_erase.trans (if_pos rfl)
      · intro x hx
        simp only [List.mem_cons, List.not_mem_nil, or_false, not_or] at hx
        refine (IdMap.get?_insert_of_ne hx.2).trans ?_
        exact IdMap.get?_erase.trans (if_neg hx.1)

end

/-! ### Calls to the allocator -/

section Metered

variable [DecidableEq κ] {allocate : κ → EStateM StorageError τ η} {frame : Frame} {r : ResourceId}
  {s t : Storage κ η ς (Metered κ η τ)}

/-- Why a construct is refused, and what it leaves. Each reason only applies if those before it do
not, and only for the last one the allocator is asked. -/
inductive RefusesConstruct (allocate : κ → EStateM StorageError τ η)
    (s : Storage κ η ς (Metered κ η τ)) (r : ResourceId) :
    StorageError → Storage κ η ς (Metered κ η τ) → Prop where
  | alreadyConstructed : s.isConstructed r → RefusesConstruct allocate s r (.alreadyConstructed r) s
  | unregistered : ¬ s.isConstructed r → s.registrations.get? r = none →
    RefusesConstruct allocate s r (.unregistered r) s
  | failed {key : κ} {e : StorageError} {supply : τ} : ¬ s.isConstructed r → s.Lacks r key →
    allocate key s.supply.supply = .error e supply →
    RefusesConstruct allocate s r e
      { s with supply := ⟨supply, s.supply.calls ++ [(key, none)]⟩ }

/-- What becomes of the allocator when a construct returns: it is not asked, or asked once for an
instance that is lacking, and makes it. -/
inductive Supplies (allocate : κ → EStateM StorageError τ η) (s : Storage κ η ς (Metered κ η τ))
    (r : ResourceId) : Metered κ η τ → Prop where
  | unasked : (∀ key, ¬ s.Lacks r key) → Supplies allocate s r s.supply
  | asked {key : κ} {handle : η} {supply : τ} : s.Lacks r key →
    allocate key s.supply.supply = .ok handle supply →
    Supplies allocate s r ⟨supply, s.supply.calls ++ [(key, some handle)]⟩

theorem construct_decided : Ends (construct (Metered.meter allocate) frame r) s
    (fun _ t => ¬ s.isConstructed r ∧ ∃ supply, Supplies allocate s r supply ∧ Binds s r supply t)
    fun e t => RefusesConstruct allocate s r e t := by
  by_cases hbound : s.isConstructed r
  · exact .of_error (construct_of_bound hbound) (.alreadyConstructed hbound)
  by_cases hreg : s.registrations.get? r = none
  · exact .of_error (construct_of_unregistered hbound hreg) (.unregistered hbound hreg)
  by_cases hlacks : ∃ key, s.Lacks r key
  · obtain ⟨key, hlacks⟩ := hlacks
    cases hcall : allocate key s.supply.supply with
    | ok handle supply =>
        obtain ⟨t, hconstruct, hbinds⟩ :=
          construct_of_made hbound hlacks (Metered.meter_of_ok hcall)
        exact .of_ok hconstruct ⟨hbound, _, .asked hlacks hcall, hbinds⟩
    | error e supply =>
        exact .of_error (construct_of_failed hbound hlacks (Metered.meter_of_error hcall))
          (.failed hbound hlacks hcall)
  · have hhas : ∀ key, ¬ s.Lacks r key := not_exists.mp hlacks
    obtain ⟨t, hconstruct, hbinds⟩ := construct_of_registered hbound hreg hhas
    exact .of_ok hconstruct ⟨hbound, _, .unasked hhas, hbinds⟩

theorem RefusesConstruct.construct_eq {e : StorageError} (h : RefusesConstruct allocate s r e t) :
    construct (Metered.meter allocate) frame r s = .error e t := by
  cases h with
  | alreadyConstructed hbound => exact construct_of_bound hbound
  | unregistered hfree hreg => exact construct_of_unregistered hfree hreg
  | failed hfree hlacks hfail =>
      exact construct_of_failed hfree hlacks (Metered.meter_of_error hfail)

/-- A construct that leaves the allocator alone too is refused for what storage knows itself. -/
theorem RefusesConstruct.of_eq {e : StorageError} (h : RefusesConstruct allocate s r e t)
    (hsame : t = s) :
    s.isConstructed r ∧ e = .alreadyConstructed r ∨
      (¬ s.isConstructed r ∧ s.registrations.get? r = none) ∧ e = .unregistered r := by
  have hcalls := congrArg (fun t => t.supply.calls.length) hsame
  cases h with
  | alreadyConstructed hbound => exact Or.inl ⟨hbound, rfl⟩
  | unregistered hfree hreg => exact Or.inr ⟨⟨hfree, hreg⟩, rfl⟩
  | failed => simp at hcalls

/-- Construct, destruct and move return or are refused for what they find, and a call that is
refused leaves nothing half done. -/
structure Atomic [DecidableEq ς] (allocate : κ → EStateM StorageError τ η) (frame : Frame)
    (s : Storage κ η ς (Metered κ η τ)) : Prop where
  construct_bound : ∀ r, construct (Metered.meter allocate) frame r s =
    .error (.alreadyConstructed r) s ↔ s.isConstructed r
  construct_unregistered : ∀ r, construct (Metered.meter allocate) frame r s =
    .error (.unregistered r) s ↔ ¬ s.isConstructed r ∧ s.registrations.get? r = none
  construct_refused : ∀ r e t, construct (Metered.meter allocate) frame r s = .error e t ↔
    RefusesConstruct allocate s r e t
  construct_returned : ∀ r t, construct (Metered.meter allocate) frame r s = .ok () t →
    Supplies allocate s r t.supply ∧ t.isConstructed r ∧ KeepsOthers [r] s t
  destruct_refused : ∀ r e t, destruct frame r s = .error e t ↔
    ¬ s.isConstructed r ∧ e = .notConstructed r ∧ t = s
  destruct_returned : ∀ r t, destruct frame r s = .ok () t →
    ¬ t.isConstructed r ∧ KeepsOthers [r] s t ∧ t.supply = s.supply
  move_refused : ∀ m e t, move frame m s = .error e t ↔ RefusesMove s m e ∧ t = s
  move_returned : ∀ m t, move frame m s = .ok () t → MovesOver s m t

/-- **Construct, destruct and move are all or nothing**, whatever state storage is in. -/
theorem calls_atomic [DecidableEq ς] (allocate : κ → EStateM StorageError τ η) (frame : Frame)
    (s : Storage κ η ς (Metered κ η τ)) : Atomic allocate frame s where
  construct_bound r := by
    refine ⟨fun h => ?_, fun hbound => construct_of_bound hbound⟩
    rcases (construct_decided.error h).of_eq rfl with ⟨hbound, _⟩ | ⟨_, he⟩
    · exact hbound
    · cases he
  construct_unregistered r := by
    refine ⟨fun h => ?_, fun hreg => construct_of_unregistered hreg.1 hreg.2⟩
    rcases (construct_decided.error h).of_eq rfl with ⟨_, he⟩ | ⟨hreg, _⟩
    · cases he
    · exact hreg
  construct_refused r e t := ⟨construct_decided.error, RefusesConstruct.construct_eq⟩
  construct_returned r t h := by
    obtain ⟨_, supply, hsupplies, hbinds⟩ := construct_decided.ok h
    exact ⟨hbinds.supply ▸ hsupplies, hbinds.isConstructed, hbinds.keepsOthers⟩
  destruct_refused r e t := destruct_decided.error_iff
    (fun hrefuses hreturned => hrefuses.1 hreturned.1)
    fun hrefuses hrefuses' => ⟨hrefuses.2.1.trans hrefuses'.2.1.symm,
      hrefuses.2.2.trans hrefuses'.2.2.symm⟩
  destruct_returned r t h := (destruct_decided.ok h).2
  move_refused m e t := move_decided.error_iff
    (fun hrefuses hreturned => hreturned.2.1 (hrefuses.1.dst_bound hreturned.1))
    fun hrefuses hrefuses' => ⟨hrefuses.1.unique hrefuses'.1, hrefuses.2.trans hrefuses'.2.symm⟩
  move_returned m t h := (move_decided.ok h).2.2

end Metered

end Storage

end FramePlan
