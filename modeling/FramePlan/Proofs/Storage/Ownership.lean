import FramePlan.Proofs.Storage.Ledger
import Mathlib.Data.List.Nodup

/-!
# Instances have one owner

Each instance that storage knows of is bound to one resource or waits in the pool, and never both:
a handle that was made is made once, and an imported one comes to storage once.

* `Account.Exclusive` — no handle is in two places.
* `Account.exclusive_kept` — the calls of a run keep it so.
-/

namespace FramePlan

open History

variable {κ η ς τ : Type}

namespace Account

/-- The resource is imported under the handle. -/
def Imports (a : Account κ η ς τ) (r : ResourceId) (h : η) : Prop :=
  ∃ external, a.registrations.get? r = some (.imported h external)

/-- Handles tell instances apart: no two resources are imported under one handle, and what the
allocator makes is different from all it made before and from all that is imported. -/
structure Distinguishes (allocate : κ → EStateM StorageError τ η) (a : Account κ η ς τ) : Prop where
  imported : ∀ {r x h}, a.Imports r h → a.Imports x h → r = x
  made : ∀ {hs supply}, Issues allocate a.supply hs supply →
    hs.Nodup ∧ ∀ h ∈ hs, ∀ r, ¬ a.Imports r h

/-- The handles of all instances, bound or waiting. -/
def handles (a : Account κ η ς τ) : List η :=
  a.owners.entries.map (·.2.1) ++ a.pool.entries.map (·.2.handle)

/-- No handle is in two places, and each was made by the allocator or has come with an imported
resource. -/
structure Exclusive (allocate : κ → EStateM StorageError τ η) (a₀ : Account κ η ς τ)
    (L : Ledger η) (a : Account κ η ς τ) : Prop where
  registrations : a.registrations = a₀.registrations
  nodup : a.handles.Nodup
  known : ∃ hs, Issues allocate a₀.supply hs a.supply ∧
    ∀ h ∈ a.handles, h ∈ hs ∨ ∃ r, a₀.Imports r h ∧ .construct r ∈ L.history

variable {frame : Frame} {plan : Plan} {allocate : κ → EStateM StorageError τ η}
  {L : Ledger η} {a₀ a b : Account κ η ς τ} {r : ResourceId} {h : η}

/-- The handles of what is bound tell resources apart. -/
theorem eq_of_handle {x : ResourceId} {origin other : Origin κ ς} (hnodup : a.handles.Nodup)
    (hr : a.owners.get? r = some (h, origin)) (hx : a.owners.get? x = some (h, other)) : r = x := by
  have hbound : (a.owners.entries.map (·.2.1)).Nodup := (List.nodup_append.mp hnodup).1
  have heq := List.inj_on_of_nodup_map hbound (IdMap.mem_entries.mpr hr)
    (IdMap.mem_entries.mpr hx) rfl
  exact congrArg Prod.fst heq

/-! ### Calls and handles -/

theorem handles_insert {origin : Origin κ ς} (hfree : a.owners.get? r = none) :
    ({ a with owners := a.owners.insert r (h, origin) } : Account κ η ς τ).handles.Perm
      (h :: a.handles) :=
  ((IdMap.entries_insert hfree).map _).append_right _

theorem handles_erase {origin : Origin κ ς} (howner : a.owners.get? r = some (h, origin)) :
    a.handles.Perm (h :: ({ a with owners := a.owners.erase r } : Account κ η ς τ).handles) :=
  ((IdMap.entries_erase howner).map _).append_right _

theorem handles_reuse {key : κ} {value : Instance η ς} {before after : List (κ × Instance η ς)}
    {origin : Origin κ ς} {stats : Stats} (hfree : a.owners.get? r = none)
    (hpool : a.pool.entries = before ++ (key, value) :: after) :
    ({ a with
      owners := a.owners.insert r (value.handle, origin)
      pool := ⟨before ++ after⟩
      stats } : Account κ η ς τ).handles.Perm a.handles := by
  unfold handles
  rw [hpool]
  apply (((IdMap.entries_insert hfree).map _).append_right _).trans
  rw [List.map_append, List.map_append, List.map_cons, List.map_cons, ← List.append_assoc,
    ← List.append_assoc, List.cons_append, List.cons_append]
  exact List.perm_middle.symm

theorem handles_release {key : κ} {value : Instance η ς} {origin : Origin κ ς} {stats : Stats}
    (howner : a.owners.get? r = some (value.handle, origin)) :
    ({ a with
      owners := a.owners.erase r
      pool := a.pool.release key value
      stats } : Account κ η ς τ).handles.Perm a.handles :=
  List.perm_middle.trans (handles_erase howner).symm

/-- A construct takes an instance from the pool, or one handle comes with the resource, or one more
is made. -/
theorem Constructs.handles (hb : Constructs allocate r a b) (hfree : a.owners.get? r = none) :
    b.handles.Perm a.handles ∧ b.supply = a.supply ∨
      (∃ h, b.handles.Perm (h :: a.handles) ∧ a.Imports r h ∧ b.supply = a.supply) ∨
      ∃ h key, b.handles.Perm (h :: a.handles) ∧ allocate key a.supply = .ok h b.supply := by
  cases hb with
  | imported hreg => exact Or.inr (Or.inl ⟨_, handles_insert hfree, ⟨_, hreg⟩, rfl⟩)
  | reused hreg hpool => exact Or.inl ⟨handles_reuse hfree hpool, rfl⟩
  | allocated hreg hallocate => exact Or.inr (Or.inr ⟨_, _, handles_insert hfree, hallocate⟩)

/-- What is moved is still there. -/
theorem Moves.handles {m : Move} (hb : Moves m a b) (hfree : a.owners.get? m.dst = none) :
    b.handles.Perm a.handles := by
  cases hb with
  | @moved owner howner =>
      obtain ⟨h, origin⟩ := owner
      have hfree' : (a.owners.erase m.src).get? m.dst = none :=
        IdMap.get?_erase_of_eq_none hfree
      exact (handles_insert (a := { a with owners := a.owners.erase m.src }) hfree').trans
        (handles_erase howner).symm

/-- A destruct brings no handle. -/
theorem Destructs.handles (hb : Destructs r a b) : b.handles.Subperm a.handles := by
  cases hb with
  | imported howner =>
      exact (List.sublist_cons_self ..).subperm.trans (handles_erase howner).symm.subperm
  | temporal howner => exact (handles_release howner).subperm

/-! ### What runs keep -/

theorem Exclusive.empty (hunbound : ∀ x, a.owners.get? x = none) (hpool : a.pool = ∅) :
    Exclusive allocate a Ledger.empty a := by
  have howners : a.owners = ∅ := by
    apply IdMap.ext
    intro x
    rw [hunbound x, IdMap.get?_empty]
  have hhandles : a.handles = [] := by
    unfold handles
    rw [howners, hpool]
    rfl
  refine ⟨rfl, ?_, [], .nil, ?_⟩
  · rw [hhandles]
    exact List.nodup_nil
  · rw [hhandles]
    exact fun _ hh => absurd hh List.not_mem_nil

/-- A call that brings no handle keeps them apart. -/
theorem Exclusive.of_subperm {M : Ledger η} (ha : Exclusive allocate a₀ L a)
    (hregistrations : b.registrations = a.registrations) (hsupply : b.supply = a.supply)
    (hhandles : b.handles.Subperm a.handles) (hhistory : ∀ x ∈ L.history, x ∈ M.history) :
    Exclusive allocate a₀ M b := by
  obtain ⟨hs, hissues, hknown⟩ := ha.known
  refine ⟨hregistrations.trans ha.registrations, ?_, hs, hsupply ▸ hissues, fun h hh => ?_⟩
  · obtain ⟨l, hperm, hsublist⟩ := hhandles
    exact hperm.nodup_iff.mp (ha.nodup.sublist hsublist)
  · apply (hknown h (hhandles.subset hh)).imp id
    rintro ⟨r, himports, hconstruct⟩
    exact ⟨r, himports, hhistory _ hconstruct⟩

/-- A new handle keeps them apart. -/
theorem Exclusive.of_cons {M : Ledger η} {hs : List η} (ha : Exclusive allocate a₀ L a)
    (hregistrations : b.registrations = a.registrations) (hperm : b.handles.Perm (h :: a.handles))
    (hnew : h ∉ a.handles) (hissues : Issues allocate a₀.supply hs b.supply)
    (hknown : ∀ g ∈ h :: a.handles,
      g ∈ hs ∨ ∃ x, a₀.Imports x g ∧ .construct x ∈ M.history) : Exclusive allocate a₀ M b where
  registrations := hregistrations.trans ha.registrations
  nodup := hperm.nodup_iff.mpr (List.nodup_cons.mpr ⟨hnew, ha.nodup⟩)
  known := ⟨hs, hissues, fun g hg => hknown g (hperm.mem_iff.mp hg)⟩

/-- What a construct brings is new, as it is the only one of its resource. -/
theorem Exclusive.construct (ha : Exclusive allocate a₀ L a)
    (hdistinguishes : a₀.Distinguishes allocate) (hfirst : .construct r ∉ L.history)
    (hfree : a.owners.get? r = none) (hb : Constructs allocate r a b) :
    Exclusive allocate a₀ (L.add [.construct r]) b := by
  have hmore : ∀ x ∈ L.history, x ∈ (L.add [.construct r]).history :=
    fun x hx => List.mem_append_left _ hx
  obtain ⟨hs, hissues, hknown⟩ := ha.known
  rcases hb.handles hfree with ⟨hperm, hsupply⟩ | ⟨h, hperm, himports, hsupply⟩ |
    ⟨h, key, hperm, hallocate⟩
  · exact ha.of_subperm hb.registrations hsupply hperm.subperm hmore
  · have himports' : a₀.Imports r h := by
      unfold Imports at himports
      rw [ha.registrations] at himports
      exact himports
    apply ha.of_cons hb.registrations hperm _ (hsupply ▸ hissues)
    · intro g hg
      rcases List.mem_cons.mp hg with rfl | hg
      · exact Or.inr ⟨r, himports', List.mem_append_right _ (List.mem_singleton.mpr rfl)⟩
      · apply (hknown g hg).imp id
        rintro ⟨x, hx, hconstruct⟩
        exact ⟨x, hx, hmore _ hconstruct⟩
    · intro hh
      rcases hknown h hh with hmade | ⟨x, hx, hconstruct⟩
      · exact (hdistinguishes.made hissues).2 h hmade r himports'
      · rw [hdistinguishes.imported hx himports'] at hconstruct
        exact hfirst hconstruct
  · have hissues' := hissues.made hallocate
    obtain ⟨hnodup, hmade⟩ := hdistinguishes.made hissues'
    have hlast : h ∈ hs ++ [h] := List.mem_append_right _ (List.mem_singleton.mpr rfl)
    apply ha.of_cons hb.registrations hperm _ hissues'
    · intro g hg
      rcases List.mem_cons.mp hg with rfl | hg
      · exact Or.inl hlast
      · apply (hknown g hg).imp (List.mem_append_left _)
        rintro ⟨x, hx, hconstruct⟩
        exact ⟨x, hx, hmore _ hconstruct⟩
    · intro hh
      rcases hknown h hh with hthere | ⟨x, hx, _⟩
      · exact (List.nodup_append.mp hnodup).2.2 h hthere h (List.mem_singleton.mpr rfl) rfl
      · exact hmade h hlast x hx

/-- **The calls of a run keep handles apart** if these tell instances apart. -/
theorem exclusive_kept (hdistinguishes : a₀.Distinguishes allocate) :
    Kept frame plan allocate (Exclusive allocate a₀) where
  construct ha hp _ hfree hb :=
    ha.construct hdistinguishes (fun hfirst => hp (Or.inl hfirst)) hfree hb
  move ha _ _ hfree hb := ha.of_subperm hb.registrations hb.supply (hb.handles hfree).subperm
    fun _ hx => List.mem_append_left _ hx
  destruct ha _ _ hb := ha.of_subperm hb.registrations hb.supply hb.handles
    fun _ hx => List.mem_append_left _ hx
  request ha _ _ := ha.of_subperm rfl rfl (List.Subperm.refl _)
    fun _ hx => List.mem_append_left _ hx
  work ha _ := ha.of_subperm rfl rfl (List.Subperm.refl _) fun _ hx => List.mem_append_left _ hx

end Account

end FramePlan
