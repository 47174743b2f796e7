import FramePlan.Proofs.Storage.Chronicle
import FramePlan.Proofs.Storage.Counts
import FramePlan.Proofs.Storage.Profile
import FramePlan.Proofs.Storage.Session
import FramePlan.Storage.Meter
import FramePlan.Storage.Supply
import Mathlib.Data.List.Nodup
import Mathlib.Data.List.Pairwise

/-!
# Every instance is somewhere

What the allocator makes is lent to a resource, waits in the pool, or was taken out of the pool, and
it keeps the key that it was made under. Imported instances are bound to resources only, and hold
the handle of a registration. This holds after any sequence of calls, whichever of them were
refused. Storage does not compare handles, so if one is imported that the allocator also makes, it
can be at two places at once.

* `Account.Performs.stock` — no call loses an instance of the allocator, or doubles it.
* `Session.Accounted` — what the counts of storage say about it.
* `Account.Supplied` — where imported instances come from.
* `Session.custody_sound` — the joint statement.
* `Session.custody_clash` — a handle that is imported and made.
-/

namespace FramePlan

variable {κ η ς τ : Type}

/-- How many resources have an instance that is released in the end. -/
def Storage.temporalCount (s : Storage κ η ς τ) : Nat :=
  s.bound.entries.countP fun e => e.2.origin.isTemporal

/-- Where an instance of the allocator can be. -/
inductive Place where
  | bound (resource : ResourceId)
  | pooled (index : Nat)
  | returned (index : Nat)
deriving DecidableEq

/-- The handle is at the place, whatever its binding came from. -/
inductive Session.IsAt (s : Session κ η ς τ) : Place → η → Prop where
  | bound {r : ResourceId} {binding : Binding κ η ς} :
    s.storage.bound.get? r = some binding → IsAt s (.bound r) binding.held.handle
  | pooled {i : Nat} {key : κ} {value : Instance η ς} :
    s.storage.pool.entries[i]? = some (key, value) → IsAt s (.pooled i) value.handle
  | returned {i : Nat} {key : κ} {h : η} :
    s.returned[i]? = some (key, h) → IsAt s (.returned i) h

/-- The handle is at the place as one to be released under the key. -/
inductive Session.HasAt (s : Session κ η ς τ) : Place → κ → η → Prop where
  | bound {r : ResourceId} {key : κ} {binding : Binding κ η ς} :
    s.storage.bound.get? r = some binding → binding.origin = .temporal key →
    HasAt s (.bound r) key binding.held.handle
  | pooled {i : Nat} {key : κ} {value : Instance η ς} :
    s.storage.pool.entries[i]? = some (key, value) → HasAt s (.pooled i) key value.handle
  | returned {i : Nat} {key : κ} {h : η} :
    s.returned[i]? = some (key, h) → HasAt s (.returned i) key h

namespace Metered

variable {allocate : κ → EStateM StorageError τ η} {m n : Metered κ η τ} {key : κ}

/-- A call that makes a handle is taken down with it. -/
theorem made_of_ok {h : η} (hok : meter allocate key m = .ok h n) :
    n.made = m.made ++ [(key, h)] := by
  unfold meter at hok
  split at hok
  · cases hok
    simp [made]
  · cases hok

theorem made_of_error {e : StorageError} (herror : meter allocate key m = .error e n) :
    n.made = m.made := by
  unfold meter at herror
  split at herror
  · cases herror
  · cases herror
    simp [made]

end Metered

namespace Account

/-- What the owner of a handle owes to the pool. -/
def loan? (owner : η × Origin κ ς) : Option (κ × η) := owner.2.key?.map fun key => (key, owner.1)

/-- The instances that the owners owe to the pool. -/
def loans (owners : IdMap .resource (η × Origin κ ς)) : List (κ × η) :=
  owners.entries.filterMap fun e => loan? e.2

/-- The instances in the pool. -/
def waiting (a : Account κ η ς τ) : List (κ × η) := a.pool.entries.map fun e => (e.1, e.2.handle)

/-- The instances of the allocator that storage has. -/
def stock (a : Account κ η ς τ) : List (κ × η) := loans a.owners ++ a.waiting

variable {a b : Account κ η ς τ} {r : ResourceId} {owner : η × Origin κ ς}
  {allocate : κ → EStateM StorageError τ η}

/-! ### Loans -/

theorem loans_insert {owners : IdMap .resource (η × Origin κ ς)} (hfree : owners.get? r = none) :
    (loans (owners.insert r owner)).Perm ((loan? owner).toList ++ loans owners) := by
  apply ((IdMap.entries_insert hfree).filterMap _).trans
  rw [List.filterMap_cons]
  cases loan? owner <;> exact .refl _

theorem loans_erase {owners : IdMap .resource (η × Origin κ ς)} (howner : owners.get? r = some owner) :
    (loans owners).Perm ((loan? owner).toList ++ loans (owners.erase r)) := by
  apply ((IdMap.entries_erase howner).filterMap _).trans
  rw [List.filterMap_cons]
  cases loan? owner <;> exact .refl _

/-- Each resource with a temporal instance owes one. -/
theorem length_loans : (loans a.owners).length = a.temporals := by
  have hloan : ∀ e : ResourceId × η × Origin κ ς, (loan? e.2).isSome = e.2.2.isTemporal := by
    rintro ⟨_, _, _ | _⟩ <;> rfl
  unfold loans temporals
  rw [List.length_filterMap_eq_countP]
  simp only [hloan]

/-! ### Calls and the stock -/

/-- A construct adds to the stock what the allocator makes for it. -/
theorem Constructs.stock (hb : Constructs allocate r a b) (hfree : a.owners.get? r = none) :
    b.stock.Perm a.stock ∧ b.supply = a.supply ∧ b.stats.allocated = a.stats.allocated ∨
      ∃ key h, b.stock.Perm ((key, h) :: a.stock) ∧ allocate key a.supply = .ok h b.supply ∧
        b.stats.allocated = a.stats.allocated + 1 := by
  cases hb with
  | imported hreg => exact Or.inl ⟨(loans_insert hfree).append_right _, rfl, rfl⟩
  | @reused key value before after hreg hpool =>
      refine Or.inl ⟨?_, rfl, rfl⟩
      have hwaiting : a.waiting = before.map (fun e => (e.1, e.2.handle)) ++
          (key, value.handle) :: after.map fun e => (e.1, e.2.handle) := by
        rw [waiting, hpool, List.map_append, List.map_cons]
      unfold Account.stock
      rw [hwaiting]
      apply ((loans_insert hfree).append_right _).trans
      simp only [waiting, List.map_append]
      rw [← List.append_assoc, ← List.append_assoc]
      exact List.perm_middle.symm
  | allocated hreg hallocate =>
      exact Or.inr ⟨_, _, (loans_insert hfree).append_right _, hallocate, rfl⟩

theorem Destructs.stock (hb : Destructs r a b) :
    b.stock.Perm a.stock ∧ b.supply = a.supply ∧ b.stats.allocated = a.stats.allocated := by
  cases hb with
  | imported howner => exact ⟨((loans_erase howner).append_right _).symm, rfl, rfl⟩
  | temporal howner =>
      exact ⟨List.perm_middle.trans ((loans_erase howner).append_right _).symm, rfl, rfl⟩

theorem Moves.stock {m : Move} (hb : Moves m a b) (hfree : a.owners.get? m.dst = none) :
    b.stock.Perm a.stock ∧ b.supply = a.supply ∧ b.stats.allocated = a.stats.allocated := by
  cases hb with
  | @moved owner howner =>
      have hfree' : (a.owners.erase m.src).get? m.dst = none :=
        IdMap.get?_erase_of_eq_none hfree
      exact ⟨((loans_insert hfree').trans (loans_erase howner).symm).append_right _, rfl, rfl⟩

variable {c d : Account κ η ς (Metered κ η τ)} {call : StorageCall κ η ς} {out : List (κ × η)}

/-- **No call loses an instance of the allocator, or doubles it.** -/
theorem Performs.stock (h : Performs (Metered.meter allocate) c call d out) :
    ∃ new, d.supply.made = c.supply.made ++ new ∧ (d.stock ++ out).Perm (c.stock ++ new) ∧
      d.stats.allocated = c.stats.allocated + new.length := by
  have hnone : ∀ {d : Account κ η ς (Metered κ η τ)}, d.stock.Perm c.stock ∧ d.supply = c.supply ∧
      d.stats.allocated = c.stats.allocated → ∃ new, d.supply.made = c.supply.made ++ new ∧
        (d.stock ++ []).Perm (c.stock ++ new) ∧
        d.stats.allocated = c.stats.allocated + new.length := by
    rintro d ⟨hstock, hsupply, hallocated⟩
    refine ⟨[], by rw [hsupply, List.append_nil], ?_, hallocated⟩
    rw [List.append_nil, List.append_nil]
    exact hstock
  cases h with
  | nothing => exact hnone ⟨.refl _, rfl, rfl⟩
  | imported => exact hnone ⟨.refl _, rfl, rfl⟩
  | temporal => exact hnone ⟨.refl _, rfl, rfl⟩
  | destructed hb => exact hnone hb.stock
  | moved hfree hb => exact hnone (hb.stock hfree)
  | failed hfail =>
      refine ⟨[], ?_, .refl _, rfl⟩
      rw [List.append_nil]
      exact Metered.made_of_error hfail
  | constructed hfree hb =>
      rcases hb.stock hfree with hsame | ⟨key, h, hstock, hallocate, hallocated⟩
      · exact hnone hsame
      · refine ⟨[(key, h)], Metered.made_of_ok hallocate, ?_, hallocated⟩
        rw [List.append_nil]
        exact hstock.trans (List.perm_append_singleton _ _).symm
  | emptied =>
      refine ⟨[], by rw [List.append_nil], ?_, rfl⟩
      simp only [Account.stock, waiting, EmptyCollection.emptyCollection, FreeLists.empty,
        List.map_nil, List.append_nil]
      exact .refl _

/-- What is acquired is bound until it is recycled. -/
theorem Performs.counts (h : Performs allocate a call b out) :
    ∃ n, b.stats.allocated + b.stats.reused = a.stats.allocated + a.stats.reused + n ∧
      b.stats.recycled + b.temporals = a.stats.recycled + a.temporals + n := by
  cases h with
  | nothing => exact ⟨0, rfl, rfl⟩
  | imported => exact ⟨0, rfl, rfl⟩
  | temporal => exact ⟨0, rfl, rfl⟩
  | failed => exact ⟨0, rfl, rfl⟩
  | emptied => exact ⟨0, rfl, rfl⟩
  | destructed hb => exact ⟨0, hb.counts.2⟩
  | moved hfree hb =>
      obtain ⟨_, hrecycled, hacquired, htemporals⟩ := hb.counts hfree
      exact ⟨0, hacquired, by rw [hrecycled, htemporals, Nat.add_zero]⟩
  | constructed hfree hb =>
      obtain ⟨_, hrecycled, hacquired, htemporals⟩ := hb.counts hfree
      exact ⟨_, hacquired, by rw [hrecycled, htemporals, Nat.add_assoc]⟩

/-! ### Imported instances -/

/-- What is imported, by registration or bound, was supplied by one of the calls. -/
structure Supplied (calls : List (StorageCall κ η ς)) (a : Account κ η ς τ) : Prop where
  registered : ∀ r h external, a.registrations.get? r = some (.imported h external) →
    ∃ r', .registerImported r' h external ∈ calls
  owned : ∀ r h external, a.owners.get? r = some (h, .imported external) →
    ∃ r', .registerImported r' h external ∈ calls

namespace Supplied

variable {calls : List (StorageCall κ η ς)}

theorem start (supply : τ) :
    Supplied calls (Session.start (κ := κ) (η := η) (ς := ς) supply).storage.account :=
  ⟨nofun, nofun⟩

theorem register {registration : Registration κ η ς} (h : Supplied calls a)
    (hsupplied : ∀ handle external, registration = .imported handle external →
      ∃ r', .registerImported r' handle external ∈ calls) :
    Supplied calls { a with registrations := a.registrations.insert r registration } where
  registered x handle external hx := by
    simp only [IdMap.get?_insert] at hx
    split at hx
    · exact hsupplied handle external (Option.some.inj hx)
    · exact h.registered x handle external hx
  owned := h.owned

/-- Owners may come to other resources, and new ones from calls. -/
theorem of_owners (h : Supplied calls a) (hregistrations : b.registrations = a.registrations)
    (howners : ∀ x owner, b.owners.get? x = some owner → (∃ y, a.owners.get? y = some owner) ∨
      ∀ handle external, owner = (handle, .imported external) →
        ∃ r', .registerImported r' handle external ∈ calls) : Supplied calls b where
  registered := hregistrations ▸ h.registered
  owned x handle external hx := by
    rcases howners x _ hx with ⟨y, hy⟩ | hnew
    · exact h.owned y handle external hy
    · exact hnew handle external rfl

theorem bind (h : Supplied calls a) (hregistrations : b.registrations = a.registrations)
    (howners : b.owners = a.owners.insert r owner)
    (hnew : ∀ handle external, owner = (handle, .imported external) →
      ∃ r', .registerImported r' handle external ∈ calls) : Supplied calls b := by
  apply h.of_owners hregistrations
  intro x o hx
  rw [howners, IdMap.get?_insert] at hx
  split at hx
  · cases hx
    exact Or.inr hnew
  · exact Or.inl ⟨x, hx⟩

theorem unbind (h : Supplied calls a) (hregistrations : b.registrations = a.registrations)
    (howners : b.owners = a.owners.erase r) : Supplied calls b := by
  apply h.of_owners hregistrations
  intro x o hx
  rw [howners, IdMap.get?_erase] at hx
  split at hx
  · cases hx
  · exact Or.inl ⟨x, hx⟩

end Supplied

/-- **A call imports what it supplies, and nothing else.** -/
theorem Performs.supplied {calls : List (StorageCall κ η ς)} {call : StorageCall κ η ς}
    {out : List (κ × η)} (hperforms : Performs allocate a call b out) (h : Supplied calls a)
    (hcall : call ∈ calls) : Supplied calls b := by
  cases hperforms with
  | nothing => exact h
  | imported =>
      apply h.register
      rintro _ _ ⟨⟩
      exact ⟨_, hcall⟩
  | temporal => exact h.register nofun
  | failed => exact ⟨h.registered, h.owned⟩
  | emptied => exact ⟨h.registered, h.owned⟩
  | constructed _ hb =>
      cases hb with
      | imported hreg =>
          refine h.bind rfl rfl ?_
          rintro _ _ ⟨⟩
          exact h.registered _ _ _ hreg
      | reused => exact h.bind rfl rfl nofun
      | allocated => exact h.bind rfl rfl nofun
  | destructed hb =>
      cases hb with
      | imported => exact h.unbind rfl rfl
      | temporal => exact h.unbind rfl rfl
  | @moved _ _ m _ hb =>
      cases hb with
      | moved howner =>
          have hsrc : Supplied calls { a with owners := a.owners.erase m.src } := h.unbind rfl rfl
          refine hsrc.bind rfl rfl ?_
          rintro _ _ rfl
          exact h.owned _ _ _ howner

end Account

namespace Session

open Account

/-- What the allocator made is in stock or was taken out of the pool, and the counts say so. -/
structure Accounted (s : Session κ η ς (Metered κ η τ)) : Prop where
  stock : (s.storage.account.stock ++ s.returned).Perm s.storage.supply.made
  allocated : s.storage.stats.allocated = s.storage.supply.made.length
  acquired : s.storage.stats.allocated + s.storage.stats.reused =
    s.storage.stats.recycled + s.storage.temporalCount

theorem temporals_eq {s : Storage κ η ς τ} : s.account.temporals = s.temporalCount := by
  show (s.bound.entries.map _).countP _ = _
  rw [List.countP_map]
  rfl

theorem Accounted.start (supply : τ) :
    (Session.start (κ := κ) (η := η) (ς := ς) (Metered.start supply)).Accounted where
  stock := .refl _
  allocated := rfl
  acquired := rfl

variable {allocate : κ → EStateM StorageError τ η} {s : Session κ η ς (Metered κ η τ)}

theorem Accounted.perform [DecidableEq κ] [DecidableEq ς] (h : s.Accounted)
    (call : StorageCall κ η ς) : (s.perform (Metered.meter allocate) call).Accounted := by
  obtain ⟨out, hperforms, hreturned⟩ := s.performs (Metered.meter allocate) call
  obtain ⟨new, hmade, hstock, hallocated⟩ := hperforms.stock
  obtain ⟨n, hacquired, hrecycled⟩ := hperforms.counts
  generalize s.perform (Metered.meter allocate) call = t at *
  have hmade : t.storage.supply.made = s.storage.supply.made ++ new := hmade
  have hallocated : t.storage.stats.allocated = s.storage.stats.allocated + new.length := hallocated
  have hacquired : t.storage.stats.allocated + t.storage.stats.reused =
    s.storage.stats.allocated + s.storage.stats.reused + n := hacquired
  have hrecycled : t.storage.stats.recycled + t.storage.account.temporals =
    s.storage.stats.recycled + s.storage.account.temporals + n := hrecycled
  rw [temporals_eq, temporals_eq] at hrecycled
  have hbefore := h.acquired
  refine ⟨?_, ?_, by omega⟩
  · rw [hreturned, hmade]
    refine List.Perm.trans ?_ (h.stock.append_right new)
    -- The stock and what the call took out are the stock before and what was made.
    apply (List.perm_append_comm.append_left _).trans
    rw [← List.append_assoc]
    apply (hstock.append_right _).trans
    rw [List.append_assoc, List.append_assoc]
    exact List.perm_append_comm.append_left _
  · rw [hmade, List.length_append, ← h.allocated]
    exact hallocated

theorem Accounted.performAll [DecidableEq κ] [DecidableEq ς] (h : s.Accounted)
    (calls : List (StorageCall κ η ς)) :
    (s.performAll (Metered.meter allocate) calls).Accounted := by
  induction calls generalizing s with
  | nil => exact h
  | cons call calls ih => exact ih (h.perform call)

/-! ### Places -/

/-- The instances of the allocator, each with its place. -/
def deposits (s : Session κ η ς τ) : List (Place × κ × η) :=
  (s.storage.bound.entries.filterMap fun e => (loan? e.2.owner).map fun l => (.bound e.1, l)) ++
    (s.storage.pool.entries.zipIdx.map fun e => (.pooled e.2, e.1.1, e.1.2.handle)) ++
    s.returned.zipIdx.map fun e => (.returned e.2, e.1)

theorem map_deposits {s : Session κ η ς τ} :
    s.deposits.map (·.2) = s.storage.account.stock ++ s.returned := by
  have hbound : (s.storage.bound.entries.filterMap fun e =>
      (loan? e.2.owner).map fun l => (Place.bound e.1, l)).map (·.2) =
        loans s.storage.account.owners := by
    show _ = (s.storage.bound.entries.map _).filterMap _
    rw [List.filterMap_map, List.map_filterMap]
    congr 1
    funext e
    simp only [Option.map_map, Function.comp_apply]
    exact Option.map_id'
  have hpool : (s.storage.pool.entries.zipIdx.map fun e =>
      (Place.pooled e.2, e.1.1, e.1.2.handle)).map (·.2) = s.storage.account.waiting := by
    show _ = s.storage.pool.entries.map _
    conv_rhs => rw [← List.zipIdx_map_fst 0 s.storage.pool.entries]
    rw [List.map_map, List.map_map]
    rfl
  have hreturned : (s.returned.zipIdx.map fun e => (Place.returned e.2, e.1)).map (·.2) =
      s.returned := by
    rw [List.map_map]
    exact List.zipIdx_map_fst 0 s.returned
  unfold deposits stock
  rw [List.map_append, List.map_append, hbound, hpool, hreturned]

theorem mem_deposits {s : Session κ η ς τ} {place : Place} {key : κ} {h : η} :
    (place, key, h) ∈ s.deposits ↔ s.HasAt place key h := by
  unfold deposits
  rw [List.mem_append, List.mem_append, List.mem_filterMap, List.mem_map, List.mem_map]
  constructor
  · rintro ((⟨⟨r, binding⟩, hmem, heq⟩ | ⟨⟨⟨key, value⟩, i⟩, hmem, ⟨⟩⟩) | ⟨⟨⟨key, h⟩, i⟩, hmem, ⟨⟩⟩)
    · obtain ⟨held, origin⟩ := binding
      cases origin with
      | imported external => cases heq
      | temporal key =>
          cases heq
          exact .bound (IdMap.mem_entries.mp hmem) rfl
    · exact .pooled (List.mem_zipIdx_iff_getElem?.mp hmem)
    · exact .returned (List.mem_zipIdx_iff_getElem?.mp hmem)
  · intro hat
    cases hat with
    | bound hbound horigin =>
        refine Or.inl (Or.inl ⟨_, IdMap.mem_entries.mpr hbound, ?_⟩)
        unfold loan? Binding.owner
        rw [horigin]
        rfl
    | @pooled i key value hpooled =>
        exact Or.inl (Or.inr ⟨((key, value), i), List.mem_zipIdx_iff_getElem?.mpr hpooled, rfl⟩)
    | @returned i key h hreturned =>
        exact Or.inr ⟨((key, h), i), List.mem_zipIdx_iff_getElem?.mpr hreturned, rfl⟩

/-- **What the allocator made is at one place, and nothing else is.** -/
theorem Accounted.exists_place (h : s.Accounted)
    (hdistinct : (s.storage.supply.made.map (·.2)).Nodup) {key : κ} {handle : η}
    (hmade : (key, handle) ∈ s.storage.supply.made) :
    ∃ place, s.HasAt place key handle ∧
      ∀ other key', s.HasAt other key' handle → other = place ∧ key' = key := by
  have hperm : (s.deposits.map (·.2)).Perm s.storage.supply.made := map_deposits ▸ h.stock
  have hnodup : (s.deposits.map (·.2.2)).Nodup := by
    have hsame := (hperm.map (·.2)).nodup_iff.mpr hdistinct
    rwa [List.map_map] at hsame
  obtain ⟨⟨place, key', handle'⟩, hmem, heq⟩ := List.mem_map.mp (hperm.mem_iff.mpr hmade)
  cases heq
  refine ⟨place, mem_deposits.mp hmem, fun other key' hother => ?_⟩
  have heq := List.inj_on_of_nodup_map hnodup (mem_deposits.mpr hother) hmem rfl
  exact ⟨congrArg Prod.fst heq, congrArg (fun d => d.2.1) heq⟩

theorem Accounted.made_of_hasAt (h : s.Accounted) {place : Place} {key : κ} {handle : η}
    (hat : s.HasAt place key handle) : (key, handle) ∈ s.storage.supply.made := by
  apply h.stock.mem_iff.mp
  rw [← map_deposits]
  exact List.mem_map.mpr ⟨_, mem_deposits.mpr hat, rfl⟩

/-- A handle that is not imported is where it is to be released from. -/
theorem IsAt.exists_hasAt {s : Session κ η ς τ} {place : Place} {handle : η}
    (h : s.IsAt place handle) (himported : ∀ r binding external,
      s.storage.bound.get? r = some binding → binding.origin = .imported external →
      binding.held.handle ≠ handle) : ∃ key, s.HasAt place key handle := by
  cases h with
  | @bound r binding hbound =>
      cases horigin : binding.origin with
      | imported external => exact absurd rfl (himported r binding external hbound horigin)
      | temporal key => exact ⟨key, .bound hbound horigin⟩
  | pooled hpooled => exact ⟨_, .pooled hpooled⟩
  | returned hreturned => exact ⟨_, .returned hreturned⟩

variable [DecidableEq κ] [DecidableEq ς]

theorem supplied_performAll {s : Session κ η ς τ} {all calls : List (StorageCall κ η ς)}
    {allocate : κ → EStateM StorageError τ η} (h : Supplied all s.storage.account)
    (hcalls : ∀ call ∈ calls, call ∈ all) :
    Supplied all (s.performAll allocate calls).storage.account := by
  induction calls generalizing s with
  | nil => exact h
  | cons call calls ih =>
      obtain ⟨_, hperforms, _⟩ := s.performs allocate call
      exact ih (hperforms.supplied h (hcalls call List.mem_cons_self)) fun c hc =>
        hcalls c (List.mem_cons_of_mem call hc)

/-- **Every instance has one place, and the counts add up.** Let the handles that the allocator makes
in the course of any calls be different, and let none of them be imported. Then each of them is at
one place: it is bound to one resource, or waits in the pool once, or was returned from the pool
once, under the key that it was made with. Nothing else is released under a key: each entry of the
pool is an instance that came in by a temporal registration, and what is bound by an imported one
holds the handle and the external state that one of the calls supplied. What was acquired is bound
or was recycled, and what was recycled was used again, waits in the pool or was returned. -/
theorem custody_sound (allocate : κ → EStateM StorageError τ η) (supply : τ)
    (calls : List (StorageCall κ η ς)) :
    let first : Session κ η ς (Metered κ η τ) := .start (.start supply)
    let s := first.performAll (Metered.meter allocate) calls
    let c := Chronicle.followAll (Metered.meter allocate) first .empty calls
    (s.storage.supply.made.map (·.2)).Nodup →
    (∀ r h external, .registerImported r h external ∈ calls →
      h ∉ s.storage.supply.made.map (·.2)) →
    (∀ key h, (key, h) ∈ s.storage.supply.made →
      ∃ place, s.HasAt place key h ∧ (∀ other, s.IsAt other h → other = place) ∧
        ∀ other key', s.HasAt other key' h → other = place ∧ key' = key) ∧
    (∀ place key h, s.HasAt place key h → (key, h) ∈ s.storage.supply.made) ∧
    (∀ r binding external, s.storage.bound.get? r = some binding →
      binding.origin = .imported external →
      ∃ r', .registerImported r' binding.held.handle external ∈ calls) ∧
    (List.Forall₂ (fun e f => e.1 = f.1 ∧ c.arrivals[f.2]? = some (e.2.handle, .temporal e.1))
      s.storage.pool.entries c.pool.entries) ∧
    s.storage.stats.allocated + s.storage.stats.reused =
      s.storage.stats.recycled + s.storage.temporalCount ∧
    s.storage.stats.recycled =
      s.storage.stats.reused + s.storage.pooledCount + s.returned.length := by
  intro first s c hdistinct hforeign
  have haccounted : s.Accounted := (Accounted.start supply).performAll calls
  have hfaithful : c.Faithful s := (Chronicle.Faithful.start _).followAll _ calls
  have hsupplied : Supplied calls s.storage.account :=
    supplied_performAll (.start _) fun _ hcall => hcall
  have himported : ∀ r binding external, s.storage.bound.get? r = some binding →
      binding.origin = .imported external →
      ∃ r', .registerImported r' binding.held.handle external ∈ calls := by
    intro r binding external hbound horigin
    exact hsupplied.owned r _ _ (horigin ▸ Storage.owners_of_bound hbound)
  refine ⟨fun key h hmade => ?_, fun _ _ _ => haccounted.made_of_hasAt, himported,
    hfaithful.pool.imp fun _ _ hef => ⟨hef.1, hef.2.1⟩, haccounted.acquired, ?_⟩
  · obtain ⟨place, hat, hunique⟩ := haccounted.exists_place hdistinct hmade
    refine ⟨place, hat, fun other hother => ?_, hunique⟩
    have hmine : h ∈ s.storage.supply.made.map (·.2) := List.mem_map.mpr ⟨_, hmade, rfl⟩
    obtain ⟨key', hkey'⟩ := hother.exists_hasAt fun r binding external hbound horigin heq => by
      obtain ⟨r', hcall⟩ := himported r binding external hbound horigin
      exact hforeign r' _ external hcall (heq ▸ hmine)
    exact (hunique other key' hkey').1
  · -- What was allocated is what resources owe, what waits, and what was returned.
    have hlength := haccounted.stock.length_eq
    have hwaiting : s.storage.account.waiting.length = s.storage.pooledCount := List.length_map _
    have hacquired := haccounted.acquired
    rw [← haccounted.allocated, List.length_append, Account.stock, List.length_append,
      length_loans, temporals_eq, hwaiting] at hlength
    omega

/-- Two resources are constructed, and one of them is registered anew while it is bound and then
moved; the pool is emptied after the first of the two instances is released. -/
def relay : Session String Int String (Metered String Int Supply) :=
  (Session.start (Metered.start ⟨[], none, 0⟩)).performAll (Metered.meter Supply.allocate)
    [.registerTemporal ⟨0⟩ "colour", .construct .relay ⟨0⟩, .registerImported ⟨0⟩ 7 "shown",
      .registerTemporal ⟨1⟩ "depth", .construct .relay ⟨1⟩, .move .relay ⟨⟨2⟩, ⟨0⟩⟩,
      .construct .relay ⟨0⟩, .destruct .relay ⟨2⟩, .releasePool, .destruct .relay ⟨1⟩]

theorem custody_sound_relay :
    relay.storage.supply.made = [("colour", 1), ("depth", 2)] ∧
    (relay.HasAt (.returned 0) "colour" 1 ∧ relay.HasAt (.pooled 0) "depth" 2 ∧
      relay.IsAt (.bound ⟨0⟩) 7) ∧
    ∀ key h, (key, h) ∈ relay.storage.supply.made →
      ∃ place, relay.HasAt place key h ∧ (∀ other, relay.IsAt other h → other = place) ∧
        ∀ other key', relay.HasAt other key' h → other = place ∧ key' = key := by
  have hmade : relay.storage.supply.made = [("colour", 1), ("depth", 2)] := by decide +kernel
  have hdistinct : (relay.storage.supply.made.map (·.2)).Nodup := by
    rw [hmade]
    decide
  have hreturned : relay.returned[0]? = some ("colour", 1) := by decide +kernel
  have hpooled : relay.storage.pool.entries[0]? = some ("depth", ⟨2, none⟩) := by decide +kernel
  have hbound : relay.storage.bound.get? ⟨0⟩ = some ⟨⟨7, some "shown"⟩, .imported "shown"⟩ := by
    decide +kernel
  have hsound := custody_sound Supply.allocate ⟨[], none, 0⟩ _ hdistinct
  refine ⟨hmade, ⟨.returned hreturned, .pooled hpooled, .bound hbound⟩, (hsound ?_).1⟩
  intro r h external hcall
  -- The one handle that is imported is neither of the two that were made.
  simp only [List.mem_cons, List.not_mem_nil, or_false, reduceCtorEq, false_or,
    StorageCall.registerImported.injEq] at hcall
  obtain ⟨_, rfl, _⟩ := hcall
  show (7 : Int) ∉ relay.storage.supply.made.map (·.2)
  rw [hmade]
  decide

/-- A handle is imported, and the allocator makes it as well. -/
def clash : Session String Int String (Metered String Int Supply) :=
  (Session.start (Metered.start ⟨[], none, 0⟩)).performAll (Metered.meter Supply.allocate)
    [.registerImported ⟨0⟩ 1 "shown", .registerTemporal ⟨1⟩ "colour", .construct .relay ⟨1⟩,
      .construct .relay ⟨0⟩]

/-- Storage does not compare handles, so that one that is imported as well as made is bound to two
resources at once. -/
theorem custody_clash :
    (clash.storage.supply.made.map (·.2)).Nodup ∧
    (clash.IsAt (.bound ⟨0⟩) 1 ∧ clash.IsAt (.bound ⟨1⟩) 1) ∧
    ¬ ∀ key h, (key, h) ∈ clash.storage.supply.made →
      ∃ place, ∀ other, clash.IsAt other h → other = place := by
  have hmade : clash.storage.supply.made = [("colour", 1)] := by decide +kernel
  have himported : clash.storage.bound.get? ⟨0⟩ = some ⟨⟨1, some "shown"⟩, .imported "shown"⟩ := by
    decide +kernel
  have htemporal : clash.storage.bound.get? ⟨1⟩ = some ⟨⟨1, none⟩, .temporal "colour"⟩ := by
    decide +kernel
  have hfirst : clash.IsAt (.bound ⟨0⟩) 1 := .bound himported
  have hsecond : clash.IsAt (.bound ⟨1⟩) 1 := .bound htemporal
  refine ⟨by rw [hmade]; decide, ⟨hfirst, hsecond⟩, fun hone => ?_⟩
  obtain ⟨place, hplace⟩ := hone "colour" 1 (by rw [hmade]; exact List.mem_singleton_self _)
  cases (hplace _ hfirst).trans (hplace _ hsecond).symm

end Session

end FramePlan
