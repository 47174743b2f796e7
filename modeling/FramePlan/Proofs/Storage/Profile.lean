import FramePlan.Plan.Script
import FramePlan.Proofs.Alike
import FramePlan.Proofs.Storage.Account
import Mathlib.Logic.Function.Basic

/-!
# The profile of storage

Which instance is bound to which resource depends on the order in which instances were released.
Less than that decides how calls end: what is registered, what becomes of each bound instance in
the end, how many instances wait under each key, and the state of the allocator. This is the
profile of storage, and each call to storage has a counterpart that acts on profiles alone.

* `Storage.construct_mirrors`, `Storage.move_mirrors`, `Storage.destruct_mirrors`,
  `Storage.request_mirrors` — the calls end as their counterparts do.
* `Profile.giveUp_comm` — for the profile, the order in which different resources give up their
  storage does not matter.
-/

namespace FramePlan

variable {κ η ς τ : Type}

/-- What decides how calls to storage end. -/
structure Profile (κ η ς τ : Type) where
  registrations : IdMap .resource (Registration κ η ς)
  /-- What becomes of the instance of each bound resource in the end. -/
  origin : ResourceId → Option (Origin κ ς)
  /-- How many instances wait under each key. -/
  available : κ → Nat
  supply : τ
  stats : Stats

/-- What becomes of the instance of each bound resource in the end. -/
def Storage.origins (bound : IdMap .resource (Binding κ η ς)) (r : ResourceId) :
    Option (Origin κ ς) :=
  (bound.get? r).map (·.origin)

/-- The profile of storage. -/
def Storage.profile [DecidableEq κ] (s : Storage κ η ς τ) : Profile κ η ς τ where
  registrations := s.registrations
  origin := origins s.bound
  available := s.pool.available
  supply := s.supply
  stats := s.stats

/-- The key under which an instance is released in the end. -/
def Origin.key? : Origin κ ς → Option κ
  | .imported _ => none
  | .temporal key => some key

namespace Profile

/-- An instance is bound to a resource. -/
def bound (p : Profile κ η ς τ) (r : ResourceId) (origin : Origin κ ς) : Profile κ η ς τ :=
  { p with origin := Function.update p.origin r (some origin) }

/-- An instance is handed over. -/
def moved (p : Profile κ η ς τ) (m : Move) : Profile κ η ς τ :=
  { p with
    origin := Function.update (Function.update p.origin m.src none) m.dst (p.origin m.src)
    stats.moved := p.stats.moved + 1 }

/-- The key under which the instance of a resource is released in the end. -/
def key? (p : Profile κ η ς τ) (r : ResourceId) : Option κ := (p.origin r).bind Origin.key?

/-- What a request needs of a resource. -/
def prepare (r : ResourceId) : EStateM StorageError (Profile κ η ς τ) Unit := fun p =>
  if (p.origin r).isSome then .ok () p else .error (.notConstructed r) p

/-- The counterpart of a request. -/
def request (frame : Frame) (p : PassId) : EStateM StorageError (Profile κ η ς τ) Unit :=
  match frame.pass? p with
  | none => throw (.unknownPass p)
  | some pass => pass.resources.toList.forM prepare

/-- The counterpart of a move. -/
def move (m : Move) : EStateM StorageError (Profile κ η ς τ) Unit := fun p =>
  if (p.origin m.dst).isSome then .error (.alreadyConstructed m.dst) p
  else if (p.origin m.src).isSome then .ok () (p.moved m)
  else .error (.notConstructed m.src) p

section Keys

variable [DecidableEq κ]

/-- An instance goes, to wait under the key if there is one. -/
def released (p : Profile κ η ς τ) (r : ResourceId) (key? : Option κ) : Profile κ η ς τ :=
  { p with
    origin := Function.update p.origin r none
    available := fun key => p.available key + if key? = some key then 1 else 0
    stats.recycled := p.stats.recycled + if key?.isSome then 1 else 0 }

/-- An instance is released, or returned to its owner. -/
def destructed (p : Profile κ η ς τ) (r : ResourceId) : Profile κ η ς τ := p.released r (p.key? r)

/-- The counterpart of a destruct. -/
def destruct (r : ResourceId) : EStateM StorageError (Profile κ η ς τ) Unit := fun p =>
  if (p.origin r).isSome then .ok () (p.destructed r) else .error (.notConstructed r) p

/-- The counterpart of a construct. -/
def construct (allocate : κ → EStateM StorageError τ η) (r : ResourceId) :
    EStateM StorageError (Profile κ η ς τ) Unit := fun p =>
  if (p.origin r).isSome then .error (.alreadyConstructed r) p
  else
    match p.registrations.get? r with
    | none => .error (.unregistered r) p
    | some (.imported _ external) => .ok () (p.bound r (.imported external))
    | some (.temporal key) =>
      if p.available key = 0 then
        match allocate key p.supply with
        | .error e supply => .error e { p with supply }
        | .ok _ supply =>
          .ok () { p.bound r (.temporal key) with
            supply
            stats.allocated := p.stats.allocated + 1 }
      else
        .ok () { p.bound r (.temporal key) with
          available := fun other => p.available other - if other = key then 1 else 0
          stats.reused := p.stats.reused + 1 }

end Keys

end Profile

namespace Storage

variable {s t : Storage κ η ς τ} {r : ResourceId}

theorem origins_insert {bound : IdMap .resource (Binding κ η ς)} {binding : Binding κ η ς} :
    origins (bound.insert r binding) =
      Function.update (origins bound) r (some binding.origin) := by
  funext x
  rw [Function.update_apply, origins, IdMap.get?_insert]
  split <;> rfl

theorem origins_erase {bound : IdMap .resource (Binding κ η ς)} :
    origins (bound.erase r) = Function.update (origins bound) r none := by
  funext x
  rw [Function.update_apply, origins, IdMap.get?_erase]
  split <;> rfl

variable [DecidableEq κ]

/-- The call ends as its counterpart does, and leaves storage with the profile that the counterpart
leaves. -/
def Mirrors {α β : Type} (act : EStateM StorageError (Storage κ η ς τ) α)
    (counterpart : EStateM StorageError (Profile κ η ς τ) β) : Prop :=
  ∀ s, Alike act counterpart s s.profile (fun t p => t.profile = p) fun t p => t.profile = p

/-- A call with a counterpart ends alike on storage with the same profile. -/
theorem Mirrors.alike {α β : Type} {act : EStateM StorageError (Storage κ η ς τ) α}
    {counterpart : EStateM StorageError (Profile κ η ς τ) β} (h : Mirrors act counterpart)
    (hsame : s.profile = t.profile) :
    Alike act act s t (fun t u => t.profile = u.profile) fun t u => t.profile = u.profile := by
  have hs := h s
  rw [hsame] at hs
  apply (hs.join (h t)).mono
  · rintro _ _ ⟨p, ht, hu⟩
    exact ht.trans hu.symm
  · rintro _ _ ⟨p, ht, hu⟩
    exact ht.trans hu.symm

/-- A call returns if its counterpart does. -/
theorem Mirrors.ends {α β : Type} {act : EStateM StorageError (Storage κ η ς τ) α}
    {counterpart : EStateM StorageError (Profile κ η ς τ) β} {b : β} {p : Profile κ η ς τ}
    (h : Mirrors act counterpart) (hok : counterpart s.profile = .ok b p) :
    Ends act s (fun _ t => t.profile = p) fun _ _ => False := by
  cases hact : act s with
  | ok a t =>
      obtain ⟨_, q, hq, ht⟩ := (h s).ok hact
      cases hok.symm.trans hq
      exact Ends.of_ok hact ht
  | error e t =>
      obtain ⟨q, hq, _⟩ := (h s).error hact
      cases hok.symm.trans hq

theorem isSome_origin : (s.profile.origin r).isSome = s.bound.contains r := Option.isSome_map

theorem isSome_origin_iff :
    (s.profile.origin r).isSome = true ↔ s.account.owners.get? r ≠ none := by
  rw [isSome_origin, contains_bound]

theorem origin_of_bound {binding : Binding κ η ς} (h : s.bound.get? r = some binding) :
    s.profile.origin r = some binding.origin := congrArg (Option.map Binding.origin) h

theorem origin_of_unbound (h : s.bound.get? r = none) : s.profile.origin r = none :=
  congrArg (Option.map Binding.origin) h

theorem profile_bind (binding : Binding κ η ς) :
    (s.bind r binding).profile = s.profile.bound r binding.origin :=
  congrArg (fun origin => { s.profile with origin }) origins_insert

theorem profile_unbind :
    (s.unbind r).profile = { s.profile with
      origin := Function.update s.profile.origin r none } :=
  congrArg (fun origin => { s.profile with origin }) origins_erase

/-! ### The calls -/

theorem move_mirrors {frame : Frame} {m : Move} :
    Mirrors (move (κ := κ) (η := η) (ς := ς) (τ := τ) frame m) (Profile.move m) := by
  intro s
  rw [Alike.iff_results, move, Profile.move, isSome_origin]
  by_cases hdst : s.bound.contains m.dst
  · rw [if_pos hdst, if_pos hdst]
    exact ⟨rfl, rfl⟩
  rw [if_neg hdst, if_neg hdst]
  cases hsrc : s.bound.get? m.src with
  | none =>
      rw [origin_of_unbound hsrc]
      exact ⟨rfl, rfl⟩
  | some binding =>
      rw [origin_of_bound hsrc]
      show Storage.profile _ = _
      rw [profile_bind, profile_unbind, Profile.moved, origin_of_bound hsrc]
      rfl

theorem destruct_mirrors [DecidableEq ς] {frame : Frame} :
    Mirrors (destruct (κ := κ) (η := η) (ς := ς) (τ := τ) frame r) (Profile.destruct r) := by
  intro s
  rw [Alike.iff_results, destruct, Profile.destruct]
  cases hbound : s.bound.get? r with
  | none =>
      rw [origin_of_unbound hbound]
      exact ⟨rfl, rfl⟩
  | some binding =>
      obtain ⟨held, origin⟩ := binding
      have horigin := origin_of_bound hbound
      rw [horigin]
      cases origin with
      | imported external =>
          have hkey : s.profile.key? r = none := by rw [Profile.key?, horigin]; rfl
          have hleft : (s.unbind r).profile = s.profile.destructed r := by
            rw [profile_unbind, Profile.destructed, hkey]
            rfl
          show Storage.profile (if _ then _ else _) = _
          split
          · exact hleft
          · exact hleft
      | temporal key =>
          have hkey : s.profile.key? r = some key := by rw [Profile.key?, horigin]; rfl
          have havailable : (s.pool.release key held).available = fun other =>
              s.pool.available other + if some key = some other then 1 else 0 := by
            funext other
            rw [FreeLists.available_release]
            simp only [Option.some.injEq, eq_comm]
          show ({ (s.unbind r).profile with
            available := (s.pool.release key held).available
            stats.recycled := s.stats.recycled + 1 } : Profile κ η ς τ) = _
          rw [profile_unbind, havailable, Profile.destructed, hkey]
          rfl

/-- What comes of a construct if no instance waits under the key. -/
theorem acquireOrCreate_created {lists : FreeLists κ (Instance η ς)} {key : κ} {supply : τ}
    {allocate : κ → EStateM StorageError τ η} (h : lists.acquire? key = none) :
    lists.acquireOrCreate (m := EStateM StorageError τ) key
        (fun key => do return (⟨← allocate key, none⟩ : Instance η ς)) supply =
      match allocate key supply with
      | .ok handle next => .ok (.created ⟨handle, none⟩, lists) next
      | .error e next => .error e next := by
  rw [FreeLists.acquireOrCreate, h]
  cases hallocate : allocate key supply with
  | ok handle next => exact bind_of_ok (bind_of_ok hallocate)
  | error e next => exact bind_of_error (bind_of_error hallocate)

theorem construct_mirrors {allocate : κ → EStateM StorageError τ η} {frame : Frame} :
    Mirrors (construct (ς := ς) allocate frame r) (Profile.construct allocate r) := by
  intro s
  rw [Alike.iff_results, construct, Profile.construct, isSome_origin]
  by_cases hbound : s.bound.contains r
  · rw [if_pos hbound, if_pos hbound]
    exact ⟨rfl, rfl⟩
  rw [if_neg hbound, if_neg hbound]
  have hregistrations : s.profile.registrations = s.registrations := rfl
  rw [hregistrations]
  cases hreg : s.registrations.get? r with
  | none => exact ⟨rfl, rfl⟩
  | some registration =>
      cases registration with
      | imported handle external => exact profile_bind _
      | temporal key =>
          dsimp only
          cases hacquire : s.pool.acquire? key with
          | none =>
              have hzero : s.profile.available key = 0 :=
                FreeLists.acquire?_eq_none_iff_available.mp hacquire
              have hsupply : s.profile.supply = s.supply := rfl
              rw [if_pos hzero, hsupply, acquireOrCreate_created hacquire]
              cases allocate key s.supply with
              | ok handle supply => exact profile_bind _
              | error e supply => exact ⟨rfl, rfl⟩
          | some taken =>
              obtain ⟨value, rest⟩ := taken
              have hrest := FreeLists.available_of_acquire? hacquire
              have hpos : s.profile.available key ≠ 0 := by
                show s.pool.available key ≠ 0
                rw [hrest key, if_pos rfl]
                exact Nat.succ_ne_zero _
              have havailable : (fun other => s.profile.available other -
                  if other = key then 1 else 0) = rest.available := by
                funext other
                show s.pool.available other - _ = _
                rw [hrest other]
                exact Nat.add_sub_cancel ..
              have htaken : s.pool.acquireOrCreate (m := EStateM StorageError τ) key
                  (fun key => do return (⟨← allocate key, none⟩ : Instance η ς)) =
                    pure (.reused value, rest) := by
                rw [FreeLists.acquireOrCreate, hacquire]
              rw [if_neg hpos, havailable, htaken]
              exact profile_bind _

section States

variable [DecidableEq ς] {frame : Frame} {p : PassId}

/-- To bring an instance into a state does not change the profile. -/
theorem prepare_mirrors : Mirrors (prepare (κ := κ) (η := η) (ς := ς) (τ := τ) p r)
    (Profile.prepare r) := by
  intro s
  rw [Alike.iff_results, prepare, Profile.prepare]
  cases hbound : s.bound.get? r with
  | none =>
      rw [origin_of_unbound hbound]
      exact ⟨rfl, rfl⟩
  | some binding =>
      have horigin := origin_of_bound hbound
      rw [horigin]
      have hbind : ∀ state, (s.bind r { binding with held.state := state }).profile =
          s.profile := by
        intro state
        have hsame : Function.update s.profile.origin r (some binding.origin) =
            s.profile.origin := by
          rw [← horigin]
          exact Function.update_eq_self r _
        rw [profile_bind, Profile.bound, hsame]
      cases hstate : s.requiredState? p r with
      | none => exact rfl
      | some state =>
          by_cases hthere : binding.held.state = some state
          · simp only [if_pos hthere]
            exact rfl
          · simp only [if_neg hthere]
            exact hbind _

theorem request_mirrors : Mirrors (request (κ := κ) (η := η) (ς := ς) (τ := τ) frame p)
    (Profile.request frame p) := by
  intro s
  rw [request, Profile.request]
  cases frame.pass? p with
  | none => exact Alike.of_error rfl rfl rfl
  | some pass =>
      apply Alike.returns
      apply Alike.mapM
      · rintro r _ t _ rfl
        exact Alike.returns (prepare_mirrors t)
      · rfl

end States

end Storage

/-! ### Giving up storage -/

/-- The action moves the storage of the resource, into it or out of it, or releases it. -/
def Action.Involves : Action → ResourceId → Prop
  | .move m, r => r = m.src ∨ r = m.dst
  | .destruct x, r => r = x
  | _, _ => False

/-- The action hands over or releases storage. -/
def Action.GivesUp (a : Action) : Prop := (∃ m, a = .move m) ∨ ∃ r, a = .destruct r

namespace Profile

variable {p : Profile κ η ς τ} {r x : ResourceId} {m n : Move}

theorem moved_comm (hapart : ∀ r, (Action.move m).Involves r → ¬ (Action.move n).Involves r) :
    (p.moved m).moved n = (p.moved n).moved m := by
  have hsrc := hapart m.src (Or.inl rfl)
  have hdst := hapart m.dst (Or.inr rfl)
  simp only [Action.Involves, not_or] at hsrc hdst
  have horigin : ((p.moved m).moved n).origin = ((p.moved n).moved m).origin := by
    funext x
    simp only [moved, Function.update_apply]
    grind
  exact congrArg (fun origin => { (p.moved m).moved n with origin }) horigin

variable [DecidableEq κ]

theorem key?_released {key : Option κ} (hne : x ≠ r) : (p.released r key).key? x = p.key? x := by
  simp only [key?, released, Function.update_of_ne hne]

theorem released_comm {key key' : Option κ} (hne : r ≠ x) :
    (p.released r key).released x key' = (p.released x key').released r key := by
  simp only [released, Function.update_comm hne, Nat.add_right_comm]

theorem destructed_comm (hne : r ≠ x) :
    (p.destructed r).destructed x = (p.destructed x).destructed r := by
  simp only [destructed, key?_released hne, key?_released hne.symm]
  exact released_comm hne

theorem moved_destructed (hsrc : m.src ≠ r) (hdst : m.dst ≠ r) :
    (p.moved m).destructed r = (p.destructed r).moved m := by
  have hkey : (p.moved m).key? r = p.key? r := by
    simp only [key?, moved, Function.update_of_ne hsrc.symm, Function.update_of_ne hdst.symm]
  have horigin : ((p.moved m).released r (p.key? r)).origin =
      ((p.released r (p.key? r)).moved m).origin := by
    simp only [released, moved, Function.update_of_ne hsrc, Function.update_comm hsrc,
      Function.update_comm hdst]
  rw [destructed, destructed, hkey]
  exact congrArg (fun origin => { (p.moved m).released r (p.key? r) with origin }) horigin

/-- What giving up storage does to the profile. -/
def giveUp (p : Profile κ η ς τ) : Action → Profile κ η ς τ
  | .move m => p.moved m
  | .destruct r => p.destructed r
  | _ => p

/-- Different resources give up their storage in either order. -/
theorem giveUp_comm {a b : Action} (ha : a.GivesUp) (hb : b.GivesUp)
    (hapart : ∀ r, a.Involves r → ¬ b.Involves r) :
    (p.giveUp a).giveUp b = (p.giveUp b).giveUp a := by
  rcases ha with ⟨m, rfl⟩ | ⟨r, rfl⟩
  · rcases hb with ⟨n, rfl⟩ | ⟨x, rfl⟩
    · exact moved_comm hapart
    · exact moved_destructed (hapart m.src (Or.inl rfl)) (hapart m.dst (Or.inr rfl))
  · rcases hb with ⟨n, rfl⟩ | ⟨x, rfl⟩
    · have hsrc : n.src ≠ r := fun heq => hapart r rfl (Or.inl heq.symm)
      have hdst : n.dst ≠ r := fun heq => hapart r rfl (Or.inr heq.symm)
      exact (moved_destructed hsrc hdst).symm
    · exact destructed_comm (hapart r rfl)

end Profile

end FramePlan
