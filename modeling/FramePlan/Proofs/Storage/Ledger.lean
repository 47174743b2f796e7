import FramePlan.Proofs.Run.Sequential
import FramePlan.Proofs.Storage.Account

/-!
# Storage and the ledger of a run

What the calls of a run did to the account of storage is told by the ledger of the run.

* `Account.Follows` — a resource of the frame has an owner just while it holds storage; the owners
  of other resources stay.
* `Account.Granted` — a pass gets the handles of its resources, and they stay with them until those
  give up their storage.
-/

namespace FramePlan

open History

variable {κ η ς τ : Type}

namespace Account

/-- The calls of a run of the plan that return keep a relation between the ledger and the
account. -/
structure Kept (frame : Frame) (plan : Plan) (allocate : κ → EStateM StorageError τ η)
    (J : Ledger η → Account κ η ς τ → Prop) : Prop where
  construct : ∀ {L a b r}, J L a → Permits frame L.history (.construct r) →
    .construct r ∈ plan.script → a.owners.get? r = none → Constructs allocate r a b →
    J (L.add [.construct r]) b
  move : ∀ {L a b m}, J L a → Permits frame L.history (.move m) → .move m ∈ plan.script →
    a.owners.get? m.dst = none → Moves m a b → J (L.add [.move m]) b
  destruct : ∀ {L a b r}, J L a → Permits frame L.history (.destruct r) →
    .destruct r ∈ plan.script → Destructs r a b → J (L.add [.destruct r]) b
  request : ∀ {L a p handles}, J L a → Permits frame L.history (.request p) →
    a.Grants frame p handles → J (L.grant p handles) a
  work : ∀ {L a p}, J L a → Permits frame L.history (.work p) → J (L.add [.work p]) a

/-- By the relation no call of a run of the plan is refused. -/
structure Serves (frame : Frame) (plan : Plan) (allocate : κ → EStateM StorageError τ η)
    (J : Ledger η → Account κ η ς τ → Prop) : Prop where
  construct : ∀ {L a r}, J L a → Permits frame L.history (.construct r) →
    .construct r ∈ plan.script → a.owners.get? r = none ∧ a.registrations.get? r ≠ none ∧
      ∀ key, ∃ h next, allocate key a.supply = .ok h next
  move : ∀ {L a m}, J L a → Permits frame L.history (.move m) → .move m ∈ plan.script →
    a.owners.get? m.dst = none ∧ a.owners.get? m.src ≠ none
  destruct : ∀ {L a r}, J L a → Permits frame L.history (.destruct r) →
    .destruct r ∈ plan.script → a.owners.get? r ≠ none
  request : ∀ {L a p}, J L a → Permits frame L.history (.request p) → .request p ∈ plan.script →
    frame.pass? p ≠ none ∧ ∀ r, frame.Touches p r → a.owners.get? r ≠ none

variable {frame : Frame} {plan : Plan} {allocate : κ → EStateM StorageError τ η}
  {J K : Ledger η → Account κ η ς τ → Prop} {L : Ledger η} {a₀ a b : Account κ η ς τ}

theorem Kept.and (h : Kept frame plan allocate J) (h' : Kept frame plan allocate K) :
    Kept frame plan allocate fun L a => J L a ∧ K L a where
  construct ha hp hm hfree hb :=
    ⟨h.construct ha.1 hp hm hfree hb, h'.construct ha.2 hp hm hfree hb⟩
  move ha hp hm hfree hb := ⟨h.move ha.1 hp hm hfree hb, h'.move ha.2 hp hm hfree hb⟩
  destruct ha hp hm hb := ⟨h.destruct ha.1 hp hm hb, h'.destruct ha.2 hp hm hb⟩
  request ha hp hg := ⟨h.request ha.1 hp hg, h'.request ha.2 hp hg⟩
  work ha hp := ⟨h.work ha.1 hp, h'.work ha.2 hp⟩

theorem Serves.and (h : Serves frame plan allocate J) :
    Serves frame plan allocate fun L a => J L a ∧ K L a where
  construct ha hp hm := h.construct ha.1 hp hm
  move ha hp hm := h.move ha.1 hp hm
  destruct ha hp hm := h.destruct ha.1 hp hm
  request ha hp hm := h.request ha.1 hp hm

section Hosts

variable [DecidableEq κ] [DecidableEq ς]

/-- The work of a pass does not change storage. -/
theorem ends_work {faults : IdMap .pass WorkFault} {p : PassId} {pass : Pass}
    {handles : IdMap .resource η} {s : Storage κ η ς τ} :
    Ends ((Storage.host frame allocate faults).work p pass handles) s (fun _ t => t = s)
      fun _ _ => True := by
  unfold Storage.host
  dsimp only
  cases faults.get? p with
  | some fault => trivial
  | none => exact Ends.pure rfl

/-- **Pooled storage keeps what its account keeps.** -/
theorem Kept.host_keeps (h : Kept frame plan allocate J) (faults : IdMap .pass WorkFault) :
    (Storage.host frame allocate faults).Keeps frame plan (fun L s => J L s.account) True where
  log _ hs := hs
  construct hs hp hm := Ends.adaptExcept (Storage.ends_construct.mono
    (fun _ _ ht => h.construct hs hp hm ht.1 ht.2) fun _ _ _ => trivial)
  move hs hp hm := Ends.adaptExcept (Storage.ends_move.mono
    (fun _ _ ht => h.move hs hp hm ht.1 ht.2) fun _ _ _ => trivial)
  destruct hs hp hm := Ends.adaptExcept (Storage.ends_destruct.mono
    (fun _ _ ht => h.destruct hs hp hm ht) fun _ _ _ => trivial)
  request hs hp _ := by
    apply Ends.adaptExcept
    apply Storage.ends_request.mono _ fun _ _ _ => trivial
    rintro handles t ⟨hsame, hgrants⟩
    rw [hsame]
    exact h.request hs hp hgrants
  work := by
    intro L s p pass handles hs hp _ _ _
    apply ends_work.mono _ fun _ _ _ => trivial
    rintro _ _ rfl
    exact h.work hs hp

/-- **Pooled storage serves every call of a run** if its account does. -/
theorem Kept.host_serves (h : Kept frame plan allocate J) (hserves : Serves frame plan allocate J) :
    (Storage.host frame allocate ∅).Keeps frame plan (fun L s => J L s.account) False where
  log _ hs := hs
  construct hs hp hm := by
    obtain ⟨hfree, hregistered, htotal⟩ := hserves.construct hs hp hm
    apply Ends.adaptExcept
    apply Storage.ends_construct.mono (fun _ _ ht => h.construct hs hp hm ht.1 ht.2)
    rintro _ _ (hbound | hnone | ⟨key, e, supply, hfail⟩)
    · exact hbound hfree
    · exact hregistered hnone
    · obtain ⟨handle, next, hok⟩ := htotal key
      rw [hok] at hfail
      cases hfail
  move hs hp hm := by
    obtain ⟨hdst, hsrc⟩ := hserves.move hs hp hm
    apply Ends.adaptExcept
    apply Storage.ends_move.mono (fun _ _ ht => h.move hs hp hm ht.1 ht.2)
    rintro _ _ (hbound | hnone)
    · exact hbound hdst
    · exact hsrc hnone
  destruct hs hp hm := by
    apply Ends.adaptExcept
    apply Storage.ends_destruct.mono (fun _ _ ht => h.destruct hs hp hm ht)
    exact fun _ _ hnone => hserves.destruct hs hp hm hnone
  request hs hp hm := by
    obtain ⟨hpass, howned⟩ := hserves.request hs hp hm
    apply Ends.adaptExcept
    apply Storage.ends_request.mono
    · rintro handles t ⟨hsame, hgrants⟩
      rw [hsame]
      exact h.request hs hp hgrants
    · rintro _ _ (hnone | ⟨r, htouch, hnone⟩)
      · exact hpass hnone
      · exact howned r htouch hnone
  work hs hp _ _ _ := h.work hs hp

end Hosts

/-! ### Registrations stay, and handles are made by the allocator only -/

theorem Constructs.registrations {r : ResourceId} (h : Constructs allocate r a b) :
    b.registrations = a.registrations := by
  cases h <;> rfl

theorem Constructs.supply {r : ResourceId} {first : τ} {hs : List η} (h : Constructs allocate r a b)
    (hissues : Issues allocate first hs a.supply) : ∃ hs', Issues allocate first hs' b.supply := by
  cases h with
  | imported => exact ⟨hs, hissues⟩
  | reused => exact ⟨hs, hissues⟩
  | allocated _ hallocate => exact ⟨_, hissues.made hallocate⟩

theorem Destructs.supply {r : ResourceId} (h : Destructs r a b) : b.supply = a.supply := by
  cases h <;> rfl

theorem Moves.supply {m : Move} (h : Moves m a b) : b.supply = a.supply := by
  cases h
  rfl

theorem Destructs.registrations {r : ResourceId} (h : Destructs r a b) :
    b.registrations = a.registrations := by
  cases h <;> rfl

theorem Moves.registrations {m : Move} (h : Moves m a b) : b.registrations = a.registrations := by
  cases h
  rfl

/-! ### Owners -/

theorem Constructs.owners {r : ResourceId} (h : Constructs allocate r a b) :
    ∃ owner, b.owners = a.owners.insert r owner := by
  cases h with
  | imported => exact ⟨_, rfl⟩
  | reused => exact ⟨_, rfl⟩
  | allocated => exact ⟨_, rfl⟩

theorem Destructs.owners {r : ResourceId} (h : Destructs r a b) : b.owners = a.owners.erase r := by
  cases h <;> rfl

theorem Moves.owners {m : Move} (h : Moves m a b) : ∃ owner, a.owners.get? m.src = some owner ∧
    b.owners = (a.owners.erase m.src).insert m.dst owner := by
  cases h with
  | moved howner => exact ⟨_, howner, rfl⟩

section Stays

variable {r x : ResourceId} {m : Move} {owner : η × Origin κ ς}

theorem Constructs.stays (h : Constructs allocate r a b) (hfree : a.owners.get? r = none)
    (hx : a.owners.get? x = some owner) : b.owners.get? x = some owner := by
  obtain ⟨_, howners⟩ := h.owners
  have hne : x ≠ r := by
    rintro rfl
    rw [hfree] at hx
    cases hx
  rw [howners, IdMap.get?_insert_of_ne hne]
  exact hx

/-- What is not moved away stays where it is. -/
theorem Moves.stays (h : Moves m a b) (hfree : a.owners.get? m.dst = none)
    (hnot : ¬ Gone [.move m] x) (hx : a.owners.get? x = some owner) :
    b.owners.get? x = some owner := by
  obtain ⟨_, _, howners⟩ := h.owners
  have hned : x ≠ m.dst := by
    rintro rfl
    rw [hfree] at hx
    cases hx
  have hnes : x ≠ m.src := by
    rintro rfl
    exact hnot (Or.inr ⟨m.dst, List.mem_singleton.mpr rfl⟩)
  rw [howners, IdMap.get?_insert_of_ne hned, IdMap.get?_erase, if_neg hnes]
  exact hx

theorem Destructs.stays (h : Destructs r a b) (hnot : ¬ Gone [.destruct r] x)
    (hx : a.owners.get? x = some owner) : b.owners.get? x = some owner := by
  have hne : x ≠ r := by
    rintro rfl
    exact hnot (Or.inl (List.mem_singleton.mpr rfl))
  rw [h.owners, IdMap.get?_erase, if_neg hne]
  exact hx

end Stays

/-- A resource of the frame has an owner just while it holds storage. -/
structure Follows (frame : Frame) (allocate : κ → EStateM StorageError τ η)
    (a₀ : Account κ η ς τ) (L : Ledger η) (a : Account κ η ς τ) : Prop where
  legal : Legal frame L.history
  supply : ∃ hs, Issues allocate a₀.supply hs a.supply
  registrations : a.registrations = a₀.registrations
  inside : ∀ r, frame.hasResource r → (a.owners.get? r ≠ none ↔ Holds L.history r)
  outside : ∀ r, ¬ frame.hasResource r → a.owners.get? r = a₀.owners.get? r

theorem Follows.empty (h : ∀ r, frame.hasResource r → a.owners.get? r = none) :
    Follows frame allocate a Ledger.empty a where
  legal := Legal.nil
  supply := ⟨[], .nil⟩
  registrations := rfl
  inside r hr := by
    rw [h r hr]
    simp [Holds, Opened, Ledger.empty]
  outside _ _ := rfl

theorem follows_kept (hf : plan.Fits frame) :
    Kept frame plan allocate (Follows frame allocate a₀) where
  construct ha hp hm _ hb := by
    obtain ⟨owner, howners⟩ := hb.owners
    have hr := hf.hasResource_of_script.1 _ hm
    obtain ⟨hs, hissues⟩ := ha.supply
    refine ⟨ha.legal.snoc hp, hb.supply hissues, hb.registrations.trans ha.registrations,
      fun x hx => ?_, fun x hx => ?_⟩
    · rw [howners, IdMap.get?_insert, Ledger.add, holds_construct ha.legal hp, ← ha.inside x hx]
      split <;> simp [*]
    · have hne : x ≠ _ := fun heq => hx (heq ▸ hr)
      rw [howners, IdMap.get?_insert_of_ne hne]
      exact ha.outside x hx
  move := by
    intro L a b m ha hp hm _ hb
    obtain ⟨owner, _, howners⟩ := hb.owners
    obtain ⟨hsrc, hdst⟩ := hf.hasResource_of_script.2.1 _ hm
    refine ⟨ha.legal.snoc hp, hb.supply ▸ ha.supply, hb.registrations.trans ha.registrations,
      fun x hx => ?_, fun x hx => ?_⟩
    · rw [howners, IdMap.get?_insert, IdMap.get?_erase, Ledger.add, holds_move ha.legal hp,
        ← ha.inside x hx]
      by_cases hxd : x = m.dst
      · simp [hxd]
      · by_cases hxs : x = m.src
        · have hne : m.src ≠ m.dst := fun heq => hxd (hxs.trans heq)
          simp [hxs, hne]
        · simp [hxd, hxs]
    · have hned : x ≠ _ := fun heq => hx (heq ▸ hdst)
      have hnes : x ≠ _ := fun heq => hx (heq ▸ hsrc)
      rw [howners, IdMap.get?_insert_of_ne hned, IdMap.get?_erase, if_neg hnes]
      exact ha.outside x hx
  destruct ha hp hm hb := by
    have hr := hf.hasResource_of_script.2.2 _ hm
    refine ⟨ha.legal.snoc hp, hb.supply ▸ ha.supply, hb.registrations.trans ha.registrations,
      fun x hx => ?_, fun x hx => ?_⟩
    · rw [hb.owners, IdMap.get?_erase, Ledger.add, holds_destruct, ← ha.inside x hx]
      split <;> simp [*]
    · have hne : x ≠ _ := fun heq => hx (heq ▸ hr)
      rw [hb.owners, IdMap.get?_erase, if_neg hne]
      exact ha.outside x hx
  request ha hp _ := by
    refine ⟨ha.legal.snoc hp, ha.supply, ha.registrations, fun x hx => ?_, ha.outside⟩
    rw [Ledger.grant, holds_request]
    exact ha.inside x hx
  work ha hp := by
    refine ⟨ha.legal.snoc hp, ha.supply, ha.registrations, fun x hx => ?_, ha.outside⟩
    rw [Ledger.add, holds_work]
    exact ha.inside x hx

/-- Storage can be handed over when that is legal. -/
theorem Follows.serves_move {m : Move} (ha : Follows frame allocate a₀ L a) (hf : plan.Fits frame)
    (hp : Permits frame L.history (.move m)) (hm : .move m ∈ plan.script) :
    a.owners.get? m.dst = none ∧ a.owners.get? m.src ≠ none := by
  obtain ⟨hsrc, hdst⟩ := hf.hasResource_of_script.2.1 _ hm
  constructor
  · by_contra hne
    exact hp.2 ((ha.inside _ hdst).mp hne).1
  · exact (ha.inside _ hsrc).mpr hp.1

/-- So can it be released. -/
theorem Follows.serves_destruct {r : ResourceId} (ha : Follows frame allocate a₀ L a)
    (hf : plan.Fits frame) (hp : Permits frame L.history (.destruct r))
    (hm : .destruct r ∈ plan.script) : a.owners.get? r ≠ none :=
  (ha.inside _ (hf.hasResource_of_script.2.2 _ hm)).mpr hp

/-- Storage that is about to be constructed is free, and registered if the plan's constructs are. -/
theorem Follows.serves_construct {r : ResourceId} (ha : Follows frame allocate a₀ L a)
    (hf : plan.Fits frame) (hregistered : ∀ r ∈ plan.constructs, a₀.registrations.contains r)
    (hp : Permits frame L.history (.construct r)) (hm : .construct r ∈ plan.script) :
    a.owners.get? r = none ∧ a.registrations.get? r ≠ none := by
  constructor
  · by_contra hne
    exact hp ((ha.inside _ (hf.hasResource_of_script.1 _ hm)).mp hne).1
  · rw [ha.registrations, ← Option.isSome_iff_ne_none]
    exact hregistered _ (Plan.mem_constructs_iff.mpr hm)

/-- A pass that is about to begin has what it touches. -/
theorem Follows.serves_request {p : PassId} (ha : Follows frame allocate a₀ L a)
    (hf : plan.Fits frame) (hp : Permits frame L.history (.request p))
    (hm : .request p ∈ plan.script) :
    frame.pass? p ≠ none ∧ ∀ r, frame.Touches p r → a.owners.get? r ≠ none := by
  obtain ⟨pass, hpass⟩ := hf.mem_order_iff_pass?.mp ((hf.legal_script.2.request _).mp hm)
  refine ⟨?_, fun r htouch => ?_⟩
  · rw [hpass]
    simp
  · exact (ha.inside r (hf.wellFormed.hasResource_of_touches htouch)).mpr (hp.2 r htouch)

/-- If what the plan constructs is registered and the allocator never fails, no call is refused. -/
theorem follows_serves (hf : plan.Fits frame)
    (hregistered : ∀ r ∈ plan.constructs, a₀.registrations.contains r)
    (hallocate : NeverFails allocate a₀.supply) :
    Serves frame plan allocate (Follows frame allocate a₀) where
  construct ha hp hm := by
    obtain ⟨hs, hissues⟩ := ha.supply
    obtain ⟨hfree, hreg⟩ := ha.serves_construct hf hregistered hp hm
    exact ⟨hfree, hreg, fun key => hallocate hs _ key hissues⟩
  move ha hp hm := ha.serves_move hf hp hm
  destruct ha hp hm := ha.serves_destruct hf hp hm
  request ha hp hm := ha.serves_request hf hp hm

/-! ### Grants -/

/-- A pass got the handles of its resources, and they are theirs as long as they have storage. -/
def Granted (frame : Frame) (L : Ledger η) (a : Account κ η ς τ) : Prop :=
  ∀ p handles, (p, handles) ∈ L.grants → (∀ r, handles.get? r ≠ none ↔ frame.Touches p r) ∧
    ∀ r h, handles.get? r = some h → ¬ Gone L.history r →
      ∃ origin, a.owners.get? r = some (h, origin)

theorem Granted.empty : Granted frame Ledger.empty a :=
  fun _ _ hmem => absurd hmem List.not_mem_nil

/-- Some more actions keep the grants if they keep the owners of what does not give up its
storage. -/
theorem Granted.add {block : List Action} (ha : Granted frame L a)
    (howners : ∀ r owner, ¬ Gone block r → a.owners.get? r = some owner →
      b.owners.get? r = some owner) : Granted frame (L.add block) b := by
  intro p handles hmem
  obtain ⟨hkeys, hcurrent⟩ := ha p handles hmem
  refine ⟨hkeys, fun r h hget hnot => ?_⟩
  rw [Ledger.add, gone_append, not_or] at hnot
  obtain ⟨origin, horigin⟩ := hcurrent r h hget hnot.1
  exact ⟨origin, howners r _ hnot.2 horigin⟩

theorem granted_kept :
    Kept frame plan allocate fun (L : Ledger η) (a : Account κ η ς τ) => Granted frame L a where
  construct ha _ _ hfree hb := ha.add fun _ _ _ hx => hb.stays hfree hx
  move ha _ _ hfree hb := ha.add fun _ _ hnot hx => hb.stays hfree hnot hx
  destruct ha _ _ hb := ha.add fun _ _ hnot hx => hb.stays hnot hx
  request := by
    intro L a p handles ha hp hg q handles' hmem
    have hgone : ∀ r, Gone (L.history ++ [.request p]) r ↔ Gone L.history r := by
      intro r
      rw [gone_append]
      simp [Gone]
    simp only [Ledger.grant, hgone]
    rcases List.mem_append.mp hmem with hmem | hmem
    · exact ha q handles' hmem
    · cases List.mem_singleton.mp hmem
      refine ⟨fun r => ⟨fun hsome => ?_, fun htouch => ?_⟩, fun r h hget _ => ?_⟩
      · by_contra hnot
        exact hsome ((hg r).2 hnot)
      · obtain ⟨h, origin, _, hget⟩ := (hg r).1 htouch
        rw [hget]
        simp
      · by_cases htouch : frame.Touches p r
        · obtain ⟨h', origin, howner, hget'⟩ := (hg r).1 htouch
          rw [hget] at hget'
          cases hget'
          exact ⟨origin, howner⟩
        · rw [(hg r).2 htouch] at hget
          cases hget
  work := by
    intro L a p ha _
    apply ha.add
    exact fun _ _ _ hx => hx

end Account

end FramePlan
