import FramePlan.Proofs.Storage.Custody

/-!
# What a run demands of storage

Which instances are lent at a point of a run, and under which keys they come back, is told by the
actions so far. Storage never has fewer instances under a key than it ever lent at a time, and if
it has as many from the start it does not need the allocator.

* `Account.originsAfter` — the actions of a run tell what becomes of the bound instances.
* `Account.tracks_kept` — what storage has under a key covers all that it lent so far.
* `Account.Covers.available_ne_zero` — what has been enough once is enough again.
-/

namespace FramePlan

open History

variable {κ η ς τ : Type}

/-- What becomes in the end of an instance that a resource is bound to by its registration. -/
def Registration.origin : Registration κ η ς → Origin κ ς
  | .imported _ external => .imported external
  | .temporal key => .temporal key

namespace Account

/-- What becomes of the instance of each bound resource in the end. -/
def origins (a : Account κ η ς τ) : IdMap .resource (Origin κ ς) :=
  a.owners.map fun _ owner => owner.2

/-- What an action of a run does to the origins of bound resources. -/
def advance (registrations : IdMap .resource (Registration κ η ς))
    (origins : IdMap .resource (Origin κ ς)) : Action → IdMap .resource (Origin κ ς)
  | .construct r =>
    match registrations.get? r with
    | some registration => origins.insert r registration.origin
    | none => origins
  | .move m =>
    match origins.get? m.src with
    | some origin => (origins.erase m.src).insert m.dst origin
    | none => origins
  | .destruct r => origins.erase r
  | .request _ => origins
  | .work _ => origins

/-- The origins of bound resources after some actions of a run. -/
def originsAfter (a : Account κ η ς τ) (h : List Action) : IdMap .resource (Origin κ ς) :=
  h.foldl (advance a.registrations) a.origins

variable {frame : Frame} {plan : Plan} {allocate : κ → EStateM StorageError τ η}
  {L L' : Ledger η} {a₀ a b : Account κ η ς τ} {r : ResourceId}

theorem originsAfter_snoc {h : List Action} {action : Action} :
    a.originsAfter (h ++ [action]) = advance a.registrations (a.originsAfter h) action :=
  List.foldl_append

theorem originsAfter_congr (hregistrations : b.registrations = a.registrations)
    (howners : b.owners = a.owners) {h : List Action} :
    b.originsAfter h = a.originsAfter h := by
  unfold originsAfter origins
  rw [hregistrations, howners]

theorem origins_get? : a.origins.get? r = (a.owners.get? r).map (·.2) := IdMap.get?_map

/-! ### Origins and calls -/

theorem Constructs.origins (hb : Constructs allocate r a b) :
    b.origins = advance a.registrations a.origins (.construct r) := by
  cases hb with
  | imported hreg =>
      simp only [advance, hreg]
      exact IdMap.map_insert _
  | reused hreg =>
      simp only [advance, hreg]
      exact IdMap.map_insert _
  | allocated hreg =>
      simp only [advance, hreg]
      exact IdMap.map_insert _

theorem Moves.origins {m : Move} (hb : Moves m a b) :
    b.origins = advance a.registrations a.origins (.move m) := by
  cases hb with
  | @moved owner howner =>
      have hsrc : a.origins.get? m.src = some owner.2 := by rw [origins_get?, howner]; rfl
      simp only [advance, hsrc]
      rw [Account.origins, IdMap.map_insert, IdMap.map_erase]
      rfl

theorem Destructs.origins (hb : Destructs r a b) :
    b.origins = advance a.registrations a.origins (.destruct r) := by
  rw [Account.origins, hb.owners]
  exact IdMap.map_erase _

variable [DecidableEq κ] {key : κ}

/-! ### Holdings -/

/-- How many of the instances are released under the key in the end. -/
def lent (origins : IdMap .resource (Origin κ ς)) (key : κ) : Nat :=
  origins.entries.countP fun e => e.2.key? = some key

/-- How many instances storage has under the key, bound or not. -/
def holdings (a : Account κ η ς τ) (key : κ) : Nat := a.stock.countP fun e => e.1 = key

/-- What is lent to a resource comes on top of what was lent before. -/
theorem lent_insert {origins : IdMap .resource (Origin κ ς)} {origin : Origin κ ς}
    (hfree : origins.get? r = none) (hkey : origin.key? = some key) :
    lent (origins.insert r origin) key = lent origins key + 1 := by
  unfold lent
  rw [(IdMap.entries_insert hfree).countP_eq, List.countP_cons, if_pos (by simpa using hkey)]

theorem holdings_eq : a.holdings key = lent a.origins key + a.pool.available key := by
  have hloan : ∀ e : ResourceId × η × Origin κ ς,
      ((loan? e.2).map fun l => decide (l.1 = key)).getD false = decide (e.2.2.key? = some key) := by
    rintro ⟨_, _, _ | _⟩ <;> simp [loan?, Origin.key?]
  have hloans : (loans a.owners).countP (fun e => decide (e.1 = key)) = lent a.origins key := by
    simp only [loans, lent, origins, IdMap.map, List.countP_filterMap, List.countP_map]
    exact congrArg (a.owners.entries.countP ·) (funext hloan)
  rw [holdings, stock, List.countP_append, hloans, waiting, List.countP_map]
  rfl

theorem lent_le_holdings : lent a.origins key ≤ a.holdings key := by
  rw [holdings_eq]
  exact Nat.le_add_right _ _

theorem holdings_of_stock (h : b.stock.Perm a.stock) : b.holdings key = a.holdings key :=
  h.countP_eq _

/-- A construct does not take away from what storage has. -/
theorem Constructs.holdings_le (hb : Constructs allocate r a b) (hfree : a.owners.get? r = none) :
    a.holdings key ≤ b.holdings key := by
  rcases hb.stock hfree with ⟨hstock, _, _⟩ | ⟨_, _, hstock, _, _⟩
  · exact Nat.le_of_eq (holdings_of_stock hstock).symm
  · unfold holdings
    rw [hstock.countP_eq, List.countP_cons]
    exact Nat.le_add_right _ _

/-! ### Histories and holdings -/

/-- What storage has covers all that is lent at any point of the actions, begun with an account. -/
def Covers (a₀ : Account κ η ς τ) (h : List Action) (a : Account κ η ς τ) : Prop :=
  ∀ before, before <+: h → ∀ key, lent (a₀.originsAfter before) key ≤ a.holdings key

/-- The account of a run follows its history, and covers all that was lent in the course of it. -/
structure Tracks (a₀ : Account κ η ς τ) (L : Ledger η) (a : Account κ η ς τ) : Prop where
  registrations : a.registrations = a₀.registrations
  origins : a.origins = a₀.originsAfter L.history
  covers : Covers a₀ L.history a

theorem Tracks.empty : Tracks a Ledger.empty a where
  registrations := rfl
  origins := rfl
  covers := by
    intro before hbefore key
    rw [List.prefix_nil.mp hbefore]
    exact lent_le_holdings

/-- One more action that takes nothing away. -/
theorem Tracks.snoc {action : Action} (h : Tracks a₀ L a)
    (hL : L'.history = L.history ++ [action]) (hregistrations : b.registrations = a.registrations)
    (horigins : b.origins = advance a.registrations a.origins action)
    (hholdings : ∀ key, a.holdings key ≤ b.holdings key) : Tracks a₀ L' b where
  registrations := hregistrations.trans h.registrations
  origins := by rw [horigins, h.registrations, h.origins, hL, originsAfter_snoc]
  covers := by
    intro before hbefore key
    rw [hL] at hbefore
    rcases List.prefix_concat_iff.mp hbefore with rfl | hold
    · rw [originsAfter_snoc, ← h.origins, ← h.registrations, ← horigins]
      exact lent_le_holdings
    · exact Nat.le_trans (h.covers before hold key) (hholdings key)

/-- **What storage has under a key covers all that it lent so far.** -/
theorem tracks_kept : Kept frame plan allocate (Tracks a₀) where
  construct ha _ _ hfree hb :=
    ha.snoc rfl hb.registrations hb.origins fun _ => hb.holdings_le hfree
  move ha _ _ hfree hb := ha.snoc rfl hb.registrations hb.origins fun _ =>
    Nat.le_of_eq (holdings_of_stock (hb.stock hfree).1).symm
  destruct ha _ _ hb := ha.snoc rfl hb.registrations hb.origins fun _ =>
    Nat.le_of_eq (holdings_of_stock hb.stock.1).symm
  request ha _ _ := ha.snoc rfl rfl rfl fun _ => Nat.le_refl _
  work ha _ := ha.snoc rfl rfl rfl fun _ => Nat.le_refl _

/-- **What is enough for a whole run leaves something under each key** that the next construct
needs, as long as storage still has what it had. -/
theorem Covers.available_ne_zero {before after : List Action} {registration : Registration κ η ς}
    (h : Covers a₀ (before ++ .construct r :: after) a₀) (hL : L.history = before)
    (ha : Tracks a₀ L a) (hholdings : a.holdings key = a₀.holdings key)
    (hfree : a.owners.get? r = none) (hreg : a.registrations.get? r = some registration)
    (hkey : registration.origin.key? = some key) : a.pool.available key ≠ 0 := by
  subst hL
  have hcover := h (L.history ++ [.construct r]) ⟨after, by simp⟩ key
  have hfree' : a.origins.get? r = none := by rw [origins_get?, hfree]; rfl
  rw [originsAfter_snoc, ← ha.origins, ← ha.registrations, advance] at hcover
  simp only [hreg] at hcover
  rw [lent_insert hfree' hkey, ← hholdings, holdings_eq] at hcover
  omega

end Account

end FramePlan
