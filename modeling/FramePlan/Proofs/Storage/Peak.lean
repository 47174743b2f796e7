import FramePlan.Proofs.Storage.Demand
import FramePlan.Proofs.Storage.Instances
import Mathlib.Data.List.Induction
import Mathlib.Order.Bounds.Basic

/-!
# Storage makes no more than it needs

An instance is made only if none waits under its key. So as long as nothing is taken out of the
pool, the allocator has made as many instances under a key as were ever bound under it at a time,
and those of them that are not bound wait in the pool.

* `Storage.construct_makes`, `Session.perform_makes` — what is made is made because nothing waits.
* `Session.Accounted.balance` — what was made under a key is bound or waits.
* `Session.made_isGreatest` — the allocator made as many instances as were ever bound at a time.
-/

namespace FramePlan

variable {κ η ς τ : Type}

namespace Metered

variable [DecidableEq κ]

/-- How many calls with the key made a handle. -/
def madeUnder (m : Metered κ η τ) (key : κ) : Nat :=
  m.calls.countP fun call => call.1 = key ∧ call.2.isSome

theorem madeUnder_eq {m : Metered κ η τ} {key : κ} :
    m.madeUnder key = m.made.countP fun e => e.1 = key := by
  have hcall : ∀ call : κ × Option η, ((call.2.map fun h => (call.1, h)).map fun e =>
      decide (e.1 = key)).getD false = decide (call.1 = key ∧ call.2.isSome) := by
    rintro ⟨_, _ | h⟩ <;> simp
  simp only [madeUnder, made, List.countP_filterMap, hcall]

end Metered

/-! ### What is made -/

namespace Storage

variable [DecidableEq κ] {allocate : κ → EStateM StorageError τ η} {frame : Frame} {r : ResourceId}
  {s : Storage κ η ς (Metered κ η τ)}

/-- Nothing is made, or one instance is, and none waits under its key. -/
def Makes (s t : Storage κ η ς (Metered κ η τ)) : Prop :=
  t.supply.made = s.supply.made ∨
    ∃ key h, t.supply.made = s.supply.made ++ [(key, h)] ∧ t.pool.available key = 0

theorem Makes.madeUnder {t : Storage κ η ς (Metered κ η τ)} (h : Makes s t) (key : κ) :
    t.supply.madeUnder key = s.supply.madeUnder key ∨
      s.supply.madeUnder key < t.supply.madeUnder key ∧ t.pool.available key = 0 := by
  simp only [Metered.madeUnder_eq]
  rcases h with hsame | ⟨other, handle, hmade, hnone⟩
  · exact Or.inl (by rw [hsame])
  · rw [hmade, List.countP_append]
    by_cases hkey : other = key
    · subst hkey
      exact Or.inr ⟨by simp, hnone⟩
    · exact Or.inl (by simp [hkey])

/-- **A construct makes an instance only if none waits under the key.** -/
theorem construct_makes : Ends (construct (Metered.meter allocate) frame r) s
    (fun _ t => Makes s t) fun _ t => Makes s t := by
  apply ((ends_construct.and instances_construct).and refused_construct).mono
  · rintro _ t ⟨⟨⟨_, hconstructs⟩, hconstructed⟩, _⟩
    generalize ht : t.account = b at hconstructs
    cases hconstructs with
    | imported => exact Or.inl (congrArg (fun b => b.supply.made) ht)
    | reused => exact Or.inl (congrArg (fun b => b.supply.made) ht)
    | @allocated key handle supply hreg hallocate =>
        have hsupply : t.supply = supply := congrArg Account.supply ht
        have hpool : t.pool = s.pool := congrArg Account.pool ht
        have hnone : t.pool.available key = 0 := by
          obtain ⟨binding, hacquires, _⟩ := hconstructed.bound
          cases hacquires with
          | imported hreg' => cases hreg'.symm.trans hreg
          | reused hreg' hacquire =>
              -- One instance less would wait, but the pool is as it was.
              cases hreg'.symm.trans hreg
              have hless := FreeLists.available_of_acquire? hacquire key
              rw [hpool, if_pos rfl] at hless
              exact absurd hless (Nat.ne_of_lt (Nat.lt_succ_self _))
          | made hreg' hnone =>
              cases hreg'.symm.trans hreg
              rw [hpool]
              exact FreeLists.acquire?_eq_none_iff_available.mp hnone
        exact Or.inr ⟨key, handle, hsupply ▸ Metered.made_of_ok hallocate, hnone⟩
  · rintro _ _ ⟨_, rfl | ⟨key, supply, hfail, rfl⟩⟩
    · exact Or.inl rfl
    · exact Or.inl (Metered.made_of_error hfail)

end Storage

namespace Session

open Account

/-- How many bound instances are released under the key in the end. -/
def boundUnder [DecidableEq κ] (s : Session κ η ς τ) (key : κ) : Nat :=
  s.storage.bound.entries.countP fun e => e.2.origin.key? = some key

variable [DecidableEq κ] [DecidableEq ς] {allocate : κ → EStateM StorageError τ η}
  {s : Session κ η ς (Metered κ η τ)} {call : StorageCall κ η ς} {calls : List (StorageCall κ η ς)}
  {key : κ}

/-! ### One call -/

/-- No call but a construct asks the allocator. -/
theorem perform_makes (s : Session κ η ς (Metered κ η τ)) (allocate : κ → EStateM StorageError τ η)
    (call : StorageCall κ η ς) :
    Storage.Makes s.storage (s.perform (Metered.meter allocate) call).storage := by
  obtain ⟨_, hperforms, _⟩ := s.performs (Metered.meter allocate) call
  generalize ht : (s.perform (Metered.meter allocate) call).storage.account = b at hperforms
  have hsame : b.supply.made = s.storage.supply.made →
      Storage.Makes s.storage (s.perform (Metered.meter allocate) call).storage :=
    fun h => Or.inl ((congrArg (fun b => b.supply.made) ht).trans h)
  cases hperforms with
  | nothing => exact hsame rfl
  | imported => exact hsame rfl
  | temporal => exact hsame rfl
  | emptied => exact hsame rfl
  | failed hfail => exact hsame (Metered.made_of_error hfail)
  | destructed hb => exact hsame (congrArg Metered.made hb.stock.2.1)
  | moved hfree hb => exact hsame (congrArg Metered.made (hb.stock hfree).2.1)
  | @constructed _ frame r =>
      have hends : Ends (Storage.construct (Metered.meter allocate) frame r) s.storage
          (fun _ t => Storage.Makes s.storage t) fun _ t => Storage.Makes s.storage t :=
        Storage.construct_makes
      obtain ⟨t, heq, hmakes⟩ := act_ends hends
      have hstorage : (s.perform (Metered.meter allocate) (.construct frame r)).storage = t :=
        congrArg Session.storage heq
      rw [hstorage]
      exact hmakes

theorem returned_perform (hcall : call ≠ .releasePool) :
    (s.perform (Metered.meter allocate) call).returned = s.returned := by
  have hacts : ∀ {α : Type} (act : EStateM StorageError (Storage κ η ς (Metered κ η τ)) α),
      (s.act act).returned = s.returned := by
    intro α act
    unfold Session.act
    split <;> rfl
  cases call with
  | construct frame r => exact hacts _
  | destruct frame r => exact hacts _
  | move frame m => exact hacts _
  | request frame p => exact hacts _
  | releasePool => exact absurd rfl hcall
  | _ => rfl

theorem returned_performAll (hkeep : .releasePool ∉ calls) :
    (s.performAll (Metered.meter allocate) calls).returned = s.returned := by
  induction calls generalizing s with
  | nil => rfl
  | cons call calls ih =>
      rw [List.mem_cons, not_or] at hkeep
      exact (ih hkeep.2).trans (returned_perform (Ne.symm hkeep.1))

omit [DecidableEq ς] in
/-- **What was made under a key is bound or waits**, if nothing was taken out of the pool. -/
theorem Accounted.balance {s : Session κ η ς (Metered κ η τ)} (h : s.Accounted)
    (hreturned : s.returned = []) :
    s.storage.pool.available key + s.boundUnder key = s.storage.supply.madeUnder key := by
  have hholdings : s.storage.account.holdings key = s.storage.supply.madeUnder key := by
    rw [Metered.madeUnder_eq, ← h.stock.countP_eq, hreturned, List.append_nil]
    rfl
  have hbound : lent s.storage.account.origins key = s.boundUnder key := by
    simp only [lent, origins, Storage.account, IdMap.map, List.countP_map, boundUnder]
    rfl
  rw [← hholdings, holdings_eq, hbound, Nat.add_comm]
  rfl

/-! ### Any calls -/

/-- How many instances were bound under the key after each of the calls, and before the first. -/
def boundCounts (allocate : κ → EStateM StorageError τ η) (s : Session κ η ς (Metered κ η τ))
    (calls : List (StorageCall κ η ς)) (key : κ) : Set Nat :=
  {n | ∃ before, before <+: calls ∧
    (s.performAll (Metered.meter allocate) before).boundUnder key = n}

theorem performAll_snoc : s.performAll (Metered.meter allocate) (calls ++ [call]) =
    (s.performAll (Metered.meter allocate) calls).perform (Metered.meter allocate) call :=
  List.foldl_append

theorem boundCounts_snoc {n : Nat} : n ∈ boundCounts allocate s (calls ++ [call]) key ↔
    n ∈ boundCounts allocate s calls key ∨
      (s.performAll (Metered.meter allocate) (calls ++ [call])).boundUnder key = n := by
  constructor
  · rintro ⟨before, hbefore, hn⟩
    rcases List.prefix_concat_iff.mp hbefore with rfl | hold
    · exact Or.inr hn
    · exact Or.inl ⟨before, hold, hn⟩
  · rintro (⟨before, hbefore, hn⟩ | hn)
    · exact ⟨before, hbefore.trans (List.prefix_append _ _), hn⟩
    · exact ⟨_, List.prefix_rfl, hn⟩

/-- One more call keeps the peak, or all that was made is bound after it. -/
theorem isGreatest_snoc (h : IsGreatest (boundCounts allocate s calls key)
      ((s.performAll (Metered.meter allocate) calls).storage.supply.madeUnder key))
    (hbalance : let now := s.performAll (Metered.meter allocate) (calls ++ [call])
      now.storage.pool.available key + now.boundUnder key = now.storage.supply.madeUnder key) :
    IsGreatest (boundCounts allocate s (calls ++ [call]) key)
      ((s.performAll (Metered.meter allocate) (calls ++ [call])).storage.supply.madeUnder key) := by
  have hmakes := (perform_makes (s.performAll (Metered.meter allocate) calls) allocate
    call).madeUnder key
  rw [← performAll_snoc] at hmakes
  constructor
  · rcases hmakes with hsame | ⟨_, hnone⟩
    · rw [hsame]
      exact boundCounts_snoc.mpr (Or.inl h.1)
    · have hbound := hbalance
      simp only [hnone, Nat.zero_add] at hbound
      exact boundCounts_snoc.mpr (Or.inr hbound)
  · intro n hn
    rcases boundCounts_snoc.mp hn with hold | rfl
    · have hbefore := h.2 hold
      rcases hmakes with hsame | ⟨hmore, _⟩
      · exact hsame.symm ▸ hbefore
      · exact Nat.le_trans hbefore (Nat.le_of_lt hmore)
    · rw [← hbalance]
      exact Nat.le_add_left _ _

/-- **The allocator makes no more than is needed.** Let nothing be taken out of the pool in the
course of any calls. Then the allocator made as many instances under each key as were ever bound
under it at a time, and those that are not bound wait in the pool. As the calls are any, this is so
at each moment of a longer sequence. -/
theorem made_isGreatest (allocate : κ → EStateM StorageError τ η) (supply : τ)
    (calls : List (StorageCall κ η ς)) (hkeep : .releasePool ∉ calls) (key : κ) :
    let first : Session κ η ς (Metered κ η τ) := .start (.start supply)
    let s := first.performAll (Metered.meter allocate) calls
    IsGreatest (boundCounts allocate first calls key) (s.storage.supply.madeUnder key) ∧
      s.storage.pool.available key = s.storage.supply.madeUnder key - s.boundUnder key := by
  intro first s
  have hbalance : ∀ {calls : List (StorageCall κ η ς)}, .releasePool ∉ calls →
      let now := first.performAll (Metered.meter allocate) calls
      now.storage.pool.available key + now.boundUnder key = now.storage.supply.madeUnder key :=
    fun h => ((Accounted.start supply).performAll _).balance (returned_performAll h)
  constructor
  · induction calls using List.reverseRecOn with
    | nil =>
        constructor
        · exact ⟨[], List.prefix_rfl, rfl⟩
        · rintro n ⟨before, hbefore, rfl⟩
          cases List.prefix_nil.mp hbefore
          exact Nat.le_refl _
    | append_singleton calls call ih =>
        have hpeak := ih fun hmem => hkeep (List.mem_append_left _ hmem)
        exact isGreatest_snoc hpeak (hbalance hkeep)
  · exact Nat.eq_sub_of_add_eq (hbalance hkeep)

/-- Two resources have an instance at a time, and a third takes over what the first gives up. -/
def turns : List (StorageCall String Int String) :=
  [.registerTemporal ⟨0⟩ "colour", .registerTemporal ⟨1⟩ "colour", .registerTemporal ⟨2⟩ "colour",
    .construct .relay ⟨0⟩, .construct .relay ⟨1⟩, .destruct .relay ⟨0⟩, .construct .relay ⟨2⟩,
    .destruct .relay ⟨1⟩]

/-- Three constructs need two instances, and one of them waits in the end. -/
theorem made_isGreatest_turns : .releasePool ∉ turns ∧
    IsGreatest (boundCounts Supply.allocate (.start (.start ⟨[], none, 0⟩)) turns "colour") 2 ∧
    ((Session.start (Metered.start ⟨[], none, 0⟩)).performAll (Metered.meter Supply.allocate)
      turns).storage.pool.available "colour" = 1 := by
  have hkeep : .releasePool ∉ turns := by decide
  have hmade : ((Session.start (Metered.start ⟨[], none, 0⟩)).performAll
      (Metered.meter Supply.allocate) turns).storage.supply.madeUnder "colour" = 2 := by
    decide +kernel
  have hpeak := (made_isGreatest Supply.allocate ⟨[], none, 0⟩ turns hkeep "colour").1
  rw [hmade] at hpeak
  exact ⟨hkeep, hpeak, by decide +kernel⟩

end Session

end FramePlan
