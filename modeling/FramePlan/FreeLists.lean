/-!
# Free lists

Released values wait under a key to be used again. A value is only handed out under the key it was
released under, and the value that was released last is handed out first.

* `FreeLists.stack_release`, `FreeLists.stack_of_acquire?` — each key has a stack of its own, which
  a release pushes on and an acquisition pops.
* `FreeLists.acquire?_eq_none_iff` — nothing is acquired only if the stack is empty.
* `FreeLists.entries_of_acquire?` — what is acquired is the only value that goes.
* `FreeLists.available_release`, `FreeLists.available_of_acquire?` — what each does to the counts.
-/

namespace FramePlan

variable {κ α : Type}

/-- Released values, the last released first. -/
structure FreeLists (κ α : Type) where
  /-- Each value with the key that it waits under. -/
  entries : List (κ × α)
deriving DecidableEq

/-- A value and where it came from. -/
inductive Acquired (α : Type) where
  /-- The value had been released before. -/
  | reused (value : α)
  /-- No value was waiting, so a new one was made. -/
  | created (value : α)
deriving DecidableEq

namespace Acquired

/-- The value. -/
def value : Acquired α → α
  | reused a => a
  | created a => a

/-- Whether the value had been released before. -/
def isReused : Acquired α → Bool
  | reused _ => true
  | created _ => false

end Acquired

namespace FreeLists

/-- No value waits. -/
def empty : FreeLists κ α := ⟨[]⟩

instance : EmptyCollection (FreeLists κ α) := ⟨empty⟩

/-- One more value waits under a key. -/
def release (lists : FreeLists κ α) (key : κ) (a : α) : FreeLists κ α :=
  ⟨(key, a) :: lists.entries⟩

/-- How many values wait. -/
def size (lists : FreeLists κ α) : Nat := lists.entries.length

/-- Whether no value waits. -/
def isEmpty (lists : FreeLists κ α) : Bool := lists.entries.isEmpty

/-- Takes every value out, together with its key. -/
def drain (lists : FreeLists κ α) : List (κ × α) × FreeLists κ α := (lists.entries, ∅)

section Keys

variable [DecidableEq κ]

/-- The values that wait under a key, the last released first. -/
def stack (lists : FreeLists κ α) (key : κ) : List α :=
  (lists.entries.filter fun e => e.1 = key).map (·.2)

/-- How many values wait under a key. -/
def available (lists : FreeLists κ α) (key : κ) : Nat := lists.entries.countP fun e => e.1 = key

/-- Takes the value that was released last under a key. -/
def acquire? (lists : FreeLists κ α) (key : κ) : Option (α × FreeLists κ α) :=
  (lists.entries.find? fun e => e.1 = key).map fun e =>
    (e.2, ⟨lists.entries.eraseP fun e => e.1 = key⟩)

/-- Takes the value that was released last under a key, or makes one if none waits. -/
def acquireOrCreate {m : Type → Type} [Monad m] (lists : FreeLists κ α) (key : κ)
    (create : κ → m α) : m (Acquired α × FreeLists κ α) :=
  match lists.acquire? key with
  | some (a, rest) => pure (.reused a, rest)
  | none => do return (.created (← create key), lists)

theorem stack_release (lists : FreeLists κ α) (key other : κ) (a : α) :
    (lists.release key a).stack other =
      if other = key then a :: lists.stack other else lists.stack other := by
  unfold stack release
  by_cases h : other = key
  · simp [h]
  · simp [h, Ne.symm h]

theorem acquire?_eq_none_iff {lists : FreeLists κ α} {key : κ} :
    lists.acquire? key = none ↔ lists.stack key = [] := by
  simp [acquire?, stack]

theorem stack_of_acquire? {lists rest : FreeLists κ α} {key : κ} {a : α}
    (h : lists.acquire? key = some (a, rest)) :
    lists.stack key = a :: rest.stack key ∧
      ∀ other, other ≠ key → rest.stack other = lists.stack other := by
  obtain ⟨entries⟩ := lists
  induction entries generalizing rest with
  | nil => simp [acquire?] at h
  | cons e es ih =>
    obtain ⟨k, b⟩ := e
    by_cases hk : k = key
    · subst hk
      simp only [acquire?, List.find?_cons_of_pos, decide_true, List.eraseP_cons_of_pos,
        Option.map_some, Option.some.injEq, Prod.mk.injEq] at h
      obtain ⟨rfl, rfl⟩ := h
      exact ⟨by simp [stack], fun other ho => by simp [stack, Ne.symm ho]⟩
    · have hes : (⟨es⟩ : FreeLists κ α).acquire? key = some (a, ⟨rest.entries.tail⟩) ∧
          rest.entries = (k, b) :: rest.entries.tail := by
        simp only [acquire?, List.find?_cons, hk, decide_false, List.eraseP_cons, cond_false,
          Option.map_eq_some_iff, Prod.mk.injEq] at h ⊢
        obtain ⟨x, hx, hxa, hrest⟩ := h
        subst hrest
        exact ⟨⟨x, hx, hxa, rfl⟩, rfl⟩
      obtain ⟨hstack, hother⟩ := ih hes.1
      obtain ⟨restEntries⟩ := rest
      obtain ⟨_, hrest⟩ := hes
      simp only at hrest hstack hother
      rw [hrest]
      constructor
      · simpa [stack, hk] using hstack
      · intro other ho
        have := hother other ho
        by_cases hko : k = other
        · subst hko; simpa [stack] using this
        · simpa [stack, hko] using this

theorem entries_of_acquire? {lists rest : FreeLists κ α} {key : κ} {a : α}
    (h : lists.acquire? key = some (a, rest)) :
    ∃ before after, lists.entries = before ++ (key, a) :: after ∧ rest = ⟨before ++ after⟩ := by
  unfold acquire? at h
  obtain ⟨⟨key', b⟩, hfind, heq⟩ := Option.map_eq_some_iff.1 h
  cases heq
  obtain ⟨hkey, before, after, hentries, hbefore⟩ := List.find?_eq_some_iff_append.1 hfind
  have hkey' : key' = key := by simpa using hkey
  subst hkey'
  refine ⟨before, after, hentries, ?_⟩
  rw [hentries, List.eraseP_append_right _ (by simpa using hbefore)]
  simp

theorem available_release (lists : FreeLists κ α) (key other : κ) (a : α) :
    (lists.release key a).available other =
      lists.available other + if other = key then 1 else 0 := by
  simp [available, release, List.countP_cons, eq_comm]

theorem acquire?_eq_none_iff_available {lists : FreeLists κ α} {key : κ} :
    lists.acquire? key = none ↔ lists.available key = 0 := by
  simp [acquire?, available]

theorem available_of_acquire? {lists rest : FreeLists κ α} {key : κ} {a : α}
    (h : lists.acquire? key = some (a, rest)) (other : κ) :
    lists.available other = rest.available other + if other = key then 1 else 0 := by
  obtain ⟨before, after, hentries, rfl⟩ := entries_of_acquire? h
  simp only [available, hentries, List.countP_append, List.countP_cons, decide_eq_true_eq,
    eq_comm (a := key)]
  omega

end Keys

end FreeLists

end FramePlan
