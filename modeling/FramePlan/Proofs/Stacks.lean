import FramePlan.Proofs.Shelves

/-!
# Keepers refine stacks

Whoever releases and takes values only notices one stack for each key: what is taken is the value
that was released last of those that were not taken or drained since. A value is made only if the
stack is empty, and if that fails nothing is lost.

* `Movement.stacksAfter` — the stacks that are left after some movements of values.
* `Keeper.Keeps` — what is kept is what some movements leave.
* `Keeper.Lawful.keeps_perform`, `Keeper.Lawful.keeps_performAll` — one call, and then all of them.
* `FreeLists.refines_stacks` — what is noticed after any calls, and of the next one.
-/

namespace FramePlan

variable {κ α ε ω σ : Type}

/-! ### Values that come and go -/

/-- What a call does to the values that are kept. -/
inductive Movement (κ α : Type) where
  | put (key : κ) (a : α)
  | take (key : κ) (a : α)
  | clear (values : List (κ × α))
deriving DecidableEq

/-- The movement of a call, as its reply has it. -/
def KeeperCall.movement? : KeeperCall κ α ε ω × KeeperReply κ α ε → Option (Movement κ α)
  | (.release key a, _) => some (.put key a)
  | (.acquire key, .acquired (some a)) => some (.take key a)
  | (.acquireOrCreate key _, .served (.reused a)) => some (.take key a)
  | (.drain, .drained values) => some (.clear values)
  | _ => none

/-- The movements of calls that were made one after another. -/
def movements (calls : List (KeeperCall κ α ε ω)) (replies : List (KeeperReply κ α ε)) :
    List (Movement κ α) :=
  (calls.zip replies).filterMap KeeperCall.movement?

theorem movements_cons {call : KeeperCall κ α ε ω} {calls : List (KeeperCall κ α ε ω)}
    {reply : KeeperReply κ α ε} {replies : List (KeeperReply κ α ε)} :
    movements (call :: calls) (reply :: replies) =
      (KeeperCall.movement? (call, reply)).toList ++ movements calls replies := by
  rw [movements, List.zip_cons_cons, List.filterMap_cons]
  cases KeeperCall.movement? (call, reply) <;> rfl

namespace Movement

/-- How many values were put under some keys. -/
def countPut (among : κ → Bool) (moved : List (Movement κ α)) : Nat :=
  moved.countP fun
    | put key _ => among key
    | _ => false

/-- How many values were taken from under some keys. -/
def countTaken (among : κ → Bool) (moved : List (Movement κ α)) : Nat :=
  moved.countP fun
    | take key _ => among key
    | _ => false

/-- The values that were cleared, each with its key. -/
def cleared : Movement κ α → List (κ × α)
  | clear values => values
  | _ => []

/-- How many values were under some keys when all were cleared. -/
def countCleared (among : κ → Bool) (moved : List (Movement κ α)) : Nat :=
  (moved.flatMap cleared).countP fun e => among e.1

variable [DecidableEq κ]

/-- The stacks after one more movement. -/
def apply (stack : κ → List α) : Movement κ α → κ → List α
  | put key a => Function.update stack key (a :: stack key)
  | take key _ => Function.update stack key (stack key).tail
  | clear _ => fun _ => []

/-- The stack of each key after some movements: what was put there and not taken or cleared, the
value that was put last on top. -/
def stacksAfter (moved : List (Movement κ α)) : κ → List α := moved.foldl apply fun _ => []

end Movement

/-! ### One movement more -/

namespace Movement

variable {moved : List (Movement κ α)} {m : Movement κ α} {among : κ → Bool}

theorem countPut_concat : countPut among (moved ++ [m]) = countPut among moved +
    match m with
    | put key _ => if among key then 1 else 0
    | _ => 0 := by
  rw [countPut, List.countP_append]
  cases m <;> simp [countPut, List.countP_cons]

theorem countTaken_concat : countTaken among (moved ++ [m]) = countTaken among moved +
    match m with
    | take key _ => if among key then 1 else 0
    | _ => 0 := by
  rw [countTaken, List.countP_append]
  cases m <;> simp [countTaken, List.countP_cons]

theorem countCleared_concat : countCleared among (moved ++ [m]) = countCleared among moved +
    match m with
    | clear values => values.countP fun e => among e.1
    | _ => 0 := by
  rw [countCleared, List.flatMap_append, List.countP_append, List.flatMap_singleton, countCleared]
  cases m <;> rfl

theorem stacksAfter_concat [DecidableEq κ] :
    stacksAfter (moved ++ [m]) = m.apply (stacksAfter moved) :=
  List.foldl_concat ..

end Movement

namespace Keeper

open Movement (stacksAfter countPut countTaken countCleared)

variable [DecidableEq κ] {keeper : Keeper σ κ α} {stack : σ → κ → List α} {s s' : σ} {key : κ}
  {a : α} {rest : List α} {moved : List (Movement κ α)}

/-- What is kept is what some movements leave, and nothing went astray. -/
structure Keeps (keeper : Keeper σ κ α) (stack : σ → κ → List α) (moved : List (Movement κ α))
    (s : σ) : Prop where
  stack_eq : stack s = stacksAfter moved
  /-- Under whichever keys, what was put is kept, taken or cleared. -/
  count : ∀ among : κ → Bool, (keeper.held s).countP (fun e => among e.1) +
    countTaken among moved + countCleared among moved = countPut among moved

theorem Keeps.take (hs : keeper.Keeps stack moved s)
    (hheld : (keeper.held s).Perm ((key, a) :: keeper.held s'))
    (hstack : stack s key = a :: rest) (hrest : stack s' = Function.update (stack s) key rest) :
    keeper.Keeps stack (moved ++ [.take key a]) s' where
  stack_eq := by
    have htail : rest = (stack s key).tail := by rw [hstack]; rfl
    rw [hrest, htail, hs.stack_eq, Movement.stacksAfter_concat]
    rfl
  count among := by
    have hcount := hs.count among
    rw [hheld.countP_eq, List.countP_cons] at hcount
    rw [Movement.countTaken_concat, Movement.countCleared_concat, Movement.countPut_concat]
    simp only at hcount ⊢
    omega

namespace Lawful

theorem keeps_empty (h : keeper.Lawful stack) : keeper.Keeps stack [] keeper.empty where
  stack_eq := funext h.stack_empty
  count among := by
    rw [h.held_empty]
    rfl

theorem keeps_put (h : keeper.Lawful stack) (hs : keeper.Keeps stack moved s) :
    keeper.Keeps stack (moved ++ [.put key a]) (keeper.release s key a) where
  stack_eq := by
    rw [h.stack_release, hs.stack_eq, Movement.stacksAfter_concat]
    rfl
  count among := by
    have hcount := hs.count among
    rw [(h.held_release s key a).countP_eq, List.countP_cons, Movement.countTaken_concat,
      Movement.countCleared_concat, Movement.countPut_concat]
    simp only
    omega

theorem keeps_clear (h : keeper.Lawful stack) (hs : keeper.Keeps stack moved s) :
    keeper.Keeps stack (moved ++ [.clear (keeper.held s)]) keeper.empty where
  stack_eq := by
    rw [Movement.stacksAfter_concat]
    exact funext h.stack_empty
  count among := by
    have hcount := hs.count among
    rw [h.held_empty, Movement.countTaken_concat, Movement.countCleared_concat,
      Movement.countPut_concat, List.countP_nil]
    simp only
    omega

end Lawful

/-! ### The reply to a call -/

section Replies

variable {create : κ → EStateM ε ω α} {shop shop' : Workshop κ ω} {world : ω} {e : ε}

omit [DecidableEq κ] in
theorem noting_of_ok (h : create key shop.world = .ok a world) :
    Workshop.noting create key shop = .ok a ⟨world, shop.orders ++ [key]⟩ := by
  unfold Workshop.noting
  rw [h]

omit [DecidableEq κ] in
theorem noting_of_error (h : create key shop.world = .error e world) :
    Workshop.noting create key shop = .error e ⟨world, shop.orders ++ [key]⟩ := by
  unfold Workshop.noting
  rw [h]

omit [DecidableEq κ] in
theorem perform_acquire {found : Option α} (h : keeper.acquire s key = (found, s')) :
    keeper.perform (.acquire key : KeeperCall κ α ε ω) (s, shop) =
      (.acquired found, s', shop) := by
  simp only [perform, h]

omit [DecidableEq κ] in
theorem perform_of_ok {got : Acquired α}
    (h : keeper.acquireOrCreate key (Workshop.noting create) (s, shop) = .ok got (s', shop')) :
    keeper.perform (.acquireOrCreate key create) (s, shop) = (.served got, s', shop') := by
  simp only [perform, h]

omit [DecidableEq κ] in
theorem perform_of_error
    (h : keeper.acquireOrCreate key (Workshop.noting create) (s, shop) = .error e (s', shop')) :
    keeper.perform (.acquireOrCreate key create) (s, shop) = (.failed e, s', shop') := by
  simp only [perform, h]

end Replies

/-- What is noticed of a keeper after some movements of values, and how the next call goes. -/
structure ActsAsStacks (keeper : Keeper σ κ α) (stack : σ → κ → List α) (ε : Type)
    (moved : List (Movement κ α)) (s : σ) (shop : Workshop κ ω) : Prop where
  stack_eq : stack s = stacksAfter moved
  /-- The value on top of the stack is taken, and the other stacks are left alone. -/
  acquire : ∀ {key a rest}, stacksAfter moved key = a :: rest → ∃ s',
    keeper.perform (.acquire key : KeeperCall κ α ε ω) (s, shop) = (.acquired (some a), s', shop) ∧
      stack s' = Function.update (stack s) key rest
  acquire_nothing : ∀ {key}, stacksAfter moved key = [] →
    keeper.perform (.acquire key : KeeperCall κ α ε ω) (s, shop) = (.acquired none, s, shop)
  /-- No value is made as long as one is waiting. -/
  reuse : ∀ {key a rest} {create : κ → EStateM ε ω α}, stacksAfter moved key = a :: rest → ∃ s',
    keeper.perform (.acquireOrCreate key create) (s, shop) = (.served (.reused a), s', shop) ∧
      stack s' = Function.update (stack s) key rest
  /-- Otherwise one is made, once and for that key, and what is kept stays as it is. -/
  create : ∀ {key a world} {create : κ → EStateM ε ω α}, stacksAfter moved key = [] →
    create key shop.world = .ok a world →
      keeper.perform (.acquireOrCreate key create) (s, shop) =
        (.served (.created a), s, ⟨world, shop.orders ++ [key]⟩)
  /-- It stays as it is also if none can be made. -/
  create_error : ∀ {key e world} {create : κ → EStateM ε ω α}, stacksAfter moved key = [] →
    create key shop.world = .error e world →
      keeper.perform (.acquireOrCreate key create) (s, shop) =
        (.failed e, s, ⟨world, shop.orders ++ [key]⟩)
  /-- All values of all stacks are drained, each with its key, and then every stack is empty. -/
  drain : ∃ values s',
    keeper.perform (.drain : KeeperCall κ α ε ω) (s, shop) = (.drained values, s', shop) ∧
      (∀ key, ((values.filter fun e => e.1 = key).map (·.2)).Perm (stacksAfter moved key)) ∧
        ∀ key, stack s' key = []
  /-- What was put under a key is available, taken or drained; and so it is in total. -/
  available : ∀ key, keeper.available s key + countTaken (fun k => k = key) moved +
    countCleared (fun k => k = key) moved = countPut (fun k => k = key) moved
  size : keeper.size s + countTaken (fun _ => true) moved + countCleared (fun _ => true) moved =
    countPut (fun _ => true) moved
  isEmpty_iff : keeper.isEmpty s ↔ keeper.size s = 0

namespace Lawful

/-- A value is taken from the top of its stack. -/
theorem acquireOrCreate_of_cons (h : keeper.Lawful stack) (hstack : stack s key = a :: rest)
    (create : κ → EStateM ε (Workshop κ ω) α) (shop : Workshop κ ω) : ∃ s',
      keeper.acquireOrCreate key create (s, shop) = .ok (.reused a) (s', shop) ∧
        (keeper.held s).Perm ((key, a) :: keeper.held s') ∧
          stack s' = Function.update (stack s) key rest := by
  obtain ⟨s', hacquire, hheld, hrest⟩ := h.acquire_of_cons hstack
  exact ⟨s', h.reuse hacquire, hheld, hrest⟩

/-- **What is kept after a call** is what its movement leaves. -/
theorem keeps_perform (h : keeper.Lawful stack) (hs : keeper.Keeps stack moved s)
    (call : KeeperCall κ α ε ω) (shop : Workshop κ ω) :
    keeper.Keeps stack
      (moved ++ (KeeperCall.movement? (call, (keeper.perform call (s, shop)).1)).toList)
      (keeper.perform call (s, shop)).2.1 := by
  have hsame : keeper.Keeps stack (moved ++ []) s := by rwa [List.append_nil]
  cases call with
  | release key a => exact h.keeps_put hs
  | acquire key =>
      cases hstack : stack s key with
      | nil =>
          rw [perform_acquire (h.acquire_of_nil hstack)]
          exact hsame
      | cons a rest =>
          obtain ⟨s', hacquire, hheld, hrest⟩ := h.acquire_of_cons hstack
          rw [perform_acquire hacquire]
          exact hs.take hheld hstack hrest
  | acquireOrCreate key create =>
      cases hstack : stack s key with
      | nil =>
          have hacquire := h.acquire_of_nil hstack
          cases hcreate : create key shop.world with
          | ok a world =>
              rw [perform_of_ok (h.create_ok hacquire (noting_of_ok hcreate))]
              exact hsame
          | error e world =>
              rw [perform_of_error (h.create_error hacquire (noting_of_error hcreate))]
              exact hsame
      | cons a rest =>
          obtain ⟨s', hreuse, hheld, hrest⟩ :=
            h.acquireOrCreate_of_cons hstack (Workshop.noting create) shop
          rw [perform_of_ok hreuse]
          exact hs.take hheld hstack hrest
  | drain =>
      have hclear := h.keeps_clear hs
      rw [← h.drain s] at hclear
      exact hclear

/-- **What is kept after any calls** is what their movements leave. -/
theorem keeps_performAll (h : keeper.Lawful stack) (hs : keeper.Keeps stack moved s)
    (calls : List (KeeperCall κ α ε ω)) (shop : Workshop κ ω) :
    keeper.Keeps stack (moved ++ movements calls (keeper.performAll calls (s, shop)).1)
      (keeper.performAll calls (s, shop)).2.1 := by
  induction calls generalizing moved s shop with
  | nil =>
      show keeper.Keeps stack (moved ++ []) s
      rwa [List.append_nil]
  | cons call calls ih =>
      have hrest := ih (h.keeps_perform hs call shop) (keeper.perform call (s, shop)).2.2
      rw [List.append_assoc, ← movements_cons] at hrest
      exact hrest

/-- What is kept is noticed as stacks. -/
theorem actsAsStacks (h : keeper.Lawful stack) (hs : keeper.Keeps stack moved s)
    (shop : Workshop κ ω) : keeper.ActsAsStacks stack ε moved s shop := by
  have hstack : ∀ {key values}, stacksAfter moved key = values → stack s key = values :=
    fun heq => (congrFun hs.stack_eq _).trans heq
  have hunder : ∀ key, (((keeper.held s).filter fun e => e.1 = key).map (·.2)).Perm
      (stacksAfter moved key) := fun key => hs.stack_eq ▸ h.held_under s key
  refine ⟨hs.stack_eq, fun heq => ?_, fun heq => perform_acquire (h.acquire_of_nil (hstack heq)),
    fun heq => ?_, fun heq hcreate => ?_, fun heq hcreate => ?_, ?_, fun key => ?_, ?_, h.isEmpty s⟩
  · obtain ⟨s', hacquire, -, hrest⟩ := h.acquire_of_cons (hstack heq)
    exact ⟨s', perform_acquire hacquire, hrest⟩
  · obtain ⟨s', hreuse, -, hrest⟩ := h.acquireOrCreate_of_cons (hstack heq) (Workshop.noting _) shop
    exact ⟨s', perform_of_ok hreuse, hrest⟩
  · exact perform_of_ok (h.create_ok (h.acquire_of_nil (hstack heq)) (noting_of_ok hcreate))
  · exact perform_of_error
      (h.create_error (h.acquire_of_nil (hstack heq)) (noting_of_error hcreate))
  · refine ⟨keeper.held s, (keeper.drain s).2, rfl, hunder, fun key => ?_⟩
    rw [h.drain]
    exact h.stack_empty key
  · have hlength := (hunder key).length_eq
    rw [List.length_map, ← List.countP_eq_length_filter] at hlength
    rw [h.available, hs.stack_eq, ← hlength]
    exact hs.count fun k => k = key
  · have hcount := hs.count fun _ => true
    rw [List.countP_true] at hcount
    rw [h.size]
    exact hcount

end Lawful

/-- Whatever calls are made of a new keeper, it acts as one stack for each key. -/
def RefinesStacks (keeper : Keeper σ κ α) (stack : σ → κ → List α) : Prop :=
  ∀ (ε ω : Type) (world : ω) (calls : List (KeeperCall κ α ε ω)),
    match keeper.performAll calls (keeper.empty, ⟨world, []⟩) with
    | (replies, s, shop) => keeper.ActsAsStacks stack ε (movements calls replies) s shop

theorem Lawful.refinesStacks (h : keeper.Lawful stack) : keeper.RefinesStacks stack :=
  fun _ _ world calls =>
    have hkeeps := h.keeps_performAll h.keeps_empty calls ⟨world, []⟩
    h.actsAsStacks hkeeps (keeper.performAll calls (keeper.empty, ⟨world, []⟩)).2.2

end Keeper

/-- **Free lists and shelves act as one stack for each key**, after any calls. -/
theorem FreeLists.refines_stacks [DecidableEq κ] [Hashable κ] :
    (FreeLists.keeper (κ := κ) (α := α)).RefinesStacks FreeLists.stack ∧
      (Shelves.keeper (κ := κ) (α := α)).RefinesStacks Shelves.stack :=
  ⟨FreeLists.lawful.refinesStacks, Shelves.lawful.refinesStacks⟩

end FramePlan
