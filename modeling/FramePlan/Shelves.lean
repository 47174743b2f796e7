import FramePlan.FreeLists
import Mathlib.Data.List.Perm.Basic

/-!
# Free lists on shelves

Free lists are kept in a table that has a list for each key, where the value that was released last
is the last one. A list gets its place in the table with the first release under its key, and keeps
it when it is emptied. All operations act on the table at hand.

* `Shelves` — the table, and what is done with it.
* `Keeper` — the operations that shelves have in common with free lists.
-/

namespace FramePlan

variable {κ α ε ω : Type}

/-- Released values, in a list for each key. -/
structure Shelves (κ α : Type) [BEq κ] [Hashable κ] where
  lists : Std.HashMap κ (List α)

namespace Shelves

variable [BEq κ] [Hashable κ]

/-- There is no list. -/
def empty : Shelves κ α := ⟨∅⟩

instance : EmptyCollection (Shelves κ α) := ⟨empty⟩

/-- The list of a key, the value that was released last at its end. -/
def list (shelves : Shelves κ α) (key : κ) : List α := (shelves.lists[key]?).getD []

/-- Puts a value at the end of the list of a key, which has one from now on. -/
def release (shelves : Shelves κ α) (key : κ) (a : α) : Shelves κ α :=
  ⟨shelves.lists.insert key (shelves.list key ++ [a])⟩

/-- Takes the last value from the list of a key, if there is such a list and it is not empty. -/
def acquire (shelves : Shelves κ α) (key : κ) : Option α × Shelves κ α :=
  match shelves.lists[key]? with
  | none => (none, shelves)
  | some list =>
    match list.getLast? with
    | none => (none, shelves)
    | some a => (some a, ⟨shelves.lists.insert key list.dropLast⟩)

/-- Takes the last value from the list of a key, or makes one. What making one does to the world
stays done if none is made. -/
def acquireOrCreate (key : κ) (create : κ → EStateM ε ω α) :
    EStateM ε (Shelves κ α × ω) (Acquired α) := fun (shelves, world) =>
  match shelves.acquire key with
  | (some a, shelves) => .ok (.reused a) (shelves, world)
  | (none, shelves) =>
    match create key world with
    | .ok a world => .ok (.created a) (shelves, world)
    | .error e world => .error e (shelves, world)

/-- How many values there are in the list of a key. -/
def available (shelves : Shelves κ α) (key : κ) : Nat :=
  match shelves.lists[key]? with
  | none => 0
  | some list => list.length

/-- How many values there are in all lists. -/
def size (shelves : Shelves κ α) : Nat :=
  shelves.lists.toList.foldl (fun n e => n + e.2.length) 0

/-- Whether every list is empty. -/
def isEmpty (shelves : Shelves κ α) : Bool := shelves.lists.toList.all fun e => e.2.isEmpty

/-- Takes every value out together with its key, list after list, and removes the lists. -/
def drain (shelves : Shelves κ α) : List (κ × α) × Shelves κ α :=
  (shelves.lists.toList.flatMap fun e => e.2.map (e.1, ·), ∅)

end Shelves

/-! ### What free lists and shelves have in common -/

/-- A way to keep released values. -/
structure Keeper (σ κ α : Type) where
  /-- Nothing is kept. -/
  empty : σ
  release : σ → κ → α → σ
  acquire : σ → κ → Option α × σ
  acquireOrCreate : {ε ω : Type} → κ → (κ → EStateM ε ω α) → EStateM ε (σ × ω) (Acquired α)
  drain : σ → List (κ × α) × σ
  available : σ → κ → Nat
  size : σ → Nat
  isEmpty : σ → Bool

/-- Values are kept in free lists. If no value is made, the lists at hand stay what they are. -/
def FreeLists.keeper [DecidableEq κ] : Keeper (FreeLists κ α) κ α where
  empty := ∅
  release := FreeLists.release
  acquire lists key :=
    match lists.acquire? key with
    | some (a, rest) => (some a, rest)
    | none => (none, lists)
  acquireOrCreate key create := fun (lists, world) =>
    match lists.acquireOrCreate key create world with
    | .ok (got, rest) world => .ok got (rest, world)
    | .error e world => .error e (lists, world)
  drain := FreeLists.drain
  available := FreeLists.available
  size := FreeLists.size
  isEmpty := FreeLists.isEmpty

/-- Values are kept on shelves. -/
def Shelves.keeper [BEq κ] [Hashable κ] : Keeper (Shelves κ α) κ α where
  empty := ∅
  release := Shelves.release
  acquire := Shelves.acquire
  acquireOrCreate := Shelves.acquireOrCreate
  drain := Shelves.drain
  available := Shelves.available
  size := Shelves.size
  isEmpty := Shelves.isEmpty

/-! ### Calls one after another -/

/-- A call to a keeper of values. -/
inductive KeeperCall (κ α ε ω : Type) where
  | release (key : κ) (a : α)
  | acquire (key : κ)
  | acquireOrCreate (key : κ) (create : κ → EStateM ε ω α)
  | drain

/-- What a call answers. -/
inductive KeeperReply (κ α ε : Type) where
  | released
  | acquired (a : Option α)
  | served (got : Acquired α)
  /-- No value was waiting, and none could be made. -/
  | failed (e : ε)
  | drained (values : List (κ × α))
deriving DecidableEq

/-- Where values are made. -/
structure Workshop (κ ω : Type) where
  /-- What making values acts on. -/
  world : ω
  /-- The keys that values were to be made for, one after another. -/
  orders : List κ

/-- Makes a value, and notes for which key it is to be made. -/
def Workshop.noting (create : κ → EStateM ε ω α) (key : κ) : EStateM ε (Workshop κ ω) α :=
  fun shop => match create key shop.world with
  | .ok a world => .ok a ⟨world, shop.orders ++ [key]⟩
  | .error e world => .error e ⟨world, shop.orders ++ [key]⟩

namespace Keeper

variable {σ : Type}

/-- Makes a call. -/
def perform (keeper : Keeper σ κ α) :
    KeeperCall κ α ε ω → σ × Workshop κ ω → KeeperReply κ α ε × σ × Workshop κ ω
  | .release key a, (s, shop) => (.released, keeper.release s key a, shop)
  | .acquire key, (s, shop) =>
    let (a, s) := keeper.acquire s key
    (.acquired a, s, shop)
  | .acquireOrCreate key create, (s, shop) =>
    match keeper.acquireOrCreate key (Workshop.noting create) (s, shop) with
    | .ok got (s, shop) => (.served got, s, shop)
    | .error e (s, shop) => (.failed e, s, shop)
  | .drain, (s, shop) =>
    let (values, s) := keeper.drain s
    (.drained values, s, shop)

/-- Makes calls one after another, and writes down their replies. -/
def performAll (keeper : Keeper σ κ α) : List (KeeperCall κ α ε ω) → σ × Workshop κ ω →
    List (KeeperReply κ α ε) × σ × Workshop κ ω
  | [], t => ([], t)
  | call :: calls, t =>
    let (reply, t) := keeper.perform call t
    let (replies, t) := keeper.performAll calls t
    (reply :: replies, t)

end Keeper

end FramePlan
