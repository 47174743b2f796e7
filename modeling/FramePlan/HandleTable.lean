import FramePlan.IdMap
import FramePlan.IdSearch

/-!
# Handles that are searched for

The handles of a pass can be kept in a plain list, in ascending order of their resources, so that a
search finds the spot of a resource. A handle is replaced, added or returned at that spot without
another look at the list. Two things could go wrong with that: there may be no entry at the spot,
and the spot may be past the end of the list. Either stops the call.

* `HandleTable.insert`, `HandleTable.get?` — what is done at the spot that a search finds.
* `HandleTable.ofList` — a table that is made of pairs, one after another.
-/

namespace FramePlan

/-- Why a call to a table of handles stops. -/
inductive TableFault where
  /-- There is no entry at that index. -/
  | noEntry (index : Nat)
  /-- The entries end before that index. -/
  | pastEnd (index : Nat)
deriving DecidableEq

/-- The handles of some resources. -/
structure HandleTable (η : Type) where
  entries : List (ResourceId × η)
deriving DecidableEq

namespace HandleTable

variable {η : Type}

/-- There is no handle. -/
def empty : HandleTable η := ⟨[]⟩

instance : EmptyCollection (HandleTable η) := ⟨empty⟩

/-- The resources in the order of their entries. -/
def ids (table : HandleTable η) : List ResourceId := table.entries.map (·.1)

/-- Gives the entry at an index another handle. -/
def replaceAt (n : Nat) (h : η) : EStateM TableFault (HandleTable η) Unit := do
  match (← get).entries[n]? with
  | some (r, _) => modify fun table => ⟨table.entries.set n (r, h)⟩
  | none => throw (.noEntry n)

/-- Puts an entry at an index. The entries from there on move up. -/
def insertAt (n : Nat) (r : ResourceId) (h : η) : EStateM TableFault (HandleTable η) Unit := do
  if n ≤ (← get).entries.length then
    modify fun table => ⟨table.entries.insertIdx n (r, h)⟩
  else
    throw (.pastEnd n)

/-- Adds the handle of a resource, in place of the one that it has. -/
def insert (search : IdSearch .resource) (r : ResourceId) (h : η) :
    EStateM TableFault (HandleTable η) Unit := do
  match search (← get).ids r with
  | .taken n => replaceAt n h
  | .free n => insertAt n r h

/-- Adds the handles of pairs, one after another. -/
def insertAll (search : IdSearch .resource) (pairs : List (ResourceId × η)) :
    EStateM TableFault (HandleTable η) Unit :=
  pairs.forM fun e => insert search e.1 e.2

/-- The table that pairs make of the empty one. -/
def ofList (search : IdSearch .resource) (pairs : List (ResourceId × η)) :
    Except TableFault (HandleTable η) :=
  match insertAll search pairs ∅ with
  | .ok _ table => .ok table
  | .error e _ => .error e

/-- The handle of a resource. -/
def get? (search : IdSearch .resource) (table : HandleTable η) (r : ResourceId) :
    Except TableFault (Option η) :=
  match search table.ids r with
  | .taken n =>
    match table.entries[n]? with
    | some (_, h) => .ok (some h)
    | none => .error (.noEntry n)
  | .free _ => .ok none

/-- The pairs of resources and their handles, in the order of the entries. -/
def toList (table : HandleTable η) : List (ResourceId × η) := table.entries

/-- How many resources have a handle. -/
def size (table : HandleTable η) : Nat := table.entries.length

/-- Whether no resource has a handle. -/
def isEmpty (table : HandleTable η) : Bool := table.entries.isEmpty

end HandleTable

end FramePlan
