import FramePlan.MoveChain
import FramePlan.Usage

/-!
# Lifetimes and events

The *span* of a resource reaches from the position of the first pass that uses it to the position
of the last one. From the spans and the moves it follows where each resource comes to its storage
and where it gives it up:

* a resource that is moved into is not constructed, and one that is moved out is not destructed;
* a resource that passes use is constructed at the start of its span, and moved or destructed at
  the end;
* the first resource of a chain of moves, if no pass uses it, is constructed and moved in the
  *prologue*, before any pass;
* the last resource of a chain, if no pass uses it, is destructed where it received its storage.

`Events.inSlot` gathers what happens in the prologue, or around the pass at one position.
-/

namespace FramePlan

/-- The positions of the first and of the last pass that use a resource. -/
structure Span where
  first : Nat
  last : Nat
deriving DecidableEq

namespace Span

/-- The span of a usage, given the position of each pass: from the writer, or else the first
reader, or else the copy-in, to the copy-in, or else the last reader, or else the start. -/
def ofUsage (position : PassId → Nat) (usage : Usage) : Option Span := do
  let readers := usage.readers.toList.map position
  let copyIn := usage.copyIn.map position
  let first ← (usage.writer.map position).or (readers.min?.or copyIn)
  return ⟨first, (copyIn.or readers.max?).getD first⟩

/-- The spans of all resources that some pass uses, where the passes come in the given order. -/
def table (usage : UsageTable) (order : List PassId) : IdMap .resource Span :=
  usage.uses.filterMap fun _ u => ofUsage order.idxOf u

end Span

/-- When an event of a resource happens. -/
inductive Slot where
  /-- Before any pass. -/
  | prologue
  /-- Around the pass at that position. -/
  | pass (position : Nat)
deriving DecidableEq

/-- How a resource gives up its storage. -/
inductive Exit where
  /-- The storage is handed over to another resource. -/
  | moveTo (dst : ResourceId)
  /-- The storage is released. -/
  | destruct
deriving DecidableEq

/-- Where a resource is constructed, if it is, and where and how it gives up its storage. -/
structure Placement where
  construct : Option Slot
  exit : Option (Slot × Exit)
deriving DecidableEq

namespace Placement

/-- The placement of one resource. -/
def ofResource (spans : IdMap .resource Span) (moves : MoveTable) (r : ResourceId) : Placement :=
  let source := moves.backward.get? r
  let destination := moves.forward.get? r
  let constructed (slot : Slot) : Option Slot := if source.isSome then none else some slot
  match spans.get? r, destination with
  | some s, some dst => ⟨constructed (.pass s.first), some (.pass s.last, .moveTo dst)⟩
  | some s, none => ⟨constructed (.pass s.first), some (.pass s.last, .destruct)⟩
  | none, some dst => ⟨constructed .prologue, some (.prologue, .moveTo dst)⟩
  | none, none =>
    ⟨none, source.map fun src =>
      (((spans.get? src).map fun s => Slot.pass s.last).getD .prologue, .destruct)⟩

end Placement

/-- What happens to resources around one pass, or in the prologue: constructs come before the pass
runs, then moves and at last destructs after it is complete. Each list ascends by resource, and the
moves by their source. -/
structure Events where
  constructs : List ResourceId
  moves : List Move
  destructs : List ResourceId
deriving DecidableEq

namespace Events

/-- Nothing happens. -/
def none : Events := ⟨[], [], []⟩

/-- Whether nothing happens. -/
def isEmpty (events : Events) : Bool :=
  events.constructs.isEmpty && events.moves.isEmpty && events.destructs.isEmpty

/-- The move of a resource that is placed in a slot. -/
def moveIn? (slot : Slot) (r : ResourceId) (placement : Placement) : Option Move :=
  match placement.exit with
  | some (s, .moveTo dst) => if s = slot then some ⟨dst, r⟩ else .none
  | _ => .none

/-- The events that are placed in a slot. -/
def inSlot (placements : IdMap .resource Placement) (slot : Slot) : Events where
  constructs := (placements.entries.filter fun e => e.2.construct = some slot).map (·.1)
  moves := placements.entries.filterMap fun e => moveIn? slot e.1 e.2
  destructs := (placements.entries.filter fun e => e.2.exit = some (slot, .destruct)).map (·.1)

end Events

end FramePlan
