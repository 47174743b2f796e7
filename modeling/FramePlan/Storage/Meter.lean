import FramePlan.Storage.Error

/-!
# Metered allocators

A meter stands between storage and its allocator. It takes down each call, the key it was made with
and the handle it came to if it did not fail, and changes nothing about the allocator.
-/

namespace FramePlan

variable {κ η τ : Type}

/-- The state of an allocator, and the calls that were made to it. -/
structure Metered (κ η τ : Type) where
  supply : τ
  /-- The key of each call, and the handle that it made if it did not fail, oldest first. -/
  calls : List (κ × Option η)
deriving DecidableEq

namespace Metered

/-- No call was made. -/
def start (supply : τ) : Metered κ η τ := ⟨supply, []⟩

/-- The handles that were made, each with its key, oldest first. -/
def made (m : Metered κ η τ) : List (κ × η) :=
  m.calls.filterMap fun call => call.2.map fun h => (call.1, h)

/-- An allocator whose calls are taken down. -/
def meter (allocate : κ → EStateM StorageError τ η) (key : κ) :
    EStateM StorageError (Metered κ η τ) η := fun m =>
  match allocate key m.supply with
  | .ok h supply => .ok h ⟨supply, m.calls ++ [(key, some h)]⟩
  | .error e supply => .error e ⟨supply, m.calls ++ [(key, none)]⟩

end Metered

end FramePlan
