import FramePlan.Storage.Error

/-!
# A supply of numbered handles

An allocator that numbers its handles from one, whatever their key. It can be set to refuse some
keys, and to run out of memory after a number of handles.
-/

namespace FramePlan

/-- An allocator that numbers its handles. -/
structure Supply where
  /-- The keys under which it makes no handle. -/
  refused : List String
  /-- How many handles it makes at most. -/
  limit : Option Nat
  /-- How many handles it made. -/
  made : Nat
deriving DecidableEq

namespace Supply

/-- The next handle. -/
def allocate (key : String) : EStateM StorageError Supply Int := fun supply =>
  if key ∈ supply.refused then
    .error (.allocationFailed s!"key `{key}`") supply
  else if supply.limit = some supply.made then
    .error (.allocationFailed "out of memory") supply
  else
    let n := supply.made + 1
    .ok n { supply with made := n }

end Supply

end FramePlan
