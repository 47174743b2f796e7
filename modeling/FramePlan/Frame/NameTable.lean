import FramePlan.NodeId

/-!
# Name tables

A name table finds the id of a node by the node's name.
-/

namespace FramePlan

variable {k : NodeKind}

/-- The ids of nodes by name, the last added name first. -/
structure NameTable (k : NodeKind) where
  /-- Names and the ids that they stand for. -/
  entries : List (String × NodeId k)
deriving DecidableEq

namespace NameTable

/-- The table without names. -/
def empty : NameTable k := ⟨[]⟩

instance : EmptyCollection (NameTable k) := ⟨empty⟩

/-- The id that a name stands for. -/
def find? (table : NameTable k) (name : String) : Option (NodeId k) := table.entries.lookup name

/-- Whether a name stands for an id. -/
def contains (table : NameTable k) (name : String) : Bool := (table.find? name).isSome

/-- The table with one more name. -/
def add (table : NameTable k) (name : String) (id : NodeId k) : NameTable k :=
  ⟨(name, id) :: table.entries⟩

@[simp]
theorem find?_empty (name : String) : (∅ : NameTable k).find? name = none := rfl

theorem find?_add {table : NameTable k} {name other : String} {id : NodeId k} :
    (table.add name id).find? other = if other = name then some id else table.find? other := by
  unfold find? add
  rw [List.lookup_cons]
  by_cases h : other = name
  · simp [h]
  · rw [beq_false_of_ne h, if_neg h]

theorem not_contains_iff {table : NameTable k} {name : String} :
    ¬ table.contains name ↔ table.find? name = none := by
  rw [contains, Bool.not_eq_true, Option.isSome_eq_false_iff, Option.isNone_iff_eq_none]

end NameTable

end FramePlan
