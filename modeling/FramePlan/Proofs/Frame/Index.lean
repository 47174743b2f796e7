import FramePlan.Proofs.Frame.Registration
import Mathlib.Data.List.Nodup

/-!
# What registration keeps in step

A frame holds its nodes in the order of registration, finds resources and passes by their names,
and finds moves by their ends. A node is only registered under a key that nothing is found by, so
the look-ups stay the inverses of the lists.

* `Indexes.concat` — a node under a new key goes to the end of the list and into the look-up.
* `Indexes.nodup` — no two nodes have the same key.
* `Frame.Declared.consistent` — in a declared frame the look-ups are the inverses of the lists.
-/

namespace FramePlan

/-! ### Look-ups and lists -/

section Indexes

variable {k : NodeKind} {α κ : Type}

/-- The look-up finds every node by its key, and finds nothing else. -/
def Indexes (find : κ → Option (NodeId k)) (key : α → κ) (nodes : List α) : Prop :=
  ∀ x i, find x = some i ↔ ∃ node, nodes[i.index]? = some node ∧ key node = x

namespace Indexes

variable {find find' : κ → Option (NodeId k)} {key : α → κ} {nodes : List α} {node : α} {x : κ}

theorem nil (hnone : ∀ x, find x = none) : Indexes find key [] := by
  intro x i
  rw [hnone]
  refine iff_of_false (fun h => by cases h) ?_
  rintro ⟨_, h, _⟩
  cases h

/-- What the look-up finds is one of the nodes. -/
theorem lt_length (h : Indexes find key nodes) {i : NodeId k} (hfind : find x = some i) :
    i.index < nodes.length := by
  obtain ⟨node, hnode, _⟩ := (h x i).mp hfind
  exact (List.getElem?_eq_some_iff.mp hnode).1

/-- **A node under a new key** goes to the end of the list and into the look-up. -/
theorem concat [DecidableEq κ] (h : Indexes find key nodes) (hnew : find (key node) = none)
    (hfind : ∀ x, find' x = if x = key node then some ⟨nodes.length⟩ else find x) :
    Indexes find' key (nodes ++ [node]) := by
  intro x i
  rcases Nat.lt_trichotomy i.index nodes.length with hi | hi | hi
  · -- an old node: its key is not the new one
    rw [List.getElem?_append_left hi, ← h x i, hfind]
    split
    · next hx =>
      subst hx
      rw [hnew]
      refine iff_of_false (fun hsome => ?_) (fun hsome => by cases hsome)
      cases hsome
      exact Nat.lt_irrefl _ hi
    · rfl
  · rw [hi, List.getElem?_concat_length, hfind]
    have hlast : i = ⟨nodes.length⟩ := NodeId.ext hi
    split
    · next hx => exact iff_of_true (congrArg some hlast.symm) ⟨node, rfl, hx.symm⟩
    · next hx =>
      refine iff_of_false (fun hsome => ?_) ?_
      · exact Nat.lt_irrefl _ (hi ▸ h.lt_length hsome)
      · rintro ⟨_, ⟨⟩, hkey⟩
        exact hx hkey.symm
  · have hnone : (nodes ++ [node])[i.index]? = none := by
      rw [List.getElem?_eq_none_iff, List.length_append, List.length_singleton]
      exact hi
    refine iff_of_false (fun hsome => ?_) ?_
    · rw [hfind] at hsome
      split at hsome
      · cases hsome
        exact Nat.lt_irrefl _ hi
      · exact Nat.lt_asymm hi (h.lt_length hsome)
    · rintro ⟨_, hsome, _⟩
      cases hnone.symm.trans hsome

theorem isSome_iff (h : Indexes find key nodes) : (find x).isSome ↔ x ∈ nodes.map key := by
  rw [Option.isSome_iff_exists, List.mem_map]
  constructor
  · rintro ⟨i, hi⟩
    obtain ⟨node, hnode, hkey⟩ := (h x i).mp hi
    exact ⟨node, List.mem_of_getElem? hnode, hkey⟩
  · rintro ⟨node, hmem, hkey⟩
    obtain ⟨i, hi⟩ := List.mem_iff_getElem?.mp hmem
    exact ⟨⟨i⟩, (h x ⟨i⟩).mpr ⟨node, hi, hkey⟩⟩

theorem eq_none_iff (h : Indexes find key nodes) : find x = none ↔ x ∉ nodes.map key := by
  rw [← h.isSome_iff, Option.not_isSome_iff_eq_none]

/-- No two nodes have the same key. -/
theorem nodup (h : Indexes find key nodes) : (nodes.map key).Nodup := by
  rw [List.nodup_iff_getElem?_ne_getElem?]
  intro i j hij hj heq
  rw [List.length_map] at hj
  have hi := Nat.lt_trans hij hj
  rw [List.getElem?_map, List.getElem?_map, List.getElem?_eq_getElem hi,
    List.getElem?_eq_getElem hj] at heq
  have hfindi := (h _ ⟨i⟩).mpr ⟨nodes[i], List.getElem?_eq_getElem hi, rfl⟩
  have hfindj := (h _ ⟨j⟩).mpr ⟨nodes[j], List.getElem?_eq_getElem hj, (Option.some.inj heq).symm⟩
  cases hfindi.symm.trans hfindj
  exact Nat.lt_irrefl _ hij

end Indexes

end Indexes

namespace Frame

variable {frame : Frame}

/-! ### Consistent frames -/

/-- All that a frame holds fits together: the look-ups are the inverses of the lists, and every node
is as it has to be. -/
structure Consistent (frame : Frame) : Prop extends frame.WellFormed where
  resources : Indexes frame.resourceIds.find? id frame.resources
  passes : Indexes frame.passIds.find? Pass.name frame.passes
  movesOut : Indexes frame.movesOut.get? Move.src frame.moves
  movesIn : Indexes frame.movesIn.get? Move.dst frame.moves
  pass_named : ∀ pass ∈ frame.passes, pass.name ≠ ""
  move_apart : ∀ m ∈ frame.moves, m.dst ≠ m.src

namespace Consistent

theorem empty (name : String) : (Frame.empty name).Consistent where
  toWellFormed := .empty name
  resources := .nil NameTable.find?_empty
  passes := .nil NameTable.find?_empty
  movesOut := .nil IdMap.get?_empty
  movesIn := .nil IdMap.get?_empty
  pass_named := fun _ h => absurd h List.not_mem_nil
  move_apart := fun _ h => absurd h List.not_mem_nil

theorem withResource {name : String} (h : frame.Consistent)
    (hfresh : frame.resourceIds.find? name = none) : (frame.withResource name).Consistent where
  toWellFormed := h.toWellFormed.withResource
  resources := h.resources.concat hfresh fun _ => NameTable.find?_add
  passes := h.passes
  movesOut := h.movesOut
  movesIn := h.movesIn
  pass_named := h.pass_named
  move_apart := h.move_apart

theorem withPass {pass : Pass} (h : frame.Consistent) (hadmits : frame.AdmitsPass pass) :
    (frame.withPass pass).Consistent where
  toWellFormed := h.toWellFormed.withPass hadmits
  resources := h.resources
  passes := h.passes.concat hadmits.fresh fun _ => NameTable.find?_add
  movesOut := h.movesOut
  movesIn := h.movesIn
  pass_named := by
    intro other hother
    rcases List.mem_append.mp hother with hother | hother
    · exact h.pass_named other hother
    · cases List.mem_singleton.mp hother
      exact hadmits.named
  move_apart := h.move_apart

theorem withMove {move : Move} (h : frame.Consistent) (hadmits : frame.AdmitsMove move) :
    (frame.withMove move).Consistent where
  toWellFormed := h.toWellFormed.withMove hadmits
  resources := h.resources
  passes := h.passes
  movesOut := h.movesOut.concat hadmits.src_free fun _ => IdMap.get?_insert
  movesIn := h.movesIn.concat hadmits.dst_free fun _ => IdMap.get?_insert
  pass_named := h.pass_named
  move_apart := by
    intro other hother
    rcases List.mem_append.mp hother with hother | hother
    · exact h.move_apart other hother
    · cases List.mem_singleton.mp hother
      exact hadmits.apart

end Consistent

/-- **In a declared frame everything fits together.** -/
theorem Declared.consistent (h : frame.Declared) : frame.Consistent :=
  h.induct Consistent.empty (fun hframe hfresh => hframe.withResource hfresh)
    (fun hframe hadmits => hframe.withPass hadmits) fun hframe hadmits => hframe.withMove hadmits

end Frame

end FramePlan
