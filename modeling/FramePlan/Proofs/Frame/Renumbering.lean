import FramePlan.Proofs.Frame.Introduction
import FramePlan.Proofs.Frame.Matching

/-!
# Passes under other ids

The ids of passes are their positions in the order of registration, so registering the passes in
another order gives them other ids and changes nothing else. What the declarations say of a pass,
they say of it under its other id.

* `Frame.Renumbers` — two frames differ by the order of their passes only.
* `Frame.Renumbers.matches` — such frames declare the same.
* `Frame.Consistent.renumbers_reordered` — the passes of a declared frame can be registered in any
  order.
-/

namespace FramePlan

namespace Frame

variable {frame other : Frame} {π : Equiv.Perm PassId} {p : PassId}

/-- The other frame has the same resources and moves, and the same passes under other ids. -/
structure Renumbers (π : Equiv.Perm PassId) (frame other : Frame) : Prop where
  resources : other.resources = frame.resources
  moves : other.moves = frame.moves
  pass? : ∀ p, other.pass? (π p) = frame.pass? p

theorem Renumbers.matches (h : frame.Renumbers π other) : frame.Matches π other where
  pass? p := by
    rw [h.pass?]
    cases frame.pass? p with
    | none => exact .none
    | some pass => exact .some (.refl pass)
  mem_moves m := by rw [h.moves]

/-! ### Another order of registration -/

/-- The passes in the order of their other ids. -/
def permuted (frame : Frame) (π : Equiv.Perm PassId) : List Pass :=
  (NodeId.firstN .pass frame.passes.length).filterMap fun p => frame.pass? (π.symm p)

/-- The frame with its nodes registered again: the resources, then the passes in the order of their
other ids, and then the moves. -/
def reordered (frame : Frame) (π : Equiv.Perm PassId) : Frame :=
  ofDeclarations frame.name (frame.resources.map .resource ++
    ((frame.permuted π).map .pass ++ frame.moves.map .move))

/-- The ids of the passes are permuted among themselves. -/
def Permutes (frame : Frame) (π : Equiv.Perm PassId) : Prop :=
  ∀ p, (π p).index < frame.passes.length ↔ p.index < frame.passes.length

theorem getElem?_filterMap {α β : Type} {f : α → Option β} {xs : List α}
    (h : ∀ x ∈ xs, ∃ y, f x = some y) (i : Nat) : (xs.filterMap f)[i]? = xs[i]?.bind f := by
  induction xs generalizing i with
  | nil => rfl
  | cons x xs ih =>
      obtain ⟨y, hy⟩ := h x (List.mem_cons_self ..)
      rw [List.filterMap_cons_some hy]
      cases i with
      | zero => exact hy.symm
      | succ i => exact ih (fun z hz => h z (List.mem_cons_of_mem _ hz)) i

theorem Permutes.symm_lt (hπ : frame.Permutes π) :
    (π.symm p).index < frame.passes.length ↔ p.index < frame.passes.length := by
  rw [← hπ, π.apply_symm_apply]

/-- A pass stands at the position of its other id. -/
theorem getElem?_permuted (hπ : frame.Permutes π) (p : PassId) :
    (frame.permuted π)[(π p).index]? = frame.pass? p := by
  have hsome : ∀ q ∈ NodeId.firstN .pass frame.passes.length,
      ∃ pass, frame.pass? (π.symm q) = some pass := fun q hq =>
    exists_pass_iff.mpr (hπ.symm_lt.mpr (NodeId.mem_firstN.mp hq))
  rw [permuted, getElem?_filterMap hsome, NodeId.getElem?_firstN]
  split
  · rw [Option.bind_some, π.symm_apply_apply]
  · next hp => exact (pass?_of_not_lt (fun h => hp ((hπ p).mpr h))).symm

theorem filterMap_pass? :
    (NodeId.firstN .pass frame.passes.length).filterMap frame.pass? = frame.passes := by
  refine List.ext_getElem? fun i => ?_
  have hsome : ∀ q ∈ NodeId.firstN .pass frame.passes.length,
      ∃ pass, frame.pass? q = some pass := fun q hq => exists_pass_iff.mpr (NodeId.mem_firstN.mp hq)
  rw [getElem?_filterMap hsome, NodeId.getElem?_firstN ⟨i⟩]
  split
  · rfl
  · next hi => exact (pass?_of_not_lt hi).symm

theorem permuted_perm (hπ : frame.Permutes π) : (frame.permuted π).Perm frame.passes := by
  have hids : ((NodeId.firstN .pass frame.passes.length).map π.symm).Perm
      (NodeId.firstN .pass frame.passes.length) := by
    have hnodup : (NodeId.firstN .pass frame.passes.length).Nodup :=
      (IdSet.firstN .pass frame.passes.length).nodup_toList
    refine (List.perm_ext_iff_of_nodup (hnodup.map π.symm.injective) hnodup).mpr fun p => ?_
    rw [List.mem_map, NodeId.mem_firstN]
    constructor
    · rintro ⟨q, hq, rfl⟩
      exact hπ.symm_lt.mpr (NodeId.mem_firstN.mp hq)
    · intro hp
      exact ⟨π p, NodeId.mem_firstN.mpr ((hπ p).mpr hp), π.symm_apply_apply p⟩
  have hperm := hids.filterMap frame.pass?
  rwa [List.filterMap_map, filterMap_pass?] at hperm

/-- The passes are as they were, in whatever order they come. -/
theorem Registrable.perm {resources : List String} {passes passes' : List Pass} {moves : List Move}
    (h : Registrable resources passes moves) (hperm : passes'.Perm passes) :
    Registrable resources passes' moves where
  resource_names := h.resource_names
  pass_names := (hperm.map _).nodup_iff.mpr h.pass_names
  named pass hpass := h.named pass (hperm.mem_iff.mp hpass)
  balanced pass hpass := h.balanced pass (hperm.mem_iff.mp hpass)
  apart := h.apart
  sources := h.sources
  targets := h.targets

/-- **The passes of a consistent frame can be registered in any order.** -/
theorem Consistent.renumbers_reordered (h : frame.Consistent) (hπ : frame.Permutes π) :
    frame.Renumbers π (frame.reordered π) := by
  have hperm := permuted_perm hπ
  have hintroduces : Introduces (inOrder frame.resources (frame.permuted π) frame.moves)
      frame.resources (frame.permuted π) frame.moves := by
    refine introduces_inOrder (fun pass hpass r hr => ?_) fun m hm => ?_
    · exact hasResource_iff.mp (h.pass_resources pass (hperm.mem_iff.mp hpass) r hr)
    · obtain ⟨hsrc, hdst⟩ := h.move_ends m hm
      exact ⟨hasResource_iff.mp hsrc, hasResource_iff.mp hdst⟩
  obtain ⟨last, hlast, hholds⟩ := (h.registrable.perm hperm).accepted hintroduces frame.name
  have hreordered : frame.reordered π = last := congrArg Prod.fst hlast
  rw [hreordered]
  refine ⟨hholds.resources, hholds.moves, fun p => ?_⟩
  rw [Frame.pass?, hholds.passes]
  exact getElem?_permuted hπ p

end Frame

end FramePlan
