import FramePlan.Proofs.Frame.Introduction
import FramePlan.Proofs.Frame.Matching

/-!
# The same declared otherwise

A general pass can name its resources in another order, or name one of them again, and a copy can
list its pairs in another order. Moves can be registered in another order. A frame that is declared
anew in that way is accepted just as the first one, and it matches it, pass by pass.

* `Pass.Redeclares` — the same pass declared otherwise.
* `Frame.Redeclares` — the passes and moves of a frame declared otherwise.
* `Frame.Registrable.redeclare` — nothing is wrong with them.
* `Frame.Redeclares.matches` — a frame that has them matches.
* `Frame.Matches.clashes_iff` — the same passes claim an output again.
-/

namespace FramePlan

/-- The same pass declared otherwise: a general pass has the same inputs and the same outputs, in
any order and each as often as it likes, and a copy has the same pairs in any order. -/
inductive Pass.Redeclares : Pass → Pass → Prop
  | general {name : String} {inputs inputs' outputs outputs' : List ResourceId} :
      (∀ r, r ∈ inputs' ↔ r ∈ inputs) → (∀ r, r ∈ outputs' ↔ r ∈ outputs) →
      Redeclares ⟨.general, name, inputs, outputs⟩ ⟨.general, name, inputs', outputs'⟩
  | copy {name : String} {pairs pairs' : List (ResourceId × ResourceId)} : pairs'.Perm pairs →
      Redeclares ⟨.copy, name, pairs.map (·.1), pairs.map (·.2)⟩
        ⟨.copy, name, pairs'.map (·.1), pairs'.map (·.2)⟩

namespace Pass.Redeclares

variable {pass pass' : Pass}

theorem name_eq (h : pass.Redeclares pass') : pass'.name = pass.name := by
  cases h with
  | general => rfl
  | copy => rfl

theorem balanced (h : pass.Redeclares pass') (hcopy : pass'.kind = .copy) :
    pass'.inputs.length = pass'.outputs.length := by
  cases h with
  | general => cases hcopy
  | copy => rw [List.length_map, List.length_map]

theorem alike (h : pass.Redeclares pass') : pass.Alike pass' := by
  cases h with
  | general hinputs houtputs => exact ⟨rfl, hinputs, houtputs, fun _ => Iff.rfl, nofun⟩
  | @copy name pairs pairs' hperm =>
      have hpairs : ∀ cs : List (ResourceId × ResourceId),
          (⟨.copy, name, cs.map (·.1), cs.map (·.2)⟩ : Pass).copyPairs = cs := fun cs =>
        (List.zip_of_prod rfl rfl).symm
      refine ⟨rfl, fun r => (hperm.map _).mem_iff, fun r => (hperm.map _).mem_iff, fun c => ?_,
        fun _ => (hperm.map _).nodup_iff⟩
      rw [hpairs, hpairs]
      exact hperm.mem_iff

end Pass.Redeclares

namespace Frame

variable {frame other : Frame} {passes : List Pass} {moves : List Move} {p : PassId}

/-- The passes of the frame, each declared otherwise, and its moves in any order. -/
structure Redeclares (frame : Frame) (passes : List Pass) (moves : List Move) : Prop where
  passes : List.Forall₂ Pass.Redeclares frame.passes passes
  moves : moves.Perm frame.moves

theorem rel_getElem? {α β : Type} {R : α → β → Prop} {xs : List α} {ys : List β}
    (h : List.Forall₂ R xs ys) (i : Nat) : Option.Rel R xs[i]? ys[i]? := by
  induction h generalizing i with
  | nil => exact .none
  | cons hxy _ ih =>
      cases i with
      | zero => exact .some hxy
      | succ i => exact ih i

theorem map_name_eq {ps : List Pass} (h : List.Forall₂ Pass.Redeclares ps passes) :
    passes.map (·.name) = ps.map (·.name) := by
  induction h with
  | nil => rfl
  | cons hpass _ ih => rw [List.map_cons, List.map_cons, hpass.name_eq, ih]

/-- **Nothing is wrong with nodes that are declared otherwise.** -/
theorem Redeclares.registrable (h : frame.Redeclares passes moves) (hframe : frame.Consistent) :
    Registrable frame.resources passes moves := by
  have hregistrable := hframe.registrable
  have hnames := map_name_eq h.passes
  constructor
  case resource_names => exact hregistrable.resource_names
  case pass_names => exact hnames ▸ hregistrable.pass_names
  case named =>
    intro pass' hmem
    have hname : pass'.name ∈ frame.passes.map (·.name) := hnames ▸ List.mem_map_of_mem hmem
    obtain ⟨pass, hpass, heq⟩ := List.mem_map.mp hname
    exact heq ▸ hregistrable.named pass hpass
  case balanced =>
    intro pass' hmem
    obtain ⟨i, hi⟩ := List.mem_iff_getElem?.mp hmem
    have hrel := rel_getElem? h.passes i
    rw [hi] at hrel
    generalize frame.passes[i]? = o at hrel
    cases hrel with
    | some hpass => exact hpass.balanced
  case apart => exact fun m hm => hregistrable.apart m (h.moves.mem_iff.mp hm)
  case sources => exact (h.moves.map _).nodup_iff.mpr hregistrable.sources
  case targets => exact (h.moves.map _).nodup_iff.mpr hregistrable.targets

/-- A frame with the nodes declared otherwise matches. -/
theorem Redeclares.matches (h : frame.Redeclares passes moves) (hpasses : other.passes = passes)
    (hmoves : other.moves = moves) : frame.Matches (Equiv.refl PassId) other where
  pass? p := by
    have hrel := rel_getElem? (h.passes.imp fun _ _ => Pass.Redeclares.alike) p.index
    rwa [← hpasses] at hrel
  mem_moves m := by rw [hmoves, h.moves.mem_iff]

/-! ### Outputs claimed again -/

/-- Some output of the pass is claimed already. -/
def Clashes (frame : Frame) (p : PassId) : Prop := ∃ i r first, frame.Clash p i r first

/-- No pass claims an output again before the first that does. -/
theorem FirstClash.index_le {i : Nat} {r : ResourceId} {first q : PassId}
    (h : frame.FirstClash p i r first) (hq : frame.Clashes q) : p.index ≤ q.index := by
  obtain ⟨j, s, f, hclash⟩ := hq
  rcases h.least hclash with hlt | ⟨rfl, _⟩
  · exact Nat.le_of_lt hlt
  · exact Nat.le_refl _

namespace Matches

theorem clashes (h : frame.Matches (Equiv.refl PassId) other) (hclash : frame.Clashes p) :
    other.Clashes p := by
  obtain ⟨i, r, first, hclash⟩ := hclash
  cases hclash with
  | earlierPass hpass hr hfirst hlt hkind hr' =>
      obtain ⟨pass', hpass', halike⟩ := h.exists_alike hpass
      obtain ⟨other', hother', halike'⟩ := h.exists_alike hfirst
      obtain ⟨j, hj⟩ := List.mem_iff_getElem?.mp
        ((halike.mem_outputs r).mpr (List.mem_of_getElem? hr))
      refine ⟨j, r, first, .earlierPass hpass' hj hother' hlt ?_ ((halike'.mem_outputs r).mpr hr')⟩
      rw [halike'.kind, halike.kind, hkind]
  | @samePass pass _ j _ hpass hi hcopy hlt hj =>
      -- The copy has an output twice, so it has one twice in any order.
      obtain ⟨pass', hpass', halike⟩ := h.exists_alike hpass
      have htwice : ¬ pass.outputs.Nodup := fun hnodup => List.nodup_iff_getElem?_ne_getElem?.mp
        hnodup j i hlt (List.getElem?_eq_some_iff.mp hi).1 (hj.trans hi.symm)
      have htwice' : ¬ pass'.outputs.Nodup := mt (halike.nodup_outputs hcopy).mp htwice
      rw [List.nodup_iff_getElem?_ne_getElem?] at htwice'
      push Not at htwice'
      obtain ⟨j', i', hlt', hi', heq⟩ := htwice'
      have hsome : pass'.outputs[i']? = some pass'.outputs[i'] := List.getElem?_eq_getElem hi'
      exact ⟨i', _, p, .samePass hpass' hsome (halike.kind.trans hcopy) hlt' (heq.trans hsome)⟩

theorem clashes_iff (h : frame.Matches (Equiv.refl PassId) other) :
    other.Clashes p ↔ frame.Clashes p := ⟨h.symm.clashes, h.clashes⟩

end Matches

end Frame

end FramePlan
