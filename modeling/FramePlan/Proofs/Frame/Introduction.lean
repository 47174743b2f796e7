import FramePlan.Proofs.Frame.Index

/-!
# Calls that are all accepted

In which order nodes of different kinds are registered does not matter, as long as a node comes
after the resources that it refers to. If nothing is wrong with the nodes themselves, every call is
accepted then, and the frame has the nodes of each kind in the order of the calls.

* `Frame.Registrable` — nothing is wrong with the nodes.
* `Frame.Introduces` — the calls register the nodes.
* `Frame.Registrable.accepted` — the calls are accepted.
* `Frame.introduces_inOrder` — resources can always come first, then passes, then moves.
-/

namespace FramePlan

namespace Declaration

/-- The name of the resource that the call registers. -/
def resource? : Declaration → Option String
  | .resource name => some name
  | _ => none

/-- The pass that the call registers. -/
def pass? : Declaration → Option Pass
  | .pass p => some p
  | _ => none

/-- The move that the call registers. -/
def move? : Declaration → Option Move
  | .move m => some m
  | _ => none

/-- The resources that the registered node refers to. -/
def mentions : Declaration → List ResourceId
  | .pass p => p.inputs ++ p.outputs
  | .move m => [m.dst, m.src]
  | _ => []

end Declaration

namespace Frame

variable {frame : Frame} {resources : List String} {passes : List Pass} {moves : List Move}
  {ds pre post : List Declaration} {d : Declaration}

/-- Apart from what they refer to, nothing is wrong with the nodes. -/
structure Registrable (resources : List String) (passes : List Pass) (moves : List Move) :
    Prop where
  resource_names : resources.Nodup
  pass_names : (passes.map (·.name)).Nodup
  named : ∀ pass ∈ passes, pass.name ≠ ""
  balanced : ∀ pass ∈ passes, pass.kind = .copy → pass.inputs.length = pass.outputs.length
  apart : ∀ m ∈ moves, m.dst ≠ m.src
  sources : (moves.map (·.src)).Nodup
  targets : (moves.map (·.dst)).Nodup

/-- Nothing is wrong with the nodes of a consistent frame. -/
theorem Consistent.registrable (h : frame.Consistent) :
    Registrable frame.resources frame.passes frame.moves where
  resource_names := by simpa using h.resources.nodup
  pass_names := h.passes.nodup
  named := h.pass_named
  balanced := h.copy_balanced
  apart := h.move_apart
  sources := h.movesOut.nodup
  targets := h.movesIn.nodup

/-- The calls register these nodes and nothing else, each node after the resources that it refers
to. -/
structure Introduces (ds : List Declaration) (resources : List String) (passes : List Pass)
    (moves : List Move) : Prop where
  resources : ds.filterMap Declaration.resource? = resources
  passes : ds.filterMap Declaration.pass? = passes
  moves : ds.filterMap Declaration.move? = moves
  keeps : .clear ∉ ds
  known : ∀ pre d post, ds = pre ++ d :: post → ∀ r ∈ d.mentions,
    r.index < (pre.filterMap Declaration.resource?).length

/-- A consistent frame with just these nodes. -/
structure Holds (frame : Frame) (resources : List String) (passes : List Pass) (moves : List Move) :
    Prop where
  consistent : frame.Consistent
  resources : frame.resources = resources
  passes : frame.passes = passes
  moves : frame.moves = moves

/-- The frame has what the calls registered. -/
def HasRegistered (ds : List Declaration) (frame : Frame) : Prop :=
  frame.Holds (ds.filterMap Declaration.resource?) (ds.filterMap Declaration.pass?)
    (ds.filterMap Declaration.move?)

theorem not_mem_of_nodup {α κ : Type} {key : α → κ} {xs pre post : List α} {x : α}
    (h : (xs.map key).Nodup) (hxs : xs = pre ++ x :: post) : key x ∉ pre.map key := by
  rw [hxs, List.map_append, List.map_cons] at h
  exact fun hx => (List.nodup_append.mp h).2.2 _ hx _ (List.mem_cons_self ..) rfl

/-- What one call registers stands between what those before and after it do. -/
theorem filterMap_split {α : Type} {f : Declaration → Option α} {x : α} (hd : f d = some x)
    (hds : ds = pre ++ d :: post) :
    ds.filterMap f = pre.filterMap f ++ x :: post.filterMap f := by
  rw [hds, List.filterMap_append, List.filterMap_cons_some hd]

/-- One more call is accepted. -/
theorem Registrable.declare (h : Registrable resources passes moves)
    (hds : Introduces ds resources passes moves) (hsplit : ds = pre ++ d :: post)
    (hframe : frame.HasRegistered pre) :
    ∃ next, frame.declare d = .ok next ∧ next.HasRegistered (pre ++ [d]) := by
  have hknown : ∀ r ∈ d.mentions, frame.hasResource r := fun r hr => by
    rw [hasResource_iff, hframe.resources]
    exact hds.known pre d post hsplit r hr
  cases d with
  | resource name =>
      have hresources : resources = pre.filterMap Declaration.resource? ++ name :: _ :=
        hds.resources ▸ filterMap_split (f := Declaration.resource?) rfl hsplit
      have hnodup : (resources.map id).Nodup := (List.map_id resources).symm ▸ h.resource_names
      have hfresh : frame.resourceIds.find? name = none := by
        rw [hframe.consistent.resources.eq_none_iff, hframe.resources]
        exact not_mem_of_nodup hnodup hresources
      refine ⟨_, except_map_ok.mpr ⟨_, addResource_ok.mpr ⟨hfresh, rfl, rfl⟩, rfl⟩,
        hframe.consistent.withResource hfresh, ?_, ?_, ?_⟩
      · rw [List.filterMap_append, ← hframe.resources]
        rfl
      · rw [List.filterMap_append, ← hframe.passes]
        exact (List.append_nil _).symm
      · rw [List.filterMap_append, ← hframe.moves]
        exact (List.append_nil _).symm
  | pass pass =>
      have hpasses : passes = pre.filterMap Declaration.pass? ++ pass :: _ :=
        hds.passes ▸ filterMap_split (f := Declaration.pass?) rfl hsplit
      have hmem : pass ∈ passes := by simp [hpasses]
      have hadmits : frame.AdmitsPass pass := by
        refine ⟨h.named pass hmem, ?_, h.balanced pass hmem, fun r hr => ?_⟩
        · rw [hframe.consistent.passes.eq_none_iff, hframe.passes]
          exact not_mem_of_nodup h.pass_names hpasses
        · exact hknown r (List.mem_append.mpr (Pass.mem_resources.mp hr))
      refine ⟨_, except_map_ok.mpr ⟨_, addPass_ok.mpr ⟨hadmits, rfl, rfl⟩, rfl⟩,
        hframe.consistent.withPass hadmits, ?_, ?_, ?_⟩
      · rw [List.filterMap_append, ← hframe.resources]
        exact (List.append_nil _).symm
      · rw [List.filterMap_append, ← hframe.passes]
        rfl
      · rw [List.filterMap_append, ← hframe.moves]
        exact (List.append_nil _).symm
  | move move =>
      have hmoves : moves = pre.filterMap Declaration.move? ++ move :: _ :=
        hds.moves ▸ filterMap_split (f := Declaration.move?) rfl hsplit
      have hadmits : frame.AdmitsMove move := by
        refine ⟨hknown _ (List.mem_cons_self ..), hknown _ (by simp [Declaration.mentions]),
          h.apart move (by simp [hmoves]), ?_, ?_⟩
        · rw [hframe.consistent.movesOut.eq_none_iff, hframe.moves]
          exact not_mem_of_nodup h.sources hmoves
        · rw [hframe.consistent.movesIn.eq_none_iff, hframe.moves]
          exact not_mem_of_nodup h.targets hmoves
      refine ⟨_, except_map_ok.mpr ⟨_, addMove_ok.mpr ⟨hadmits, rfl, rfl⟩, rfl⟩,
        hframe.consistent.withMove hadmits, ?_, ?_, ?_⟩
      · rw [List.filterMap_append, ← hframe.resources]
        exact (List.append_nil _).symm
      · rw [List.filterMap_append, ← hframe.passes]
        exact (List.append_nil _).symm
      · rw [List.filterMap_append, ← hframe.moves]
        rfl
  | clear => exact absurd (by simp [hsplit]) hds.keeps

/-- **Every call is accepted**, and the frame has the nodes in the order of the calls. -/
theorem Registrable.accepted (h : Registrable resources passes moves)
    (hds : Introduces ds resources passes moves) (name : String) :
    ∃ last, (empty name).declareAll ds = (last, []) ∧ last.Holds resources passes moves := by
  suffices ∀ post pre frame, ds = pre ++ post → HasRegistered pre frame →
      ∃ last, frame.declareAll post = (last, []) ∧ last.HasRegistered ds by
    obtain ⟨last, hlast, hholds⟩ := this ds [] (empty name) rfl ⟨.empty name, rfl, rfl, rfl⟩
    rw [HasRegistered, hds.resources, hds.passes, hds.moves] at hholds
    exact ⟨last, hlast, hholds⟩
  intro post
  induction post with
  | nil =>
      intro pre frame hsplit hframe
      rw [List.append_nil] at hsplit
      exact ⟨frame, rfl, hsplit ▸ hframe⟩
  | cons d post ih =>
      intro pre frame hsplit hframe
      obtain ⟨next, hnext, hregistered⟩ := h.declare hds hsplit hframe
      obtain ⟨last, hlast, hholds⟩ := ih (pre ++ [d]) next (by simpa using hsplit) hregistered
      refine ⟨last, ?_, hholds⟩
      rw [declareAll, hnext]
      exact hlast

/-- The resources first, then the passes, and then the moves. -/
def inOrder (resources : List String) (passes : List Pass) (moves : List Move) :
    List Declaration :=
  resources.map .resource ++ (passes.map .pass ++ moves.map .move)

theorem introduces_inOrder
    (hpasses : ∀ pass ∈ passes, ∀ r ∈ pass.resources, r.index < resources.length)
    (hmoves : ∀ m ∈ moves, m.src.index < resources.length ∧ m.dst.index < resources.length) :
    Introduces (inOrder resources passes moves) resources passes moves where
  resources := by simp [inOrder, Function.comp_def, Declaration.resource?]
  passes := by simp [inOrder, Function.comp_def, Declaration.pass?]
  moves := by simp [inOrder, Function.comp_def, Declaration.move?]
  keeps := by simp [inOrder]
  known := by
    intro pre d post hsplit r hr
    have hresources : (resources.map Declaration.resource).filterMap Declaration.resource? =
        resources := by simp [Function.comp_def, Declaration.resource?]
    have hmem : d ∈ inOrder resources passes moves := by simp [hsplit]
    have hlt : r.index < resources.length := by
      simp only [inOrder, List.mem_append, List.mem_map] at hmem
      rcases hmem with ⟨_, _, rfl⟩ | ⟨pass, hpass, rfl⟩ | ⟨m, hm, rfl⟩
      · exact absurd hr List.not_mem_nil
      · exact hpasses pass hpass r (Pass.mem_resources.mpr (List.mem_append.mp hr))
      · obtain ⟨hsrc, hdst⟩ := hmoves m hm
        simp only [Declaration.mentions, List.mem_cons, List.not_mem_nil, or_false] at hr
        rcases hr with rfl | rfl
        · exact hdst
        · exact hsrc
    -- A call that mentions a resource stands behind the calls that register them.
    refine Nat.lt_of_lt_of_le hlt ?_
    rw [← hresources]
    rcases List.append_eq_append_iff.mp hsplit with ⟨_, hpre, _⟩ | ⟨between, hpre, hrest⟩
    · rw [hpre, List.filterMap_append, List.length_append]
      exact Nat.le_add_right _ _
    · cases between with
      | nil => exact Nat.le_of_eq (by rw [hpre, List.append_nil])
      | cons c between =>
          have hc : d ∈ resources.map Declaration.resource := by
            rw [hpre, (List.cons.inj hrest).1]
            simp
          obtain ⟨_, _, rfl⟩ := List.mem_map.mp hc
          exact absurd hr List.not_mem_nil

end Frame

end FramePlan
