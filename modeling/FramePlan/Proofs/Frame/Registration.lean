import FramePlan.Frame.Access
import FramePlan.Frame.Declaration
import FramePlan.Proofs.Outcome

/-!
# What registration guarantees

A registration is checked against what is registered already. So in a frame that came about by
registrations every node refers to registered resources, and every copy pairs its inputs with its
outputs.

* `Frame.addResource_ok`, `Frame.addPass_ok`, `Frame.addMove_ok` — what a frame accepts, and the
  frame that comes of it.
* `Frame.Declared.induct` — what every accepted call keeps, a declared frame has.
* `Frame.Declared.wellFormed` — a declared frame is well formed.
-/

namespace FramePlan

namespace Frame

variable {frame next : Frame}

/-! ### Accepted registrations -/

/-- The frame with one more resource. -/
def withResource (frame : Frame) (name : String) : Frame :=
  { frame with
    resources := frame.resources ++ [name]
    resourceIds := frame.resourceIds.add name ⟨frame.resources.length⟩ }

/-- The frame with one more pass. -/
def withPass (frame : Frame) (pass : Pass) : Frame :=
  { frame with
    passes := frame.passes ++ [pass]
    passIds := frame.passIds.add pass.name ⟨frame.passes.length⟩ }

/-- The frame with one more move. -/
def withMove (frame : Frame) (move : Move) : Frame :=
  { frame with
    moves := frame.moves ++ [move]
    movesOut := frame.movesOut.insert move.src ⟨frame.moves.length⟩
    movesIn := frame.movesIn.insert move.dst ⟨frame.moves.length⟩ }

/-- The frame has all that a pass asks for. -/
structure AdmitsPass (frame : Frame) (pass : Pass) : Prop where
  named : pass.name ≠ ""
  fresh : frame.passIds.find? pass.name = none
  balanced : pass.kind = .copy → pass.inputs.length = pass.outputs.length
  known : ∀ r ∈ pass.resources, frame.hasResource r

/-- The frame has all that a move asks for. -/
structure AdmitsMove (frame : Frame) (move : Move) : Prop where
  known_dst : frame.hasResource move.dst
  known_src : frame.hasResource move.src
  apart : move.dst ≠ move.src
  src_free : frame.movesOut.get? move.src = none
  dst_free : frame.movesIn.get? move.dst = none

theorem hasResource_iff {r : ResourceId} :
    frame.hasResource r ↔ r.index < frame.resources.length := by
  simp [hasResource]

/-- A resource is accepted just when its name is new. -/
theorem addResource_ok {name : String} {id : ResourceId} :
    frame.addResource name = .ok (id, next) ↔ frame.resourceIds.find? name = none ∧
      id = ⟨frame.resources.length⟩ ∧ next = frame.withResource name := by
  rw [← NameTable.not_contains_iff, addResource]
  split
  · next hname => simp [hname]
  · next hname => simp [hname, withResource, eq_comm]

/-- A pass is accepted just when the frame has all that it asks for. -/
theorem addPass_ok {pass : Pass} {id : PassId} :
    frame.addPass pass = .ok (id, next) ↔ frame.AdmitsPass pass ∧
      id = ⟨frame.passes.length⟩ ∧ next = frame.withPass pass := by
  constructor
  · intro h
    rw [addPass] at h
    split at h
    · cases h
    next hnamed =>
    split at h
    · cases h
    next hfresh =>
    split at h
    · cases h
    next harity =>
    split at h
    · cases h
    next hfind =>
    cases h
    refine ⟨⟨hnamed, NameTable.not_contains_iff.mp hfresh, fun hcopy => ?_, fun r hr => ?_⟩, rfl,
      rfl⟩
    · by_contra hne
      exact harity ⟨by simp [Pass.isCopy, hcopy], hne⟩
    · have hmem := List.mem_append.mpr (Pass.mem_resources.mp hr)
      simpa using List.find?_eq_none.mp hfind r hmem
  · rintro ⟨hadmits, rfl, rfl⟩
    have harity : ¬ (pass.isCopy ∧ pass.inputs.length ≠ pass.outputs.length) := fun h =>
      h.2 (hadmits.balanced (of_decide_eq_true h.1))
    have hfind : (pass.inputs ++ pass.outputs).find? (fun r => !frame.hasResource r) = none := by
      refine List.find?_eq_none.mpr fun r hr => ?_
      simpa using hadmits.known r (Pass.mem_resources.mpr (List.mem_append.mp hr))
    rw [addPass, if_neg hadmits.named, if_neg (NameTable.not_contains_iff.mpr hadmits.fresh),
      if_neg harity, hfind]
    rfl

/-- A move is accepted just when the frame has all that it asks for. -/
theorem addMove_ok {move : Move} {id : MoveId} :
    frame.addMove move = .ok (id, next) ↔ frame.AdmitsMove move ∧
      id = ⟨frame.moves.length⟩ ∧ next = frame.withMove move := by
  constructor
  · intro h
    rw [addMove] at h
    split at h
    · cases h
    next hdst =>
    split at h
    · cases h
    next hsrc =>
    split at h
    · cases h
    next hapart =>
    split at h
    · cases h
    next hout =>
    split at h
    · cases h
    next hin =>
    cases h
    exact ⟨⟨by simpa using hdst, by simpa using hsrc, hapart, IdMap.not_contains_iff.mp hout,
      IdMap.not_contains_iff.mp hin⟩, rfl, rfl⟩
  · rintro ⟨hadmits, rfl, rfl⟩
    rw [addMove, if_neg (by simpa using hadmits.known_dst),
      if_neg (by simpa using hadmits.known_src), if_neg hadmits.apart,
      if_neg (IdMap.not_contains_iff.mpr hadmits.src_free),
      if_neg (IdMap.not_contains_iff.mpr hadmits.dst_free)]
    rfl

/-- What an empty frame has and every accepted call keeps, a declared frame has. -/
theorem Declared.induct {P : Frame → Prop} (h : frame.Declared)
    (empty : ∀ name, P (Frame.empty name))
    (resource : ∀ {frame : Frame} {name}, P frame → frame.resourceIds.find? name = none →
      P (frame.withResource name))
    (pass : ∀ {frame : Frame} {pass}, P frame → frame.AdmitsPass pass → P (frame.withPass pass))
    (move : ∀ {frame : Frame} {move}, P frame → frame.AdmitsMove move → P (frame.withMove move)) :
    P frame := by
  have declare : ∀ {frame next : Frame} {d}, P frame → frame.declare d = .ok next → P next := by
    intro frame next d hP hok
    cases d with
    | resource name =>
        obtain ⟨⟨id, _⟩, hadd, rfl⟩ := except_map_ok.mp hok
        obtain ⟨hfresh, _, rfl⟩ := addResource_ok.mp hadd
        exact resource hP hfresh
    | pass _ =>
        obtain ⟨⟨id, _⟩, hadd, rfl⟩ := except_map_ok.mp hok
        obtain ⟨hadmits, _, rfl⟩ := addPass_ok.mp hadd
        exact pass hP hadmits
    | move _ =>
        obtain ⟨⟨id, _⟩, hadd, rfl⟩ := except_map_ok.mp hok
        obtain ⟨hadmits, _, rfl⟩ := addMove_ok.mp hadd
        exact move hP hadmits
    | clear =>
        cases hok
        exact empty frame.name
  obtain ⟨name, ds, rfl⟩ := h
  suffices ∀ frame, P frame → P (frame.declareAll ds).1 from this _ (empty name)
  induction ds with
  | nil => exact fun _ h => h
  | cons d ds ih =>
      intro frame h
      rw [Frame.declareAll]
      split
      · next hok => exact ih _ (declare h hok)
      · exact ih _ h

/-! ### Well-formed frames -/

/-- Every node refers to registered resources, and a copy has as many outputs as inputs. -/
structure WellFormed (frame : Frame) : Prop where
  pass_resources : ∀ pass ∈ frame.passes, ∀ r ∈ pass.resources, frame.hasResource r
  copy_balanced : ∀ pass ∈ frame.passes, pass.kind = .copy →
    pass.inputs.length = pass.outputs.length
  move_ends : ∀ m ∈ frame.moves, frame.hasResource m.src ∧ frame.hasResource m.dst

namespace WellFormed

theorem empty (name : String) : (Frame.empty name).WellFormed where
  pass_resources := fun _ h => absurd h List.not_mem_nil
  copy_balanced := fun _ h => absurd h List.not_mem_nil
  move_ends := fun _ h => absurd h List.not_mem_nil

theorem withResource {name : String} (h : frame.WellFormed) :
    (frame.withResource name).WellFormed := by
  have grows : ∀ r, frame.hasResource r → (frame.withResource name).hasResource r := by
    intro r hr
    refine hasResource_iff.mpr (Nat.lt_of_lt_of_le (hasResource_iff.mp hr) ?_)
    exact (List.prefix_append frame.resources [name]).length_le
  refine ⟨fun pass hp r hr => grows r (h.pass_resources pass hp r hr), h.copy_balanced,
    fun m hm => ?_⟩
  obtain ⟨hsrc, hdst⟩ := h.move_ends m hm
  exact ⟨grows _ hsrc, grows _ hdst⟩

theorem withPass {pass : Pass} (h : frame.WellFormed) (hadmits : frame.AdmitsPass pass) :
    (frame.withPass pass).WellFormed := by
  refine ⟨fun other hp => ?_, fun other hp => ?_, h.move_ends⟩
  · rcases List.mem_append.mp hp with hp | hp
    · exact h.pass_resources other hp
    · cases List.mem_singleton.mp hp
      exact hadmits.known
  · rcases List.mem_append.mp hp with hp | hp
    · exact h.copy_balanced other hp
    · cases List.mem_singleton.mp hp
      exact hadmits.balanced

theorem withMove {move : Move} (h : frame.WellFormed) (hadmits : frame.AdmitsMove move) :
    (frame.withMove move).WellFormed := by
  refine ⟨h.pass_resources, h.copy_balanced, fun m hm => ?_⟩
  rcases List.mem_append.mp hm with hm | hm
  · exact h.move_ends m hm
  · cases List.mem_singleton.mp hm
    exact ⟨hadmits.known_src, hadmits.known_dst⟩

end WellFormed

theorem Declared.wellFormed (h : frame.Declared) : frame.WellFormed :=
  h.induct WellFormed.empty (fun hwell _ => hwell.withResource)
    (fun hwell hadmits => hwell.withPass hadmits) fun hwell hadmits => hwell.withMove hadmits

namespace WellFormed

variable {p : PassId} {r : ResourceId}

theorem hasResource_of_touches (h : frame.WellFormed) (htouch : frame.Touches p r) :
    frame.hasResource r := by
  obtain ⟨pass, hpass, hr⟩ := htouch
  exact h.pass_resources pass (List.mem_of_getElem? hpass) r hr

end WellFormed

end Frame

end FramePlan
