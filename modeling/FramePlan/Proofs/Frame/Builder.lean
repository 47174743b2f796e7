import FramePlan.Frame.Builder
import FramePlan.Proofs.Frame.Moves
import Mathlib.Data.List.Infix

/-!
# What registration in place guarantees

Every check of a registration comes before its first write, so a refused call leaves the frame as it
was, and an accepted one makes of it what `Frame.addResource` and its siblings make.

* `Frame.registerResource_eq`, `Frame.registerPass_eq`, `Frame.registerMove_eq` — a call in place
  ends as the call that makes a new frame.
* `Frame.afterCalls_eq` — the same for a sequence of calls.
* `Frame.registration_sound` — what every sequence of calls leaves, and what one more call does.
-/

namespace FramePlan

namespace Frame

variable {frame : Frame} {α β : Type}

/-! ### Calls that change the frame at hand -/

/-- The answer to a call, put into effect on the frame at hand: a refusal leaves it as it is. -/
def settle (frame : Frame) : Except FrameError (α × Frame) → EStateM.Result FrameError Frame α
  | .ok (a, next) => .ok a next
  | .error e => .error e frame

theorem nextId_of_lt {k : NodeKind} {count : Nat} (h : count < idCount) :
    nextId k count = ⟨count⟩ :=
  NodeId.ext (Nat.mod_eq_of_lt h)

theorem checkResource_eq (frame : Frame) (r : ResourceId) : checkResource r frame =
    if frame.hasResource r then .ok () frame else .error (.unknownResource r) frame := by
  show (if frame.hasResource r then (pure () : EStateM FrameError Frame Unit)
    else throw (.unknownResource r)) frame = _
  split <;> rfl

/-- Of several resources, the first unknown one is the answer. -/
theorem checkResources_eq (frame : Frame) (rs : List ResourceId) : rs.forM checkResource frame =
    match rs.find? (fun r => !frame.hasResource r) with
    | some r => .error (.unknownResource r) frame
    | none => .ok () frame := by
  induction rs with
  | nil => rfl
  | cons r rs ih =>
      have hfirst := checkResource_eq frame r
      cases hr : frame.hasResource r with
      | true =>
          rw [hr, if_pos rfl] at hfirst
          rw [List.find?_cons_of_neg (by simp [hr]), ← ih]
          exact bind_of_ok hfirst
      | false =>
          rw [hr, if_neg Bool.false_ne_true] at hfirst
          rw [List.find?_cons_of_pos (by simp [hr])]
          exact bind_of_error hfirst

theorem registerResource_eq (hsmall : frame.Small) (name : String) :
    registerResource name frame = frame.settle (frame.addResource name) := by
  show (if frame.resourceIds.contains name then _ else _ : EStateM FrameError Frame _) frame = _
  rw [addResource, ← nextId_of_lt hsmall.resources]
  split <;> rfl

theorem registerPass_eq (hsmall : frame.Small) (pass : Pass) :
    registerPass pass frame = frame.settle (frame.addPass pass) := by
  rw [registerPass, addPass, ← nextId_of_lt hsmall.passes]
  split
  · rfl
  show (if frame.passIds.contains pass.name then _ else _ : EStateM FrameError Frame _) frame = _
  split
  · rfl
  split
  · rfl
  have hchecks := checkResources_eq frame (pass.inputs ++ pass.outputs)
  split
  · next r hfind =>
    rw [hfind] at hchecks
    exact bind_of_error hchecks
  · next hfind =>
    rw [hfind] at hchecks
    exact bind_of_ok hchecks

theorem registerMove_eq (hsmall : frame.Small) (move : Move) :
    registerMove move frame = frame.settle (frame.addMove move) := by
  have hdst := checkResource_eq frame move.dst
  have hsrc := checkResource_eq frame move.src
  rw [registerMove, addMove, ← nextId_of_lt hsmall.moves]
  cases hd : frame.hasResource move.dst with
  | false =>
      rw [hd] at hdst
      exact bind_of_error hdst
  | true =>
      rw [hd] at hdst
      rw [bind_of_ok hdst]
      cases hs : frame.hasResource move.src with
      | false =>
          rw [hs] at hsrc
          exact bind_of_error hsrc
      | true =>
          rw [hs] at hsrc
          rw [bind_of_ok hsrc]
          simp only [Bool.not_true, Bool.false_eq_true, if_false]
          split
          · rfl
          show (if frame.movesOut.contains move.src then _ else _ :
            EStateM FrameError Frame _) frame = _
          split
          · rfl
          show (if frame.movesIn.contains move.dst then _ else _ :
            EStateM FrameError Frame _) frame = _
          split <;> rfl

/-! ### Sequences of calls -/

/-- A call whose id is of no use ends as the call does. -/
theorem discard_eq {act : EStateM FrameError Frame α} {answer : Except FrameError (α × Frame)}
    (hact : act frame = frame.settle answer) : (discard act : EStateM FrameError Frame Unit) frame =
      frame.settle ((answer.map (·.2)).map fun next => ((), next)) := by
  cases answer with
  | ok added => exact bind_of_ok hact
  | error e => exact bind_of_error hact

/-- A call in place ends as the call that makes a new frame. -/
theorem call_eq (hsmall : frame.Small) (d : Declaration) :
    call d frame = frame.settle ((frame.declare d).map fun next => ((), next)) := by
  cases d with
  | resource name => exact discard_eq (registerResource_eq hsmall name)
  | pass pass => exact discard_eq (registerPass_eq hsmall pass)
  | move move => exact discard_eq (registerMove_eq hsmall move)
  | clear => rfl

/-- Calls in place leave the frame that calls from one frame to the next come to. -/
theorem afterCalls_eq {ds : List Declaration}
    (hsmall : ∀ early, early <+: ds → (frame.afterCalls early).Small) :
    frame.afterCalls ds = (frame.declareAll ds).1 := by
  induction ds generalizing frame with
  | nil => rfl
  | cons d ds ih =>
      have hrest : ∀ early, early <+: ds → ((frame.afterCall d).afterCalls early).Small :=
        fun early hearly => hsmall (d :: early) (List.cons_prefix_cons.mpr ⟨rfl, hearly⟩)
      have hframe : frame.Small := hsmall [] List.nil_prefix
      have hcall := call_eq hframe d
      rw [declareAll]
      show (frame.afterCall d).afterCalls ds = _
      rw [ih hrest, afterCall, hcall]
      cases frame.declare d <;> rfl

/-! ### What a registration leaves as it was -/

/-- All that could be looked up before can be looked up still, with the same answer. -/
structure Grows (frame next : Frame) : Prop where
  resource? : ∀ {r name}, frame.resource? r = some name → next.resource? r = some name
  pass? : ∀ {p pass}, frame.pass? p = some pass → next.pass? p = some pass
  move? : ∀ {m move}, frame.move? m = some move → next.move? m = some move
  resourceIds : ∀ {name r}, frame.resourceIds.find? name = some r →
    next.resourceIds.find? name = some r
  passIds : ∀ {name p}, frame.passIds.find? name = some p → next.passIds.find? name = some p
  movesOut : ∀ {r m}, frame.movesOut.get? r = some m → next.movesOut.get? r = some m
  movesIn : ∀ {r m}, frame.movesIn.get? r = some m → next.movesIn.get? r = some m

/-- A key under which nothing is found takes nothing away. -/
theorem find_of_new {κ : Type} [DecidableEq κ] {find find' : κ → Option α} {x y : κ} {a b : α}
    (hnew : find x = none) (hfind : find' y = if y = x then some b else find y)
    (hy : find y = some a) : find' y = some a := by
  rw [hfind, if_neg, hy]
  rintro rfl
  cases hnew.symm.trans hy

theorem getElem?_append_of_some {xs ys : List α} {i : Nat} {a : α} (h : xs[i]? = some a) :
    (xs ++ ys)[i]? = some a := by
  rw [List.getElem?_append_left (List.getElem?_eq_some_iff.mp h).1]
  exact h

theorem grows_withResource {name : String} (hfresh : frame.resourceIds.find? name = none) :
    frame.Grows (frame.withResource name) where
  resource? h := getElem?_append_of_some h
  pass? h := h
  move? h := h
  resourceIds h := find_of_new hfresh NameTable.find?_add h
  passIds h := h
  movesOut h := h
  movesIn h := h

theorem grows_withPass {pass : Pass} (hadmits : frame.AdmitsPass pass) :
    frame.Grows (frame.withPass pass) where
  resource? h := h
  pass? h := getElem?_append_of_some h
  move? h := h
  resourceIds h := h
  passIds h := find_of_new hadmits.fresh NameTable.find?_add h
  movesOut h := h
  movesIn h := h

theorem grows_withMove {move : Move} (hadmits : frame.AdmitsMove move) :
    frame.Grows (frame.withMove move) where
  resource? h := h
  pass? h := h
  move? h := getElem?_append_of_some h
  resourceIds h := h
  passIds h := h
  movesOut h := find_of_new hadmits.src_free IdMap.get?_insert h
  movesIn h := find_of_new hadmits.dst_free IdMap.get?_insert h

/-- What one more registration does: it returns how many nodes of its kind there were and keeps all
that could be looked up, or it is refused and nothing changes. -/
structure Registers (frame : Frame) : Prop where
  resource : ∀ name, Ends (registerResource name) frame
    (fun id next => id.index = frame.resources.length ∧ next.resource? id = some name ∧
      frame.Grows next) fun _ after => after = frame
  pass : ∀ pass, Ends (registerPass pass) frame
    (fun id next => id.index = frame.passes.length ∧ next.pass? id = some pass ∧
      frame.Grows next) fun _ after => after = frame
  move : ∀ move, Ends (registerMove move) frame
    (fun id next => id.index = frame.moves.length ∧ next.move? id = some move ∧
      frame.Grows next) fun _ after => after = frame

/-- An answer that is put into effect changes nothing if it is a refusal. -/
theorem ends_settle {act : EStateM FrameError Frame α} {answer : Except FrameError (α × Frame)}
    {returned : α → Frame → Prop} (hact : act frame = frame.settle answer)
    (hok : ∀ a next, answer = .ok (a, next) → returned a next) :
    Ends act frame returned fun _ after => after = frame := by
  cases answer with
  | ok added => exact Ends.of_ok hact (hok added.1 added.2 rfl)
  | error e => exact Ends.of_error hact rfl

theorem registers (hsmall : frame.Small) : frame.Registers where
  resource name := ends_settle (registerResource_eq hsmall name) fun id next hadd => by
    obtain ⟨hfresh, rfl, rfl⟩ := addResource_ok.mp hadd
    exact ⟨rfl, List.getElem?_concat_length, grows_withResource hfresh⟩
  pass pass := ends_settle (registerPass_eq hsmall pass) fun id next hadd => by
    obtain ⟨hadmits, rfl, rfl⟩ := addPass_ok.mp hadd
    exact ⟨rfl, List.getElem?_concat_length, grows_withPass hadmits⟩
  move move := ends_settle (registerMove_eq hsmall move) fun id next hadd => by
    obtain ⟨hadmits, rfl, rfl⟩ := addMove_ok.mp hadd
    exact ⟨rfl, List.getElem?_concat_length, grows_withMove hadmits⟩

/-! ### What a sequence of calls leaves -/

/-- A frame as a sequence of calls leaves it. -/
structure Built (name : String) (ds : List Declaration) (frame : Frame) : Prop where
  /-- It is the frame that is planned and run. -/
  eq : frame = ofDeclarations name ds
  /-- The look-ups are the inverses of the lists, and every node is as it has to be. -/
  consistent : frame.Consistent
  resource_names : frame.resources.Nodup
  pass_names : (frame.passes.map (·.name)).Nodup
  moves_apart : frame.MovesApart
  /-- One more registration adds a node after the others, or changes nothing. -/
  registers : frame.Registers

/-- **What every sequence of calls leaves**, as long as there are ids for all nodes. -/
theorem registration_sound {name : String} {ds : List Declaration}
    (hsmall : ∀ early, early <+: ds → ((empty name).afterCalls early).Small) :
    Built name ds ((empty name).afterCalls ds) := by
  have heq : (empty name).afterCalls ds = ofDeclarations name ds := afterCalls_eq hsmall
  have hconsistent : ((empty name).afterCalls ds).Consistent := Declared.consistent ⟨name, ds, heq⟩
  refine ⟨heq, hconsistent, ?_, hconsistent.passes.nodup, hconsistent.movesApart,
    registers (hsmall ds List.prefix_rfl)⟩
  have hnames := hconsistent.resources.nodup
  rwa [List.map_id] at hnames

/-- Calls of which some are refused: a name is taken, a resource is not registered, and a resource
is moved out twice. -/
def retried : List Declaration :=
  [.resource "old", .clear, .resource "draft", .resource "draft", .resource "final",
    .pass ⟨.copy, "keep", [⟨0⟩], [⟨2⟩]⟩, .pass ⟨.copy, "keep", [⟨0⟩], [⟨1⟩]⟩, .move ⟨⟨1⟩, ⟨0⟩⟩,
    .move ⟨⟨1⟩, ⟨0⟩⟩]

/-- The refused calls leave nothing behind. -/
theorem registration_sound_retried : Built "frame" retried ((empty "frame").afterCalls retried) ∧
    ((empty "frame").afterCalls retried).resources = ["draft", "final"] := by
  refine ⟨registration_sound fun early hearly => ?_, by decide⟩
  have hall : ∀ early ∈ retried.inits, ((empty "frame").afterCalls early).Small := by decide
  exact hall early ((List.mem_inits early retried).mpr hearly)

end Frame

end FramePlan
