import FramePlan.Frame.Access
import FramePlan.MoveChain
import Mathlib.Logic.Function.Basic

/-!
# Values of resources

What a frame computes, whatever its passes do: each resource holds a value, a general pass turns
the values of its inputs into values of its outputs, a copy pass passes them on, and a move passes
a value on once no pass is left to use the source. `Dataflow.ofOrder` runs the passes in a given
order and keeps what each of them read.
-/

namespace FramePlan

namespace Pass

variable {ν : Type}

/-- The values that a pass gives its outputs, in the order of declaration. A general pass computes
them, each by its position among the outputs. -/
def results (pass : Pass) (compute : List ν → Nat → ν) (read : List ν) :
    List (ResourceId × ν) :=
  match pass.kind with
  | .general => pass.outputs.zipIdx.map fun (r, i) => (r, compute read i)
  | .copy => pass.outputs.zip read

/-- The value that a pass gives a resource; the last one, if it outputs the resource repeatedly. -/
def result? (pass : Pass) (compute : List ν → Nat → ν) (read : List ν) (r : ResourceId) :
    Option ν := (pass.results compute read).reverse.lookup r

/-- A pass gives values to its outputs only. -/
theorem result?_eq_none {pass : Pass} {compute : List ν → Nat → ν} {read : List ν}
    {r : ResourceId} (hr : r ∉ pass.outputs) : pass.result? compute read r = none := by
  unfold result?
  rw [List.lookup_eq_none_iff]
  intro e he
  rw [List.mem_reverse, results] at he
  have hout : e.1 ∈ pass.outputs := by
    cases hkind : pass.kind with
    | general =>
        rw [hkind] at he
        obtain ⟨⟨x, i⟩, hx, rfl⟩ := List.mem_map.mp he
        exact List.fst_mem_of_mem_zipIdx hx
    | copy =>
        rw [hkind] at he
        exact (List.of_mem_zip he).1
  simpa using fun heq : r = e.1 => hr (heq ▸ hout)

end Pass

instance (frame : Frame) (p : PassId) (r : ResourceId) : Decidable (frame.Touches p r) :=
  match hpass : frame.pass? p with
  | some _ => decidable_of_iff _ (Frame.touches_iff_mem hpass).symm
  | none => .isFalse fun ⟨_, hother, _⟩ => by cases hpass.symm.trans hother

/-- The values of resources while passes run. -/
@[ext]
structure Dataflow (ν : Type) where
  /-- The value that each resource holds. -/
  values : ResourceId → ν
  /-- The values that each pass found in its inputs, once it has run. -/
  readings : PassId → Option (List ν)

namespace Dataflow

variable {ν : Type}

/-- A pass reads its inputs, all of them before it sets its outputs. -/
def perform (frame : Frame) (compute : PassId → List ν → Nat → ν) (s : Dataflow ν)
    (p : PassId) : Dataflow ν :=
  match frame.pass? p with
  | none => s
  | some pass =>
    let read := pass.inputs.map s.values
    { values := fun r => (pass.result? (compute p) read r).getD (s.values r)
      readings := Function.update s.readings p (some read) }

/-- The values of some sources are passed on to what they are moved into. -/
def handOver (moves : MoveTable) (ripe : ResourceId → Prop) [DecidablePred ripe]
    (s : Dataflow ν) : Dataflow ν :=
  { s with
    values := fun d =>
      match moves.backward.get? d with
      | some src => if ripe src then s.values src else s.values d
      | none => s.values d }

/-- The passes run one after another. After each of them, those sources are handed over that no
pass after it uses. -/
def run (frame : Frame) (moves : MoveTable) (compute : PassId → List ν → Nat → ν) :
    List PassId → Dataflow ν → Dataflow ν
  | [], s => s
  | p :: rest, s =>
    run frame moves compute rest ((s.perform frame compute p).handOver moves fun r =>
      frame.Touches p r ∧ ∀ q ∈ rest, ¬ frame.Touches q r)

/-- What the passes compute in the given order, from the given values. Sources that none of them
uses are handed over before the first. -/
def ofOrder (frame : Frame) (moves : MoveTable) (compute : PassId → List ν → Nat → ν)
    (values : ResourceId → ν) (order : List PassId) : Dataflow ν :=
  run frame moves compute order
    (handOver moves (fun r => ∀ p ∈ order, ¬ frame.Touches p r) ⟨values, fun _ => none⟩)

end Dataflow

end FramePlan
