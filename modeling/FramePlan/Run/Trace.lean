import FramePlan.Run.Interleaving

/-!
# Traces of a parallel run

A trace is the sequence of turns that workers took at the dispatch, each with the pass it was about
and whether it went well.

* `Dispatch.reachable_iff_exists_trace` — what is reachable is what traces lead to.
-/

namespace FramePlan

/-- What a worker did to the dispatch in one turn, and whether it went well. -/
inductive Turn where
  /-- It began the pass. -/
  | begin (pass : PassId) (ok : Bool)
  /-- It did the work of the pass and finished it. -/
  | finish (pass : PassId) (ok : Bool)
  /-- It found that nothing can go on. -/
  | stall
deriving DecidableEq

namespace Turn

/-- Whether the turn went well. -/
def isOk : Turn → Bool
  | begin _ ok => ok
  | finish _ ok => ok
  | stall => false

/-- The pass that began, well or not. -/
def begun? : Turn → Option PassId
  | begin p _ => some p
  | _ => none

/-- The pass that did its work, well or not. -/
def ran? : Turn → Option PassId
  | finish p _ => some p
  | _ => none

end Turn

namespace Dispatch

variable {σ η : Type}

/-- Whether an attempt came to its end. -/
def isReturned {ε α : Type} : EStateM.Result ε σ α → Bool
  | .ok _ _ => true
  | .error _ _ => false

/-- The turns lead from the first dispatch to the second. -/
inductive Trace (host : Host σ η) (frame : Frame) (plan : Plan) (first : Dispatch σ η) :
    List Turn → Dispatch σ η → Prop where
  | nil : Trace host frame plan first [] first
  | begin {turns : List Turn} {d e : Dispatch σ η} {p : PassId} {frontier : Frontier} :
    Trace host frame plan first turns d → d.begin? host frame plan = some e →
    d.frontier.take? = some (p, frontier) →
    Trace host frame plan first
      (turns ++ [.begin p (isReturned (beginPass host frame plan p { d with frontier }))]) e
  | finish {turns : List Turn} {d : Dispatch σ η} {running : PassId × IdMap .resource η} :
    Trace host frame plan first turns d → running ∈ d.running →
    Trace host frame plan first
      (turns ++ [.finish running.1 (isReturned (finishPass host frame plan running d))])
      (d.finish host frame plan running)
  | stall {turns : List Turn} {d e : Dispatch σ η} :
    Trace host frame plan first turns d → d.stall? plan = some e →
    Trace host frame plan first (turns ++ [.stall]) e

theorem reachable_iff_exists_trace {host : Host σ η} {frame : Frame} {plan : Plan}
    {first d : Dispatch σ η} :
    Reachable host frame plan first d ↔ ∃ turns, Trace host frame plan first turns d := by
  constructor
  · intro h
    induction h with
    | refl => exact ⟨[], .nil⟩
    | step _ hstep ih =>
        obtain ⟨turns, htrace⟩ := ih
        cases hstep with
        | begin hbegin =>
            have hbegin' := hbegin
            unfold begin? at hbegin'
            split at hbegin'
            · cases hbegin'
            · obtain ⟨⟨p, frontier⟩, htake, _⟩ := Option.map_eq_some_iff.mp hbegin'
              exact ⟨_, .begin htrace hbegin htake⟩
        | finish hrunning => exact ⟨_, .finish htrace hrunning⟩
        | stall hstall => exact ⟨_, .stall htrace hstall⟩
  · rintro ⟨turns, h⟩
    induction h with
    | nil => exact .refl
    | begin _ hbegin _ ih => exact ih.step (.begin hbegin)
    | finish _ hrunning ih => exact ih.step (.finish hrunning)
    | stall _ hstall ih => exact ih.step (.stall hstall)

end Dispatch

end FramePlan
