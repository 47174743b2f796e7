import FramePlan.Frame.Basic

/-!
# Declarations

A frame is built by a sequence of calls, each of which registers one node or clears the frame.
`Frame.declareAll` makes the calls one after another and goes on after a refused one;
`Frame.Declared` says that a frame came about that way.
-/

namespace FramePlan

/-- One call that changes a frame. -/
inductive Declaration where
  | resource (name : String)
  | pass (pass : Pass)
  | move (move : Move)
  | clear
deriving DecidableEq

namespace Frame

/-- The frame after one call. -/
def declare (frame : Frame) : Declaration → Except FrameError Frame
  | .resource name => (frame.addResource name).map (·.2)
  | .pass pass => (frame.addPass pass).map (·.2)
  | .move move => (frame.addMove move).map (·.2)
  | .clear => .ok frame.clear

/-- The frame after a sequence of calls, and the errors of the refused ones, in order. -/
def declareAll (frame : Frame) : List Declaration → Frame × List FrameError
  | [] => (frame, [])
  | d :: rest =>
    match frame.declare d with
    | .ok next => next.declareAll rest
    | .error e =>
      let (last, errors) := frame.declareAll rest
      (last, e :: errors)

/-- The frame that a sequence of calls makes of an empty one. -/
def ofDeclarations (name : String) (ds : List Declaration) : Frame := ((empty name).declareAll ds).1

/-- The frame came about by registration calls and nothing else. -/
def Declared (frame : Frame) : Prop := ∃ name ds, frame = ofDeclarations name ds

end Frame

end FramePlan
