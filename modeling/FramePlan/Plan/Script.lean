import FramePlan.Plan.Basic

/-!
# The script of a plan

A plan fixes, before anything runs, which actions a sequential run takes and in which order: those
of the prologue, and then pass by pass the constructs, the request, the work, the moves and the
destructs. The script does not depend on how the actions turn out.
-/

namespace FramePlan

/-- One action of a run. -/
inductive Action where
  | construct (resource : ResourceId)
  | move (move : Move)
  | destruct (resource : ResourceId)
  | request (pass : PassId)
  | work (pass : PassId)
deriving DecidableEq

namespace Events

/-- What happens before the pass runs. -/
def before (events : Events) : List Action := events.constructs.map .construct

/-- What happens after the pass is complete. -/
def after (events : Events) : List Action :=
  events.moves.map .move ++ events.destructs.map .destruct

end Events

/-- The actions of one pass. -/
def ScheduledPass.script (scheduled : ScheduledPass) : List Action :=
  scheduled.events.before ++ [.request scheduled.pass, .work scheduled.pass] ++
    scheduled.events.after

/-- The actions of a plan. -/
def Plan.script (plan : Plan) : List Action :=
  plan.prologue.before ++ plan.prologue.after ++ plan.schedule.flatMap ScheduledPass.script

/-- The resources that the plan constructs. -/
def Plan.constructs (plan : Plan) : List ResourceId :=
  plan.prologue.constructs ++ plan.schedule.flatMap (·.events.constructs)

end FramePlan
