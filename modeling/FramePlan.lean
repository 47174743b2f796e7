import FramePlan.Frame.Access
import FramePlan.Frame.Declaration
import FramePlan.HandleTable
import FramePlan.Plan.Notes
import FramePlan.Plan.Refill
import FramePlan.Plan.Script
import FramePlan.Run.Audit
import FramePlan.Run.Crew
import FramePlan.Run.Interleaving
import FramePlan.Run.Lookup
import FramePlan.Run.Recorder
import FramePlan.Shelves
import FramePlan.Storage.Supply
import FramePlan.Version
import FramePlan.Proofs.Frame.Registration
import FramePlan.Proofs.MoveChain
import FramePlan.Proofs.PassGraph.Edges
import FramePlan.Proofs.PassGraph.Frontier
import FramePlan.Proofs.PassGraph.Order
import FramePlan.Proofs.Usage
import FramePlan.Proofs.PassGraph.Hazard
import FramePlan.Proofs.Lifetime
import FramePlan.Proofs.Plan.Basic
import FramePlan.Proofs.History
import FramePlan.Proofs.Plan.Script
import FramePlan.Proofs.Run.Dispatch
import FramePlan.Proofs.Run.Sequential
import FramePlan.Run.Trace
import FramePlan.Proofs.Run.Orderly
import FramePlan.Proofs.Run.Trace
import FramePlan.Proofs.Run.Projection
import FramePlan.Proofs.Run.Audit
import FramePlan.Proofs.Run.Scheduling
import FramePlan.Proofs.Run.Release
import FramePlan.Proofs.Run.Lockstep
import FramePlan.Proofs.IdMap
import FramePlan.Proofs.Stacks
import FramePlan.Proofs.Storage.Account
import FramePlan.Proofs.Storage.Ledger
import FramePlan.Proofs.Run.Observer
import FramePlan.Proofs.Plan.Live
import FramePlan.Proofs.Run.Lifecycle
import FramePlan.Proofs.Run.Agreement
import FramePlan.Proofs.Run.Exclusion
import FramePlan.Proofs.Plan.Precedence
import FramePlan.Proofs.Swaps
import FramePlan.Proofs.Dataflow
import FramePlan.Proofs.Plan.Outcome
import FramePlan.Proofs.Run.SingleWorker
import FramePlan.Storage.Chronicle
import FramePlan.Proofs.Storage.Session
import FramePlan.Proofs.Storage.Instances
import FramePlan.Proofs.Storage.Requirement
import FramePlan.Storage.Meter
import FramePlan.Proofs.Storage.Custody
import FramePlan.Proofs.Storage.Handover
import FramePlan.Proofs.Storage.Chronicle
import FramePlan.Proofs.Run.Handles
import FramePlan.Proofs.Run.Script
import FramePlan.Proofs.Storage.Demand
import FramePlan.Proofs.Run.Steady
import FramePlan.Proofs.PassGraph.Leftover
import FramePlan.Proofs.PassGraph.Countdown
import FramePlan.Proofs.Frame.Builder
import FramePlan.Proofs.Copies
import FramePlan.Proofs.Frame.Renumbering
import FramePlan.Proofs.Plan.Renumbering
import FramePlan.Proofs.Run.Lookup
import FramePlan.Proofs.Run.Mismatch
import FramePlan.Proofs.Run.FirstFailure
import FramePlan.Proofs.Plan.Events
import FramePlan.Proofs.MovePruning
import FramePlan.Proofs.MoveWalk
import FramePlan.Proofs.Storage.Peak
import FramePlan.Proofs.Storage.Refusal
import FramePlan.Proofs.Plan.Schedule
import FramePlan.Proofs.Storage.Atomic
import FramePlan.Proofs.Plan.Redeclaration
import FramePlan.Plan.Workspace
import FramePlan.Proofs.Plan.Edges
import FramePlan.Proofs.Workspace.Collect
import FramePlan.Proofs.Workspace.Span
import FramePlan.Proofs.Workspace.Agenda
import FramePlan.Proofs.Workspace.Refill
import FramePlan.Proofs.Workspace.Usage
import FramePlan.Proofs.Workspace.Safety
import FramePlan.Proofs.HandleTable
