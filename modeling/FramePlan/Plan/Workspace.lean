import FramePlan.Plan.Basic

/-!
# Planning in place

A program that plans every frame keeps one workspace and plans each frame in it. A workspace holds
what a plan holds, in lists and tables that are filled entry by entry. It is emptied first, field by
field; then five phases fill it, and each goes on from what it finds there. A phase may stop
halfway, and what was written until then stays, so the workspace is emptied once more.

* `Workspace.fill` — the five phases, from whatever the workspace holds.
* `Workspace.refill` — planning in the workspace at hand.
* `Workspace.ofFrame` — planning in a new one.
-/

namespace FramePlan

/-- Why planning in place stops. -/
inductive Stop where
  /-- The frame has no plan. -/
  | refused (cause : PlanError)
  /-- A list has no entry at that index. -/
  | outOfRange (index : Nat)
deriving DecidableEq

/-- Which passes use a resource, and the positions of the first and of the last of them. -/
structure UseRecord where
  writer : Option PassId
  /-- The readers in the order in which they were found. -/
  readers : List PassId
  copyIn : Option PassId
  first : Option Nat
  last : Option Nat
deriving DecidableEq

namespace UseRecord

/-- The record of a resource of which nothing is known yet. -/
def blank : UseRecord := ⟨none, [], none, none, none⟩

/-- The record without positions. -/
def usage (record : UseRecord) : Usage := ⟨record.writer, .ofList record.readers, record.copyIn⟩

/-- Every pass that uses the resource. -/
def users (record : UseRecord) : IdSet .pass :=
  .ofList (record.writer.toList ++ record.readers ++ record.copyIn.toList)

/-- The pass reads the resource; it is found once, however often it names it. -/
def addReader (p : PassId) (record : UseRecord) : UseRecord :=
  if record.readers.contains p then record else { record with readers := record.readers ++ [p] }

end UseRecord

/-- The events around one pass, in the order in which they were placed. -/
structure Agenda where
  constructs : List ResourceId
  /-- The sources of the moves. -/
  moves : List ResourceId
  destructs : List ResourceId
deriving DecidableEq

namespace Agenda

/-- Nothing happens. -/
def blank : Agenda := ⟨[], [], []⟩

def addConstruct (r : ResourceId) (agenda : Agenda) : Agenda :=
  { agenda with constructs := agenda.constructs ++ [r] }

def addMove (r : ResourceId) (agenda : Agenda) : Agenda :=
  { agenda with moves := agenda.moves ++ [r] }

def addDestruct (r : ResourceId) (agenda : Agenda) : Agenda :=
  { agenda with destructs := agenda.destructs ++ [r] }

/-- The agenda with some events, of whose moves only the sources are noted. -/
def ofEvents (events : Events) : Agenda :=
  ⟨events.constructs, events.moves.map (·.src), events.destructs⟩

end Agenda

/-- Where frames are planned, one after another. -/
structure Workspace where
  /-- The uses of each resource that is referred to. -/
  uses : IdMap .resource UseRecord
  graph : PassGraph
  order : List PassId
  /-- The position of each pass in the order, by the id of the pass. -/
  positions : List Nat
  /-- The events around each pass, by the id of the pass. -/
  agendas : List Agenda
  /-- The events before any pass. -/
  prologue : Agenda
  moves : MoveTable
  /-- The source that is copied into each copy destination. -/
  copiesIn : IdMap .resource ResourceId
  /-- The destinations that each copy source is copied into. -/
  copiesOut : IdMap .resource (IdSet .resource)
deriving DecidableEq

namespace Workspace

/-- A workspace in which no frame was planned. -/
def empty : Workspace where
  uses := ∅
  graph := .edgeless 0
  order := []
  positions := []
  agendas := []
  prologue := .blank
  moves := ∅
  copiesIn := ∅
  copiesOut := ∅

/-- The record of a resource, as far as there is one. -/
def record (ws : Workspace) (r : ResourceId) : UseRecord := ws.uses.getD r .blank

/-- The uses that were collected. -/
def table (ws : Workspace) : UsageTable :=
  ⟨ws.uses.map fun _ record => record.usage, ws.copiesIn, ws.copiesOut⟩

/-- Empties field after field. -/
def reset (ws : Workspace) : Workspace :=
  { ws with
    uses := ∅
    graph := .edgeless 0
    order := []
    positions := []
    agendas := []
    prologue := .blank
    moves := ∅
    copiesIn := ∅
    copiesOut := ∅ }

/-- The result of a check; an error of the plan ends the planning. -/
def orRefuse {α : Type} : Except PlanError α → EStateM Stop Workspace α
  | .ok a => pure a
  | .error cause => throw (.refused cause)

/-- Changes the record of a resource, which has one from now on. -/
def changeRecord (r : ResourceId) (change : UseRecord → UseRecord) :
    EStateM Stop Workspace Unit :=
  modify fun ws => { ws with uses := ws.uses.insert r (change (ws.record r)) }

/-! ### Uses -/

/-- The pass reads the resource. -/
def addReader (p : PassId) (r : ResourceId) : EStateM Stop Workspace Unit :=
  changeRecord r (.addReader p)

/-- Stops if another pass writes the resource. -/
def checkWriter (p : PassId) (r : ResourceId) : EStateM Stop Workspace Unit := do
  match ((← get).record r).writer with
  | some first => if first = p then pure () else throw (.refused (.multipleWriters r first p))
  | none => pure ()

/-- The general pass writes the resource, which no other pass does. -/
def addWriter (p : PassId) (r : ResourceId) : EStateM Stop Workspace Unit := do
  changeRecord r id
  checkWriter p r
  changeRecord r fun record => { record with writer := some p }

/-- Stops if the resource is copied into already, even if by the same pass. -/
def checkCopyIn (p : PassId) (r : ResourceId) : EStateM Stop Workspace Unit := do
  match ((← get).record r).copyIn with
  | some first => throw (.refused (.multipleCopyIns r first p))
  | none => pure ()

/-- The copy pass copies the first resource into the second, which no other copy does. -/
def addCopy (p : PassId) (copied : ResourceId × ResourceId) : EStateM Stop Workspace Unit := do
  addReader p copied.1
  changeRecord copied.2 id
  checkCopyIn p copied.2
  changeRecord copied.2 fun record => { record with copyIn := some p }
  modify fun ws => { ws with copiesIn := ws.copiesIn.insert copied.2 copied.1 }
  modify fun ws => { ws with
    copiesOut := ws.copiesOut.insert copied.1 ((ws.copiesOut.getD copied.1 ∅).insert copied.2) }

/-- Takes down the uses of one pass. -/
def addPass (entry : PassId × Pass) : EStateM Stop Workspace Unit :=
  match entry.2.kind with
  | .general => do
    entry.2.inputs.forM (addReader entry.1)
    entry.2.outputs.forM (addWriter entry.1)
  | .copy => entry.2.copyPairs.forM (addCopy entry.1)

/-- Both ends of a move have records, whether or not a pass uses them. -/
def addEnds (move : Move) : EStateM Stop Workspace Unit := do
  changeRecord move.src id
  changeRecord move.dst id

/-- The first phase: who uses what. -/
def collectUses (frame : Frame) : EStateM Stop Workspace Unit := do
  frame.passEntries.forM addPass
  frame.moves.forM addEnds

/-! ### Moves, edges and order -/

/-- Adds the moves that remain of a chain. -/
def addChain (chain : List ResourceId) : EStateM Stop Workspace Unit :=
  modify fun ws => { ws with moves := ws.moves.addCollapsed ws.table.isTouched [chain] }

/-- The second phase: which moves remain. -/
def resolveMoves (frame : Frame) : EStateM Stop Workspace Unit := do
  let table ← orRefuse (MoveTable.ofMoves frame.moves)
  let chains ← orRefuse table.chains
  chains.forM addChain

/-- Adds an edge. -/
def addEdge (edge : PassId × PassId) : EStateM Stop Workspace Unit :=
  modify fun ws => { ws with graph := ws.graph.addEdge edge.1 edge.2 }

/-- The third phase: which passes wait for which. -/
def buildEdges (frame : Frame) : EStateM Stop Workspace Unit := do
  modify fun ws => { ws with graph := .edgeless frame.passes.length }
  let ws ← get
  (Hazard.edges frame ws.table ws.moves).forM addEdge

/-- The fourth phase: in which order the passes run. -/
def sortPasses : EStateM Stop Workspace Unit := do
  let ws ← get
  match ws.graph.sortInto ws.order with
  | .ok _ order => set { ws with order }
  | .error cause order => do
    set { ws with order }
    throw (.refused cause)

/-! ### Positions and events -/

/-- The entry at an index of a list, which has to be there. -/
def entryAt {α : Type} (list : Workspace → List α) (i : Nat) : EStateM Stop Workspace α := do
  match (list (← get))[i]? with
  | some a => pure a
  | none => throw (.outOfRange i)

/-- The position of a pass. -/
def positionOf (p : PassId) : EStateM Stop Workspace Nat := entryAt positions p.index

/-- Gives a pass its position. -/
def setPosition (entry : PassId × Nat) : EStateM Stop Workspace Unit := do
  let _ ← positionOf entry.1
  modify fun ws => { ws with positions := ws.positions.set entry.1.index entry.2 }

/-- Gives each pass of the order its position. -/
def assignPositions : EStateM Stop Workspace Unit := do
  modify fun ws => { ws with positions := .replicate ws.order.length 0 }
  let ws ← get
  ws.order.zipIdx.forM setPosition

/-- Notes the positions of the first and of the last pass that use a resource: it is used first by
its writer, or else its first reader, or else its copy-in, and last by its copy-in, or else its last
reader, or else by whoever uses it first. -/
def assignSpan (r : ResourceId) : EStateM Stop Workspace Unit := do
  let record := (← get).record r
  let readers ← record.readers.mapM positionOf
  let copyIn ← record.copyIn.mapM positionOf
  let writer ← record.writer.mapM positionOf
  let first := writer.or (readers.min?.or copyIn)
  changeRecord r fun record => { record with first, last := copyIn.or (readers.max?.or first) }

/-- Changes what happens in a slot. -/
def changeAgenda (slot : Slot) (change : Agenda → Agenda) : EStateM Stop Workspace Unit :=
  match slot with
  | .prologue => modify fun ws => { ws with prologue := change ws.prologue }
  | .pass k => do
    let p ← entryAt order k
    let agenda ← entryAt agendas p.index
    modify fun ws => { ws with agendas := ws.agendas.set p.index (change agenda) }

/-- Constructs the resource in a slot, unless it has a source to get its storage from. -/
def placeConstruct (slot : Slot) (source : Option ResourceId) (r : ResourceId) :
    EStateM Stop Workspace Unit :=
  if source.isNone then changeAgenda slot (.addConstruct r) else pure ()

/-- Places the events of a resource. -/
def place (r : ResourceId) : EStateM Stop Workspace Unit := do
  let ws ← get
  let record := ws.record r
  let source := ws.moves.backward.get? r
  let isSource := ws.moves.forward.contains r
  match record.first, record.last with
  | some first, some last => do
    placeConstruct (.pass first) source r
    changeAgenda (.pass last) (if isSource then .addMove r else .addDestruct r)
  | _, _ =>
    if isSource then do
      placeConstruct .prologue source r
      changeAgenda .prologue (.addMove r)
    else
      match source with
      | none => pure ()
      | some src =>
        let slot := ((ws.record src).last.map Slot.pass).getD .prologue
        changeAgenda slot (.addDestruct r)

/-- The fifth phase: when resources are constructed, moved and destructed. -/
def assignLifetimes : EStateM Stop Workspace Unit := do
  assignPositions
  modify fun ws => { ws with agendas := .replicate ws.order.length .blank }
  let ws ← get
  ws.uses.keys.toList.forM assignSpan
  ws.uses.keys.toList.forM place

/-! ### All phases -/

/-- Plans a frame from whatever the workspace holds. -/
def fill (frame : Frame) : EStateM Stop Workspace Unit := do
  collectUses frame
  resolveMoves frame
  buildEdges frame
  sortPasses
  assignLifetimes

/-- Plans a frame in the workspace at hand. If the frame has no plan, nothing is left there. -/
def refill (frame : Frame) : EStateM Stop Workspace Unit := fun ws =>
  match fill frame ws.reset with
  | .ok _ filled => .ok () filled
  | .error (.refused cause) left => .error (.refused cause) left.reset
  | .error (.outOfRange i) left => .error (.outOfRange i) left

/-- Plans a frame in a new workspace. -/
def ofFrame (frame : Frame) : Except Stop Workspace :=
  match refill frame empty with
  | .ok _ ws => .ok ws
  | .error stop _ => .error stop

/-! ### Workspaces and plans -/

/-- The workspace in which a plan is written down. -/
def ofPlan (plan : Plan) : Workspace where
  uses := plan.usage.uses.map fun r u =>
    ⟨u.writer, u.readers.toList, u.copyIn, (plan.span? r).map (·.first),
      (plan.span? r).map (·.last)⟩
  graph := plan.graph
  order := plan.order
  positions := (NodeId.firstN .pass plan.passCount).map fun p => (plan.position? p).getD 0
  agendas := (NodeId.firstN .pass plan.passCount).map fun p =>
    ((plan.events? p).map Agenda.ofEvents).getD .blank
  prologue := .ofEvents plan.prologue
  moves := plan.moves
  copiesIn := plan.usage.copiesIn
  copiesOut := plan.usage.copiesOut

/-- The events of an agenda, where moves go to the destination of their source. -/
def events (ws : Workspace) (agenda : Agenda) : Events where
  constructs := agenda.constructs
  moves := agenda.moves.filterMap fun src => (ws.moves.forward.get? src).map fun dst => ⟨dst, src⟩
  destructs := agenda.destructs

/-- The plan that is written down in a workspace. -/
def toPlan (ws : Workspace) : Plan where
  usage := ws.table
  moves := ws.moves
  graph := ws.graph
  spans := ws.uses.filterMap fun _ record => do return ⟨← record.first, ← record.last⟩
  prologue := ws.events ws.prologue
  schedule := ws.order.map fun p => ⟨p, ws.events (ws.agendas[p.index]?.getD .blank)⟩

end Workspace

end FramePlan
