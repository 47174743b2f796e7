import FramePlan.IdMap

/-!
# Pass graphs

A pass graph says which passes wait for which: an edge from `a` to `b` means that `a` is complete
before `b` starts. Every pass of the frame is a vertex, also one without edges, and an edge is
there or not, so adding it twice is adding it once.
-/

namespace FramePlan

/-- Which passes wait for which. -/
structure PassGraph where
  /-- The passes that wait for each pass. -/
  adjacency : IdMap .pass (IdSet .pass)
deriving DecidableEq

namespace PassGraph

/-- The graph of the first `n` passes, none of which waits for another. -/
def edgeless (n : Nat) : PassGraph := ⟨.tabulate (.firstN .pass n) fun _ => ∅⟩

/-- The graph in which `b` waits for `a`. -/
def addEdge (g : PassGraph) (a b : PassId) : PassGraph :=
  ⟨g.adjacency.insert a ((g.adjacency.getD a ∅).insert b)⟩

/-- The graph with several edges added. -/
def addEdges (g : PassGraph) (edges : List (PassId × PassId)) : PassGraph :=
  edges.foldl (fun g e => g.addEdge e.1 e.2) g

/-- Every pass of the graph. -/
def passes (g : PassGraph) : IdSet .pass := g.adjacency.keys

/-- The passes that wait for a pass. -/
def successors (g : PassGraph) (p : PassId) : IdSet .pass := g.adjacency.getD p ∅

/-- Whether `b` waits for `a`. -/
def hasEdge (g : PassGraph) (a b : PassId) : Bool := b ∈ g.successors a

/-- Every edge, in ascending order. -/
def edges (g : PassGraph) : List (PassId × PassId) :=
  g.adjacency.entries.flatMap fun (a, bs) => bs.toList.map fun b => (a, b)

/-- How many passes a pass waits for. -/
def inDegree (g : PassGraph) (p : PassId) : Nat := g.passes.toList.countP fun a => g.hasEdge a p

/-- How many passes each pass waits for. -/
def inDegrees (g : PassGraph) : IdMap .pass Nat := .tabulate g.passes g.inDegree

/-- How many passes there are. -/
def passCount (g : PassGraph) : Nat := g.adjacency.size

/-- How many edges there are. -/
def edgeCount (g : PassGraph) : Nat := (g.adjacency.entries.flatMap fun e => e.2.toList).length

theorem mem_successors_addEdge {g : PassGraph} {a b p q : PassId} :
    q ∈ (g.addEdge a b).successors p ↔ (p = a ∧ q = b) ∨ q ∈ g.successors p := by
  rw [successors, addEdge, IdMap.getD_insert]
  by_cases h : p = a
  · subst h; simp [successors]
  · simp [h, successors]

end PassGraph

end FramePlan
