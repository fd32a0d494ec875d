import PatternGraph.Store.Preflight
import PatternGraph.Store.Removal

/-!
# Attaching items to a graph

An `Attachment` brings items into one graph by a list of jobs.  An item owned by another graph has
to leave that graph first; the other graph tells its subscribers at once, and anything may have
happened by the time the job goes on.  A node that arrives brings the edges wired to it, and an edge
brings its ends.  The events of the receiving graph are gathered until the attachment is over.
-/

namespace PatternGraph

/-- A job of an attachment. -/
inductive Job where
  /-- Bring a node in. -/
  | node (n : Node)
  /-- Put a node in that has left the graph it was in. -/
  | settle (n : Node)
  /-- Bring an edge in. -/
  | edge (e : Edge)
  /-- Put an edge in between two nodes that have been brought in. -/
  | join (e : Edge) (source target : Node)
deriving DecidableEq, Repr

/-- Items being brought into a graph; the events come latest first. -/
structure Attachment where
  graph : GraphId
  jobs : List Job
  events : List Event
deriving DecidableEq, Repr

/-- A graph that items have left, and the events that tell of it. -/
structure Departure where
  graph : GraphId
  events : List Event
deriving DecidableEq, Repr

namespace Attachment

/-- Puts a node into the graph, to be followed by the edges wired to it. -/
def settle (a : Attachment) (store : Store) (node : Node) : Store × Attachment :=
  let carried := store.pendingEdges node
  let index := ((store.index a.graph).insertNode node).2
  let store := (store.setIndex a.graph index).updateNode node fun state =>
    { state with owner := some a.graph, pending := [] }
  (store,
    { a with
      jobs := carried.map .edge ++ a.jobs
      events := ⟨.added, .node node⟩ :: a.events })

/-- Puts an edge into the graph between two nodes. -/
def join (a : Attachment) (store : Store) (edge : Edge) (source target : Node) :
    Except Fault (Store × Attachment) := do
  let (_, index) ← (store.index a.graph).insertEdge edge ⟨source.id, target.id⟩
  return ((store.setIndex a.graph index).ownEdge a.graph edge,
    { a with events := ⟨.added, .edge edge⟩ :: a.events })

/-- Does one job, given the jobs after it, and tells of the graph that had to be left, if any. -/
def perform (a : Attachment) (store : Store) :
    Job → Except Fault (Store × Attachment × Option Departure)
  | .node n =>
    if store.ownsNode a.graph n then .ok (store, a, none)
    else
      match store.graphOfNode n with
      | none =>
        let (store, a) := a.settle store n
        .ok (store, a, none)
      | some previous => do
        let (events, store) ← store.removeNode previous n
        return (store, { a with jobs := .settle n :: a.jobs }, some ⟨previous, events⟩)
  | .settle n =>
    let (store, a) := a.settle store n
    .ok (store, a, none)
  | .edge e =>
    if store.ownsEdge a.graph e then .ok (store, a, none)
    else
      match store.endpoints? e with
      | none => .error (.halfWired e.id)
      | some (source, target) => do
        let a := { a with jobs := .node source :: .node target :: .join e source target :: a.jobs }
        match store.graphOfEdge e with
        | none => return (store, a, none)
        | some previous =>
          let (events, store) ← store.removeEdge previous e
          return (store, a, some ⟨previous, events⟩)
  | .join e source target =>
    if store.ownsEdge a.graph e then .ok (store, a, none)
    else do
      let (store, a) ← a.join store e source target
      return (store, a, none)

end Attachment

end PatternGraph
