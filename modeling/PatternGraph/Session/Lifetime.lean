import PatternGraph.Session.State

/-!
# Lifetimes

A graph lives while it has a name, while a live query or a cursor reads from it, and while something
in progress works on it.  An edge lives while it has a name, while a living graph contains it, and
while a query names it, or rows, a cursor or something in progress hold it.  Whatever nothing holds
any more leaves the session.
-/

namespace PatternGraph

/-- Whether a list of items holds an edge. -/
def holdsEdge (items : List Item) (edge : EdgeId) : Bool :=
  items.any (·.id == .edge edge)

/-- Whether rows hold an edge. -/
def rowsHold (rows : List Row) (edge : EdgeId) : Bool :=
  rows.any fun row => holdsEdge row.values edge

/-- Whether bindings hold an edge. -/
def bindingsHold (row : Bindings) (edge : EdgeId) : Bool :=
  row.any fun item => item.any (·.id == .edge edge)

/-- Whether events hold an edge. -/
def eventsHold (events : List Event) (edge : EdgeId) : Bool :=
  events.any (·.item.id == .edge edge)

/-- Whether edges hold an edge. -/
def edgesHold (edges : List Edge) (edge : EdgeId) : Bool :=
  edges.any (·.id == edge)

/-- Whether a query names an edge. -/
def CompiledQuery.holds (query : CompiledQuery) (edge : EdgeId) : Bool :=
  holdsEdge query.slots.pinnedItems edge

/-- Whether an open choice of a search holds an edge. -/
def Mark.holds (edge : EdgeId) : Mark → Bool
  | .choice _ candidates _ _ => holdsEdge candidates edge
  | .boundary saved => bindingsHold saved edge

/-- Whether a stream holds an edge. -/
def Stream.holds (stream : Stream) (edge : EdgeId) : Bool :=
  stream.query.holds edge ||
    match stream.state with
    | .paused row marks => bindingsHold row edge || marks.any (Mark.holds edge)
    | _ => false

namespace LiveQuery

/-- Whether a live query holds an edge. -/
def holds (live : LiveQuery) (edge : EdgeId) : Bool :=
  live.query.holds edge || live.snapshot.any fun snapshot => rowsHold snapshot.rows edge

end LiveQuery

namespace Observer

/-- Whether the rows and queues of an observer hold an edge. -/
def holds (observer : Observer) (edge : EdgeId) : Bool :=
  rowsHold observer.retained edge || rowsHold observer.added edge ||
    rowsHold observer.removed edge

end Observer

namespace Cursor

/-- The graph that a cursor reads from. -/
def graph? : Cursor → Option GraphId
  | .live graph _ => some graph
  | .held .. => none

/-- Whether a cursor holds an edge. -/
def holds (edge : EdgeId) : Cursor → Bool
  | .live _ stream => stream.holds edge
  | .held rows _ => rowsHold rows edge

end Cursor

namespace Ending

/-- Whether a command that has not ended holds an edge. -/
def holds (ending : Ending) (edge : EdgeId) : Bool :=
  edgesHold ending.edges edge || ending.binding.any (·.2.id == edge)

end Ending

/-- Whether a job of an attachment holds an edge. -/
def Job.holds (edge : EdgeId) : Job → Bool
  | .edge e | .join e _ _ => e.id == edge
  | .node _ | .settle _ => false

namespace Task

variable {ρ : Type}

/-- The graphs that something in progress works on. -/
def graphs : Task ρ → List GraphId
  | .connect _ _ _ ending | .finish ending => [ending.graph]
  | .attach a ending => [a.graph, ending.graph]
  | .dispatch graph _ | .deliver graph _ _ | .addNodes graph _ _ | .removeNodes graph _
  | .removeEdges graph _ _ => [graph]
  | .announce _ | .notify .. | .script .. | .record _ => []

/-- The observers that something in progress reports to. -/
def observers : Task ρ → List ObserverId
  | .announce a => [a.observer]
  | _ => []

/-- Whether something in progress holds an edge. -/
def holds (edge : EdgeId) : Task ρ → Bool
  | .connect e _ _ ending => e.id == edge || ending.holds edge
  | .attach a ending =>
    a.jobs.any (Job.holds edge) || eventsHold a.events edge || ending.holds edge
  | .dispatch _ events => eventsHold events edge
  | .deliver _ event _ => eventsHold [event] edge
  | .announce a =>
    holdsEdge a.pinned edge || rowsHold a.rows edge || rowsHold a.difference.removed edge
  | .notify _ rows _ => rowsHold rows edge
  | .removeEdges _ _ named => edgesHold named edge
  | .finish ending => ending.holds edge
  | .script .. | .record _ | .addNodes .. | .removeNodes .. => false

end Task

namespace Session

variable {ρ : Type}

/-- Whether a graph is held. -/
def holdsGraph (s : Session ρ) (graph : GraphId) : Bool :=
  s.names.graphs.any (fun _ g => g == graph) ||
    s.queries.any (fun _ live => live.graph == graph) ||
    s.names.cursors.any (fun _ cursor => cursor.graph? == some graph) ||
    s.tasks.any fun task => task.graphs.contains graph

/-- Whether an edge is held by anything but a graph. -/
def holdsEdge (s : Session ρ) (edge : EdgeId) : Bool :=
  s.names.edges.any (fun _ e => e.id == edge) ||
    s.names.compiled.any (fun _ query => query.holds edge) ||
    s.names.cursors.any (fun _ cursor => cursor.holds edge) ||
    s.queries.any (fun _ live => live.holds edge) ||
    s.observers.any (fun _ observer => observer.holds edge) ||
    s.tasks.any (Task.holds edge)

/-- Whether an observer is held. -/
def holdsObserver (s : Session ρ) (observer : ObserverId) : Bool :=
  s.names.observers.any (fun _ o => o == observer) ||
    s.tasks.any fun task => task.observers.contains observer

/-- Lets go of everything that nothing holds. -/
def release (s : Session ρ) : Session ρ :=
  let s :=
    if s.observers.all fun id _ => s.holdsObserver id then s
    else { s with observers := s.observers.filter fun id _ => s.holdsObserver id }
  { s with store := s.store.release s.holdsGraph s.holdsEdge }

end Session

end PatternGraph
