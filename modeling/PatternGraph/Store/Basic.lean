import PatternGraph.Index.Basic
import PatternGraph.Json.Value

/-!
# The store

A `Store` keeps what can change about items and graphs.  Of a node it keeps the payload, the graph
that owns it and the edges that were wired to it while no graph owned it; of an edge the payload,
the owner and the two ends; of a graph the index.  Graphs and edges that nobody holds any more are
taken out of the store, so an owner or a wired edge counts only while the store still has it.
-/

namespace PatternGraph

/-- What the store keeps of a node. -/
structure NodeState where
  data : Json
  owner : Option GraphId
  /-- The edges wired to the node while it was detached, in the order of wiring. -/
  pending : List Edge
deriving Inhabited

/-- What the store keeps of an edge. -/
structure EdgeState where
  data : Json
  owner : Option GraphId
  source : Option Node
  target : Option Node
deriving Inhabited

/-- Items, graphs, and how many of each sort have been created. -/
structure Store where
  nodes : Std.ExtTreeMap NodeId NodeState
  edges : Std.ExtTreeMap EdgeId EdgeState
  graphs : Std.ExtTreeMap GraphId Index
  nodeCount : Nat
  edgeCount : Nat
  graphCount : Nat

/-- Whether an item came or went. -/
inductive Change where
  | added
  | removed
deriving DecidableEq, Repr

/-- A change of a graph's content. -/
structure Event where
  change : Change
  item : Item
deriving DecidableEq, Repr

/-- A written event. -/
def Event.text (event : Event) : String :=
  match event.change with
  | .added => "+" ++ event.item.text
  | .removed => "-" ++ event.item.text

namespace Store

/-- The store in which nothing has been created. -/
def empty : Store := ⟨∅, ∅, ∅, 0, 0, 0⟩

instance : Inhabited Store := ⟨empty⟩

/-- What is kept of a node. -/
def nodeState (store : Store) (node : Node) : NodeState :=
  store.nodes.getD node.id default

/-- What is kept of an edge. -/
def edgeState (store : Store) (edge : Edge) : EdgeState :=
  store.edges.getD edge.id default

/-- The content of a graph. -/
def index (store : Store) (graph : GraphId) : Index :=
  store.graphs.getD graph .empty

/-- Replaces the content of a graph. -/
def setIndex (store : Store) (graph : GraphId) (index : Index) : Store :=
  { store with graphs := store.graphs.insert graph index }

/-- Changes what is kept of a node. -/
def updateNode (store : Store) (node : Node) (change : NodeState → NodeState) : Store :=
  { store with nodes := store.nodes.insert node.id (change (store.nodeState node)) }

/-- Changes what is kept of an edge. -/
def updateEdge (store : Store) (edge : Edge) (change : EdgeState → EdgeState) : Store :=
  { store with edges := store.edges.insert edge.id (change (store.edgeState edge)) }

/-- An owner, as long as the store still has it. -/
def living (store : Store) (owner : Option GraphId) : Option GraphId :=
  owner.filter fun graph => store.graphs.contains graph

/-- The graph that owns a node. -/
def graphOfNode (store : Store) (node : Node) : Option GraphId :=
  store.living (store.nodeState node).owner

/-- The graph that owns an edge. -/
def graphOfEdge (store : Store) (edge : Edge) : Option GraphId :=
  store.living (store.edgeState edge).owner

/-- Whether a graph owns a node. -/
def ownsNode (store : Store) (graph : GraphId) (node : Node) : Bool :=
  (store.nodeState node).owner == some graph

/-- Whether a graph owns an edge. -/
def ownsEdge (store : Store) (graph : GraphId) (edge : Edge) : Bool :=
  (store.edgeState edge).owner == some graph

/-- Sets the owner of a node. -/
def setNodeOwner (store : Store) (owner : Option GraphId) (node : Node) : Store :=
  store.updateNode node fun state => { state with owner := owner }

/-- Both ends of an edge. -/
def endpoints? (store : Store) (edge : Edge) : Option (Node × Node) := do
  let state := store.edgeState edge
  return (← state.source, ← state.target)

/-- The edges wired to a node while it was detached, as long as the store still has them. -/
def pendingEdges (store : Store) (node : Node) : List Edge :=
  (store.nodeState node).pending.filter fun edge => store.edges.contains edge.id

/-- Creates a detached node. -/
def createNode (store : Store) (type : NodeType) (data : Json) : Node × Store :=
  let node := ⟨⟨store.nodeCount + 1⟩, type⟩
  (node,
    { store with
      nodes := store.nodes.insert node.id ⟨data, none, []⟩
      nodeCount := store.nodeCount + 1 })

/-- Creates a detached edge without ends. -/
def createEdge (store : Store) (type : EdgeType) (data : Json) : Edge × Store :=
  let edge := ⟨⟨store.edgeCount + 1⟩, type⟩
  (edge,
    { store with
      edges := store.edges.insert edge.id ⟨data, none, none, none⟩
      edgeCount := store.edgeCount + 1 })

/-- Creates an empty graph. -/
def createGraph (store : Store) : GraphId × Store :=
  let graph := ⟨store.graphCount + 1⟩
  (graph,
    { store with
      graphs := store.graphs.insert graph .empty
      graphCount := store.graphCount + 1 })

/-- Whether some graph contains an edge, be it the edge's owner or another one. -/
def containsEdge (store : Store) (edge : EdgeId) : Bool :=
  store.graphs.any fun _ index => index.edges.contains edge

/--
Takes out the graphs that are not held, and then the edges that are neither held nor contained in one
of the graphs that are left.
-/
def release (store : Store) (holdsGraph : GraphId → Bool) (holdsEdge : EdgeId → Bool) : Store :=
  let store :=
    if store.graphs.all fun graph _ => holdsGraph graph then store
    else { store with graphs := store.graphs.filter fun graph _ => holdsGraph graph }
  let keeps (edge : EdgeId) (_ : EdgeState) : Bool :=
    store.containsEdge edge || holdsEdge edge
  if store.edges.all keeps then store else { store with edges := store.edges.filter keeps }

end Store

end PatternGraph
