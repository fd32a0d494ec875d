import PatternGraph.Index.Selector
import PatternGraph.Store.Wiring

/-!
# Removing items from a graph

Every removal changes the index first and gives the events that tell of it, edges before their ends.
Removed items keep their ends but lose their owner.
-/

namespace PatternGraph.Store

/-- The events of removing a node with its edges. -/
def removalEvents (node : Node) (edges : List Edge) : List Event :=
  edges.map (⟨.removed, .edge ·⟩) ++ [⟨.removed, .node node⟩]

/-- Removes a node with its edges, if it is in the graph. -/
def takeNode (store : Store) (graph : GraphId) (node : NodeId) : Option (List Event × Store) :=
  ((store.index graph).removeNode node).map fun (node, edges, index) =>
    let store := edges.foldl disownEdge (store.setIndex graph index)
    (removalEvents node edges, store.setNodeOwner none node)

/-- Removes an edge, if it is in the graph. -/
def takeEdge (store : Store) (graph : GraphId) (edge : EdgeId) : Option (List Event × Store) :=
  ((store.index graph).removeEdge edge).map fun (edge, index) =>
    ([⟨.removed, .edge edge⟩], (store.setIndex graph index).disownEdge edge)

/-- Removes a node with its edges. -/
def removeNode (store : Store) (graph : GraphId) (node : Node) :
    Except Fault (List Event × Store) :=
  match store.takeNode graph node.id with
  | some taken => .ok taken
  | none => .error (.noSuchNode node.id)

/-- Removes an edge. -/
def removeEdge (store : Store) (graph : GraphId) (edge : Edge) :
    Except Fault (List Event × Store) :=
  match store.takeEdge graph edge.id with
  | some taken => .ok taken
  | none => .error (.noSuchEdge edge.id)

/-- Applies a removal to each listed item that is still in the graph. -/
def takeEach {α : Type} (take : Store → α → Option (List Event × Store)) :
    List α → Store → List Event × Store
  | [], store => ([], store)
  | a :: rest, store =>
    match take store a with
    | none => takeEach take rest store
    | some (events, store) =>
      let (more, store) := takeEach take rest store
      (events ++ more, store)

/-- Removes the nodes of a type or of its descendants, with their edges. -/
def removeNodesByType (store : Store) (graph : GraphId) (type : NodeType) : List Event × Store :=
  takeEach (takeNode · graph ·) ((store.index graph).nodesByType.under type.id) store

/-- Removes the edges of a type or of its descendants. -/
def removeEdgesByType (store : Store) (graph : GraphId) (type : EdgeType) : List Event × Store :=
  takeEach (takeEdge · graph ·) ((store.index graph).edgesByType.under type.id) store

/-- Removes the edges that a selector picks. -/
def removeEdgesByNodes (store : Store) (graph : GraphId) (selector : Selector) :
    Except Fault (List Event × Store) := do
  let edges ← selector.select (store.index graph)
  return takeEach (takeEdge · graph ·) edges store

end PatternGraph.Store
