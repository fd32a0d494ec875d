import PatternGraph.Store.Basic

/-!
# Wiring edges

A detached edge is wired to its ends one by one.  A detached node remembers the edges wired to it,
each once and in the order of wiring, until it is attached or the edge is wired elsewhere.
-/

namespace PatternGraph.Store

/-- Makes a detached node remember an edge. -/
def register (store : Store) (edge : Edge) (node : Node) : Store :=
  if (store.graphOfNode node).isSome then store
  else
    store.updateNode node fun state =>
      if state.pending.contains edge then state
      else { state with pending := state.pending ++ [edge] }

/-- Makes a node forget an edge. -/
def unregister (store : Store) (edge : Edge) (node : Node) : Store :=
  store.updateNode node fun state => { state with pending := state.pending.filter (· != edge) }

/-- Makes a former end forget an edge, unless it is still an end of it. -/
def releaseEnd (store : Store) (edge : Edge) (former : Option Node) : Store :=
  match former with
  | none => store
  | some node =>
    let state := store.edgeState edge
    if state.source = some node ∨ state.target = some node then store
    else store.unregister edge node

/-- Wires the source of a detached edge. -/
def setSource (store : Store) (edge : Edge) (node : Node) : Except Fault Store :=
  if (store.graphOfEdge edge).isSome then .error (.edgeAttached edge.id)
  else
    let former := (store.edgeState edge).source
    let store := store.updateEdge edge fun state => { state with source := some node }
    .ok ((store.releaseEnd edge former).register edge node)

/-- Wires the target of a detached edge. -/
def setTarget (store : Store) (edge : Edge) (node : Node) : Except Fault Store :=
  if (store.graphOfEdge edge).isSome then .error (.edgeAttached edge.id)
  else
    let former := (store.edgeState edge).target
    let store := store.updateEdge edge fun state => { state with target := some node }
    .ok ((store.releaseEnd edge former).register edge node)

/-- Wires both ends of an edge, attached or not. -/
def rewire (store : Store) (edge : Edge) (source target : Node) : Store :=
  let former := store.edgeState edge
  let store := store.updateEdge edge fun state =>
    { state with source := some source, target := some target }
  let store := (store.releaseEnd edge former.source).releaseEnd edge former.target
  (store.register edge source).register edge target

/-- Creates a detached edge between two nodes. -/
def createEdgeBetween (store : Store) (type : EdgeType) (source target : Node) : Edge × Store :=
  let (edge, store) := store.createEdge type .null
  (edge, store.rewire edge source target)

/-- Gives an edge an owner; its ends need no longer remember it. -/
def ownEdge (store : Store) (graph : GraphId) (edge : Edge) : Store :=
  let store := store.updateEdge edge fun state => { state with owner := some graph }
  match store.endpoints? edge with
  | none => store
  | some (source, target) => (store.unregister edge source).unregister edge target

/-- Leaves an edge without an owner. -/
def disownEdge (store : Store) (edge : Edge) : Store :=
  store.updateEdge edge fun state => { state with owner := none }

end PatternGraph.Store
