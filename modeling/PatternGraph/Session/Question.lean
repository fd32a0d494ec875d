import PatternGraph.Session.Refresh

/-!
# Questions

A `Question` asks about types, items, graphs, queries and observers; its answer changes nothing.
-/

namespace PatternGraph

/-- An action on a cache of rows that starts empty. -/
inductive CacheAction where
  | get
  /-- Store the rows of the query. -/
  | replace
  /-- Store no rows. -/
  | replaceEmpty
  | populated
  | clear
deriving DecidableEq, Repr

/-- A question about the state of a session. -/
inductive Question where
  | compareTypes (a b : ItemType)
  | typeReport (type : ItemType)
  | nodeReport (node : Node)
  | edgeReport (edge : Edge)
  | describeNode (node : Node)
  | describeEdge (edge : Edge)
  | describeQuery (query : QueryId)
  | describeGraph (graph : GraphId)
  | sameGraph (a b : GraphId)
  | containsNode (graph : GraphId) (node : Node)
  | containsEdge (graph : GraphId) (edge : Edge)
  | counts (graph : GraphId)
  | nodesOfType (graph : GraphId) (type : NodeType)
  | edgesOfType (graph : GraphId) (type : EdgeType)
  | endpoints (graph : GraphId) (edge : Edge)
  | edgesOf (graph : GraphId) (node : Node)
  | graphReport (graph : GraphId)
  | connections (query : CompiledQuery)
  | firstMatches (query : CompiledQuery) (graph : GraphId) (limit : Nat) (names : List String)
  | collect (query : CompiledQuery) (graph : GraphId)
  | runPlan (query : CompiledQuery) (plan : Plan) (graph : GraphId) (limit : Nat)
  | project (query onto : CompiledQuery) (graph : GraphId) (limit : Nat)
  | rowClasses (graph : GraphId) (queries : List CompiledQuery)
  | relevance (query : CompiledQuery) (item : Item)
  | findSlot (query : CompiledQuery) (name : String)
  | run (query : QueryId) (limit : Nat)
  | collectQuery (query : QueryId)
  | queryState (query : QueryId)
  | cacheTrace (query : CompiledQuery) (graph : GraphId) (actions : List CacheAction)
  | results (observer : ObserverId)
  | observerState (observer : ObserverId)
deriving Inhabited

namespace Index

/-- The edges at a node as the index knows them. -/
def neighbourhood (index : Index) (node : NodeId) : Neighbourhood :=
  let incidence := index.incidenceOf node
  ⟨index.edgesOf incidence.outgoing, index.edgesOf incidence.incoming⟩

/-- The items of a graph in order of creation. -/
def content (index : Index) : Content :=
  ⟨index.nodesOfType (.root .node),
    (index.edgesOfType (.root .edge)).map fun edge => (edge, index.endpoints? edge.id)⟩

/-- A graph as it is shown. -/
def describe (index : Index) (graph : GraphId) : String :=
  "Graph \x7b id: " ++ toString graph.number ++ ", nodes: " ++ toString index.nodes.size ++
    ", edges: " ++ toString index.edges.size ++ " \x7d"

end Index

namespace Store

/-- The edges at a node: those of its graph, or else those wired to it. -/
def edgesAt (store : Store) (node : Node) : Neighbourhood :=
  match store.graphOfNode node with
  | some graph => (store.index graph).neighbourhood node.id
  | none =>
    let pending := store.pendingEdges node
    ⟨pending.filter fun edge => (store.edgeState edge).source == some node,
      pending.filter fun edge => (store.edgeState edge).target == some node⟩

end Store

/-- Compares two types in every way. -/
def Comparison.of (a b : ItemType) : Comparison :=
  ⟨a.isA b, b.isA a, a == b, a.narrowest b, if a.kind = b.kind then some (a.isA b) else none⟩

/-- What a cache holds after an action, and what the action gives; `rows` are those to be stored. -/
def CacheAction.apply (rows : List Row) (held : Option (List Row)) :
    CacheAction → (Option (List Row) ⊕ Bool) × Option (List Row)
  | .get => (.inl held, held)
  | .replace => (.inl held, some rows)
  | .replaceEmpty => (.inl held, some [])
  | .populated => (.inr held.isSome, held)
  | .clear => (.inl none, none)

/-- What a list of actions on a cache gives. -/
def CacheAction.trace (rows : List Row) :
    List CacheAction → Option (List Row) → List (Option (List Row) ⊕ Bool)
  | [], _ => []
  | action :: rest, held =>
    let (given, held) := action.apply rows held
    given :: trace rows rest held

/-- Numbers values by first appearance. -/
def classNumbers {α : Type} [DecidableEq α] : List α → List α → List Nat
  | [], _ => []
  | a :: rest, seen =>
    match seen.idxOf? a with
    | some k => k :: classNumbers rest seen
    | none => seen.length :: classNumbers rest (seen ++ [a])

namespace Session

variable {ρ : Type}

/-- The rows of all matches, with repetitions. -/
def matchedRows (s : Session ρ) (query : CompiledQuery) (graph : GraphId) :
    Except Fault (List Row) :=
  let run := Matches.all query.slots query.plan (s.store.index graph)
  match run.fault with
  | some fault => .error fault
  | none => run.found.mapM query.slots.project

/-- The content, the adjacency and the number of subscribers of a graph. -/
def graphReport (s : Session ρ) (graph : GraphId) : GraphReport :=
  let index := s.store.index graph
  let content := index.content
  ⟨content, content.nodes.map fun node => (node, index.neighbourhood node.id),
    (s.board graph).handlers.length⟩

/-- The numbers of nodes and of edges of a graph. -/
def size (s : Session ρ) (graph : GraphId) : Nat × Nat :=
  let index := s.store.index graph
  (index.nodes.size, index.edges.size)

/-- A live query, which a client can only name while it exists. -/
def withQuery (s : Session ρ) (id : QueryId) (f : LiveQuery → Except Fault Reply) :
    Except Fault Reply :=
  match s.queries[id]? with
  | some live => f live
  | none => .ok .done

/-- An observer, which a client can only name while it exists. -/
def withObserver (s : Session ρ) (id : ObserverId) (f : Observer → Reply) : Reply :=
  match s.observers[id]? with
  | some observer => f observer
  | none => .done

/-- Answers a question. -/
def respond (s : Session ρ) : Question → Except Fault Reply
  | .compareTypes a b => .ok (.comparison (.of a b))
  | .typeReport type => .ok (.typeReport type)
  | .nodeReport node =>
    let store := s.store
    .ok (.nodeReport
      ⟨node, (store.nodeState node).data, store.graphOfNode node, store.edgesAt node⟩)
  | .edgeReport edge =>
    let state := s.store.edgeState edge
    .ok (.edgeReport ⟨edge, state.data, s.store.graphOfEdge edge, state.source, state.target⟩)
  | .describeNode node => .ok (.text node.describe)
  | .describeEdge edge => .ok (.text edge.describe)
  | .describeQuery id =>
    s.withQuery id fun live => .ok (.text live.describe)
  | .describeGraph graph =>
    .ok (.text ((s.store.index graph).describe graph))
  | .sameGraph a b => .ok (.flag (a == b))
  | .containsNode graph node => .ok (.flag ((s.store.index graph).nodes.contains node.id))
  | .containsEdge graph edge => .ok (.flag ((s.store.index graph).edges.contains edge.id))
  | .counts graph =>
    let (nodes, edges) := s.size graph
    .ok (.numbers [nodes, edges, (s.board graph).handlers.length])
  | .nodesOfType graph type =>
    .ok (.items (((s.store.index graph).nodesOfType type.id).map fun node => .node node.id))
  | .edgesOfType graph type =>
    .ok (.items (((s.store.index graph).edgesOfType type.id).map fun edge => .edge edge.id))
  | .endpoints graph edge =>
    .ok (.ends (((s.store.index graph).endpoints? edge.id).map fun (a, b) => (a.id, b.id)))
  | .edgesOf graph node => .ok (.neighbourhood ((s.store.index graph).neighbourhood node.id))
  | .graphReport graph => .ok (.graphReport (s.graphReport graph))
  | .connections query => .ok (.connections query.slots.connections)
  | .firstMatches query graph limit names =>
    let run := Matches.first limit query.slots query.plan (s.store.index graph)
    match run.fault with
    | some fault => .error fault
    | none =>
      .ok (.namedMatches (run.found.map fun row =>
        ⟨row, names.map fun name => (name, (query.slots.find? name).bind (Slots.lookup row))⟩))
  | .collect query graph => (s.collect query graph).map .rows
  | .runPlan query plan graph limit =>
    .ok (.planRun (Matches.first limit query.slots plan (s.store.index graph)))
  | .project query onto graph limit =>
    let run := Matches.first limit query.slots query.plan (s.store.index graph)
    match run.fault with
    | some fault => .error fault
    | none => .ok (.projections (run.found.map onto.slots.project))
  | .rowClasses graph queries => do
    let rows ← queries.mapM fun query => s.matchedRows query graph
    return .numbers (classNumbers (rows.flatten.map Row.key) [])
  | .relevance query item =>
    let slots := query.slots.slots.toList
    .ok (.relevance ⟨query.slots.isRelevant item, slots.map (·.accepts item),
      slots.map (·.admits item.type)⟩)
  | .findSlot query name =>
    let index := query.slots.find? name
    .ok (.slot index (index.bind fun i => query.slots.slots[i]?.bind Slot.scanType))
  | .run id limit =>
    s.withQuery id fun live =>
      (live.cursor.advance s.store.index limit).1.map (.page live.snapshot.isSome)
  | .collectQuery id =>
    s.withQuery id fun live =>
      match live.snapshot with
      | some snapshot => .ok (.rows snapshot.rows)
      | none => (s.collect live.query live.graph).map .rows
  | .queryState id =>
    s.withQuery id fun live => .ok (.queryState live.cached !live.active)
  | .cacheTrace query graph actions => do
    let rows ← s.collect query graph
    return .cacheTrace (CacheAction.trace rows actions none)
  | .results id => .ok (s.withObserver id fun observer => .rows observer.retained)
  | .observerState id =>
    .ok (s.withObserver id fun observer =>
      .observerState observer.destroyed observer.describe)

end Session

end PatternGraph
