import PatternGraph.Session.Lifetime
import PatternGraph.Session.Question

/-!
# Commands

A `Command` changes a session or asks it a question.  Names are given with the parameter `as`; giving
a name that is in use lets go of what it stood for.  A command that has no one to notify is carried
out at once, and any other leaves tasks to be done.
-/

namespace PatternGraph

/-- The sorts of things a client holds and can let go of. -/
inductive Holding where
  | node
  | edge
  | graph
  | query
  | observer
  | cursor
  | compiled
deriving DecidableEq, Repr

/-- A command to a session whose scripts issue requests of type `ρ`. -/
inductive Command (ρ : Type) where
  | declareNodeType (as name : String) (parent : NodeType)
  | declareEdgeType (as name : String) (parent : EdgeType)
  | createNode (as : String) (type : NodeType) (data : Json)
  | createEdge (as : String) (type : EdgeType) (data : Json)
  | createEdgeBetween (as : String) (type : EdgeType) (source target : Node)
  | createGraph (as : String)
  | setSource (edge : Edge) (node : Node)
  | setTarget (edge : Edge) (node : Node)
  | letGo (holding : Holding) (name : String)
  | addNodes (graph : GraphId) (nodes : List Node)
  | addNode (graph : GraphId) (node : Node)
  | removeNode (graph : GraphId) (node : Node)
  | removeNodes (graph : GraphId) (nodes : List Node)
  | removeNodesByType (graph : GraphId) (type : NodeType)
  | addEdge (graph : GraphId) (source target : Node) (edge : Option Edge) (as : Option String)
  | insertEdge (graph : GraphId) (edge : Edge)
  | removeEdge (graph : GraphId) (edge : Edge)
  | removeEdges (graph : GraphId) (edges : List Edge)
  | removeEdgesByNodes (graph : GraphId) (selector : Selector)
  | removeEdgesByType (graph : GraphId) (type : EdgeType)
  | subscribe (as : String) (graph : GraphId) (on : Option Change) (item : Option String)
      (times : Nat) (steps : List ρ)
  | unsubscribe (graph : GraphId) (subscription : Nat)
  | compile (as : Option String) (query : Query)
  | openQuery (as : String) (graph : GraphId) (query : Query) (cached : Bool)
  | destroyQuery (query : QueryId)
  | openCursor (as : String) (query : QueryId)
  | advance (cursor : String) (limit : Nat)
  | snapshot (query : QueryId)
  | observe (as : String) (graph : GraphId) (query : Query)
  | listen (as : String) (observer : ObserverId) (on : Change) (times : Nat) (steps : List ρ)
  | drain (observer : ObserverId) (change : Change)
  | destroyObserver (observer : ObserverId)
  | ask (question : Question)

namespace Ending

/-- A command that ends with a reply. -/
def reply (graph : GraphId) (reply : Reply) : Ending :=
  ⟨.reply reply, graph, [], none⟩

/-- The same command, ending with a fault. -/
def failing (ending : Ending) (fault : Fault) : Ending :=
  { ending with outcome := .fault fault, binding := none }

/-- Lets a command hold edges until it ends. -/
def holding (ending : Ending) (edges : List Edge) : Ending :=
  { ending with edges := edges }

end Ending

namespace Session

variable {ρ : Type}

/-- Notes a fault. -/
def fail (s : Session ρ) (fault : Fault) : Session ρ :=
  s.conclude (.fault fault)

/-- Changes the names. -/
def updateNames (s : Session ρ) (change : Names → Names) : Session ρ :=
  { s with names := change s.names }

/-- Gives a name to an edge. -/
def nameEdge (s : Session ρ) (as : String) (edge : Edge) : Session ρ :=
  s.updateNames fun names => { names with edges := names.edges.insert as edge }

/-- Lets go of the live query of a name. -/
def dropQuery (s : Session ρ) (name : String) : Session ρ :=
  match s.names.queries[name]? with
  | none => s
  | some id =>
    (s.discardQuery id).updateNames fun names => { names with queries := names.queries.erase name }

/-- Lets go of the observer of a name. -/
def dropObserver (s : Session ρ) (name : String) : Session ρ :=
  match s.names.observers[name]? with
  | none => s
  | some id =>
    (s.discardObserver id).updateNames fun names =>
      { names with observers := names.observers.erase name }

/-- Lets go of what a name stands for. -/
def letGo (s : Session ρ) (name : String) : Holding → Session ρ
  | .node => s.updateNames fun names => { names with nodes := names.nodes.erase name }
  | .edge => s.updateNames fun names => { names with edges := names.edges.erase name }
  | .graph => s.updateNames fun names => { names with graphs := names.graphs.erase name }
  | .query => s.dropQuery name
  | .observer => s.dropObserver name
  | .cursor => s.updateNames fun names => { names with cursors := names.cursors.erase name }
  | .compiled => s.updateNames fun names => { names with compiled := names.compiled.erase name }

/-- Carries on with a changed store if an operation has succeeded. -/
def withStore {α : Type} (s : Session ρ) (result : Except Fault (α × Store))
    (next : α → Session ρ → Session ρ) : Session ρ :=
  match result with
  | .error fault => s.fail fault
  | .ok (a, store) => next a { s with store := store }

/-- Tells the subscribers of a graph about events, and then ends a command. -/
def announceEvents (s : Session ρ) (graph : GraphId) (events : List Event) (ending : Ending) :
    Session ρ :=
  s.push [.dispatch graph events, .finish ending]

/-- Starts adding a node. -/
def addNode (s : Session ρ) (graph : GraphId) (node : Node) : Session ρ :=
  match s.store.preflight [node] with
  | .error fault => s.fail fault
  | .ok () =>
    s.push [.attach ⟨graph, [.node node], []⟩ (.reply graph (.item (.node node.id)))]

/-- Starts adding an edge between two nodes; an edge of another graph has to leave that first. -/
def addEdge (s : Session ρ) (graph : GraphId) (source target : Node) (given : Option Edge)
    (as : Option String) : Session ρ :=
  let (edge, store) :=
    match given with
    | some edge => (edge, s.store)
    | none => s.store.createEdge (.root .edge) .null
  let s := { s with store := store }
  let ending : Ending :=
    ⟨.reply (.item (.edge edge.id)), graph, [edge], as.map fun name => (name, edge)⟩
  if store.ownsEdge graph edge then s.push [.finish ending]
  else
    match store.preflight [source, target] with
    | .error fault => s.fail fault
    | .ok () =>
      match store.graphOfEdge edge with
      | none => s.push [.connect edge source target ending]
      | some previous =>
        s.withStore (store.removeEdge previous edge) fun events s =>
          s.push [.dispatch previous events, .connect edge source target ending]

/-- Starts adding an edge that is wired already. -/
def insertEdge (s : Session ρ) (graph : GraphId) (edge : Edge) : Session ρ :=
  let reply := .item (.edge edge.id)
  if s.store.ownsEdge graph edge then s.answer reply
  else
    match s.store.endpoints? edge with
    | none => s.fail (.halfWired edge.id)
    | some (source, target) =>
      match s.store.preflight [source, target] with
      | .error fault => s.fail fault
      | .ok () =>
        s.push [.attach ⟨graph, [.edge edge], []⟩ ((Ending.reply graph reply).holding [edge])]

/-- Adds a script and gives its identity. -/
def addScript (s : Session ρ) (script : Script ρ) : ScriptId × Session ρ :=
  let (number, s) := s.issue
  let id : ScriptId := ⟨number⟩
  (id, { s with scripts := s.scripts.insert id script })

/-- Subscribes a script to a graph. -/
def subscribe (s : Session ρ) (as : String) (graph : GraphId) (on : Option Change)
    (item : Option String) (times : Nat) (steps : List ρ) : Session ρ :=
  let (id, s) := s.addScript ⟨as, times, 0, steps⟩
  let (subscription, board) := (s.board graph).subscribe (.script id on item)
  ((s.setBoard graph board).updateNames fun names =>
    { names with subscriptions := names.subscriptions.insert as subscription }).answer
    (.number subscription)

/-- Ends a subscription, and tells whether there was one. -/
def unsubscribe (s : Session ρ) (graph : GraphId) (subscription : Nat) : Session ρ :=
  let before := s.board graph
  let after := before.unsubscribe subscription
  (s.setBoard graph after).answer (.flag (after.handlers.length != before.handlers.length))

/-- Opens a live query under a name. -/
def nameQuery (s : Session ρ) (as : String) (graph : GraphId) (query : Query) (cached : Bool) :
    Session ρ :=
  let opened := if cached then s.openCached graph query none else s.openUncached graph query
  match opened with
  | .error fault => s.fail fault
  | .ok (id, live, s) =>
    ((s.dropQuery as).updateNames fun names =>
      { names with queries := names.queries.insert as id }).answer
      (.queryOpened live.cached live.query.slots.size graph)

/-- Opens an observer under a name. -/
def nameObserver (s : Session ρ) (as : String) (graph : GraphId) (query : Query) : Session ρ :=
  match s.openObserver graph query with
  | .error fault => s.fail fault
  | .ok (id, live, s) =>
    ((s.dropObserver as).updateNames fun names =>
      { names with observers := names.observers.insert as id }).answer
      (.number live.query.slots.size)

/-- Compiles a query, and names it if a name is given. -/
def nameCompiled (s : Session ρ) (as : Option String) (query : Query) : Session ρ :=
  match query.compile with
  | .error fault => s.fail fault
  | .ok compiled =>
    (s.updateNames fun names =>
      { names with compiled := as.elim names.compiled (names.compiled.insert · compiled) }).answer
      (.compiled compiled)

/-- Starts reading the rows of a live query under a name. -/
def nameCursor (s : Session ρ) (as : String) (query : QueryId) : Session ρ :=
  match s.queries[query]? with
  | none => s.answer .done
  | some live =>
    (s.updateNames fun names =>
      { names with cursors := names.cursors.insert as live.cursor }).answer
      (.flag live.snapshot.isSome)

/-- Reads further rows of a named cursor. -/
def readCursor (s : Session ρ) (name : String) (limit : Nat) : Session ρ :=
  match s.names.cursors[name]? with
  | none => s.answer .done
  | some cursor =>
    let (rows, cursor) := cursor.advance s.store.index limit
    (s.updateNames fun names =>
      { names with cursors := names.cursors.insert name cursor }).conclude
      (.ofExcept (rows.map .rows))

/-- Shows the snapshot of a live query, and whether it was shown before. -/
def showSnapshot (s : Session ρ) (query : QueryId) : Session ρ :=
  match s.queries[query]?.bind LiveQuery.snapshot with
  | none => s.answer .noSnapshot
  | some snapshot =>
    let same := s.queries[query]?.bind LiveQuery.shown == some snapshot.stamp
    (s.updateQuery query fun live => { live with shown := some snapshot.stamp }).answer
      (.snapshot snapshot.rows same)

/-- Makes a script listen to an observer. -/
def listen (s : Session ρ) (as : String) (observer : ObserverId) (on : Change) (times : Nat)
    (steps : List ρ) : Session ρ :=
  let (id, s) := s.addScript ⟨as, times, 0, steps⟩
  (s.updateObserver observer fun observer => observer.listen id on).answer .done

/-- Empties a queue of an observer. -/
def drain (s : Session ρ) (id : ObserverId) (change : Change) : Session ρ :=
  match s.observers[id]? with
  | none => s.answer .done
  | some observer =>
    let (rows, observer) := observer.drain change
    (s.updateObserver id fun _ => observer).answer (.rows rows)

/-- Starts a command: carries it out at once, or leaves tasks to be done. -/
def begin (s : Session ρ) : Command ρ → Session ρ
  | .declareNodeType as name parent =>
    let (type, vocabulary) := s.vocabulary.declare name parent
    ({ s with vocabulary := vocabulary }.updateNames fun names =>
      { names with nodeTypes := names.nodeTypes.insert as type }).answer (.type (.node type))
  | .declareEdgeType as name parent =>
    let (type, vocabulary) := s.vocabulary.declare name parent
    ({ s with vocabulary := vocabulary }.updateNames fun names =>
      { names with edgeTypes := names.edgeTypes.insert as type }).answer (.type (.edge type))
  | .createNode as type data =>
    let (node, store) := s.store.createNode type data
    ({ s with store := store }.updateNames fun names =>
      { names with nodes := names.nodes.insert as node }).answer (.item (.node node.id))
  | .createEdge as type data =>
    let (edge, store) := s.store.createEdge type data
    ({ s with store := store }.nameEdge as edge).answer (.item (.edge edge.id))
  | .createEdgeBetween as type source target =>
    let (edge, store) := s.store.createEdgeBetween type source target
    ({ s with store := store }.nameEdge as edge).answer (.item (.edge edge.id))
  | .createGraph as =>
    let (graph, store) := s.store.createGraph
    ({ s with store := store }.updateNames fun names =>
      { names with graphs := names.graphs.insert as graph }).answer (.graph graph)
  | .setSource edge node =>
    match s.store.setSource edge node with
    | .error fault => s.fail fault
    | .ok store => { s with store := store }.answer .done
  | .setTarget edge node =>
    match s.store.setTarget edge node with
    | .error fault => s.fail fault
    | .ok store => { s with store := store }.answer .done
  | .letGo holding name => (s.letGo name holding).answer .done
  | .addNodes graph nodes => (s.answer .done).push [.addNodes graph nodes []]
  | .addNode graph node => s.addNode graph node
  | .removeNode graph node => s.push [.removeNodes graph [node]]
  | .removeNodes graph nodes => s.push [.removeNodes graph nodes]
  | .removeNodesByType graph type =>
    let (events, store) := s.store.removeNodesByType graph type
    { s with store := store }.announceEvents graph events (.reply graph .done)
  | .addEdge graph source target edge as => s.addEdge graph source target edge as
  | .insertEdge graph edge => s.insertEdge graph edge
  | .removeEdge graph edge => s.push [.removeEdges graph [edge] [edge]]
  | .removeEdges graph edges => s.push [.removeEdges graph edges edges]
  | .removeEdgesByNodes graph selector =>
    s.withStore (s.store.removeEdgesByNodes graph selector) fun events s =>
      s.announceEvents graph events (.reply graph .done)
  | .removeEdgesByType graph type =>
    let (events, store) := s.store.removeEdgesByType graph type
    { s with store := store }.announceEvents graph events (.reply graph .done)
  | .subscribe as graph on item times steps => s.subscribe as graph on item times steps
  | .unsubscribe graph subscription => s.unsubscribe graph subscription
  | .compile as query => s.nameCompiled as query
  | .openQuery as graph query cached => s.nameQuery as graph query cached
  | .destroyQuery query => (s.destroyQuery query).answer .done
  | .openCursor as query => s.nameCursor as query
  | .advance cursor limit => s.readCursor cursor limit
  | .snapshot query => s.showSnapshot query
  | .observe as graph query => s.nameObserver as graph query
  | .listen as observer on times steps => s.listen as observer on times steps
  | .drain observer change => s.drain observer change
  | .destroyObserver observer => (s.destroyObserver observer).answer (.flag true)
  | .ask question => s.conclude (.ofExcept (s.respond question))

end Session

end PatternGraph
