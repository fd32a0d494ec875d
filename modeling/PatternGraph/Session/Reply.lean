import PatternGraph.Query.Rows
import PatternGraph.Store.Basic

/-!
# Replies

What a session answers to its commands and questions.  A command is refused when it makes no sense
as a request, fails with a fault when an operation cannot be carried out, and is replied to
otherwise.
-/

namespace PatternGraph

/-- How two types are related. -/
structure Comparison where
  forward : Bool
  backward : Bool
  equal : Bool
  narrowest : Option ItemType
  /-- The forward comparison, when both types are of one kind. -/
  sameKind : Option Bool
deriving DecidableEq, Repr

/-- The edges at a node, by the role of the node. -/
structure Neighbourhood where
  outgoing : List Edge
  incoming : List Edge
deriving DecidableEq, Repr

namespace Neighbourhood

/-- The number of edges at a node; a loop counts twice. -/
def degree (n : Neighbourhood) : Nat :=
  n.outgoing.length + n.incoming.length

/-- Whether a node has no edges. -/
def isIsolated (n : Neighbourhood) : Bool :=
  n.outgoing.isEmpty && n.incoming.isEmpty

end Neighbourhood

/-- Everything about a node. -/
structure NodeReport where
  node : Node
  data : Json
  graph : Option GraphId
  edges : Neighbourhood

/-- Everything about an edge. -/
structure EdgeReport where
  edge : Edge
  data : Json
  graph : Option GraphId
  source : Option Node
  target : Option Node

/-- Whether an edge has both ends. -/
def EdgeReport.isWired (report : EdgeReport) : Bool :=
  report.source.isSome && report.target.isSome

/-- The items of a graph in order of creation, with the ends that the graph's index knows. -/
structure Content where
  nodes : List Node
  edges : List (Edge × Option (Node × Node))
deriving DecidableEq, Repr

/-- The whole state of a graph. -/
structure GraphReport where
  content : Content
  adjacency : List (Node × Neighbourhood)
  subscribers : Nat
deriving DecidableEq, Repr

/-- A match, with the items bound to chosen slot names. -/
structure NamedMatch where
  row : Bindings
  named : List (String × Option Item)
deriving Repr

/-- How an item bears on a query. -/
structure Relevance where
  relevant : Bool
  accepts : List Bool
  admits : List Bool
deriving DecidableEq, Repr

/-- An answer of a session. -/
inductive Reply where
  | done
  | flag (value : Bool)
  | number (value : Nat)
  | numbers (values : List Nat)
  | text (value : String)
  | type (type : ItemType)
  | typeReport (type : ItemType)
  | comparison (c : Comparison)
  | item (id : ItemId)
  | items (ids : List ItemId)
  | graph (id : GraphId)
  | ends (ends : Option (NodeId × NodeId))
  | neighbourhood (n : Neighbourhood)
  | nodeReport (report : NodeReport)
  | edgeReport (report : EdgeReport)
  | graphReport (report : GraphReport)
  | compiled (query : CompiledQuery)
  | connections (connections : List Connection)
  | namedMatches (rows : List NamedMatch)
  | planRun (run : Matches)
  | rows (rows : List Row)
  | projections (rows : List (Except Fault Row))
  | relevance (r : Relevance)
  | slot (index : Option Nat) (type : Option ItemType)
  | queryOpened (cached : Bool) (slots : Nat) (graph : GraphId)
  | page (cached : Bool) (rows : List Row)
  | snapshot (rows : List Row) (same : Bool)
  | noSnapshot
  | queryState (cached destroyed : Bool)
  | cacheTrace (replies : List (Option (List Row) ⊕ Bool))
  | observerState (destroyed : Bool) (shown : String)

/-- Why a request is not carried out at all. -/
inductive Refusal where
  /-- The request is not well formed or names something unknown. -/
  | malformed
  /-- A value in the request cannot be read. -/
  | unreadable
deriving DecidableEq, Repr

/-- What comes of a request. -/
inductive Outcome where
  | reply (reply : Reply)
  | fault (fault : Fault)
  | refused (why : Refusal)

namespace Outcome

/-- The outcome of a computation. -/
def ofExcept (result : Except Fault Reply) : Outcome :=
  match result with
  | .ok value => .reply value
  | .error cause => .fault cause

/-- Whether an operation failed. -/
def failed : Outcome → Bool
  | .fault _ => true
  | _ => false

end Outcome

end PatternGraph
