import PatternGraph.Live.Subscriber
import PatternGraph.Query.Rows

/-!
# Live queries

A live query is a compiled query bound to a graph.  It may hold its rows as a snapshot, which is made
anew whenever the graph changes in a way that could matter; without a snapshot its rows are found as
they are asked for.  A cursor stands somewhere in the rows of a live query.
-/

namespace PatternGraph

/-- The identity of an observer. -/
abbrev ObserverId := Ident .observer

/-- The rows that a live query holds; every refresh makes a snapshot of its own. -/
structure Snapshot where
  stamp : Nat
  rows : List Row
deriving DecidableEq

/-- A query bound to a graph. -/
structure LiveQuery where
  graph : GraphId
  query : CompiledQuery
  /-- Whether the query was asked to hold its rows. -/
  cached : Bool
  snapshot : Option Snapshot
  active : Bool
  subscription : Option Nat
  /-- The observer that is told of every refresh. -/
  observer : Option ObserverId
  /-- The snapshot that the client looked at last. -/
  shown : Option Nat
deriving DecidableEq

/-- Rows being read by a client. -/
inductive Cursor where
  /-- Rows found as they are asked for. -/
  | live (graph : GraphId) (stream : Stream)
  /-- Rows of a snapshot, of which some have been read. -/
  | held (rows : List Row) (read : Nat)

namespace LiveQuery

/-- A live query that holds no rows. -/
def uncached (graph : GraphId) (query : CompiledQuery) : LiveQuery :=
  ⟨graph, query, false, none, true, none, none, none⟩

/-- A live query that holds its rows and is subscribed to its graph. -/
def holding (graph : GraphId) (query : CompiledQuery) (snapshot : Snapshot) (subscription : Nat)
    (observer : Option ObserverId) : LiveQuery :=
  ⟨graph, query, true, some snapshot, true, some subscription, observer, none⟩

/-- A destroyed live query: it no longer reacts to events and holds no rows. -/
def destroy (live : LiveQuery) : LiveQuery :=
  { live with active := false, subscription := none, snapshot := none }

/-- Whether an event about an item calls for a refresh. -/
def concerns (live : LiveQuery) (item : Item) : Bool :=
  live.active && live.query.slots.isRelevant item

/-- Starts reading the rows of a live query: from its snapshot, or else from its graph. -/
def cursor (live : LiveQuery) : Cursor :=
  match live.snapshot with
  | some snapshot => .held snapshot.rows 0
  | none => .live live.graph (.ofQuery live.query)

/-- A live query as it is shown. -/
def describe (live : LiveQuery) : String :=
  "LiveQuery \x7b graph: " ++ toString live.graph.number ++ ", cache: " ++ toString live.cached ++
    ", slots: " ++ toString live.query.slots.size ++ " \x7d"

end LiveQuery

namespace Cursor

/-- Reads up to `limit` further rows, given the contents of the graphs. -/
def advance (index : GraphId → Index) (limit : Nat) : Cursor → Except Fault (List Row) × Cursor
  | .live graph stream =>
    let (rows, stream) := stream.take limit (index graph)
    (rows, .live graph stream)
  | .held rows read =>
    let next := (rows.drop read).take limit
    (.ok next, .held rows (read + next.length))

end Cursor

end PatternGraph
