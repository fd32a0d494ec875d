import Std.Data.ExtTreeSet
import PatternGraph.Fault

/-!
# The index of a graph

An `Index` is the content of one graph: its nodes, its edges and the ends of each edge, filed in
addition under every type of an item and by neighbourhood.  The six maps are extensional, so two
indices with the same content are equal.  Four operations change an index; each keeps all six maps
in step.  Identities list in order of creation.
-/

namespace PatternGraph

/-- The source and the target of an edge. -/
structure Ends where
  source : NodeId
  target : NodeId
deriving DecidableEq, Repr, Inhabited

/-- The edges that leave a node and the edges that reach it. -/
structure Incidence where
  outgoing : Std.ExtTreeSet EdgeId
  incoming : Std.ExtTreeSet EdgeId
deriving DecidableEq

namespace Incidence

/-- The incidence of a node without edges. -/
def empty : Incidence := ⟨∅, ∅⟩

/-- The edges at a node in either role. -/
def all (i : Incidence) : Std.ExtTreeSet EdgeId :=
  i.outgoing ∪ i.incoming

end Incidence

/-- Items filed under the identities of types. -/
abbrev Buckets (subject : Subject) :=
  Std.ExtTreeMap TypeId (Std.ExtTreeSet (Ident subject))

namespace Buckets

variable {subject : Subject}

/-- Files an item under each of the listed types. -/
def file (x : Ident subject) (types : List TypeId) (buckets : Buckets subject) : Buckets subject :=
  types.foldl
    (fun buckets t => buckets.alter t fun bucket => some ((bucket.getD ∅).insert x)) buckets

/-- Takes an item out of one bucket, which disappears when it becomes empty. -/
def withdraw (x : Ident subject) (bucket : Option (Std.ExtTreeSet (Ident subject))) :
    Option (Std.ExtTreeSet (Ident subject)) :=
  bucket.bind fun bucket =>
    let rest := bucket.erase x
    if rest.isEmpty then none else some rest

/-- Takes an item out of the buckets of the listed types. -/
def unfile (x : Ident subject) (types : List TypeId) (buckets : Buckets subject) :
    Buckets subject :=
  types.foldl (fun buckets t => buckets.alter t (withdraw x)) buckets

/-- The items filed under a type, in order of creation. -/
def under (buckets : Buckets subject) (t : TypeId) : List (Ident subject) :=
  match buckets[t]? with
  | some bucket => bucket.toList
  | none => []

end Buckets

/-- The content of a graph. -/
structure Index where
  nodes : Std.ExtTreeMap NodeId Node
  edges : Std.ExtTreeMap EdgeId Edge
  nodesByType : Buckets .node
  edgesByType : Buckets .edge
  ends : Std.ExtTreeMap EdgeId Ends
  incidence : Std.ExtTreeMap NodeId Incidence
deriving DecidableEq

namespace Index

/-- The index of an empty graph. -/
def empty : Index := ⟨∅, ∅, ∅, ∅, ∅, ∅⟩

instance : Inhabited Index := ⟨empty⟩

/-- The edges at a node, none if the node is not indexed. -/
def incidenceOf (index : Index) (node : NodeId) : Incidence :=
  index.incidence.getD node .empty

/-- The nodes of a type or of its descendants, in order of creation. -/
def nodesOfType (index : Index) (t : TypeId) : List Node :=
  (index.nodesByType.under t).filterMap fun id => index.nodes[id]?

/-- The edges of a type or of its descendants, in order of creation. -/
def edgesOfType (index : Index) (t : TypeId) : List Edge :=
  (index.edgesByType.under t).filterMap fun id => index.edges[id]?

/-- The edges that a set of identities names, in order of creation. -/
def edgesOf (index : Index) (ids : Std.ExtTreeSet EdgeId) : List Edge :=
  ids.toList.filterMap fun id => index.edges[id]?

/-- The ends of an edge as nodes. -/
def endpoints? (index : Index) (edge : EdgeId) : Option (Node × Node) := do
  let ends ← index.ends[edge]?
  return (← index.nodes[ends.source]?, ← index.nodes[ends.target]?)

/-- Adds a node; the flag tells whether it was absent. -/
def insertNode (index : Index) (node : Node) : Bool × Index :=
  if index.nodes.contains node.id then (false, index)
  else
    (true,
      { index with
        nodes := index.nodes.insert node.id node
        nodesByType := index.nodesByType.file node.id node.type.ancestors
        incidence := index.incidence.insertIfNew node.id .empty })

/-- Adds an edge between two indexed nodes; the flag tells whether it was absent. -/
def insertEdge (index : Index) (edge : Edge) (ends : Ends) : Except Fault (Bool × Index) :=
  if index.edges.contains edge.id then .ok (false, index)
  else if index.nodes.contains ends.source ∧ index.nodes.contains ends.target then
    .ok (true,
      { index with
        edges := index.edges.insert edge.id edge
        edgesByType := index.edgesByType.file edge.id edge.type.ancestors
        ends := index.ends.insert edge.id ends
        incidence :=
          (index.incidence.alter ends.source fun i =>
            let i := i.getD .empty
            some { i with outgoing := i.outgoing.insert edge.id }).alter ends.target fun i =>
            let i := i.getD .empty
            some { i with incoming := i.incoming.insert edge.id } })
  else .error (.endsNotIndexed edge.id ends.source ends.target)

/-- Takes an edge out of the neighbourhood of its ends. -/
def detachEnds (edge : EdgeId) (ends : Ends) (incidence : Std.ExtTreeMap NodeId Incidence) :
    Std.ExtTreeMap NodeId Incidence :=
  (incidence.modify ends.source fun i => { i with outgoing := i.outgoing.erase edge }).modify
    ends.target fun i => { i with incoming := i.incoming.erase edge }

/-- Removes an edge, if it is there. -/
def removeEdge (index : Index) (id : EdgeId) : Option (Edge × Index) :=
  index.edges[id]?.map fun edge =>
    (edge,
      { index with
        edges := index.edges.erase id
        edgesByType := index.edgesByType.unfile id edge.type.ancestors
        ends := index.ends.erase id
        incidence :=
          match index.ends[id]? with
          | some ends => detachEnds id ends index.incidence
          | none => index.incidence })

/-- Removes the listed edges as far as they are there, and gives them in the same order. -/
def removeEdges (index : Index) : List EdgeId → List Edge × Index
  | [] => ([], index)
  | id :: rest =>
    match index.removeEdge id with
    | none => index.removeEdges rest
    | some (edge, index) =>
      let (edges, index) := index.removeEdges rest
      (edge :: edges, index)

/-- Removes a node with its edges, if it is there; the edges come in order of creation. -/
def removeNode (index : Index) (id : NodeId) : Option (Node × List Edge × Index) :=
  index.nodes[id]?.map fun node =>
    let (edges, index) := index.removeEdges (index.incidenceOf id).all.toList
    (node, edges,
      { index with
        nodes := index.nodes.erase id
        nodesByType := index.nodesByType.unfile id node.type.ancestors
        incidence := index.incidence.erase id })

end Index

end PatternGraph
