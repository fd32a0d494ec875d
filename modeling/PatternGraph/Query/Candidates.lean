import PatternGraph.Index.Basic
import PatternGraph.Query.Plan

/-!
# What a step of a plan finds

Given the bindings so far, a step either binds its slot to one of several candidates or checks a
condition.  Candidates come in order of creation, and only those that the slot accepts are kept.
A step fails when it names a slot that does not exist or uses one that is not bound to the right
kind of item.
-/

namespace PatternGraph

/-- The items bound to slots so far. -/
abbrev Bindings := Array (Option Item)

/-- What a step found. -/
inductive Expansion where
  | bind (slot : Nat) (candidates : List Item)
  | check (holds : Bool)
deriving Repr

namespace Index

/-- The edges on which a node plays a role, in order of creation. -/
def edgesInRole (index : Index) (node : NodeId) : Role → List Edge
  | .source => index.edgesOf (index.incidenceOf node).outgoing
  | .target => index.edgesOf (index.incidenceOf node).incoming
  | .endpoint => index.edgesOf (index.incidenceOf node).all

/-- The nodes that play a role on an edge, each once. -/
def nodesInRole (index : Index) (edge : EdgeId) (role : Role) : List Node :=
  match index.ends[edge]? with
  | none => []
  | some ends =>
    let ids :=
      match role with
      | .source => [ends.source]
      | .target => [ends.target]
      | .endpoint =>
        if ends.source = ends.target then [ends.source] else [ends.source, ends.target]
    ids.filterMap fun id => index.nodes[id]?

/-- Whether a node plays a role on an edge. -/
def playsRole (index : Index) (node : NodeId) (edge : EdgeId) (role : Role) : Bool :=
  index.ends[edge]?.any fun ends =>
    match role with
    | .source => ends.source == node
    | .target => ends.target == node
    | .endpoint => ends.source == node || ends.target == node

/-- Whether an edge joins two nodes, in either direction. -/
def joins (index : Index) (edge : EdgeId) (a b : NodeId) : Bool :=
  index.ends[edge]?.any fun ends => ends == ⟨a, b⟩ || ends == ⟨b, a⟩

end Index

namespace Slots

/-- The item bound to a slot. -/
def bound (s : Slots) (row : Bindings) (slot : Nat) : Except Fault Item :=
  match row[slot]? with
  | some (some item) => .ok item
  | _ => .error (.slotUnbound (s.nameOf slot))

/-- The node bound to a slot. -/
def boundNode (s : Slots) (row : Bindings) (slot : Nat) : Except Fault NodeId := do
  match ← s.bound row slot with
  | .node n => return n.id
  | .edge _ => throw (.slotNotNode (s.nameOf slot))

/-- The edge bound to a slot. -/
def boundEdge (s : Slots) (row : Bindings) (slot : Nat) : Except Fault EdgeId := do
  match ← s.bound row slot with
  | .edge e => return e.id
  | .node _ => throw (.slotNotEdge (s.nameOf slot))

/-- The slot that a step binds. -/
def slotAt (s : Slots) (slot : Nat) : Except Fault Slot :=
  match s.slots[slot]? with
  | some found => .ok found
  | none => .error (.slotOutOfRange slot)

end Slots

/-- The nodes that a scan of a slot considers. -/
def Slot.nodeCandidates (slot : Slot) (index : Index) (type : ItemType) : List Item :=
  match slot.pinned with
  | some (.node n) => (index.nodes[n.id]?).toList.map .node
  | some (.edge _) => []
  | none => (index.nodesOfType type.id).map .node

/-- The edges that a scan of a slot considers. -/
def Slot.edgeCandidates (slot : Slot) (index : Index) (type : ItemType) : List Item :=
  match slot.pinned with
  | some (.edge e) => (index.edges[e.id]?).toList.map .edge
  | some (.node _) => []
  | none => (index.edgesOfType type.id).map .edge

/-- What a step finds in an index, given the bindings so far. -/
def Step.expand (s : Slots) (index : Index) (row : Bindings) : Step → Except Fault Expansion
  | .scanNodes slot type => do
    let found ← s.slotAt slot
    return .bind slot ((found.nodeCandidates index type).filter found.accepts)
  | .scanEdges slot type => do
    let found ← s.slotAt slot
    return .bind slot ((found.edgeCandidates index type).filter found.accepts)
  | .traverse origin target via => do
    let found ← s.slotAt target
    if origin = via.node then
      let node ← s.boundNode row origin
      return .bind target (((index.edgesInRole node via.role).map .edge).filter found.accepts)
    else
      let edge ← s.boundEdge row origin
      return .bind target (((index.nodesInRole edge via.role).map .node).filter found.accepts)
  | .check c => do
    let node ← s.boundNode row c.node
    let edge ← s.boundEdge row c.edge
    return .check (index.playsRole node edge c.role)
  | .checkPair edge a b => do
    let edge ← s.boundEdge row edge
    let a ← s.boundNode row a
    let b ← s.boundNode row b
    return .check (index.joins edge a b)

end PatternGraph
