import PatternGraph.Index.Basic
import PatternGraph.Proofs.Lookup

/-!
# Diagrams

A `Diagram` is a finite directed multigraph with labelled nodes and edges: a finite set of nodes and
a finite map from edges to their ends, all of which are nodes of the diagram.  It is what an index
is about, without any of the index's redundancy.  The four operations on an index are defined here
once more on diagrams, by what they do to the set of nodes and to the map of edges.
-/

namespace PatternGraph

/-- An edge with its ends. -/
structure Wire where
  edge : Edge
  ends : Ends
deriving DecidableEq, Repr

/-- Whether a node is an end of an edge. -/
def Ends.touch (ends : Ends) (node : NodeId) : Bool :=
  ends.source == node || ends.target == node

/-- A finite set of nodes and a finite map from edges to their ends. -/
structure Diagram where
  nodes : Std.ExtTreeMap NodeId Node
  wires : Std.ExtTreeMap EdgeId Wire
  node_id : ∀ (id : NodeId) (n : Node), nodes[id]? = some n → n.id = id
  edge_id : ∀ (id : EdgeId) (w : Wire), wires[id]? = some w → w.edge.id = id
  closed : ∀ (id : EdgeId) (w : Wire), wires[id]? = some w →
    w.ends.source ∈ nodes ∧ w.ends.target ∈ nodes

namespace Diagram

theorem ext {g h : Diagram} (hnodes : g.nodes = h.nodes)
    (hwires : ∀ e : EdgeId, g.wires[e]? = h.wires[e]?) : g = h := by
  have hsame : g.wires = h.wires := Std.ExtTreeMap.ext_getElem? hwires
  cases g
  cases h
  simp_all

/-- The diagram without nodes. -/
def empty : Diagram :=
  ⟨∅, ∅, by simp, by simp, by simp⟩

/-- The nodes of a diagram, in order of creation. -/
def nodeList (g : Diagram) : List Node :=
  g.nodes.toList.map Prod.snd

/-- The edges of a diagram, in order of creation. -/
def edgeList (g : Diagram) : List Edge :=
  g.wires.toList.map fun entry => entry.2.edge

/-- The edges at a node, in order of creation. -/
def edgesAt (g : Diagram) (node : NodeId) : List Edge :=
  (g.wires.toList.filter fun entry => entry.2.ends.touch node).map fun entry => entry.2.edge

theorem ordered_nodeList (g : Diagram) :
    g.nodeList.Pairwise fun m n => m.id.number < n.id.number := by
  rw [nodeList, List.pairwise_map]
  refine g.nodes.ordered_keys_toList.imp_of_mem ?_
  rintro ⟨i, m⟩ ⟨j, n⟩ hm hn hlt
  rw [Std.ExtTreeMap.mem_toList_iff_getElem?_eq_some] at hm hn
  rw [g.node_id i m hm, g.node_id j n hn]
  exact Nat.compare_eq_lt.mp hlt

theorem ordered_edgeList (g : Diagram) :
    g.edgeList.Pairwise fun d e => d.id.number < e.id.number := by
  rw [edgeList, List.pairwise_map]
  refine g.wires.ordered_keys_toList.imp_of_mem ?_
  rintro ⟨i, v⟩ ⟨j, w⟩ hv hw hlt
  rw [Std.ExtTreeMap.mem_toList_iff_getElem?_eq_some] at hv hw
  rw [g.edge_id i v hv, g.edge_id j w hw]
  exact Nat.compare_eq_lt.mp hlt

theorem ordered_edgesAt (g : Diagram) (node : NodeId) :
    (g.edgesAt node).Pairwise fun d e => d.id.number < e.id.number :=
  g.ordered_edgeList.sublist (List.filter_sublist.map _)

/-- Adds a node under an identity that is free. -/
def addNode (g : Diagram) (n : Node) : Diagram where
  nodes := g.nodes.insert n.id n
  wires := g.wires
  node_id := by
    intro id m hm
    rw [Std.ExtTreeMap.getElem?_insert] at hm
    split at hm
    · rename_i h
      rw [← Option.some.inj hm]
      exact Std.LawfulEqCmp.eq_of_compare h
    · exact g.node_id id m hm
  edge_id := g.edge_id
  closed := by
    intro id w hw
    obtain ⟨hs, ht⟩ := g.closed id w hw
    simp [hs, ht]

/-- Adds an edge between two nodes of the diagram. -/
def addEdge (g : Diagram) (e : Edge) (ends : Ends)
    (hends : ends.source ∈ g.nodes ∧ ends.target ∈ g.nodes) : Diagram where
  nodes := g.nodes
  wires := g.wires.insert e.id ⟨e, ends⟩
  node_id := g.node_id
  edge_id := by
    intro id w hw
    rw [Std.ExtTreeMap.getElem?_insert] at hw
    split at hw
    · rename_i h
      rw [← Option.some.inj hw]
      exact Std.LawfulEqCmp.eq_of_compare h
    · exact g.edge_id id w hw
  closed := by
    intro id w hw
    rw [Std.ExtTreeMap.getElem?_insert] at hw
    split at hw
    · rw [← Option.some.inj hw]
      exact hends
    · exact g.closed id w hw

/-- Keeps all nodes, and of the edges those that pass a test. -/
def keepWires (g : Diagram) (keep : EdgeId → Wire → Bool) : Diagram where
  nodes := g.nodes
  wires := g.wires.filter keep
  node_id := g.node_id
  edge_id := by
    intro id w hw
    rw [Std.ExtTreeMap.getElem?_filter', Option.filter_eq_some_iff] at hw
    exact g.edge_id id w hw.1
  closed := by
    intro id w hw
    rw [Std.ExtTreeMap.getElem?_filter', Option.filter_eq_some_iff] at hw
    exact g.closed id w hw.1

@[simp]
theorem getElem?_keepWires (g : Diagram) (keep : EdgeId → Wire → Bool) (e : EdgeId) :
    (g.keepWires keep).wires[e]? = g.wires[e]?.filter (keep e) := by
  simp [keepWires]

/-- Takes an edge out. -/
def dropEdge (g : Diagram) (id : EdgeId) : Diagram :=
  g.keepWires fun e _ => e != id

theorem getElem?_dropEdge (g : Diagram) (id e : EdgeId) :
    (g.dropEdge id).wires[e]? = if e = id then none else g.wires[e]? := by
  rw [dropEdge, getElem?_keepWires]
  by_cases he : e = id
  · cases g.wires[e]? <;> simp [he]
  · cases g.wires[e]? <;> simp [he]

theorem dropEdge_of_getElem?_eq_none (g : Diagram) {id : EdgeId} (hid : g.wires[id]? = none) :
    g.dropEdge id = g := by
  refine Diagram.ext rfl fun e => ?_
  rw [getElem?_dropEdge]
  by_cases he : e = id
  · rw [if_pos he, he, hid]
  · rw [if_neg he]

theorem keepWires_nil (g : Diagram) : (g.keepWires fun e _ => !([] : List EdgeId).contains e) = g := by
  refine Diagram.ext rfl fun e => ?_
  cases hw : g.wires[e]? <;> simp [hw]

/-- Edges can be taken out one after the other. -/
theorem keepWires_dropEdge (g : Diagram) (id : EdgeId) (ids : List EdgeId) :
    ((g.dropEdge id).keepWires fun e _ => !ids.contains e) =
      g.keepWires fun e _ => !(id :: ids).contains e := by
  refine Diagram.ext rfl fun e => ?_
  rw [getElem?_keepWires, getElem?_keepWires, getElem?_dropEdge]
  by_cases he : e = id
  · cases g.wires[e]? <;> simp [he]
  · cases g.wires[e]? <;> simp [he, Option.filter]

/-- Takes a node out, together with the edges at it. -/
def dropNode (g : Diagram) (id : NodeId) : Diagram where
  nodes := g.nodes.erase id
  wires := g.wires.filter fun _ w => !w.ends.touch id
  node_id := by
    intro m n hn
    rw [Std.ExtTreeMap.getElem?_erase] at hn
    split at hn
    · cases hn
    · exact g.node_id m n hn
  edge_id := (g.keepWires _).edge_id
  closed := by
    intro e w hw
    rw [Std.ExtTreeMap.getElem?_filter', Option.filter_eq_some_iff] at hw
    obtain ⟨hw, hfree⟩ := hw
    have hends := g.closed e w hw
    have hsource : id ≠ w.ends.source := by
      rintro rfl
      simp [Ends.touch] at hfree
    have htarget : id ≠ w.ends.target := by
      rintro rfl
      simp [Ends.touch] at hfree
    simpa [hsource, htarget] using hends

/-- No edge is at a node that is not there. -/
theorem dropNode_of_getElem?_eq_none (g : Diagram) {id : NodeId} (hid : g.nodes[id]? = none) :
    g.dropNode id = g := by
  have habsent : id ∉ g.nodes := by
    rw [Std.ExtTreeMap.mem_iff_isSome_getElem?, hid]
    simp
  refine Diagram.ext ?_ fun e => ?_
  · apply Std.ExtTreeMap.ext_getElem?
    intro n
    rw [dropNode, Std.ExtTreeMap.getElem?_erase]
    by_cases hn : id = n
    · subst hn
      simp [hid]
    · simp [hn]
  · rw [dropNode, Std.ExtTreeMap.getElem?_filter']
    cases hw : g.wires[e]? with
    | none => rfl
    | some w =>
        obtain ⟨hs, ht⟩ := g.closed e w hw
        have hsource : w.ends.source ≠ id := fun h => habsent (h ▸ hs)
        have htarget : w.ends.target ≠ id := fun h => habsent (h ▸ ht)
        simp [Option.filter, Ends.touch, hsource, htarget]

end Diagram

namespace Index

/-- A change of an index. -/
inductive Operation where
  | insertNode (n : Node)
  | insertEdge (e : Edge) (ends : Ends)
  | removeEdge (id : EdgeId)
  | removeNode (id : NodeId)
deriving DecidableEq, Repr

/-- What a change reports. -/
inductive Report where
  /-- Whether the item was absent. -/
  | inserted (absent : Bool)
  | refused (fault : Fault)
  | edge (removed : Option Edge)
  | node (removed : Option (Node × List Edge))
deriving DecidableEq, Repr

/-- Carries out a change of an index. -/
def apply (index : Index) : Operation → Report × Index
  | .insertNode n => (.inserted (index.insertNode n).1, (index.insertNode n).2)
  | .insertEdge e ends =>
    match index.insertEdge e ends with
    | .ok (absent, index) => (.inserted absent, index)
    | .error fault => (.refused fault, index)
  | .removeEdge id =>
    match index.removeEdge id with
    | some (edge, index) => (.edge (some edge), index)
    | none => (.edge none, index)
  | .removeNode id =>
    match index.removeNode id with
    | some (node, edges, index) => (.node (some (node, edges)), index)
    | none => (.node none, index)

/-- Carries out changes one after the other. -/
def run (index : Index) : List Operation → List Report × Index
  | [] => ([], index)
  | op :: ops =>
    let (report, index) := index.apply op
    let (reports, index) := index.run ops
    (report :: reports, index)

/-- The index of a graph that has come about by the listed changes. -/
def after (ops : List Operation) : Index :=
  (empty.run ops).2

end Index

namespace Diagram

open Index (Operation Report)

/--
Carries out a change of a diagram.  Adding what is there already changes nothing, an edge is refused
unless both of its ends are there, and a node leaves with the edges at it.
-/
def apply (g : Diagram) : Operation → Report × Diagram
  | .insertNode n =>
    if n.id ∈ g.nodes then (.inserted false, g) else (.inserted true, g.addNode n)
  | .insertEdge e ends =>
    if e.id ∈ g.wires then (.inserted false, g)
    else if h : ends.source ∈ g.nodes ∧ ends.target ∈ g.nodes then
      (.inserted true, g.addEdge e ends h)
    else (.refused (.endsNotIndexed e.id ends.source ends.target), g)
  | .removeEdge id => (.edge (g.wires[id]?.map Wire.edge), g.dropEdge id)
  | .removeNode id =>
    (.node (g.nodes[id]?.map fun node => (node, g.edgesAt id)), g.dropNode id)

/-- Carries out changes one after the other. -/
def run (g : Diagram) : List Operation → List Report × Diagram
  | [] => ([], g)
  | op :: ops =>
    let (report, g) := g.apply op
    let (reports, g) := g.run ops
    (report :: reports, g)

/-- The diagram of a graph that has come about by the listed changes. -/
def after (ops : List Operation) : Diagram :=
  (empty.run ops).2

end Diagram

end PatternGraph
