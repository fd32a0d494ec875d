import PatternGraph.Proofs.Index.Selection
import PatternGraph.Proofs.Store.Housing

/-!
# Removing many items at once

Removing listed items one after the other, while each removal changes the index that the list was
read from, comes to the same as taking all of them out of the diagram behind the index.  What has
left the graph loses its owner and nothing else, and everything that has not left stays as it was.
-/

namespace PatternGraph

namespace Diagram

/-- Whether an item is in one diagram and not in the other one. -/
def Sheds (g g' : Diagram) (id : ItemId) : Prop :=
  g.Includes id ∧ ¬g'.Includes id

theorem sheds_dropEdge (g : Diagram) {id : EdgeId} (h : g.Includes (.edge id)) (other : ItemId) :
    g.Sheds (g.dropEdge id) other ↔ other = .edge id := by
  rw [Sheds, g.includes_dropEdge]
  constructor
  · exact fun hother => by_contra fun hne => hother.2 ⟨hother.1, hne⟩
  · rintro rfl
    exact ⟨h, fun hboth => hboth.2 rfl⟩

theorem sheds_dropNode_node (g : Diagram) {id : NodeId} (h : g.Includes (.node id)) (other : NodeId) :
    g.Sheds (g.dropNode id) (.node other) ↔ other = id := by
  rw [Sheds, g.includes_dropNode]
  constructor
  · intro hother
    by_contra hne
    exact hother.2 ⟨hother.1, by simpa using hne, by simp⟩
  · rintro rfl
    exact ⟨h, fun hboth => hboth.2.1 rfl⟩

/-- With a node go the edges at it. -/
theorem sheds_dropNode_edge (g : Diagram) (id : NodeId) (other : EdgeId) :
    g.Sheds (g.dropNode id) (.edge other) ↔ other ∈ (g.edgesAt id).map Edge.id := by
  have hmem : .edge other ∈ (g.edgesAt id).map (ItemId.edge ·.id) ↔
      other ∈ (g.edgesAt id).map Edge.id := by simp
  rw [Sheds, g.includes_dropNode, hmem]
  constructor
  · intro hother
    by_contra hne
    exact hother.2 ⟨hother.1, by simp, hne⟩
  · intro hother
    obtain ⟨w, hw, -⟩ := (g.mem_ids_edgesAt id other).mp hother
    exact ⟨Std.ExtTreeMap.mem_iff_isSome_getElem?.mpr (by simp [hw]), fun hboth => hboth.2.2 hother⟩

end Diagram

namespace Store

/--
Whether a store has changed only in that a graph, of which one diagram was behind its index, is left
with another diagram, and that the items that are no longer in it have no owner.
-/
structure Shrinks (store : Store) (graph : GraphId) (store' : Store) (g g' : Diagram) : Prop where
  shows : (store'.index graph).Represents g'
  within : ∀ id, g'.Includes id → g.Includes id
  graphs : ∀ other, other ∈ store'.graphs ↔ other ∈ store.graphs
  others : ∀ other ≠ graph, store'.index other = store.index other
  nodeLeft : ∀ id, g.Sheds g' (.node id) →
    store'.nodes[id]? = some { store.nodes.getD id default with owner := none }
  nodeKept : ∀ id, ¬g.Sheds g' (.node id) → store'.nodes[id]? = store.nodes[id]?
  edgeLeft : ∀ id, g.Sheds g' (.edge id) →
    store'.edges[id]? = some { store.edges.getD id default with owner := none }
  edgeKept : ∀ id, ¬g.Sheds g' (.edge id) → store'.edges[id]? = store.edges[id]?
  nodeCount : store'.nodeCount = store.nodeCount
  edgeCount : store'.edgeCount = store.edgeCount
  graphCount : store'.graphCount = store.graphCount

namespace Shrinks

variable {graph : GraphId} {store store' store'' : Store} {g g' g'' : Diagram}

theorem refl (h : (store.index graph).Represents g) : store.Shrinks graph store g g :=
  ⟨h, fun _ hid => hid, fun _ => Iff.rfl, fun _ _ => rfl, fun _ hid => absurd hid.1 hid.2,
    fun _ _ => rfl, fun _ hid => absurd hid.1 hid.2, fun _ _ => rfl, rfl, rfl, rfl⟩

/-- What leaves in one of two steps leaves in both together, and nothing else does. -/
theorem trans (h : store.Shrinks graph store' g g') (h' : store'.Shrinks graph store'' g' g'') :
    store.Shrinks graph store'' g g'' := by
  have hsheds : ∀ id, g.Sheds g'' id ↔ g.Sheds g' id ∨ g'.Sheds g'' id := by
    intro id
    have hfirst := h.within id
    have hsecond := h'.within id
    simp only [Diagram.Sheds]
    tauto
  have hapart : ∀ id, g.Sheds g' id → ¬g'.Sheds g'' id := fun id hid hid' => hid.2 hid'.1
  have hkept : ∀ id, ¬g.Sheds g'' id → ¬g.Sheds g' id ∧ ¬g'.Sheds g'' id := by
    intro id hid
    rwa [hsheds, not_or] at hid
  refine ⟨h'.shows, fun id hid => h.within id (h'.within id hid),
    fun other => (h'.graphs other).trans (h.graphs other),
    fun other hother => (h'.others other hother).trans (h.others other hother),
    fun id hid => ?_, fun id hid => ?_, fun id hid => ?_, fun id hid => ?_,
    h'.nodeCount.trans h.nodeCount, h'.edgeCount.trans h.edgeCount, h'.graphCount.trans h.graphCount⟩
  · by_cases hfirst : g.Sheds g' (.node id)
    · rw [h'.nodeKept id (hapart _ hfirst), h.nodeLeft id hfirst]
    · rw [h'.nodeLeft id (((hsheds _).mp hid).resolve_left hfirst),
        Std.ExtTreeMap.getD_eq_getD_getElem?, h.nodeKept id hfirst,
        Std.ExtTreeMap.getD_eq_getD_getElem?]
  · obtain ⟨hfirst, hsecond⟩ := hkept _ hid
    rw [h'.nodeKept id hsecond, h.nodeKept id hfirst]
  · by_cases hfirst : g.Sheds g' (.edge id)
    · rw [h'.edgeKept id (hapart _ hfirst), h.edgeLeft id hfirst]
    · rw [h'.edgeLeft id (((hsheds _).mp hid).resolve_left hfirst),
        Std.ExtTreeMap.getD_eq_getD_getElem?, h.edgeKept id hfirst,
        Std.ExtTreeMap.getD_eq_getD_getElem?]
  · obtain ⟨hfirst, hsecond⟩ := hkept _ hid
    rw [h'.edgeKept id hsecond, h.edgeKept id hfirst]

end Shrinks

/-- What is kept of edges after some of them have lost their owner. -/
theorem getElem?_edges_disownEdges (edges : List Edge) (store : Store) (id : EdgeId) :
    (edges.foldl disownEdge store).edges[id]? =
      if id ∈ edges.map Edge.id then some { store.edges.getD id default with owner := none }
      else store.edges[id]? := by
  induction edges generalizing store with
  | nil => simp
  | cons e edges ih =>
      have hfirst : (store.disownEdge e).edges[id]? =
          if id = e.id then some { store.edges.getD id default with owner := none }
          else store.edges[id]? := by
        rw [disownEdge, updateEdge, getElem?_insert_eq]
        split
        · rename_i heq
          rw [heq, edgeState]
        · rfl
      rw [List.foldl_cons, ih, Std.ExtTreeMap.getD_eq_getD_getElem?, hfirst]
      by_cases hid : id = e.id
      · simp [hid]
      · simp [hid, Std.ExtTreeMap.getD_eq_getD_getElem?]

theorem nodes_disownEdges (edges : List Edge) (store : Store) :
    (edges.foldl disownEdge store).nodes = store.nodes := by
  induction edges generalizing store with
  | nil => rfl
  | cons e edges ih => exact ih _

section Takes

variable {graph : GraphId} {store : Store} {g : Diagram}

/-- Replacing the index of a graph that has something in it, with all else as it was. -/
theorem graphs_of_setIndex (store' : Store) {index : Index} {id : ItemId}
    (hgraphs : store'.graphs = (store.setIndex graph index).graphs)
    (hid : (store.index graph).Includes id) :
    store'.index graph = index ∧ (∀ other, other ∈ store'.graphs ↔ other ∈ store.graphs) ∧
      ∀ other ≠ graph, store'.index other = store.index other := by
  have hindex : ∀ other, store'.index other = (store.setIndex graph index).index other := by
    intro other
    rw [Store.index, Store.index, hgraphs]
  refine ⟨(hindex graph).trans (store.index_setIndex_self graph index), fun other => ?_,
    fun other hother => (hindex other).trans (store.index_setIndex_of_ne index hother)⟩
  rw [hgraphs, mem_graphs_setIndex]
  exact or_iff_right_of_imp fun heq => heq ▸ mem_graphs_of_includes hid

/-- Taking one edge out of a graph, or nothing if it is not there. -/
theorem takeEdge_shrinks (h : (store.index graph).Represents g) (id : EdgeId) :
    store.takeEdge graph id = none ∧ g.dropEdge id = g ∨
      ∃ events store', store.takeEdge graph id = some (events, store') ∧
        store.Shrinks graph store' g (g.dropEdge id) := by
  rcases h.removeEdge id with ⟨hw, hnone⟩ | ⟨w, index, hw, hsome, hindex⟩
  · exact Or.inl ⟨by rw [takeEdge, hnone]; rfl, g.dropEdge_of_getElem?_eq_none hw⟩
  · have hid : w.edge.id = id := g.edge_id id w hw
    have hthere : g.Includes (.edge id) := Std.ExtTreeMap.mem_iff_isSome_getElem?.mpr (by simp [hw])
    have hsheds := g.sheds_dropEdge hthere
    obtain ⟨hself, hgraphs, hothers⟩ := graphs_of_setIndex
      ((store.setIndex graph index).disownEdge w.edge) rfl ((h.includes_iff _).mpr hthere)
    have hedges := fun other => getElem?_edges_disownEdges [w.edge] (store.setIndex graph index) other
    simp only [List.map_cons, List.map_nil, List.mem_singleton, hid] at hedges
    refine Or.inr ⟨_, _, by rw [takeEdge, hsome]; rfl, ?_,
      fun other hother => ((g.includes_dropEdge id other).mp hother).1, hgraphs, hothers,
      fun other hother => ?_, fun _ _ => rfl, fun other hother => ?_, fun other hother => ?_,
      rfl, rfl, rfl⟩
    · rw [hself]
      exact hindex
    · cases (hsheds _).mp hother
    · rw [hsheds, ItemId.edge.injEq] at hother
      exact (hedges other).trans (if_pos hother)
    · rw [hsheds, ItemId.edge.injEq] at hother
      exact (hedges other).trans (if_neg hother)

/-- Taking one node out of a graph with the edges at it, or nothing if it is not there. -/
theorem takeNode_shrinks (h : (store.index graph).Represents g) (id : NodeId) :
    store.takeNode graph id = none ∧ g.dropNode id = g ∨
      ∃ events store', store.takeNode graph id = some (events, store') ∧
        store.Shrinks graph store' g (g.dropNode id) := by
  rcases h.removeNode id with ⟨hn, hnone⟩ | ⟨n, index, hn, hsome, hindex⟩
  · exact Or.inl ⟨by rw [takeNode, hnone]; rfl, g.dropNode_of_getElem?_eq_none hn⟩
  · have hid : n.id = id := g.node_id id n hn
    have hthere : g.Includes (.node id) := Std.ExtTreeMap.mem_iff_isSome_getElem?.mpr (by simp [hn])
    have hnodes := g.sheds_dropNode_node hthere
    have hedges := g.sheds_dropNode_edge id
    let removed := (g.edgesAt id).foldl disownEdge (store.setIndex graph index)
    obtain ⟨hself, hgraphs, hothers⟩ := graphs_of_setIndex (removed.setNodeOwner none n)
      (KeepsGraphs.disownEdges _ _).graphs ((h.includes_iff _).mpr hthere)
    have hwiring := (SameWiring.setIndex store graph index).trans
      ((SameWiring.disownEdges (g.edgesAt id) _).trans (.setNodeOwner _ none n))
    have hstates := fun other => getElem?_edges_disownEdges (g.edgesAt id) (store.setIndex graph index) other
    have hsame : removed.nodes = store.nodes := nodes_disownEdges _ _
    have hstate : ∀ other, (removed.setNodeOwner none n).nodes[other]? =
        if other = id then some { store.nodes.getD other default with owner := none }
        else store.nodes[other]? := by
      intro other
      rw [setNodeOwner, updateNode, getElem?_insert_eq, nodeState, hsame, hid]
      split
      · rename_i heq
        rw [heq]
      · rfl
    refine Or.inr ⟨_, _, by rw [takeNode, hsome]; rfl, ?_,
      fun other hother => ((g.includes_dropNode id other).mp hother).1, hgraphs, hothers,
      fun other hother => (hstate other).trans (if_pos ((hnodes other).mp hother)),
      fun other hother => (hstate other).trans (if_neg fun heq => hother ((hnodes other).mpr heq)),
      fun other hother => (hstates other).trans (if_pos ((hedges other).mp hother)),
      fun other hother => (hstates other).trans (if_neg fun hmem => hother ((hedges other).mpr hmem)),
      hwiring.nodeCount, hwiring.edgeCount, hwiring.graphCount⟩
    rw [hself]
    exact hindex

/-- Removing listed items one by one, where each removal takes an item out of the diagram. -/
theorem takeEach_shrinks
    {α : Type}
    {take : Store → α → Option (List Event × Store)}
    {drop : Diagram → α → Diagram}
    (htake : ∀ (store : Store) (g : Diagram) (a : α), (store.index graph).Represents g →
      take store a = none ∧ drop g a = g ∨ ∃ events store', take store a = some (events, store') ∧
        store.Shrinks graph store' g (drop g a))
    (items : List α)
    (h : (store.index graph).Represents g) :
    store.Shrinks graph (takeEach take items store).2 g (items.foldl drop g) := by
  induction items generalizing store g with
  | nil => exact .refl h
  | cons a items ih =>
      rw [takeEach, List.foldl_cons]
      rcases htake store g a h with ⟨hnone, hsame⟩ | ⟨events, store', hsome, hshrinks⟩
      · rw [hnone, hsame]
        exact ih h
      · rw [hsome]
        exact hshrinks.trans (ih hshrinks.shows)

/-- Removing by type takes out exactly the edges of that type or of its descendants. -/
theorem removeEdgesByType_shrinks (h : (store.index graph).Represents g) (t : EdgeType) :
    store.Shrinks graph (store.removeEdgesByType graph t).2 g
      (g.keepWires fun _ w => !w.edge.type.isA t) := by
  have hunder : ∀ e, e ∈ (store.index graph).edgesByType.under t.id ↔
      ∃ w, g.wires[e]? = some w ∧ (!w.edge.type.isA t) = false := by
    intro e
    rw [Buckets.mem_under, h.edgesByType.mem]
    cases g.wires[e]? <;> simp [Typ.isA]
  rw [← g.foldl_dropEdge hunder]
  exact takeEach_shrinks (fun _ _ e h => takeEdge_shrinks h e) _ h

/-- Removing by type takes out exactly the nodes of that type, with the edges at them. -/
theorem removeNodesByType_shrinks (h : (store.index graph).Represents g) (t : NodeType) :
    store.Shrinks graph (store.removeNodesByType graph t).2 g
      (g.keepNodes fun n => !n.type.isA t) := by
  have hunder : ∀ id, id ∈ (store.index graph).nodesByType.under t.id ↔
      ∃ n, g.nodes[id]? = some n ∧ (!n.type.isA t) = false := by
    intro id
    rw [Buckets.mem_under, h.nodesByType.mem]
    cases g.nodes[id]? <;> simp [Typ.isA]
  rw [← g.foldl_dropNode hunder]
  exact takeEach_shrinks (fun _ _ id h => takeNode_shrinks h id) _ h

/-- Removing by ends takes out exactly the edges that a look at every edge would pick. -/
theorem removeEdgesByNodes_shrinks {selector : Selector} (h : (store.index graph).Represents g)
    (hselector : ¬selector.Refused) :
    ∃ events store', store.removeEdgesByNodes graph selector = .ok (events, store') ∧
      store.Shrinks graph store' g (g.keepWires fun _ w => !selector.accepts w.edge w.ends) := by
  obtain ⟨ids, hselect, hids⟩ := Selector.exists_select hselector h
  have hpicked : ∀ e, e ∈ ids ↔
      ∃ w, g.wires[e]? = some w ∧ (!selector.accepts w.edge w.ends) = false := by
    simpa using hids
  have hshrinks := takeEach_shrinks (fun _ _ e h => takeEdge_shrinks h e) ids h
  rw [g.foldl_dropEdge hpicked] at hshrinks
  exact ⟨_, _, by rw [removeEdgesByNodes, hselect]; rfl, hshrinks⟩

theorem exists_removeEdgesByNodes_eq_error (store : Store) (graph : GraphId) {selector : Selector}
    (hselector : selector.Refused) :
    ∃ fault, store.removeEdgesByNodes graph selector = .error fault := by
  obtain ⟨fault, hfault⟩ := Selector.exists_select_eq_error hselector (store.index graph)
  exact ⟨fault, by rw [removeEdgesByNodes, hfault]; rfl⟩

end Takes

end Store

end PatternGraph
