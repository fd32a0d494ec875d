import PatternGraph.Proofs.Store.Told

/-!
# Where items are housed

The owner of an item is kept with the item, and its membership is kept by the indices of the graphs.
Every change of a store takes some items out of one graph, puts one item into a graph, or leaves both
alone, and what it does to the owners is the same as what it does to the indices.
-/

namespace PatternGraph

/-- Whether an index includes an item. -/
def Index.Includes (index : Index) : ItemId → Prop
  | .node id => id ∈ index.nodes
  | .edge id => id ∈ index.edges

theorem Index.not_includes_empty (id : ItemId) : ¬Index.empty.Includes id := by
  cases id <;> simp [Index.Includes, Index.empty]

/-- Whether a diagram includes an item. -/
def Diagram.Includes (g : Diagram) : ItemId → Prop
  | .node id => id ∈ g.nodes
  | .edge id => id ∈ g.wires

theorem Index.Represents.includes_iff
    {index : Index}
    {g : Diagram}
    (h : index.Represents g)
    (id : ItemId) :
    index.Includes id ↔ g.Includes id := by
  cases id with
  | node id => rw [Index.Includes, h.nodes, Diagram.Includes]
  | edge id => exact h.mem_edges id

namespace Diagram

theorem mem_ids_edgesAt (g : Diagram) (node : NodeId) (id : EdgeId) :
    id ∈ (g.edgesAt node).map Edge.id ↔ ∃ w, g.wires[id]? = some w ∧ w.ends.touch node = true := by
  simp only [List.mem_map, g.mem_edgesAt]
  constructor
  · rintro ⟨e, ⟨k, w, hw, htouch, rfl⟩, rfl⟩
    rw [g.edge_id k w hw]
    exact ⟨w, hw, htouch⟩
  · rintro ⟨w, hw, htouch⟩
    exact ⟨w.edge, ⟨id, w, hw, htouch, rfl⟩, g.edge_id id w hw⟩

theorem includes_dropNode (g : Diagram) (node : NodeId) (id : ItemId) :
    (g.dropNode node).Includes id ↔
      g.Includes id ∧ id ≠ .node node ∧ id ∉ (g.edgesAt node).map (ItemId.edge ·.id) := by
  cases id with
  | node id =>
      rw [Includes, Includes, dropNode, Std.ExtTreeMap.mem_erase, ne_eq,
        Std.LawfulEqCmp.compare_eq_iff_eq]
      simp [and_comm, eq_comm]
  | edge id =>
      have hids := g.mem_ids_edgesAt node id
      rw [Includes, Includes, Std.ExtTreeMap.mem_iff_isSome_getElem?,
        Std.ExtTreeMap.mem_iff_isSome_getElem?, dropNode, Std.ExtTreeMap.getElem?_filter']
      cases hw : g.wires[id]? with
      | none => simp
      | some w =>
          simp only [hw, Option.some.injEq, exists_eq_left'] at hids
          cases htouch : w.ends.touch node <;> simp_all [Option.filter]

theorem includes_dropEdge (g : Diagram) (edge : EdgeId) (id : ItemId) :
    (g.dropEdge edge).Includes id ↔ g.Includes id ∧ id ≠ .edge edge := by
  cases id with
  | node id => simp [Includes, dropEdge, keepWires]
  | edge id =>
      rw [Includes, Includes, Std.ExtTreeMap.mem_iff_isSome_getElem?,
        Std.ExtTreeMap.mem_iff_isSome_getElem?, getElem?_dropEdge]
      by_cases hid : id = edge
      · simp [hid]
      · simp [hid]

end Diagram

namespace Store

/-- The graph that an item has been given to, be it still there or not. -/
def owner (store : Store) : ItemId → Option GraphId
  | .node id => (store.nodes.getD id default).owner
  | .edge id => (store.edges.getD id default).owner

/-- The graph that owns an item, as long as it is there. -/
def home (store : Store) (id : ItemId) : Option GraphId :=
  store.living (store.owner id)

section Lookups

variable {graph : GraphId}

theorem living_eq_some_iff (store : Store) (owner : Option GraphId) :
    store.living owner = some graph ↔ owner = some graph ∧ graph ∈ store.graphs := by
  rw [living, Option.filter_eq_some_iff, Std.ExtTreeMap.mem_iff_contains]

theorem home_eq_some_iff (store : Store) (id : ItemId) :
    store.home id = some graph ↔ store.owner id = some graph ∧ graph ∈ store.graphs :=
  store.living_eq_some_iff _

theorem home_node (store : Store) (n : Node) : store.graphOfNode n = store.home (.node n.id) :=
  rfl

theorem home_edge (store : Store) (e : Edge) : store.graphOfEdge e = store.home (.edge e.id) :=
  rfl

theorem ownsNode_iff (store : Store) (n : Node) :
    store.ownsNode graph n = true ↔ store.owner (.node n.id) = some graph :=
  beq_iff_eq

theorem ownsEdge_iff (store : Store) (e : Edge) :
    store.ownsEdge graph e = true ↔ store.owner (.edge e.id) = some graph :=
  beq_iff_eq

theorem nodeState_updateNode (store : Store) (n m : Node) (change : NodeState → NodeState) :
    (store.updateNode n change).nodeState m =
      if m.id = n.id then change (store.nodeState n) else store.nodeState m := by
  rw [nodeState, updateNode, Std.ExtTreeMap.getD_insert]
  by_cases hid : m.id = n.id
  · simp [hid]
  · simp [hid, Ne.symm hid, nodeState]

theorem edgeState_updateEdge (store : Store) (e f : Edge) (change : EdgeState → EdgeState) :
    (store.updateEdge e change).edgeState f =
      if f.id = e.id then change (store.edgeState e) else store.edgeState f := by
  rw [edgeState, updateEdge, Std.ExtTreeMap.getD_insert]
  by_cases hid : f.id = e.id
  · simp [hid]
  · simp [hid, Ne.symm hid, edgeState]

theorem owner_updateNode (store : Store) (n : Node) (change : NodeState → NodeState)
    (id : ItemId) :
    (store.updateNode n change).owner id =
      if id = .node n.id then (change (store.nodeState n)).owner else store.owner id := by
  cases id with
  | edge id => simp [owner, updateNode]
  | node id =>
      have hstate := store.nodeState_updateNode n ⟨id, n.type⟩ change
      rw [nodeState] at hstate
      rw [owner, hstate]
      by_cases hid : id = n.id
      · simp [hid]
      · simp [hid, owner, nodeState]

theorem owner_updateEdge (store : Store) (e : Edge) (change : EdgeState → EdgeState)
    (id : ItemId) :
    (store.updateEdge e change).owner id =
      if id = .edge e.id then (change (store.edgeState e)).owner else store.owner id := by
  cases id with
  | node id => simp [owner, updateEdge]
  | edge id =>
      have hstate := store.edgeState_updateEdge e ⟨id, e.type⟩ change
      rw [edgeState] at hstate
      rw [owner, hstate]
      by_cases hid : id = e.id
      · simp [hid]
      · simp [hid, owner, edgeState]

theorem owner_setIndex (store : Store) (index : Index) (id : ItemId) :
    (store.setIndex graph index).owner id = store.owner id := by
  cases id <;> rfl

theorem mem_graphs_setIndex (store : Store) (index : Index) (g : GraphId) :
    g ∈ (store.setIndex graph index).graphs ↔ g = graph ∨ g ∈ store.graphs := by
  rw [setIndex, Std.ExtTreeMap.mem_insert, Std.LawfulEqCmp.compare_eq_iff_eq, eq_comm]

theorem index_setIndex (store : Store) (index : Index) (g : GraphId) :
    (store.setIndex graph index).index g = if g = graph then index else store.index g := by
  split
  · rename_i heq
    rw [heq, index_setIndex_self]
  · rename_i hne
    exact store.index_setIndex_of_ne index hne

/-- A graph that includes an item is there. -/
theorem mem_graphs_of_includes {store : Store} {id : ItemId} (h : (store.index graph).Includes id) :
    graph ∈ store.graphs := by
  by_contra habsent
  rw [index, Std.ExtTreeMap.getD_eq_fallback habsent] at h
  exact Index.not_includes_empty id h

end Lookups

/-- Whether the wiring of edges, what nodes remember and the numbers of items are as before. -/
structure SameWiring (store store' : Store) : Prop where
  pending : ∀ n, (store'.nodeState n).pending = (store.nodeState n).pending
  source : ∀ e, (store'.edgeState e).source = (store.edgeState e).source
  target : ∀ e, (store'.edgeState e).target = (store.edgeState e).target
  nodeCount : store'.nodeCount = store.nodeCount
  edgeCount : store'.edgeCount = store.edgeCount
  graphCount : store'.graphCount = store.graphCount

/-- The items that events are about. -/
def told (events : List Event) : List ItemId :=
  events.map (·.item.id)

theorem mem_told_removalEvents {n : Node} {edges : List Edge} (id : ItemId) :
    id ∈ told (removalEvents n edges) ↔ id = .node n.id ∨ id ∈ edges.map (ItemId.edge ·.id) := by
  simp [told, removalEvents, Item.id, or_comm, eq_comm]

/-- Whether the items of some events have left a graph, and nothing else has changed. -/
structure Loses (store : Store) (graph : GraphId) (events : List Event) (store' : Store) : Prop
    extends store.SameWiring store' where
  owner : ∀ id, store'.owner id = if id ∈ told events then none else store.owner id
  includes : ∀ g id, (store'.index g).Includes id ↔
    (store.index g).Includes id ∧ ¬(g = graph ∧ id ∈ told events)
  members : ∀ id ∈ told events, (store.index graph).Includes id
  represented : ∀ g, ∃ d, (store'.index g).Represents d
  ends : ∀ g id, id ∈ (store'.index g).edges →
    (store'.index g).ends[id]? = (store.index g).ends[id]?
  graphs : ∀ g, g ∈ store'.graphs ↔ g ∈ store.graphs
  alive : ∀ id, id ∈ store'.edges ↔ id ∈ store.edges ∨ .edge id ∈ told events

namespace SameWiring

variable {store store' store'' : Store}

theorem refl (store : Store) : store.SameWiring store :=
  ⟨fun _ => rfl, fun _ => rfl, fun _ => rfl, rfl, rfl, rfl⟩

theorem trans (h : store.SameWiring store') (h' : store'.SameWiring store'') :
    store.SameWiring store'' :=
  ⟨fun n => (h'.pending n).trans (h.pending n), fun e => (h'.source e).trans (h.source e),
    fun e => (h'.target e).trans (h.target e), h'.nodeCount.trans h.nodeCount,
    h'.edgeCount.trans h.edgeCount, h'.graphCount.trans h.graphCount⟩

theorem setIndex (store : Store) (graph : GraphId) (index : Index) :
    store.SameWiring (store.setIndex graph index) :=
  ⟨fun _ => rfl, fun _ => rfl, fun _ => rfl, rfl, rfl, rfl⟩

theorem disownEdge (store : Store) (e : Edge) : store.SameWiring (store.disownEdge e) := by
  have hstate := fun f => store.edgeState_updateEdge e f fun state => { state with owner := none }
  refine ⟨fun _ => rfl, fun f => ?_, fun f => ?_, rfl, rfl, rfl⟩
  · rw [Store.disownEdge, hstate]
    split
    · rename_i hid
      rw [edgeState, edgeState, hid]
    · rfl
  · rw [Store.disownEdge, hstate]
    split
    · rename_i hid
      rw [edgeState, edgeState, hid]
    · rfl

theorem disownEdges (edges : List Edge) (store : Store) :
    store.SameWiring (edges.foldl Store.disownEdge store) := by
  induction edges generalizing store with
  | nil => exact refl store
  | cons e edges ih => exact (disownEdge store e).trans (ih _)

theorem setNodeOwner (store : Store) (owner : Option GraphId) (n : Node) :
    store.SameWiring (store.setNodeOwner owner n) := by
  refine ⟨fun m => ?_, fun _ => rfl, fun _ => rfl, rfl, rfl, rfl⟩
  rw [Store.setNodeOwner, nodeState_updateNode]
  split
  · rename_i hid
    rw [nodeState, nodeState, hid]
  · rfl

end SameWiring

theorem owner_disownEdges (edges : List Edge) (store : Store) (id : ItemId) :
    (edges.foldl disownEdge store).owner id =
      if id ∈ edges.map (ItemId.edge ·.id) then none else store.owner id := by
  induction edges generalizing store with
  | nil => simp
  | cons e edges ih =>
      rw [List.foldl_cons, ih, disownEdge, owner_updateEdge]
      by_cases he : id = .edge e.id
      · simp [he]
      · simp [he]

theorem mem_edges_disownEdges (edges : List Edge) (store : Store) (id : EdgeId) :
    id ∈ (edges.foldl disownEdge store).edges ↔ id ∈ store.edges ∨ id ∈ edges.map Edge.id := by
  induction edges generalizing store with
  | nil => simp
  | cons e edges ih =>
      rw [List.foldl_cons, ih, disownEdge, updateEdge]
      simp only [Std.ExtTreeMap.mem_insert, Std.LawfulEqCmp.compare_eq_iff_eq, List.map_cons,
        List.mem_cons, eq_comm (a := e.id)]
      tauto

namespace Loses

variable {store store' store'' : Store} {graph : GraphId} {events more : List Event}

theorem refl (store : Store) (graph : GraphId) (h : ∀ g, ∃ d, (store.index g).Represents d) :
    store.Loses graph [] store where
  toSameWiring := .refl store
  owner := by simp [told]
  includes := by simp [told]
  members := by simp [told]
  represented := h
  ends := fun _ _ _ => rfl
  graphs := fun _ => Iff.rfl
  alive := by simp [told]

theorem trans (h : store.Loses graph events store') (h' : store'.Loses graph more store'') :
    store.Loses graph (events ++ more) store'' := by
  have htold : ∀ id, id ∈ told (events ++ more) ↔ id ∈ told events ∨ id ∈ told more := by
    intro id
    rw [told, List.map_append, List.mem_append, told, told]
  refine ⟨h.toSameWiring.trans h'.toSameWiring, fun id => ?_, fun g id => ?_, fun id hid => ?_,
    h'.represented, fun g id hid => ?_, fun g => (h'.graphs g).trans (h.graphs g), fun id => ?_⟩
  · rw [h'.owner, h.owner]
    simp only [htold]
    split
    · simp [*]
    · simp [*]
  · rw [h'.includes, h.includes, htold]
    tauto
  · rcases (htold id).mp hid with hid | hid
    · exact h.members id hid
    · exact ((h.includes graph id).mp (h'.members id hid)).1
  · have hbefore : id ∈ (store'.index g).edges := ((h'.includes g (.edge id)).mp hid).1
    rw [h'.ends g id hid, h.ends g id hbefore]
  · rw [h'.alive, h.alive, htold, or_assoc]

/-- A graph loses items when its index does and the items lose their owners. -/
theorem of_index
    {index : Index}
    {g g' : Diagram}
    (hrepresented : ∀ h, ∃ d, (store.index h).Represents d)
    (hg : (store.index graph).Represents g)
    (hindex : index.Represents g')
    (hincludes : ∀ id, g'.Includes id ↔ g.Includes id ∧ id ∉ told events)
    (hmembers : ∀ id ∈ told events, g.Includes id)
    (hends : ∀ id, id ∈ g'.wires → g'.wires[id]? = g.wires[id]?)
    (hwiring : (store.setIndex graph index).SameWiring store')
    (howner : ∀ id, store'.owner id = if id ∈ told events then none else store.owner id)
    (hgraphs : store'.graphs = (store.setIndex graph index).graphs)
    (halive : ∀ id, id ∈ store'.edges ↔ id ∈ store.edges ∨ .edge id ∈ told events)
    (hsome : ∃ id, id ∈ told events) :
    store.Loses graph events store' := by
  have hlookup : ∀ h, store'.index h = if h = graph then index else store.index h := by
    intro h
    rw [← index_setIndex, Store.index, Store.index, hgraphs]
  have hthere : graph ∈ store.graphs := by
    obtain ⟨id, hid⟩ := hsome
    exact mem_graphs_of_includes ((hg.includes_iff id).mpr (hmembers id hid))
  refine ⟨(SameWiring.setIndex store graph index).trans hwiring, howner, fun h id => ?_,
    fun id hid => (hg.includes_iff id).mpr (hmembers id hid), fun h => ?_, fun h id hid => ?_,
    fun h => ?_, halive⟩
  · rw [hlookup]
    by_cases hh : h = graph
    · subst hh
      rw [if_pos rfl, hindex.includes_iff, hincludes, hg.includes_iff]
      simp
    · simp [hh]
  · rw [hlookup]
    split
    · exact ⟨g', hindex⟩
    · exact hrepresented h
  · rw [hlookup] at hid ⊢
    split
    · rename_i hh
      subst hh
      rw [if_pos rfl, hindex.mem_edges] at hid
      rw [hindex.ends, hg.ends, hends id hid]
    · rfl
  · rw [hgraphs, mem_graphs_setIndex]
    exact or_iff_right_of_imp fun heq => heq ▸ hthere

/-- A node leaves a graph together with the edges at it. -/
theorem takeNode
    {node : NodeId}
    (hrepresented : ∀ g, ∃ d, (store.index g).Represents d)
    (h : store.takeNode graph node = some (events, store')) :
    store.Loses graph events store' ∧ .node node ∈ told events ∧
      (∀ id, .node id ∈ told events → id = node) ∧
      ∀ id, .edge id ∈ told events ↔
        ∃ ends, (store.index graph).ends[id]? = some ends ∧ ends.touch node = true := by
  rw [Store.takeNode, Option.map_eq_some_iff] at h
  obtain ⟨⟨n, edges, index⟩, hremove, heq⟩ := h
  obtain ⟨rfl, rfl⟩ := Prod.mk.inj heq
  obtain ⟨d, hd⟩ := hrepresented graph
  rcases hd.removeNode node with ⟨-, hnone⟩ | ⟨n', index', hn, hsome, hindex⟩
  · rw [hnone] at hremove
    cases hremove
  rw [hsome] at hremove
  cases hremove
  obtain rfl : n.id = node := d.node_id node n hn
  refine ⟨of_index hrepresented hd hindex (fun id => ?_) (fun id hid => ?_) (fun id hid => ?_)
    ((SameWiring.disownEdges _ _).trans (.setNodeOwner _ none n)) (fun id => ?_) ?_ (fun id => ?_)
    ⟨_, (mem_told_removalEvents _).mpr (Or.inl rfl)⟩, (mem_told_removalEvents _).mpr (Or.inl rfl),
    fun id hid => ?_, fun id => ?_⟩
  · rw [d.includes_dropNode, mem_told_removalEvents, not_or]
  · rw [mem_told_removalEvents] at hid
    rcases hid with rfl | hid
    · exact Std.ExtTreeMap.mem_iff_isSome_getElem?.mpr (by simp [hn])
    · obtain ⟨e, he, rfl⟩ := List.mem_map.mp hid
      obtain ⟨w, hw, -⟩ := (d.mem_ids_edgesAt _ _).mp (List.mem_map_of_mem he)
      exact Std.ExtTreeMap.mem_iff_isSome_getElem?.mpr (by simp [hw])
  · rw [Std.ExtTreeMap.mem_iff_isSome_getElem?, Diagram.dropNode,
      Std.ExtTreeMap.getElem?_filter'] at hid
    rw [Diagram.dropNode, Std.ExtTreeMap.getElem?_filter']
    obtain ⟨w, hw⟩ := Option.isSome_iff_exists.mp hid
    rw [hw, (Option.filter_eq_some_iff.mp hw).1]
  · rw [setNodeOwner, owner_updateNode, owner_disownEdges, owner_setIndex]
    simp only [mem_told_removalEvents]
    by_cases hid : id = .node n.id
    · simp [hid]
    · simp [hid]
  · exact (KeepsGraphs.disownEdges _ _).graphs
  · rw [mem_told_removalEvents]
    have hmem := mem_edges_disownEdges (d.edgesAt n.id) (store.setIndex graph index) id
    change id ∈ (List.foldl disownEdge (store.setIndex graph index) _).edges ↔ _
    rw [hmem]
    simp [Store.setIndex]
  · rw [mem_told_removalEvents] at hid
    simpa using hid
  · rw [mem_told_removalEvents, hd.ends]
    have hmem := d.mem_ids_edgesAt n.id id
    cases hw : d.wires[id]? <;> simpa [hw] using hmem

/-- An edge leaves a graph alone. -/
theorem takeEdge
    {edge : EdgeId}
    (hrepresented : ∀ g, ∃ d, (store.index g).Represents d)
    (h : store.takeEdge graph edge = some (events, store')) :
    store.Loses graph events store' ∧ ∀ id, id ∈ told events ↔ id = .edge edge := by
  rw [Store.takeEdge, Option.map_eq_some_iff] at h
  obtain ⟨⟨e, index⟩, hremove, heq⟩ := h
  obtain ⟨rfl, rfl⟩ := Prod.mk.inj heq
  obtain ⟨d, hd⟩ := hrepresented graph
  rcases hd.removeEdge edge with ⟨-, hnone⟩ | ⟨w, index', hw, hsome, hindex⟩
  · rw [hnone] at hremove
    cases hremove
  rw [hsome] at hremove
  cases hremove
  obtain rfl : w.edge.id = edge := d.edge_id edge w hw
  have htold : ∀ id, id ∈ told [⟨.removed, .edge w.edge⟩] ↔ id = .edge w.edge.id := by
    simp [told, Item.id]
  refine ⟨of_index hrepresented hd hindex (fun id => ?_) (fun id hid => ?_) (fun id hid => ?_)
    (.disownEdge _ w.edge) (fun id => ?_) rfl (fun id => ?_) ⟨_, (htold _).mpr rfl⟩, htold⟩
  · rw [d.includes_dropEdge, htold]
  · rw [(htold id).mp hid]
    exact Std.ExtTreeMap.mem_iff_isSome_getElem?.mpr (by simp [hw])
  · rw [Std.ExtTreeMap.mem_iff_isSome_getElem?] at hid
    rw [d.getElem?_dropEdge] at hid ⊢
    split
    · rename_i heq
      simp [heq] at hid
    · rfl
  · rw [disownEdge, owner_updateEdge, owner_setIndex]
    simp only [htold]
  · rw [htold]
    have hmem := mem_edges_disownEdges [w.edge] (store.setIndex graph index) id
    simpa [Store.setIndex] using hmem

theorem removeNode
    {node : Node}
    (hrepresented : ∀ g, ∃ d, (store.index g).Represents d)
    (h : store.removeNode graph node = .ok (events, store')) :
    store.Loses graph events store' ∧ .node node.id ∈ told events ∧
      (∀ id, .node id ∈ told events → id = node.id) ∧
      ∀ id, .edge id ∈ told events ↔
        ∃ ends, (store.index graph).ends[id]? = some ends ∧ ends.touch node.id = true := by
  rw [Store.removeNode] at h
  split at h
  · rename_i taken htaken
    obtain rfl := Except.ok.inj h
    exact takeNode hrepresented htaken
  · cases h

theorem removeEdge
    {edge : Edge}
    (hrepresented : ∀ g, ∃ d, (store.index g).Represents d)
    (h : store.removeEdge graph edge = .ok (events, store')) :
    store.Loses graph events store' ∧ ∀ id, id ∈ told events ↔ id = .edge edge.id := by
  rw [Store.removeEdge] at h
  split at h
  · rename_i taken htaken
    obtain rfl := Except.ok.inj h
    exact takeEdge hrepresented htaken
  · cases h

end Loses

theorem Removes.loses
    {store store' : Store}
    {graph : GraphId}
    {events : List Event}
    (h : store.Removes graph events store')
    (hrepresented : ∀ g, ∃ d, (store.index g).Represents d) :
    store.Loses graph events store' := by
  induction h with
  | refl store => exact .refl store graph hrepresented
  | node h => exact (Loses.takeNode hrepresented h).1
  | edge h => exact (Loses.takeEdge hrepresented h).1
  | trans h h' ih ih' =>
      have hfirst := ih hrepresented
      exact hfirst.trans (ih' hfirst.represented)

end Store

end PatternGraph
