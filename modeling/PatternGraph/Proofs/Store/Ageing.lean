import PatternGraph.Proofs.Store.Rewiring

/-!
# Creating and letting go

What is created begins blank, and what nothing holds any more leaves the store.  In between a store
ages: whatever it has kept from before is as it was.
-/

namespace PatternGraph

/-- Whether a node has no owner and remembers nothing. -/
structure NodeState.Blank (state : NodeState) : Prop where
  owner : state.owner = none
  pending : state.pending = []

/-- Whether an edge has neither owner nor ends. -/
structure EdgeState.Blank (state : EdgeState) : Prop where
  owner : state.owner = none
  source : state.source = none
  target : state.target = none

theorem NodeState.blank_default : (default : NodeState).Blank :=
  ⟨rfl, rfl⟩

theorem EdgeState.blank_default : (default : EdgeState).Blank :=
  ⟨rfl, rfl, rfl⟩

namespace Store

variable {store store' store'' : Store}

theorem edgeState_of_not_mem {e : Edge} (h : e.id ∉ store.edges) : store.edgeState e = default :=
  Std.ExtTreeMap.getD_eq_fallback h

theorem index_of_not_mem {g : GraphId} (h : g ∉ store.graphs) : store.index g = .empty :=
  Std.ExtTreeMap.getD_eq_fallback h

/-- Whether what has not been created yet is blank. -/
structure Pristine (store : Store) : Prop where
  node : ∀ n, store.nodeCount < n.id.number → (store.nodeState n).Blank
  edge : ∀ e, store.edgeCount < e.id.number → (store.edgeState e).Blank
  graph : ∀ g, store.graphCount < g.number → g ∉ store.graphs

/-- Whether a store has only got blank items and graphs, and let go of edges and graphs. -/
structure Ages (store store' : Store) : Prop where
  nodeCount : store.nodeCount ≤ store'.nodeCount
  edgeCount : store.edgeCount ≤ store'.edgeCount
  graphCount : store.graphCount ≤ store'.graphCount
  node : ∀ n, n.id.number ≤ store.nodeCount → store'.nodeState n = store.nodeState n
  newNode : ∀ n, store.nodeCount < n.id.number → (store'.nodeState n).Blank
  edge : ∀ e, e.id.number ≤ store.edgeCount → e.id ∈ store'.edges →
    e.id ∈ store.edges ∧ store'.edgeState e = store.edgeState e
  newEdge : ∀ e, store.edgeCount < e.id.number → (store'.edgeState e).Blank
  graph : ∀ g, g.number ≤ store.graphCount → g ∈ store'.graphs →
    g ∈ store.graphs ∧ store'.index g = store.index g
  newGraph : ∀ g, store.graphCount < g.number → store'.index g = .empty
  contained : (∀ g (id : EdgeId), id ∈ (store.index g).edges → id ∈ store.edges) →
    ∀ g (id : EdgeId), id ∈ (store'.index g).edges → id ∈ store'.edges
  pristine : store'.Pristine

/-- Whether a store has only got blank items and graphs. -/
structure Grows (store store' : Store) : Prop extends store.Ages store' where
  keepsGraph : ∀ g ∈ store.graphs, g ∈ store'.graphs
  keepsEdge : ∀ id ∈ store.edges, id ∈ store'.edges

namespace Ages

theorem refl (h : store.Pristine) : store.Ages store where
  nodeCount := Nat.le_refl _
  edgeCount := Nat.le_refl _
  graphCount := Nat.le_refl _
  node := fun _ _ => rfl
  newNode := h.node
  edge := fun _ _ hmem => ⟨hmem, rfl⟩
  newEdge := h.edge
  graph := fun _ _ hmem => ⟨hmem, rfl⟩
  newGraph := fun g hg => index_of_not_mem (h.graph g hg)
  contained := fun h => h
  pristine := h

theorem trans (h : store.Ages store') (h' : store'.Ages store'') : store.Ages store'' where
  nodeCount := h.nodeCount.trans h'.nodeCount
  edgeCount := h.edgeCount.trans h'.edgeCount
  graphCount := h.graphCount.trans h'.graphCount
  node := fun n hn => (h'.node n (hn.trans h.nodeCount)).trans (h.node n hn)
  newNode := by
    intro n hn
    rcases Nat.lt_or_ge store'.nodeCount n.id.number with hnew | hold
    · exact h'.newNode n hnew
    · rw [h'.node n hold]
      exact h.newNode n hn
  edge := by
    intro e he hmem
    obtain ⟨hmem', hsame'⟩ := h'.edge e (he.trans h.edgeCount) hmem
    obtain ⟨hmem'', hsame⟩ := h.edge e he hmem'
    exact ⟨hmem'', hsame'.trans hsame⟩
  newEdge := by
    intro e he
    by_cases hmem : e.id ∈ store''.edges
    · rcases Nat.lt_or_ge store'.edgeCount e.id.number with hnew | hold
      · exact h'.newEdge e hnew
      · rw [(h'.edge e hold hmem).2]
        exact h.newEdge e he
    · rw [edgeState_of_not_mem hmem]
      exact EdgeState.blank_default
  graph := by
    intro g hg hmem
    obtain ⟨hmem', hsame'⟩ := h'.graph g (hg.trans h.graphCount) hmem
    obtain ⟨hmem'', hsame⟩ := h.graph g hg hmem'
    exact ⟨hmem'', hsame'.trans hsame⟩
  newGraph := by
    intro g hg
    by_cases hmem : g ∈ store''.graphs
    · rcases Nat.lt_or_ge store'.graphCount g.number with hnew | hold
      · exact h'.newGraph g hnew
      · rw [(h'.graph g hold hmem).2]
        exact h.newGraph g hg
    · exact index_of_not_mem hmem
  contained := fun hcontained => h'.contained (h.contained hcontained)
  pristine := h'.pristine

/-- A node is as it was, or blank. -/
theorem nodeState_cases (h : store.Ages store') (n : Node) :
    n.id.number ≤ store.nodeCount ∧ store'.nodeState n = store.nodeState n ∨
      (store'.nodeState n).Blank := by
  rcases Nat.lt_or_ge store.nodeCount n.id.number with hnew | hold
  · exact Or.inr (h.newNode n hnew)
  · exact Or.inl ⟨hold, h.node n hold⟩

/-- An edge is there as it was, or blank. -/
theorem edgeState_cases (h : store.Ages store') (e : Edge) :
    e.id ∈ store.edges ∧ store'.edgeState e = store.edgeState e ∨ (store'.edgeState e).Blank := by
  rcases Nat.lt_or_ge store.edgeCount e.id.number with hnew | hold
  · exact Or.inr (h.newEdge e hnew)
  · by_cases hmem : e.id ∈ store'.edges
    · exact Or.inl (h.edge e hold hmem)
    · rw [edgeState_of_not_mem hmem]
      exact Or.inr EdgeState.blank_default

/-- A graph is there as it was, or empty. -/
theorem index_cases (h : store.Ages store') (g : GraphId) :
    g ∈ store.graphs ∧ store'.index g = store.index g ∨ store'.index g = .empty := by
  rcases Nat.lt_or_ge store.graphCount g.number with hnew | hold
  · exact Or.inr (h.newGraph g hnew)
  · by_cases hmem : g ∈ store'.graphs
    · exact Or.inl (h.graph g hold hmem)
    · exact Or.inr (index_of_not_mem hmem)

/-- An item has the owner that it had, or none. -/
theorem owner_of_owner
    {id : ItemId}
    {g : GraphId}
    (h : store.Ages store')
    (hid : store'.owner id = some g) :
    store.owner id = some g := by
  cases id with
  | node id =>
      rcases h.nodeState_cases ⟨id, default⟩ with ⟨-, hsame⟩ | hblank
      · rw [← hid]
        exact (congrArg NodeState.owner hsame).symm
      · cases hblank.owner.symm.trans hid
  | edge id =>
      rcases h.edgeState_cases ⟨id, default⟩ with ⟨-, hsame⟩ | hblank
      · rw [← hid]
        exact (congrArg EdgeState.owner hsame).symm
      · cases hblank.owner.symm.trans hid

end Ages

namespace Grows

theorem refl (h : store.Pristine) : store.Grows store :=
  ⟨.refl h, fun _ hg => hg, fun _ he => he⟩

theorem trans (h : store.Grows store') (h' : store'.Grows store'') : store.Grows store'' :=
  ⟨h.toAges.trans h'.toAges, fun g hg => h'.keepsGraph g (h.keepsGraph g hg),
    fun id hid => h'.keepsEdge id (h.keepsEdge id hid)⟩

theorem createNode (h : store.Pristine) (type : NodeType) (data : Json) :
    store.Grows (store.createNode type data).2 := by
  have hstate : ∀ n, (store.createNode type data).2.nodeState n =
      if n.id = ⟨store.nodeCount + 1⟩ then ⟨data, none, []⟩ else store.nodeState n := by
    intro n
    rw [nodeState, Std.ExtTreeMap.getD_eq_getD_getElem?, Store.createNode, getElem?_insert_eq]
    split
    · rfl
    · rw [nodeState, Std.ExtTreeMap.getD_eq_getD_getElem?]
  have hblank : ∀ n, store.nodeCount < n.id.number →
      ((store.createNode type data).2.nodeState n).Blank := by
    intro n hn
    rw [hstate]
    split
    · exact ⟨rfl, rfl⟩
    · exact h.node n hn
  refine ⟨⟨Nat.le_succ _, Nat.le_refl _, Nat.le_refl _, fun n hn => ?_, hblank,
    fun _ _ hmem => ⟨hmem, rfl⟩, h.edge, fun _ _ hmem => ⟨hmem, rfl⟩,
    fun g hg => index_of_not_mem (h.graph g hg), fun h => h,
    fun n hn => hblank n (Nat.lt_of_succ_lt hn), h.edge, h.graph⟩, fun _ hg => hg,
    fun _ he => he⟩
  rw [hstate, if_neg]
  intro heq
  rw [heq] at hn
  exact Nat.not_succ_le_self _ hn

theorem createEdge (h : store.Pristine) (type : EdgeType) (data : Json) :
    store.Grows (store.createEdge type data).2 := by
  have hstate : ∀ e, (store.createEdge type data).2.edgeState e =
      if e.id = ⟨store.edgeCount + 1⟩ then ⟨data, none, none, none⟩ else store.edgeState e := by
    intro e
    rw [edgeState, Std.ExtTreeMap.getD_eq_getD_getElem?, Store.createEdge, getElem?_insert_eq]
    split
    · rfl
    · rw [edgeState, Std.ExtTreeMap.getD_eq_getD_getElem?]
  have hblank : ∀ e, store.edgeCount < e.id.number →
      ((store.createEdge type data).2.edgeState e).Blank := by
    intro e he
    rw [hstate]
    split
    · exact ⟨rfl, rfl, rfl⟩
    · exact h.edge e he
  have hmem : ∀ id : EdgeId, id ∈ (store.createEdge type data).2.edges ↔
      id = ⟨store.edgeCount + 1⟩ ∨ id ∈ store.edges := by
    intro id
    rw [Store.createEdge, Std.ExtTreeMap.mem_insert, Std.LawfulEqCmp.compare_eq_iff_eq, eq_comm]
  refine ⟨⟨Nat.le_refl _, Nat.le_succ _, Nat.le_refl _, fun _ _ => rfl, h.node,
    fun e he he' => ?_, hblank, fun _ _ hmem => ⟨hmem, rfl⟩,
    fun g hg => index_of_not_mem (h.graph g hg),
    fun h g id hid => (hmem id).mpr (Or.inr (h g id hid)), h.node,
    fun e he => hblank e (Nat.lt_of_succ_lt he), h.graph⟩, fun _ hg => hg,
    fun id hid => (hmem id).mpr (Or.inr hid)⟩
  have hne : e.id ≠ ⟨store.edgeCount + 1⟩ := by
    intro heq
    rw [heq] at he
    exact Nat.not_succ_le_self _ he
  rw [hstate, if_neg hne]
  exact ⟨((hmem e.id).mp he').resolve_left hne, rfl⟩

theorem createGraph (h : store.Pristine) : store.Grows store.createGraph.2 := by
  have hmem : ∀ g : GraphId, g ∈ store.createGraph.2.graphs ↔
      g = ⟨store.graphCount + 1⟩ ∨ g ∈ store.graphs := by
    intro g
    rw [Store.createGraph, Std.ExtTreeMap.mem_insert, Std.LawfulEqCmp.compare_eq_iff_eq, eq_comm]
  have hindex : ∀ g : GraphId, store.createGraph.2.index g =
      if g = ⟨store.graphCount + 1⟩ then .empty else store.index g := by
    intro g
    rw [index, Std.ExtTreeMap.getD_eq_getD_getElem?, Store.createGraph, getElem?_insert_eq]
    split
    · rfl
    · rw [index, Std.ExtTreeMap.getD_eq_getD_getElem?]
  refine ⟨⟨Nat.le_refl _, Nat.le_refl _, Nat.le_succ _, fun _ _ => rfl, h.node,
    fun _ _ hmem => ⟨hmem, rfl⟩, h.edge, fun g hg hg' => ?_, fun g hg => ?_,
    fun hcontained g id hid => ?_, h.node, h.edge, fun g hg hg' => ?_⟩,
    fun g hg => (hmem g).mpr (Or.inr hg), fun _ he => he⟩
  · have hne : g ≠ ⟨store.graphCount + 1⟩ := by
      rintro rfl
      exact Nat.not_succ_le_self _ hg
    rw [hindex, if_neg hne]
    exact ⟨((hmem g).mp hg').resolve_left hne, rfl⟩
  · rw [hindex]
    split
    · rfl
    · exact index_of_not_mem (h.graph g hg)
  · rw [hindex] at hid
    split at hid
    · exact absurd hid (Index.not_includes_empty (.edge id))
    · exact hcontained g id hid
  · rcases (hmem g).mp hg' with rfl | hg'
    · exact Nat.lt_irrefl _ hg
    · exact h.graph g (Nat.lt_of_succ_lt hg) hg'

end Grows

section Releasing

variable (store : Store) (holdsGraph : GraphId → Bool) (holdsEdge : EdgeId → Bool)

/-- Takes out the graphs that are not held. -/
def retainGraphs : Store :=
  if store.graphs.all fun graph _ => holdsGraph graph then store
  else { store with graphs := store.graphs.filter fun graph _ => holdsGraph graph }

/-- Takes out the edges that are not held. -/
def retainEdges : Store :=
  if store.edges.all fun edge _ => holdsEdge edge then store
  else { store with edges := store.edges.filter fun edge _ => holdsEdge edge }

theorem release_eq_retain :
    store.release holdsGraph holdsEdge =
      (store.retainGraphs holdsGraph).retainEdges fun edge =>
        (store.retainGraphs holdsGraph).containsEdge edge || holdsEdge edge :=
  rfl

theorem graphs_retainEdges : (store.retainEdges holdsEdge).graphs = store.graphs := by
  rw [retainEdges]
  split <;> rfl

theorem edges_retainGraphs : (store.retainGraphs holdsGraph).edges = store.edges := by
  rw [retainGraphs]
  split <;> rfl

theorem getElem?_graphs_retain (g : GraphId) :
    (store.retainGraphs holdsGraph).graphs[g]? =
      store.graphs[g]?.filter fun _ => holdsGraph g := by
  rw [← getElem?_filter_unless store.graphs (fun graph _ => holdsGraph graph) g, retainGraphs]
  split <;> rfl

theorem getElem?_edges_retain (id : EdgeId) :
    (store.retainEdges holdsEdge).edges[id]? =
      store.edges[id]?.filter fun _ => holdsEdge id := by
  rw [← getElem?_filter_unless store.edges (fun edge _ => holdsEdge edge) id, retainEdges]
  split <;> rfl

/-- Letting go touches neither nodes nor the numbers of what has been created. -/
theorem counts_release :
    (store.release holdsGraph holdsEdge).nodes = store.nodes ∧
      (store.release holdsGraph holdsEdge).nodeCount = store.nodeCount ∧
      (store.release holdsGraph holdsEdge).edgeCount = store.edgeCount ∧
      (store.release holdsGraph holdsEdge).graphCount = store.graphCount := by
  rw [release_eq_retain, retainEdges, retainGraphs]
  split
  · split <;> exact ⟨rfl, rfl, rfl, rfl⟩
  · split <;> exact ⟨rfl, rfl, rfl, rfl⟩

theorem getElem?_graphs_release (g : GraphId) :
    (store.release holdsGraph holdsEdge).graphs[g]? =
      store.graphs[g]?.filter fun _ => holdsGraph g := by
  rw [release_eq_retain, graphs_retainEdges, getElem?_graphs_retain]

/-- A graph stays if it is held. -/
theorem mem_graphs_release (g : GraphId) :
    g ∈ (store.release holdsGraph holdsEdge).graphs ↔ g ∈ store.graphs ∧ holdsGraph g = true := by
  rw [Std.ExtTreeMap.mem_iff_isSome_getElem?, Std.ExtTreeMap.mem_iff_isSome_getElem?,
    getElem?_graphs_release]
  cases store.graphs[g]? <;> cases holdsGraph g <;> simp

theorem index_release_of_mem
    {g : GraphId}
    (h : g ∈ (store.release holdsGraph holdsEdge).graphs) :
    (store.release holdsGraph holdsEdge).index g = store.index g := by
  have hheld := ((store.mem_graphs_release holdsGraph holdsEdge g).mp h).2
  rw [index, index, Std.ExtTreeMap.getD_eq_getD_getElem?, getElem?_graphs_release,
    Std.ExtTreeMap.getD_eq_getD_getElem?]
  cases store.graphs[g]? <;> simp [hheld, Option.filter_some]

theorem containsEdge_iff (id : EdgeId) :
    store.containsEdge id = true ↔ ∃ g, id ∈ (store.index g).edges := by
  rw [containsEdge, any_eq_true_iff]
  constructor
  · rintro ⟨g, index, hg, hcontains⟩
    refine ⟨g, ?_⟩
    rw [Store.index, Std.ExtTreeMap.getD_eq_getD_getElem?, hg]
    exact Std.ExtTreeMap.mem_iff_contains.mpr hcontains
  · rintro ⟨g, hid⟩
    have hincludes : (store.index g).Includes (.edge id) := hid
    have hg : g ∈ store.graphs := mem_graphs_of_includes hincludes
    refine ⟨g, store.index g, ?_, Std.ExtTreeMap.mem_iff_contains.mp hid⟩
    rw [Store.index, Std.ExtTreeMap.getD_eq_getD_getElem?]
    obtain ⟨index, hindex⟩ := Option.isSome_iff_exists.mp
      (Std.ExtTreeMap.mem_iff_isSome_getElem?.mp hg)
    rw [hindex, Option.getD_some]

theorem getElem?_edges_release (id : EdgeId) :
    (store.release holdsGraph holdsEdge).edges[id]? = store.edges[id]?.filter fun _ =>
      (store.release holdsGraph holdsEdge).containsEdge id || holdsEdge id := by
  have hcontains : (store.release holdsGraph holdsEdge).containsEdge id =
      (store.retainGraphs holdsGraph).containsEdge id := by
    rw [containsEdge, containsEdge, release_eq_retain, graphs_retainEdges]
  rw [hcontains, release_eq_retain, getElem?_edges_retain, edges_retainGraphs]

/-- An edge stays if a graph that stays contains it, or if it is held otherwise. -/
theorem mem_edges_release (id : EdgeId) :
    id ∈ (store.release holdsGraph holdsEdge).edges ↔ id ∈ store.edges ∧
      ((∃ g, id ∈ ((store.release holdsGraph holdsEdge).index g).edges) ∨
        holdsEdge id = true) := by
  rw [Std.ExtTreeMap.mem_iff_isSome_getElem?, Std.ExtTreeMap.mem_iff_isSome_getElem?,
    getElem?_edges_release, ← containsEdge_iff]
  cases store.edges[id]? <;> cases (store.release holdsGraph holdsEdge).containsEdge id <;>
    cases holdsEdge id <;> simp

theorem edgeState_release_of_mem
    {e : Edge}
    (h : e.id ∈ (store.release holdsGraph holdsEdge).edges) :
    (store.release holdsGraph holdsEdge).edgeState e = store.edgeState e := by
  rw [Std.ExtTreeMap.mem_iff_isSome_getElem?] at h
  obtain ⟨state, hstate⟩ := Option.isSome_iff_exists.mp h
  have hbefore := hstate
  rw [getElem?_edges_release] at hbefore
  rw [edgeState, edgeState, Std.ExtTreeMap.getD_eq_getD_getElem?, hstate,
    Std.ExtTreeMap.getD_eq_getD_getElem?, (Option.filter_eq_some_iff.mp hbefore).1]

theorem Ages.release {store : Store} (h : store.Pristine) :
    store.Ages (store.release holdsGraph holdsEdge) := by
  obtain ⟨hnodes, hnodeCount, hedgeCount, hgraphCount⟩ :=
    store.counts_release holdsGraph holdsEdge
  have hstate : ∀ n, (store.release holdsGraph holdsEdge).nodeState n = store.nodeState n := by
    intro n
    rw [nodeState, nodeState, hnodes]
  have hblank : ∀ e, store.edgeCount < e.id.number →
      ((store.release holdsGraph holdsEdge).edgeState e).Blank := by
    intro e he
    by_cases hmem : e.id ∈ (store.release holdsGraph holdsEdge).edges
    · rw [edgeState_release_of_mem _ _ _ hmem]
      exact h.edge e he
    · rw [edgeState_of_not_mem hmem]
      exact EdgeState.blank_default
  have hgone : ∀ g, store.graphCount < g.number →
      g ∉ (store.release holdsGraph holdsEdge).graphs := fun g hg hmem =>
    h.graph g hg ((store.mem_graphs_release holdsGraph holdsEdge g).mp hmem).1
  refine ⟨hnodeCount.ge, hedgeCount.ge, hgraphCount.ge, fun n _ => hstate n, fun n hn => ?_,
    fun e _ hmem => ?_, hblank, fun g _ hmem => ?_, fun g hg => index_of_not_mem (hgone g hg),
    fun hcontained g id hid => ?_, ⟨fun n hn => ?_, fun e he => ?_, fun g hg => ?_⟩⟩
  · rw [hstate]
    exact h.node n hn
  · exact ⟨((store.mem_edges_release holdsGraph holdsEdge e.id).mp hmem).1,
      edgeState_release_of_mem _ _ _ hmem⟩
  · exact ⟨((store.mem_graphs_release holdsGraph holdsEdge g).mp hmem).1,
      store.index_release_of_mem holdsGraph holdsEdge hmem⟩
  · have hincludes : ((store.release holdsGraph holdsEdge).index g).Includes (.edge id) := hid
    have hg := mem_graphs_of_includes hincludes
    refine (store.mem_edges_release holdsGraph holdsEdge id).mpr
      ⟨hcontained g id ?_, Or.inl ⟨g, hid⟩⟩
    rwa [store.index_release_of_mem holdsGraph holdsEdge hg] at hid
  · rw [hnodeCount] at hn
    rw [hstate]
    exact h.node n hn
  · rw [hedgeCount] at he
    exact hblank e he
  · rw [hgraphCount] at hg
    exact hgone g hg

end Releasing

end Store

end PatternGraph
