import PatternGraph.Proofs.Store.Housing

/-!
# Items that come into a graph

An attachment puts a node into its graph when the node has left the graph it was in, and an edge when
both of its ends are there.  Either way the item has the graph for an owner from then on, the graph
includes it in addition to what it had, and nodes remember no edge that they did not remember before.
-/

namespace PatternGraph

namespace Diagram

theorem includes_addNode (g : Diagram) (n : Node) (id : ItemId) :
    (g.addNode n).Includes id ↔ g.Includes id ∨ id = .node n.id := by
  cases id with
  | node id =>
      rw [Includes, Includes, addNode, Std.ExtTreeMap.mem_insert,
        Std.LawfulEqCmp.compare_eq_iff_eq]
      simp [or_comm, eq_comm]
  | edge id => simp [Includes, addNode]

theorem includes_addEdge
    (g : Diagram)
    (e : Edge)
    (ends : Ends)
    (hends : ends.source ∈ g.nodes ∧ ends.target ∈ g.nodes)
    (id : ItemId) :
    (g.addEdge e ends hends).Includes id ↔ g.Includes id ∨ id = .edge e.id := by
  cases id with
  | node id => simp [Includes, addEdge]
  | edge id =>
      rw [Includes, Includes, addEdge, Std.ExtTreeMap.mem_insert,
        Std.LawfulEqCmp.compare_eq_iff_eq]
      simp [or_comm, eq_comm]

end Diagram

namespace Index.Represents

variable {index index' : Index} {g : Diagram}

/-- Adding a node that may be there already. -/
theorem adding_node (h : index.Represents g) (n : Node) :
    ∃ g', (index.insertNode n).2.Represents g' ∧ g'.wires = g.wires ∧
      ∀ id, g'.Includes id ↔ g.Includes id ∨ id = .node n.id := by
  by_cases hn : n.id ∈ g.nodes
  · have hindexed : index.nodes.contains n.id = true := by
      rwa [← Std.ExtTreeMap.mem_iff_contains, h.nodes]
    rw [Index.insertNode, if_pos hindexed]
    exact ⟨g, h, rfl, fun id => (or_iff_left_of_imp fun heq => heq ▸ hn).symm⟩
  · exact ⟨_, (h.insertNode n hn).2, rfl, g.includes_addNode n⟩

/-- Adding an edge that may be there already, between two nodes that are there. -/
theorem adding_edge
    {e : Edge}
    {ends : Ends}
    {absent : Bool}
    (h : index.Represents g)
    (hinsert : index.insertEdge e ends = .ok (absent, index')) :
    ∃ g', index'.Represents g' ∧ (∀ id, id ≠ e.id ∨ id ∈ g.wires → g'.wires[id]? = g.wires[id]?) ∧
      (e.id ∉ g.wires → g'.wires[e.id]? = some ⟨e, ends⟩) ∧
      ∀ id, g'.Includes id ↔ g.Includes id ∨ id = .edge e.id := by
  by_cases he : e.id ∈ g.wires
  · have hindexed : index.edges.contains e.id = true := by
      rwa [← Std.ExtTreeMap.mem_iff_contains, h.mem_edges]
    rw [Index.insertEdge, if_pos hindexed] at hinsert
    obtain ⟨-, rfl⟩ := Prod.mk.inj (Except.ok.inj hinsert)
    exact ⟨g, h, fun _ _ => rfl, fun hnot => absurd he hnot,
      fun id => (or_iff_left_of_imp fun heq => heq ▸ he).symm⟩
  · by_cases hends : ends.source ∈ g.nodes ∧ ends.target ∈ g.nodes
    · obtain ⟨index'', hsome, hindex⟩ := h.insertEdge e ends he hends
      rw [hsome] at hinsert
      obtain ⟨-, rfl⟩ := Prod.mk.inj (Except.ok.inj hinsert)
      refine ⟨_, hindex, fun id hid => ?_, fun _ => ?_, g.includes_addEdge e ends hends⟩
      · rw [Diagram.addEdge, getElem?_insert_eq, if_neg]
        rintro rfl
        exact hid.elim (· rfl) he
      · rw [Diagram.addEdge, getElem?_insert_eq, if_pos rfl]
    · have habsent : ¬index.edges.contains e.id = true := by
        rwa [← Std.ExtTreeMap.mem_iff_contains, h.mem_edges]
      have hloose : ¬(index.nodes.contains ends.source = true ∧
          index.nodes.contains ends.target = true) := by
        rwa [← Std.ExtTreeMap.mem_iff_contains, ← Std.ExtTreeMap.mem_iff_contains, h.nodes]
      rw [Index.insertEdge, if_neg habsent, if_neg hloose] at hinsert
      cases hinsert

/-- An edge can be added as soon as its ends are there. -/
theorem insertEdge_isOk
    (h : index.Represents g)
    (e : Edge)
    (ends : Ends)
    (hsource : ends.source ∈ index.nodes)
    (htarget : ends.target ∈ index.nodes) :
    ∃ inserted, index.insertEdge e ends = .ok inserted := by
  by_cases he : e.id ∈ g.wires
  · have hindexed : index.edges.contains e.id = true := by
      rwa [← Std.ExtTreeMap.mem_iff_contains, h.mem_edges]
    rw [Index.insertEdge, if_pos hindexed]
    exact ⟨_, rfl⟩
  · rw [h.nodes] at hsource htarget
    obtain ⟨index', hsome, -⟩ := h.insertEdge e ends he ⟨hsource, htarget⟩
    exact ⟨_, hsome⟩

end Index.Represents

namespace Store

variable {store : Store} {graph : GraphId}

section Forgetting

theorem owner_unregister (store : Store) (e : Edge) (n : Node) (id : ItemId) :
    (store.unregister e n).owner id = store.owner id := by
  rw [unregister, owner_updateNode]
  split
  · rename_i hid
    rw [hid]
    rfl
  · rfl

theorem pending_unregister (store : Store) (e : Edge) (n m : Node) :
    ((store.unregister e n).nodeState m).pending =
      if m.id = n.id then (store.nodeState m).pending.filter (· != e)
      else (store.nodeState m).pending := by
  rw [unregister, nodeState_updateNode]
  split
  · rename_i hid
    rw [nodeState, nodeState, hid]
  · rfl

theorem sublist_pending_unregister (store : Store) (e : Edge) (n m : Node) :
    ((store.unregister e n).nodeState m).pending.Sublist (store.nodeState m).pending := by
  rw [pending_unregister]
  split
  · exact List.filter_sublist
  · exact List.Sublist.refl _

theorem owner_ownEdge (store : Store) (e : Edge) (id : ItemId) :
    (store.ownEdge graph e).owner id = if id = .edge e.id then some graph else store.owner id := by
  unfold ownEdge
  dsimp only
  split
  · rw [owner_updateEdge]
  · rw [owner_unregister, owner_unregister, owner_updateEdge]

theorem mem_edges_ownEdge (store : Store) (e : Edge) (id : EdgeId) :
    id ∈ (store.ownEdge graph e).edges ↔ id ∈ store.edges ∨ id = e.id := by
  have hinsert : ∀ state : EdgeState, id ∈ store.edges.insert e.id state ↔
      id ∈ store.edges ∨ id = e.id := by
    intro state
    rw [Std.ExtTreeMap.mem_insert, Std.LawfulEqCmp.compare_eq_iff_eq, or_comm, eq_comm]
  unfold ownEdge
  dsimp only
  split
  · exact hinsert _
  · exact hinsert _

theorem source_ownEdge (store : Store) (e f : Edge) :
    ((store.ownEdge graph e).edgeState f).source = (store.edgeState f).source ∧
      ((store.ownEdge graph e).edgeState f).target = (store.edgeState f).target := by
  have hstate : ∀ store' : Store,
      store'.edges = (store.updateEdge e fun state => { state with owner := some graph }).edges →
      (store'.edgeState f).source = (store.edgeState f).source ∧
        (store'.edgeState f).target = (store.edgeState f).target := by
    intro store' hedges
    have hsame : store'.edgeState f =
        (store.updateEdge e fun state => { state with owner := some graph }).edgeState f := by
      rw [edgeState, edgeState, hedges]
    rw [hsame, edgeState_updateEdge]
    split
    · rename_i hid
      rw [edgeState, edgeState, hid]
      exact ⟨rfl, rfl⟩
    · exact ⟨rfl, rfl⟩
  unfold ownEdge
  dsimp only
  split
  · exact hstate _ rfl
  · exact hstate _ rfl

theorem endpoints?_eq_some_iff (store : Store) (e : Edge) (s t : Node) :
    store.endpoints? e = some (s, t) ↔
      (store.edgeState e).source = some s ∧ (store.edgeState e).target = some t := by
  rw [endpoints?]
  cases (store.edgeState e).source with
  | none => simp
  | some a =>
      cases (store.edgeState e).target with
      | none => simp
      | some b => simp

theorem endpoints?_updateOwner (store : Store) (owner : Option GraphId) (e f : Edge) :
    (store.updateEdge e fun state => { state with owner := owner }).endpoints? f =
      store.endpoints? f := by
  rw [endpoints?, endpoints?, edgeState_updateEdge]
  split
  · rename_i hid
    rw [edgeState, edgeState, hid]
  · rfl

/-- An edge that has come into a graph is forgotten by its ends, and nothing else is forgotten. -/
theorem pending_ownEdge (store : Store) (graph : GraphId) (e : Edge) (m : Node) :
    ((store.ownEdge graph e).nodeState m).pending.Sublist (store.nodeState m).pending ∧
      ∀ s t, store.endpoints? e = some (s, t) →
        ((store.ownEdge graph e).nodeState m).pending =
          if m.id = s.id ∨ m.id = t.id then (store.nodeState m).pending.filter (· != e)
          else (store.nodeState m).pending := by
  unfold ownEdge
  dsimp only
  rw [endpoints?_updateOwner]
  cases hends : store.endpoints? e with
  | none => exact ⟨List.Sublist.refl _, fun s t h => by cases h⟩
  | some ends =>
      obtain ⟨s, t⟩ := ends
      refine ⟨(sublist_pending_unregister _ e t m).trans (sublist_pending_unregister _ e s m),
        fun s' t' h => ?_⟩
      obtain ⟨rfl, rfl⟩ := Prod.mk.inj (Option.some.inj h)
      dsimp only
      rw [pending_unregister, pending_unregister]
      change (if m.id = t.id then
          (if m.id = s.id then (store.nodeState m).pending.filter (· != e)
            else (store.nodeState m).pending).filter (· != e)
        else if m.id = s.id then (store.nodeState m).pending.filter (· != e)
        else (store.nodeState m).pending) = _
      by_cases hs : m.id = s.id
      · by_cases ht : m.id = t.id
        · rw [if_pos ht, if_pos hs, if_pos (Or.inl hs), List.filter_filter]
          simp only [Bool.and_self]
        · rw [if_neg ht, if_pos hs, if_pos (Or.inl hs)]
      · by_cases ht : m.id = t.id
        · rw [if_pos ht, if_neg hs, if_pos (Or.inr ht)]
        · rw [if_neg ht, if_neg hs, if_neg (not_or.mpr ⟨hs, ht⟩)]

end Forgetting

/-- Whether an item has come into a graph. -/
structure Gains (store : Store) (graph : GraphId) (item : ItemId) (store' : Store) : Prop where
  owner : ∀ id, store'.owner id = if id = item then some graph else store.owner id
  includes : ∀ g id, (store'.index g).Includes id ↔
    (store.index g).Includes id ∨ g = graph ∧ id = item
  represented : ∀ g, ∃ d, (store'.index g).Represents d
  ends : ∀ g id, id ∈ (store.index g).edges →
    (store'.index g).ends[id]? = (store.index g).ends[id]?
  graphs : ∀ g, g ∈ store'.graphs ↔ g = graph ∨ g ∈ store.graphs
  alive : ∀ id, id ∈ store'.edges ↔ id ∈ store.edges ∨ .edge id = item
  pending : ∀ m, (store'.nodeState m).pending.Sublist (store.nodeState m).pending
  source : ∀ e, (store'.edgeState e).source = (store.edgeState e).source
  target : ∀ e, (store'.edgeState e).target = (store.edgeState e).target
  nodeCount : store'.nodeCount = store.nodeCount
  edgeCount : store'.edgeCount = store.edgeCount
  graphCount : store'.graphCount = store.graphCount

end Store

namespace Attachment

variable {a a' : Attachment} {store store' : Store}

theorem settle_gains
    (a : Attachment)
    (n : Node)
    (hrepresented : ∀ g, ∃ d, (store.index g).Represents d) :
    store.Gains a.graph (.node n.id) (a.settle store n).1 ∧
      ∀ m, ((a.settle store n).1.nodeState m).pending =
        if m.id = n.id then [] else (store.nodeState m).pending := by
  have hsettle : (a.settle store n).1 =
      (store.setIndex a.graph ((store.index a.graph).insertNode n).2).updateNode n fun state =>
        { state with owner := some a.graph, pending := [] } := rfl
  rw [hsettle]
  obtain ⟨d, hd⟩ := hrepresented a.graph
  obtain ⟨d', hd', hwires, hincludes⟩ := hd.adding_node n
  have hpending : ∀ m, (((store.setIndex a.graph ((store.index a.graph).insertNode n).2).updateNode n
      fun state => { state with owner := some a.graph, pending := [] }).nodeState m).pending =
        if m.id = n.id then [] else (store.nodeState m).pending := by
    intro m
    rw [Store.nodeState_updateNode]
    split
    · rfl
    · rfl
  refine ⟨⟨fun id => ?_, fun g id => ?_, fun g => ?_, fun g id hid => ?_, fun g => ?_, fun id => ?_,
    fun m => ?_, fun _ => rfl, fun _ => rfl, rfl, rfl, rfl⟩, hpending⟩
  · rw [Store.owner_updateNode, Store.owner_setIndex]
  · change ((store.setIndex a.graph _).index g).Includes id ↔ _
    rw [Store.index_setIndex]
    by_cases hg : g = a.graph
    · subst hg
      rw [if_pos rfl, hd'.includes_iff, hincludes, hd.includes_iff]
      simp
    · simp [hg]
  · change ∃ d, ((store.setIndex a.graph _).index g).Represents d
    rw [Store.index_setIndex]
    split
    · exact ⟨d', hd'⟩
    · exact hrepresented g
  · change ((store.setIndex a.graph _).index g).ends[id]? = _
    rw [Store.index_setIndex]
    split
    · rename_i hg
      rw [hg, hd'.ends, hd.ends, hwires]
    · rfl
  · exact store.mem_graphs_setIndex _ g
  · exact (or_iff_left_of_imp (by simp)).symm
  · rw [hpending]
    split
    · exact List.nil_sublist _
    · exact List.Sublist.refl _

theorem join_gains
    {e : Edge}
    {s t : Node}
    (hrepresented : ∀ g, ∃ d, (store.index g).Represents d)
    (h : a.join store e s t = .ok (store', a')) :
    store.Gains a.graph (.edge e.id) store' ∧
      (e.id ∉ (store.index a.graph).edges →
        (store'.index a.graph).ends[e.id]? = some ⟨s.id, t.id⟩) ∧
      ∀ m source target, store.endpoints? e = some (source, target) →
        (store'.nodeState m).pending =
          if m.id = source.id ∨ m.id = target.id then
            (store.nodeState m).pending.filter (· != e)
          else (store.nodeState m).pending := by
  rw [join] at h
  cases hinsert : (store.index a.graph).insertEdge e ⟨s.id, t.id⟩ with
  | error fault =>
      rw [hinsert] at h
      cases h
  | ok inserted =>
      obtain ⟨absent, index⟩ := inserted
      rw [hinsert] at h
      obtain ⟨rfl, rfl⟩ := Prod.mk.inj (Except.ok.inj h)
      obtain ⟨d, hd⟩ := hrepresented a.graph
      obtain ⟨d', hd', hkept, hnew, hincludes⟩ := hd.adding_edge hinsert
      have hgraphs := (Store.KeepsGraphs.ownEdge (store.setIndex a.graph index) a.graph e)
      have hlookup : ∀ g, ((store.setIndex a.graph index).ownEdge a.graph e).index g =
          if g = a.graph then index else store.index g := by
        intro g
        rw [hgraphs.index_eq, Store.index_setIndex]
      have hpending := fun m =>
        (store.setIndex a.graph index).pending_ownEdge a.graph e m
      refine ⟨⟨fun id => ?_, fun g id => ?_, fun g => ?_, fun g id hid => ?_, fun g => ?_,
        fun id => ?_, fun m => (hpending m).1, fun f => (Store.source_ownEdge _ e f).1,
        fun f => (Store.source_ownEdge _ e f).2, ?_, ?_, hgraphs.count⟩, fun he => ?_,
        fun m source target hends => (hpending m).2 source target hends⟩
      · rw [Store.owner_ownEdge, Store.owner_setIndex]
      · rw [hlookup]
        by_cases hg : g = a.graph
        · subst hg
          rw [if_pos rfl, hd'.includes_iff, hincludes, hd.includes_iff]
          simp
        · simp [hg]
      · rw [hlookup]
        split
        · exact ⟨d', hd'⟩
        · exact hrepresented g
      · rw [hlookup]
        split
        · rename_i hg
          rw [hg, hd.mem_edges] at hid
          rw [hg, hd'.ends, hd.ends, hkept id (Or.inr hid)]
        · rfl
      · rw [hgraphs.graphs, Store.mem_graphs_setIndex]
      · rw [Store.mem_edges_ownEdge, ItemId.edge.injEq]
        rfl
      · unfold Store.ownEdge
        dsimp only
        split <;> rfl
      · unfold Store.ownEdge
        dsimp only
        split <;> rfl
      · rw [hlookup, if_pos rfl, hd'.ends, hnew (by rwa [← hd.mem_edges])]
        rfl

/-- A job puts an edge in as soon as its ends are there. -/
theorem join_isOk
    (a : Attachment)
    (hrepresented : ∀ g, ∃ d, (store.index g).Represents d)
    (e : Edge)
    {s t : Node}
    (hs : s.id ∈ (store.index a.graph).nodes)
    (ht : t.id ∈ (store.index a.graph).nodes) :
    ∃ joined, a.join store e s t = .ok joined := by
  obtain ⟨d, hd⟩ := hrepresented a.graph
  obtain ⟨⟨absent, index⟩, hinsert⟩ := hd.insertEdge_isOk e ⟨s.id, t.id⟩ hs ht
  rw [join, hinsert]
  exact ⟨_, rfl⟩

end Attachment

end PatternGraph
