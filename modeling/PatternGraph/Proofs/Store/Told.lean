import PatternGraph.Proofs.Query.Agreement
import PatternGraph.Proofs.Store.Removing
import PatternGraph.Store.Attachment

/-!
# Every change of a graph is told

Wiring edges and setting owners leaves the contents of all graphs alone.  A removal, and a job of an
attachment, changes the content of at most one graph, and the events that come of it name every item
that this graph has gained or lost.  An event may name an item that was there already, which does no
harm.
-/

namespace PatternGraph

namespace Diagram

variable {g : Diagram}

theorem agreeOn_addNode {n : Node} (hn : n.id ∉ g.nodes) :
    g.AgreeOn (fun item => item ≠ .node n) (g.addNode n) := by
  refine ⟨fun id m hm => ?_, fun _ _ _ => Iff.rfl⟩
  have hne : m ≠ n := fun heq => hm (heq ▸ rfl)
  rw [addNode, getElem?_insert_eq]
  by_cases hid : id = n.id
  · subst hid
    have habsent : g.nodes[n.id]? = none := by
      rw [← Option.not_isSome_iff_eq_none, ← Std.ExtTreeMap.mem_iff_isSome_getElem?]
      exact hn
    simp [habsent, Ne.symm hne]
  · simp [hid]

theorem agreeOn_addEdge
    {e : Edge}
    {ends : Ends}
    (he : e.id ∉ g.wires)
    (hends : ends.source ∈ g.nodes ∧ ends.target ∈ g.nodes) :
    g.AgreeOn (fun item => item ≠ .edge e) (g.addEdge e ends hends) := by
  refine ⟨fun _ _ _ => Iff.rfl, fun id w hw => ?_⟩
  have hne : w ≠ ⟨e, ends⟩ := fun heq => hw (heq ▸ rfl)
  rw [addEdge, getElem?_insert_eq]
  by_cases hid : id = e.id
  · subst hid
    have habsent : g.wires[e.id]? = none := by
      rw [← Option.not_isSome_iff_eq_none, ← Std.ExtTreeMap.mem_iff_isSome_getElem?]
      exact he
    simp [habsent, Ne.symm hne]
  · simp [hid]

theorem agreeOn_dropEdge {id : EdgeId} {w : Wire} (hw : g.wires[id]? = some w) :
    g.AgreeOn (fun item => item ≠ .edge w.edge) (g.dropEdge id) := by
  refine ⟨fun _ _ _ => Iff.rfl, fun e v hv => ?_⟩
  rw [getElem?_dropEdge]
  by_cases he : e = id
  · subst he
    have hne : w ≠ v := fun heq => hv (heq ▸ rfl)
    simp [hw, hne]
  · simp [he]

theorem mem_edgesAt (g : Diagram) (id : NodeId) (e : Edge) :
    e ∈ g.edgesAt id ↔ ∃ (k : EdgeId) (w : Wire), g.wires[k]? = some w ∧ w.ends.touch id = true ∧ w.edge = e := by
  simp only [edgesAt, List.mem_map, List.mem_filter, Prod.exists,
    Std.ExtTreeMap.mem_toList_iff_getElem?_eq_some, and_assoc]

theorem agreeOn_dropNode {id : NodeId} {n : Node} (hn : g.nodes[id]? = some n) :
    g.AgreeOn (fun item => item ≠ .node n ∧ ∀ e ∈ g.edgesAt id, item ≠ .edge e)
      (g.dropNode id) := by
  refine ⟨fun k m hm => ?_, fun k w hw => ?_⟩
  · rw [dropNode, getElem?_erase_eq]
    by_cases hk : k = id
    · subst hk
      have hne : n ≠ m := fun heq => hm.1 (heq ▸ rfl)
      simp [hn, hne]
    · simp [hk]
  · rw [dropNode, Std.ExtTreeMap.getElem?_filter', Option.filter_eq_some_iff]
    refine (and_iff_left_of_imp fun hk => ?_).symm
    cases htouch : w.ends.touch id with
    | false => rfl
    | true => exact absurd rfl (hw.2 w.edge ((g.mem_edgesAt id _).mpr ⟨k, w, hk, htouch, rfl⟩))

end Diagram

namespace Store

/-- Whether the contents of all graphs, and the number of graphs, are as before. -/
structure KeepsGraphs (store store' : Store) : Prop where
  graphs : store'.graphs = store.graphs
  count : store'.graphCount = store.graphCount

/--
Whether a store has changed in the content of one graph only, and the events name every item that
this graph has gained or lost.
-/
structure Tells (store : Store) (graph : GraphId) (events : List Event) (store' : Store) : Prop where
  count : store'.graphCount = store.graphCount
  others : ∀ other, other ≠ graph → store'.index other = store.index other
  told : ∀ g, (store.index graph).Represents g → ∃ g', (store'.index graph).Represents g' ∧
    g.AgreeOn (fun item => ∀ event ∈ events, event.item ≠ item) g'

namespace KeepsGraphs

variable {store store' store'' : Store}

theorem refl (store : Store) : store.KeepsGraphs store :=
  ⟨rfl, rfl⟩

theorem trans (h : store.KeepsGraphs store') (h' : store'.KeepsGraphs store'') :
    store.KeepsGraphs store'' :=
  ⟨h'.graphs.trans h.graphs, h'.count.trans h.count⟩

theorem index_eq (h : store.KeepsGraphs store') (graph : GraphId) :
    store'.index graph = store.index graph := by
  rw [index, index, h.graphs]

theorem updateNode (store : Store) (node : Node) (change : NodeState → NodeState) :
    store.KeepsGraphs (store.updateNode node change) :=
  ⟨rfl, rfl⟩

theorem updateEdge (store : Store) (edge : Edge) (change : EdgeState → EdgeState) :
    store.KeepsGraphs (store.updateEdge edge change) :=
  ⟨rfl, rfl⟩

theorem createNode (store : Store) (type : NodeType) (data : Json) :
    store.KeepsGraphs (store.createNode type data).2 :=
  ⟨rfl, rfl⟩

theorem createEdge (store : Store) (type : EdgeType) (data : Json) :
    store.KeepsGraphs (store.createEdge type data).2 :=
  ⟨rfl, rfl⟩

theorem register (store : Store) (edge : Edge) (node : Node) :
    store.KeepsGraphs (store.register edge node) := by
  rw [Store.register]
  split
  · exact refl store
  · exact updateNode store node _

theorem unregister (store : Store) (edge : Edge) (node : Node) :
    store.KeepsGraphs (store.unregister edge node) :=
  updateNode store node _

theorem releaseEnd (store : Store) (edge : Edge) (former : Option Node) :
    store.KeepsGraphs (store.releaseEnd edge former) := by
  unfold Store.releaseEnd
  split
  · exact refl store
  · dsimp only
    split
    · exact refl store
    · exact unregister store edge _

theorem setSource {edge : Edge} {node : Node} (h : store.setSource edge node = .ok store') :
    store.KeepsGraphs store' := by
  rw [Store.setSource] at h
  split at h
  · cases h
  · obtain rfl := Except.ok.inj h
    exact ((updateEdge store edge _).trans (releaseEnd _ edge _)).trans (register _ edge node)

theorem setTarget {edge : Edge} {node : Node} (h : store.setTarget edge node = .ok store') :
    store.KeepsGraphs store' := by
  rw [Store.setTarget] at h
  split at h
  · cases h
  · obtain rfl := Except.ok.inj h
    exact ((updateEdge store edge _).trans (releaseEnd _ edge _)).trans (register _ edge node)

theorem rewire (store : Store) (edge : Edge) (source target : Node) :
    store.KeepsGraphs (store.rewire edge source target) :=
  (((updateEdge store edge _).trans (releaseEnd _ edge _)).trans (releaseEnd _ edge _)).trans
    ((register _ edge source).trans (register _ edge target))

theorem createEdgeBetween (store : Store) (type : EdgeType) (source target : Node) :
    store.KeepsGraphs (store.createEdgeBetween type source target).2 :=
  (createEdge store type .null).trans (rewire _ _ source target)

theorem ownEdge (store : Store) (graph : GraphId) (edge : Edge) :
    store.KeepsGraphs (store.ownEdge graph edge) := by
  unfold Store.ownEdge
  dsimp only
  split
  · exact updateEdge store edge _
  · exact (updateEdge store edge _).trans
      ((unregister _ edge _).trans (unregister _ edge _))

theorem disownEdges (edges : List Edge) (store : Store) :
    store.KeepsGraphs (edges.foldl disownEdge store) := by
  induction edges generalizing store with
  | nil => exact refl store
  | cons edge edges ih => exact (updateEdge store edge _).trans (ih _)

end KeepsGraphs

theorem index_setIndex_self (store : Store) (graph : GraphId) (index : Index) :
    (store.setIndex graph index).index graph = index := by
  simp [setIndex, Store.index]

theorem index_setIndex_of_ne
    {graph other : GraphId}
    (store : Store)
    (index : Index)
    (h : other ≠ graph) :
    (store.setIndex graph index).index other = store.index other := by
  simp [setIndex, Store.index, Std.ExtTreeMap.getD_insert, Ne.symm h]

namespace Tells

variable {store store' store'' : Store} {graph : GraphId} {events more : List Event}

theorem of_keepsGraphs (h : store.KeepsGraphs store') (graph : GraphId) :
    store.Tells graph [] store' := by
  refine ⟨h.count, fun other _ => h.index_eq other, fun g hg => ⟨g, ?_, .refl g⟩⟩
  rwa [h.index_eq]

theorem trans (h : store.Tells graph events store') (h' : store'.Tells graph more store'') :
    store.Tells graph (events ++ more) store'' := by
  refine ⟨h'.count.trans h.count, fun other hother => ?_, fun g hg => ?_⟩
  · rw [h'.others other hother, h.others other hother]
  · obtain ⟨g', hg', hagree⟩ := h.told g hg
    obtain ⟨g'', hg'', hagree'⟩ := h'.told g' hg'
    refine ⟨g'', hg'', (hagree.mono fun item hitem event hevent => ?_).trans
      (hagree'.mono fun item hitem event hevent => ?_)⟩
    · exact hitem event (List.mem_append_left _ hevent)
    · exact hitem event (List.mem_append_right _ hevent)

theorem keeping (h : store.Tells graph events store') (h' : store'.KeepsGraphs store'') :
    store.Tells graph events store'' := by
  rw [← List.append_nil events]
  exact h.trans (of_keepsGraphs h' graph)

/-- A new content of a graph is told if it agrees with the old one except on what events name. -/
theorem setIndex
    (index : Index)
    (h : ∀ g, (store.index graph).Represents g → ∃ g', index.Represents g' ∧
      g.AgreeOn (fun item => ∀ event ∈ events, event.item ≠ item) g') :
    store.Tells graph events (store.setIndex graph index) := by
  refine ⟨rfl, fun other hother => index_setIndex_of_ne store index hother, fun g hg => ?_⟩
  rw [index_setIndex_self]
  exact h g hg

theorem takeNode {node : NodeId} (h : store.takeNode graph node = some (events, store')) :
    store.Tells graph events store' := by
  rw [Store.takeNode, Option.map_eq_some_iff] at h
  obtain ⟨⟨n, edges, index⟩, hremove, heq⟩ := h
  obtain ⟨rfl, rfl⟩ := Prod.mk.inj heq
  refine (Tells.setIndex index fun g hg => ?_).keeping
    ((KeepsGraphs.disownEdges edges _).trans (KeepsGraphs.updateNode _ n _))
  rcases hg.removeNode node with ⟨-, hnone⟩ | ⟨n', index', hn, hsome, hindex⟩
  · rw [hnone] at hremove
    cases hremove
  · rw [hsome] at hremove
    cases hremove
    refine ⟨_, hindex, (Diagram.agreeOn_dropNode hn).mono fun item hitem => ⟨?_, fun e he => ?_⟩⟩
    · rintro rfl
      exact hitem ⟨.removed, .node n⟩ (by simp [removalEvents]) rfl
    · rintro rfl
      exact hitem ⟨.removed, .edge e⟩ (by simp [removalEvents, he]) rfl

theorem takeEdge {edge : EdgeId} (h : store.takeEdge graph edge = some (events, store')) :
    store.Tells graph events store' := by
  rw [Store.takeEdge, Option.map_eq_some_iff] at h
  obtain ⟨⟨e, index⟩, hremove, heq⟩ := h
  obtain ⟨rfl, rfl⟩ := Prod.mk.inj heq
  refine (Tells.setIndex index fun g hg => ?_).keeping (KeepsGraphs.updateEdge _ e _)
  rcases hg.removeEdge edge with ⟨-, hnone⟩ | ⟨w, index', hw, hsome, hindex⟩
  · rw [hnone] at hremove
    cases hremove
  · rw [hsome] at hremove
    cases hremove
    refine ⟨_, hindex, (Diagram.agreeOn_dropEdge hw).mono fun item hitem => ?_⟩
    rintro rfl
    exact hitem ⟨.removed, .edge w.edge⟩ List.mem_cons_self rfl

end Tells

theorem Removes.tells
    {store store' : Store}
    {graph : GraphId}
    {events : List Event}
    (h : store.Removes graph events store') :
    store.Tells graph events store' := by
  induction h with
  | refl store => exact .of_keepsGraphs (.refl store) graph
  | node h => exact .takeNode h
  | edge h => exact .takeEdge h
  | trans h h' ih ih' => exact ih.trans ih'

end Store

namespace Attachment

variable {a a' : Attachment} {store store' : Store}

theorem settle_tells (a : Attachment) (store : Store) (n : Node) :
    store.Tells a.graph [⟨.added, .node n⟩] (a.settle store n).1 := by
  have hsettle : (a.settle store n).1 =
      (store.setIndex a.graph ((store.index a.graph).insertNode n).2).updateNode n fun state =>
        { state with owner := some a.graph, pending := [] } := rfl
  rw [hsettle]
  refine (Store.Tells.setIndex _ fun g hg => ?_).keeping (.updateNode _ n _)
  by_cases hn : n.id ∈ g.nodes
  · have hindexed : (store.index a.graph).nodes.contains n.id = true := by
      rwa [← Std.ExtTreeMap.mem_iff_contains, hg.nodes]
    rw [Index.insertNode, if_pos hindexed]
    exact ⟨g, hg, .refl g⟩
  · refine ⟨_, (hg.insertNode n hn).2, (Diagram.agreeOn_addNode hn).mono fun item hitem => ?_⟩
    rintro rfl
    exact hitem _ List.mem_cons_self rfl

theorem join_tells
    {e : Edge}
    {source target : Node}
    (h : a.join store e source target = .ok (store', a')) :
    store.Tells a.graph [⟨.added, .edge e⟩] store' ∧
      a'.events = ⟨.added, .edge e⟩ :: a.events := by
  rw [join] at h
  cases hinsert : (store.index a.graph).insertEdge e ⟨source.id, target.id⟩ with
  | error fault =>
      rw [hinsert] at h
      cases h
  | ok inserted =>
      obtain ⟨absent, index⟩ := inserted
      rw [hinsert] at h
      obtain ⟨rfl, rfl⟩ := Prod.mk.inj (Except.ok.inj h)
      refine ⟨(Store.Tells.setIndex _ fun g hg => ?_).keeping (.ownEdge _ a.graph e), rfl⟩
      by_cases he : e.id ∈ g.wires
      · have hindexed : (store.index a.graph).edges.contains e.id = true := by
          rwa [← Std.ExtTreeMap.mem_iff_contains, hg.mem_edges]
        rw [Index.insertEdge, if_pos hindexed] at hinsert
        obtain ⟨-, rfl⟩ := Prod.mk.inj (Except.ok.inj hinsert)
        exact ⟨g, hg, .refl g⟩
      · by_cases hends : source.id ∈ g.nodes ∧ target.id ∈ g.nodes
        · obtain ⟨index', hsome, hindex'⟩ := hg.insertEdge e ⟨source.id, target.id⟩ he hends
          rw [hsome] at hinsert
          obtain ⟨-, rfl⟩ := Prod.mk.inj (Except.ok.inj hinsert)
          refine ⟨_, hindex', (Diagram.agreeOn_addEdge he hends).mono fun item hitem => ?_⟩
          rintro rfl
          exact hitem _ List.mem_cons_self rfl
        · have habsent : ¬(store.index a.graph).edges.contains e.id = true := by
            rwa [← Std.ExtTreeMap.mem_iff_contains, hg.mem_edges]
          have hloose : ¬((store.index a.graph).nodes.contains source.id = true ∧
              (store.index a.graph).nodes.contains target.id = true) := by
            rwa [← Std.ExtTreeMap.mem_iff_contains, ← Std.ExtTreeMap.mem_iff_contains, hg.nodes]
          rw [Index.insertEdge, if_neg habsent, if_neg hloose] at hinsert
          cases hinsert

end Attachment

end PatternGraph
