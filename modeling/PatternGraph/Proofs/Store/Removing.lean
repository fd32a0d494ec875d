import PatternGraph.Store.Removal

/-!
# Removals, item by item

Every removal takes items out of one graph one after the other: a node with the edges at it, or an edge
alone.  What holds of taking out one item, and of one removal after another, holds of all of them.
-/

namespace PatternGraph.Store

/-- Whether items have been taken out of a graph one after the other, with the events that tell of it. -/
inductive Removes (graph : GraphId) : Store → List Event → Store → Prop
  | refl (store : Store) : Removes graph store [] store
  | node {store store' : Store} {events : List Event} {node : NodeId}
      (h : store.takeNode graph node = some (events, store')) : Removes graph store events store'
  | edge {store store' : Store} {events : List Event} {edge : EdgeId}
      (h : store.takeEdge graph edge = some (events, store')) : Removes graph store events store'
  | trans {store store' store'' : Store} {events more : List Event}
      (h : Removes graph store events store') (h' : Removes graph store' more store'') :
      Removes graph store (events ++ more) store''

namespace Removes

variable {store store' : Store} {graph : GraphId} {events : List Event}

/-- Removals only tell that items have gone. -/
theorem change_eq (h : store.Removes graph events store') :
    ∀ event ∈ events, event.change = .removed := by
  induction h with
  | refl store => simp
  | node h =>
      obtain ⟨⟨n, edges, index⟩, -, heq⟩ := Option.map_eq_some_iff.mp h
      obtain ⟨rfl, -⟩ := Prod.mk.inj heq
      intro event hevent
      simp only [removalEvents, List.mem_append, List.mem_map, List.mem_singleton] at hevent
      rcases hevent with ⟨e, -, rfl⟩ | rfl
      · rfl
      · rfl
  | edge h =>
      obtain ⟨⟨e, index⟩, -, heq⟩ := Option.map_eq_some_iff.mp h
      obtain ⟨rfl, -⟩ := Prod.mk.inj heq
      simp
  | trans h h' ih ih' =>
      intro event hevent
      rcases List.mem_append.mp hevent with hevent | hevent
      · exact ih event hevent
      · exact ih' event hevent

theorem removeNode {node : Node} (h : store.removeNode graph node = .ok (events, store')) :
    store.Removes graph events store' := by
  rw [Store.removeNode] at h
  split at h
  · rename_i taken htaken
    obtain rfl := Except.ok.inj h
    exact .node htaken
  · cases h

theorem removeEdge {edge : Edge} (h : store.removeEdge graph edge = .ok (events, store')) :
    store.Removes graph events store' := by
  rw [Store.removeEdge] at h
  split at h
  · rename_i taken htaken
    obtain rfl := Except.ok.inj h
    exact .edge htaken
  · cases h

/-- Removing listed items passes over those that are not there. -/
theorem takeEach
    {α : Type}
    (take : Store → α → Option (List Event × Store))
    (htake : ∀ store a events store', take store a = some (events, store') →
      store.Removes graph events store')
    (items : List α)
    (store : Store) :
    store.Removes graph (Store.takeEach take items store).1 (Store.takeEach take items store).2 := by
  induction items generalizing store with
  | nil => exact refl store
  | cons a items ih =>
      rw [Store.takeEach]
      cases htaken : take store a with
      | none => exact ih store
      | some taken => exact (htake store a _ _ htaken).trans (ih taken.2)

theorem removeNodesByType (store : Store) (graph : GraphId) (type : NodeType) :
    store.Removes graph (store.removeNodesByType graph type).1
      (store.removeNodesByType graph type).2 :=
  takeEach (Store.takeNode · graph ·) (fun _ _ _ _ => node) _ store

theorem removeEdgesByType (store : Store) (graph : GraphId) (type : EdgeType) :
    store.Removes graph (store.removeEdgesByType graph type).1
      (store.removeEdgesByType graph type).2 :=
  takeEach (Store.takeEdge · graph ·) (fun _ _ _ _ => edge) _ store

theorem removeEdgesByNodes
    {selector : Selector}
    (h : store.removeEdgesByNodes graph selector = .ok (events, store')) :
    store.Removes graph events store' := by
  rw [Store.removeEdgesByNodes] at h
  cases hselect : selector.select (store.index graph) with
  | error fault =>
      rw [hselect] at h
      cases h
  | ok edges =>
      rw [hselect] at h
      have hremoves := takeEach (Store.takeEdge · graph ·) (fun _ _ _ _ => edge) edges store
      rwa [Except.ok.inj h] at hremoves

end Removes

end PatternGraph.Store
