import PatternGraph.Proofs.Lookup
import PatternGraph.Session.Machine

/-!
# What is let go

Letting go of what nothing holds keeps the graphs of all live queries, and all observers that have a
name.
-/

namespace PatternGraph

variable {ρ : Type}

namespace Store

theorem graphs_release (store : Store) (holdsGraph : GraphId → Bool) (holdsEdge : EdgeId → Bool) :
    (store.release holdsGraph holdsEdge).graphCount = store.graphCount ∧
      ((store.release holdsGraph holdsEdge).graphs = store.graphs ∨
        (store.release holdsGraph holdsEdge).graphs =
          store.graphs.filter fun graph _ => holdsGraph graph) := by
  unfold release
  dsimp only
  by_cases hgraphs : (store.graphs.all fun graph _ => holdsGraph graph) = true
  · rw [if_pos hgraphs]
    split
    · exact ⟨rfl, Or.inl rfl⟩
    · exact ⟨rfl, Or.inl rfl⟩
  · rw [if_neg hgraphs]
    split
    · exact ⟨rfl, Or.inr rfl⟩
    · exact ⟨rfl, Or.inr rfl⟩

/-- A graph that is held keeps its content, and any other may be emptied. -/
theorem index_release (store : Store) (holdsGraph : GraphId → Bool) (holdsEdge : EdgeId → Bool)
    (graph : GraphId) :
    (store.release holdsGraph holdsEdge).index graph = store.index graph ∨
      (holdsGraph graph = false ∧ (store.release holdsGraph holdsEdge).index graph = .empty) := by
  rcases (store.graphs_release holdsGraph holdsEdge).2 with hsame | hfilter
  · left
    rw [index, index, hsame]
  · rw [index, index, hfilter, Std.ExtTreeMap.getD_eq_getD_getElem?,
      Std.ExtTreeMap.getElem?_filter']
    cases hholds : holdsGraph graph with
    | true =>
        left
        cases hgraph : store.graphs[graph]? <;>
          simp [hgraph, Std.ExtTreeMap.getD_eq_getD_getElem?, Option.filter]
    | false =>
        right
        cases store.graphs[graph]? <;> simp

end Store

namespace Session

/-- Letting go changes the observers, some graphs that are not held, and some edges. -/
theorem release_eq (s : Session ρ) :
    ∃ observers holdsEdge,
      s.release =
        { s with observers := observers, store := s.store.release s.holdsGraph holdsEdge } ∧
      (observers = s.observers ∨
        observers = s.observers.filter fun id _ => s.holdsObserver id) := by
  unfold release
  dsimp only
  split
  · exact ⟨_, _, rfl, Or.inl rfl⟩
  · exact ⟨_, _, rfl, Or.inr rfl⟩

theorem holdsGraph_of_query
    {s : Session ρ}
    {id : QueryId}
    {live : LiveQuery}
    (h : s.queries[id]? = some live) :
    s.holdsGraph live.graph = true := by
  have hqueries : (s.queries.any fun _ other => other.graph == live.graph) = true :=
    any_of_getElem? h (by simp)
  simp [holdsGraph, hqueries]

theorem holdsObserver_of_name
    {s : Session ρ}
    {name : String}
    {id : ObserverId}
    (h : s.names.observers[name]? = some id) :
    s.holdsObserver id = true := by
  have hnames : (s.names.observers.any fun _ other => other == id) = true :=
    any_of_getElem? h (by simp)
  simp [holdsObserver, hnames]

end Session

end PatternGraph
