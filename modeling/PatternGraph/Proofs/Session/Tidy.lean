import PatternGraph.Proofs.Session.Running

/-!
# Tidy sessions

A session is tidy if it has let go of everything that nothing holds.  Every session of a history is
tidy, and letting go in a tidy session does nothing.
-/

namespace PatternGraph

variable {ρ : Type} {c : Catalogue}

namespace Store

variable {store : Store} {holdsGraph : GraphId → Bool} {holdsEdge : EdgeId → Bool}

theorem retainGraphs_of_held (h : ∀ g ∈ store.graphs, holdsGraph g = true) :
    store.retainGraphs holdsGraph = store := by
  rw [retainGraphs, if_pos]
  refine (all_eq_true_iff _ _).mpr fun g index hg => h g ?_
  rw [Std.ExtTreeMap.mem_iff_isSome_getElem?, hg]
  rfl

theorem retainEdges_of_held (h : ∀ id ∈ store.edges, holdsEdge id = true) :
    store.retainEdges holdsEdge = store := by
  rw [retainEdges, if_pos]
  refine (all_eq_true_iff _ _).mpr fun id state hid => h id ?_
  rw [Std.ExtTreeMap.mem_iff_isSome_getElem?, hid]
  rfl

end Store

namespace Session

variable {s : Session ρ}

/-- Whether everything is held that can be let go. -/
structure Tidy (s : Session ρ) : Prop where
  observers : ∀ id ∈ s.observers, s.holdsObserver id = true
  graphs : ∀ g ∈ s.store.graphs, s.holdsGraph g = true
  edges : ∀ id ∈ s.store.edges, s.store.containsEdge id = true ∨ s.holdsEdge id = true

/-- A session whose observers are held lets go of graphs and edges only. -/
theorem release_of_observers (h : ∀ id ∈ s.observers, s.holdsObserver id = true) :
    s.release = { s with store := s.store.release s.holdsGraph s.holdsEdge } := by
  unfold release
  rw [if_pos]
  refine (all_eq_true_iff _ _).mpr fun id observer hid => h id ?_
  rw [Std.ExtTreeMap.mem_iff_isSome_getElem?, hid]
  rfl

/-- A tidy session lets go of nothing. -/
theorem Tidy.release_eq (h : s.Tidy) : s.release = s := by
  rw [release_of_observers h.observers, Store.release_eq_retain,
    Store.retainGraphs_of_held h.graphs, Store.retainEdges_of_held]
  intro id hid
  rw [Bool.or_eq_true]
  exact h.edges id hid

theorem observers_release (s : Session ρ) :
    ∀ id ∈ s.release.observers, s.holdsObserver id = true := by
  intro id hid
  rw [Std.ExtTreeMap.mem_iff_isSome_getElem?] at hid
  obtain ⟨observer, hobserver⟩ := Option.isSome_iff_exists.mp hid
  have heq : s.release.observers =
      if s.observers.all fun id _ => s.holdsObserver id then s.observers
      else s.observers.filter fun id _ => s.holdsObserver id := by
    unfold release
    dsimp only
    split <;> rfl
  rw [heq, getElem?_filter_unless, Option.filter_eq_some_iff] at hobserver
  exact hobserver.2

theorem tidy_release (s : Session ρ) : s.release.Tidy := by
  obtain ⟨observers, heq⟩ := s.release_eq_retain
  have hobservers := s.observers_release
  have hgraphs := fun g => s.mem_graphs_release g
  rw [heq] at hobservers hgraphs ⊢
  refine ⟨hobservers, fun g hg => ((hgraphs g).mp hg).2, fun id hid => ?_⟩
  exact ((s.store.mem_edges_release _ _ id).mp hid).2.imp_left
    (Store.containsEdge_iff _ id).mpr

/-- A tidy session stays tidy with further tasks on top. -/
theorem Tidy.working
    (h : s.Tidy)
    (pushed : List (Task ρ))
    (log : List Entry)
    (outcome : Outcome) :
    ({ s with tasks := pushed ++ s.tasks, log := log, outcome := outcome } : Session ρ).Tidy := by
  refine ⟨fun id hid => ?_, fun g hg => ?_, fun id hid => (h.edges id hid).imp_right fun hheld => ?_⟩
  · have hheld := h.observers id hid
    simp only [holdsObserver, List.any_append, Bool.or_eq_true] at hheld ⊢
    exact hheld.imp_right Or.inr
  · have hheld := h.graphs g hg
    simp only [holdsGraph, List.any_append, Bool.or_eq_true] at hheld ⊢
    exact hheld.imp_right Or.inr
  · simp only [holdsEdge, List.any_append, Bool.or_eq_true] at hheld ⊢
    exact hheld.imp_right Or.inr

theorem History.tidy
    {permits : Command ρ → Prop}
    {past : List (Session ρ)}
    (h : History c permits past s) :
    s.Tidy := by
  induction h with
  | empty =>
      exact ⟨fun _ h => absurd h Std.ExtTreeMap.not_mem_empty,
        fun _ h => absurd h Std.ExtTreeMap.not_mem_empty,
        fun _ h => absurd h Std.ExtTreeMap.not_mem_empty⟩
  | request => exact tidy_release _
  | @step past s interpret h hgenuine ih =>
      rw [Session.step]
      split
      · exact ih
      · exact tidy_release _

end Session

end PatternGraph
