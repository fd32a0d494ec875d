import PatternGraph.Proofs.Session.Steps
import PatternGraph.Proofs.Store.Clearing

/-!
# Commands that remove many items

In every session that can be reached, also in the middle of a command of which scripts are being
told, a command that removes items by their ends or by type takes out of a graph exactly what a look
at all that the graph has would pick.
-/

namespace PatternGraph

variable {ρ : Type}

namespace Session

/--
Whether a command is carried out at once by taking a graph from one diagram to another one, so that
only telling of it is left to be done.
-/
def Prunes (s : Session ρ) (cmd : Command ρ) (graph : GraphId) (g g' : Diagram) : Prop :=
  ∃ events store, s.begin cmd =
      ({ s with store := store } : Session ρ).announceEvents graph events (.reply graph .done) ∧
    s.store.Shrinks graph store g g'

variable {s : Session ρ} {trace : List (Command ρ)} {graph : GraphId} {g : Diagram}
  {selector : Selector}

/-- A command that is carried out does not fail. -/
theorem Prunes.not_fails {cmd : Command ρ} {g' : Diagram} (h : s.Prunes cmd graph g g') (fault : Fault) :
    s.begin cmd ≠ s.fail fault := by
  intro hfail
  obtain ⟨events, store, hbegin, -⟩ := h
  have htasks := congrArg (·.tasks.length) (hbegin.symm.trans hfail)
  simp only [announceEvents, push, fail, conclude, List.length_append, List.length_cons,
    List.length_nil] at htasks
  omega

/-- Removing edges by their ends fails exactly if the selector is one that is refused. -/
theorem removeEdgesByNodes_fails_iff (h : (s.store.index graph).Represents g) :
    (∃ fault, s.begin (.removeEdgesByNodes graph selector) = s.fail fault) ↔ selector.Refused := by
  constructor
  · rintro ⟨fault, hfail⟩
    by_contra hselector
    obtain ⟨events, store, hremove, hshrinks⟩ := Store.removeEdgesByNodes_shrinks h hselector
    have hprunes : s.Prunes (.removeEdgesByNodes graph selector) graph g _ :=
      ⟨events, store, by rw [Session.begin, hremove]; rfl, hshrinks⟩
    exact hprunes.not_fails fault hfail
  · intro hselector
    obtain ⟨fault, hremove⟩ :=
      s.store.exists_removeEdgesByNodes_eq_error graph hselector
    exact ⟨fault, by rw [Session.begin, hremove]; rfl⟩

/-- In every session that can be reached, many items are removed as a look at all of them tells. -/
theorem Reaches.clears_what_is_picked (h : Reaches trace s) (graph : GraphId) :
    ∃ g, (s.store.index graph).Represents g ∧
      (∀ selector, (∃ fault, s.begin (.removeEdgesByNodes graph selector) = s.fail fault) ↔
        selector.Refused) ∧
      (∀ selector, ¬selector.Refused → s.Prunes (.removeEdgesByNodes graph selector) graph g
        (g.keepWires fun _ w => !selector.accepts w.edge w.ends)) ∧
      (∀ t, s.Prunes (.removeEdgesByType graph t) graph g
        (g.keepWires fun _ w => !w.edge.type.isA t)) ∧
      ∀ t, s.Prunes (.removeNodesByType graph t) graph g (g.keepNodes fun n => !n.type.isA t) := by
  obtain ⟨g, hg⟩ := h.coherent.sound graph
  refine ⟨g, hg, fun selector => removeEdgesByNodes_fails_iff hg, fun selector hselector => ?_,
    fun t => ?_, fun t => ?_⟩
  · obtain ⟨events, store, hremove, hshrinks⟩ := Store.removeEdgesByNodes_shrinks hg hselector
    exact ⟨events, store, by rw [Session.begin, hremove]; rfl, hshrinks⟩
  · exact ⟨_, _, rfl, Store.removeEdgesByType_shrinks hg t⟩
  · exact ⟨_, _, rfl, Store.removeNodesByType_shrinks hg t⟩

/--
A loop at one node and an edge to another one: one node named twice picks the loop, a node that is not
in the graph picks nothing, and no node at all is refused.
-/
theorem clears_loop :
    let a : Node := ⟨⟨1⟩, .root .node⟩
    let b : Node := ⟨⟨2⟩, .root .node⟩
    let enter : List (Command Unit) := [.createGraph "g", .createNode "a" (.root .node) .null,
      .createNode "b" (.root .node) .null, .addNodes ⟨1⟩ [a, b], .addEdge ⟨1⟩ a a none none,
      .addEdge ⟨1⟩ a b none none]
    let s : Session Unit :=
      enter.foldl (fun s c => Session.request (fun _ _ => .ok c) 40 s ()) .empty
    let picks (ids : List NodeId) : Selector := ⟨none, none, ids, none⟩
    (∃ trace, Reaches trace s) ∧ ∃ g, (s.store.index ⟨1⟩).Represents g ∧
      (∃ fault, s.begin (.removeEdgesByNodes ⟨1⟩ (picks [])) = s.fail fault) ∧
      (∀ ids ∈ [[a.id, a.id], [⟨7⟩]], s.Prunes (.removeEdgesByNodes ⟨1⟩ (picks ids)) ⟨1⟩ g
        (g.keepWires fun _ w => !(picks ids).accepts w.edge w.ends)) ∧
      s.Prunes (.removeNodesByType ⟨1⟩ (.root .node)) ⟨1⟩ g
        (g.keepNodes fun n => !n.type.isA (.root .node)) ∧
      ([[a.id, a.id], [⟨7⟩]].map fun ids =>
        (s.store.removeEdgesByNodes ⟨1⟩ (picks ids)).toOption.map Prod.fst) =
          [some [⟨.removed, .edge ⟨⟨1⟩, .root .edge⟩⟩], some []] := by
  intro a b enter s picks
  obtain ⟨trace, hs⟩ := Reaches.empty.carriesOutAll 40 () enter (by simp [enter, Command.Proper])
  obtain ⟨g, hg, hfails, hnodes, -, htype⟩ := hs.clears_what_is_picked ⟨1⟩
  refine ⟨⟨trace, hs⟩, g, hg, (hfails (picks [])).mpr (by decide), fun ids hids => hnodes _ ?_,
    htype _, by decide +kernel⟩
  rcases List.mem_pair.mp hids with rfl | rfl
  · decide
  · decide

end Session

end PatternGraph
