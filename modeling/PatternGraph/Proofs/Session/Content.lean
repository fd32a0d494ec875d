import PatternGraph.Proofs.Query.Relevance
import PatternGraph.Proofs.Session.Steps

/-!
# The content of a graph is all that counts

An index keeps no trace of how it has come about: its buckets, its neighbourhoods and the order in
which they list follow from the nodes, the edges and their ends.  So two graphs with the same content
have the same index, and every query finds the same in them in the same order, whatever has been
added, moved and removed before in either of their sessions.
-/

namespace PatternGraph

/-- Indexes that have the same nodes and edges, and these between the same ends, are the same. -/
theorem Index.Represents.eq_of_content
    {index index' : Index}
    {g g' : Diagram}
    (h : index.Represents g)
    (h' : index'.Represents g')
    (hnodes : ∀ id : NodeId, index.nodes[id]? = index'.nodes[id]?)
    (hedges : ∀ id : EdgeId, index.edges[id]? = index'.edges[id]?)
    (hends : ∀ id : EdgeId, index.ends[id]? = index'.ends[id]?) :
    index = index' := by
  have hsame : g.nodes = g'.nodes := by
    rw [← h.nodes, ← h'.nodes]
    exact Std.ExtTreeMap.ext_getElem? hnodes
  have hwires : ∀ id : EdgeId, g.wires[id]? = g'.wires[id]? := by
    intro id
    have hedge := hedges id
    have hend := hends id
    rw [h.edges, h'.edges] at hedge
    rw [h.ends, h'.ends] at hend
    cases hw : g.wires[id]? with
    | none =>
        rw [hw] at hedge
        exact (Option.map_eq_none_iff.mp hedge.symm).symm
    | some w =>
        rw [hw] at hedge hend
        obtain ⟨w', hw', hedge'⟩ := Option.map_eq_some_iff.mp hedge.symm
        rw [hw'] at hend ⊢
        have hend' := Option.some.inj hend
        cases w
        cases w'
        simp_all
  obtain rfl := Diagram.ext hsame hwires
  exact h.unique h'

namespace Session

variable {ρ ρ' : Type} {trace : List (Command ρ)} {trace' : List (Command ρ')} {s : Session ρ}
  {s' : Session ρ'} {graph graph' : GraphId}

/--
Two graphs that have the same nodes and edges, and these between the same ends, have the same index,
whichever runs have led to them, and every compiled query finds the same in them in the same order.
-/
theorem Reaches.findsSame_of_content
    {query : Query}
    {c : CompiledQuery}
    (h : Reaches trace s)
    (h' : Reaches trace' s')
    (hnodes : ∀ id : NodeId,
      (s.store.index graph).nodes[id]? = (s'.store.index graph').nodes[id]?)
    (hedges : ∀ id : EdgeId,
      (s.store.index graph).edges[id]? = (s'.store.index graph').edges[id]?)
    (hends : ∀ id : EdgeId, (s.store.index graph).ends[id]? = (s'.store.index graph').ends[id]?)
    (hcompile : query.compile = .ok c) :
    s.store.index graph = s'.store.index graph' ∧
      c.FindsSame (s.store.index graph) (s'.store.index graph') := by
  obtain ⟨g, hg⟩ := h.coherent.sound graph
  obtain ⟨g', hg'⟩ := h'.coherent.sound graph'
  have hsame := hg.eq_of_content hg' hnodes hedges hends
  refine ⟨hsame, CompiledQuery.findsSame_of_loops ⟨query, hcompile⟩ ?_⟩
  rw [hsame]

/--
Two nodes and two edges entered in turn, and the same in another order, after which one of the edges
is taken out and entered again.
-/
theorem findsSame_after_reentry :
    let a : Node := ⟨⟨1⟩, .root .node⟩
    let b : Node := ⟨⟨2⟩, .root .node⟩
    let d : Edge := ⟨⟨1⟩, .root .edge⟩
    let e : Edge := ⟨⟨2⟩, .root .edge⟩
    let create : List (Command Unit) := [.createGraph "g", .createNode "a" (.root .node) .null,
      .createNode "b" (.root .node) .null, .createEdge "d" (.root .edge) .null,
      .createEdge "e" (.root .edge) .null]
    let enter : List (Command Unit) := create ++ [.addNodes ⟨1⟩ [a, b],
      .addEdge ⟨1⟩ a b (some d) none, .addEdge ⟨1⟩ b a (some e) none]
    let reenter : List (Command Unit) := create ++ [.addNode ⟨1⟩ b, .addNode ⟨1⟩ a,
      .addEdge ⟨1⟩ b a (some e) none, .addEdge ⟨1⟩ a b (some d) none, .removeEdge ⟨1⟩ d,
      .insertEdge ⟨1⟩ d]
    let carryOut : List (Command Unit) → Session Unit :=
      List.foldl (fun s c => Session.request (fun _ _ => .ok c) 40 s ()) .empty
    let content (commands : List (Command Unit)) : Index := (carryOut commands).store.index ⟨1⟩
    (∃ trace, Reaches trace (carryOut enter)) ∧ (∃ trace, Reaches trace (carryOut reenter)) ∧
      ∃ c rows, Query.compile (.single (.nodeFragment (.any (.root .node)) (some "a") []
          [(.leadsTo, .nodeType (.root .node))])) = .ok c ∧
        c.collect (content enter) = .ok rows ∧ rows.length = 2 ∧
        content enter = content reenter ∧ c.FindsSame (content enter) (content reenter) := by
  intro a b d e create enter reenter carryOut content
  obtain ⟨trace, henter⟩ := Reaches.empty.carriesOutAll 40 () enter (by simp [enter, create, Command.Proper])
  obtain ⟨trace', hreenter⟩ :=
    Reaches.empty.carriesOutAll 40 () reenter (by simp [reenter, create, Command.Proper])
  obtain ⟨c, hcompile, hrows⟩ := Query.exists_of_compiles
    (.single (.nodeFragment (.any (.root .node)) (some "a") []
      [(.leadsTo, .nodeType (.root .node))]))
    (fun c => decide ((c.collect (content enter)).toOption.map List.length = some 2))
    (by decide +kernel)
  have hnodes : (content enter).nodes = (content reenter).nodes := by decide +kernel
  have hedges : (content enter).edges = (content reenter).edges := by decide +kernel
  have hends : (content enter).ends = (content reenter).ends := by decide +kernel
  obtain ⟨hsame, hfinds⟩ := henter.findsSame_of_content hreenter
    (fun id => congrArg (fun nodes => nodes[id]?) hnodes)
    (fun id => congrArg (fun edges => edges[id]?) hedges)
    (fun id => congrArg (fun ends => ends[id]?) hends) hcompile
  refine ⟨⟨trace, henter⟩, ⟨trace', hreenter⟩, c, ?_⟩
  cases hcollect : c.collect (content enter) with
  | error fault =>
      rw [hcollect] at hrows
      cases hrows
  | ok rows =>
      rw [hcollect] at hrows
      exact ⟨rows, hcompile, rfl, Option.some.inj (of_decide_eq_true hrows), hsame, hfinds⟩

end Session

end PatternGraph
