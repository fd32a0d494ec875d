import PatternGraph.Proofs.Query.Agreement
import PatternGraph.Proofs.Query.Stacks

/-!
# Relevance is enough

What a compiled query finds in a graph depends on the items that are relevant to it and on the ends
of these edges, and on nothing else: not only which matches there are, but also in which order they
come and how often.  So an event about any other item leaves the rows of a query as they are.
-/

namespace PatternGraph

/-- What a finished or stopped search has gathered depends on how it ends. -/
theorem Matches.ofProgress_congr
    {σ : Type}
    {found : σ → List Bindings}
    {progress progress' : Progress σ}
    (h : progress.conclusion = progress'.conclusion) :
    ofProgress found progress = ofProgress found progress' := by
  cases progress <;> cases progress' <;> cases h <;> rfl

namespace Diagram

variable {P : Item → Prop} {g g' : Diagram}

/-- An edge that another diagram has, with the same ends if it has it, is entered there alike. -/
theorem getElem?_wires_of_has
    {id : EdgeId}
    {w : Wire}
    (hwire : g.wires[id]? = some w)
    (hhas : g'.Has (.edge w.edge))
    (hends : ∀ w', g'.wires[id]? = some w' → w'.edge = w.edge → w'.ends = w.ends) :
    g'.wires[id]? = some w := by
  obtain ⟨w', hwire', hedge⟩ := hhas
  rw [g.edge_id id w hwire] at hwire'
  have hsame := hends w' hwire' hedge
  cases w
  cases w'
  simp_all

/-- Contents that have the same members of some sort, the edges between the same ends, agree. -/
theorem agreeOn_of_members
    (hmembers : ∀ item, P item → (g.Has item ↔ g'.Has item))
    (hends : ∀ (id : EdgeId) (w w' : Wire), g.wires[id]? = some w → g'.wires[id]? = some w' →
      w.edge = w'.edge → P (.edge w.edge) → w.ends = w'.ends) :
    g.AgreeOn P g' := by
  refine ⟨fun id n hn => ?_, fun id w hw => ⟨fun hwire => ?_, fun hwire => ?_⟩⟩
  · have hsame := hmembers _ hn
    constructor
    · intro hnode
      obtain rfl := g.node_id id n hnode
      exact hsame.mp hnode
    · intro hnode
      obtain rfl := g'.node_id id n hnode
      exact hsame.mpr hnode
  · have hhas : g.Has (.edge w.edge) := ⟨w, by rwa [g.edge_id id w hwire], rfl⟩
    exact getElem?_wires_of_has hwire ((hmembers _ hw).mp hhas) fun w' hwire' hedge =>
      (hends id w w' hwire hwire' hedge.symm hw).symm
  · have hhas : g'.Has (.edge w.edge) := ⟨w, by rwa [g'.edge_id id w hwire], rfl⟩
    exact getElem?_wires_of_has hwire ((hmembers _ hw).mpr hhas) fun w' hwire' hedge =>
      hends id w' w hwire' hwire hedge (hedge ▸ hw)

end Diagram

namespace CompiledQuery

variable {query : Query} {c : CompiledQuery} {index index' : Index} {g g' : Diagram}

/--
Whether a query finds the same on two indexes, in the same order: the matches taken one by one from
two stacks or from a search that is resumed, all of them at once, the first few, and the rows.
-/
structure FindsSame (c : CompiledQuery) (index index' : Index) : Prop where
  taken : ∀ n, ∃ outcomes bound, ∀ fuel, bound ≤ fuel →
    (Stacks.start c.plan c.slots).pulls index fuel n = some outcomes ∧
      (Stacks.start c.plan c.slots).pulls index' fuel n = some outcomes
  pulls : ∀ n, (MatchStream.ofQuery c).pulls (List.replicate n index) =
    (MatchStream.ofQuery c).pulls (List.replicate n index')
  all : Matches.all c.slots c.plan index = Matches.all c.slots c.plan index'
  first : ∀ limit, Matches.first limit c.slots c.plan index =
    Matches.first limit c.slots c.plan index'
  rows : c.collect index = c.collect index'

/-- However matches are taken, they come in the order of the loops over the plan. -/
theorem findsSame_of_loops
    (hc : ∃ query : Query, query.compile = .ok c)
    (hloops : Search.loops c.slots index c.plan.moves (Search.noBindings c.slots) =
      Search.loops c.slots index' c.plan.moves (Search.noBindings c.slots)) :
    c.FindsSame index index' := by
  have honce := nodup_binds hc
  have hplan : c.plan.loops c.slots index = c.plan.loops c.slots index' := by
    rw [← Search.loops_plan, hloops, Search.loops_plan]
  refine ⟨fun n => ?_, fun n => ?_, ?_, fun limit => ?_, ?_⟩
  · obtain ⟨done, hruns⟩ := Stacks.runs_start c.plan c.slots index honce
    obtain ⟨done', hruns'⟩ := Stacks.runs_start c.plan c.slots index' honce
    obtain ⟨bound, hpulls⟩ := hruns.pulls n
    obtain ⟨bound', hpulls'⟩ := hruns'.pulls n
    refine ⟨_, max bound bound', fun fuel hfuel => ⟨hpulls fuel (le_of_max_le_left hfuel), ?_⟩⟩
    rw [hplan]
    exact hpulls' fuel (le_of_max_le_right hfuel)
  · rw [MatchStream.pulls_ofQuery c index honce, MatchStream.pulls_ofQuery c index' honce, hplan]
  · exact Matches.ofProgress_congr (conclusion_congr hc hloops _ _)
  · rw [Matches.first, Matches.first]
    split
    · rfl
    · exact Matches.ofProgress_congr (conclusion_congr hc hloops _ _)
  · rw [collect_eq, collect_eq, conclusion_congr hc hloops]

/--
On two graph contents that have the same members relevant to a compiled query, where each such edge
that is in both has the same ends in both, the query finds the same in the same order.
-/
theorem findsSame_of_relevant
    (hcompile : query.compile = .ok c)
    (h : index.Represents g)
    (h' : index'.Represents g')
    (hmembers : ∀ item, c.slots.isRelevant item = true → (g.Has item ↔ g'.Has item))
    (hends : ∀ (id : EdgeId) (w w' : Wire), g.wires[id]? = some w → g'.wires[id]? = some w' →
      w.edge = w'.edge → c.slots.isRelevant (.edge w.edge) = true → w.ends = w'.ends) :
    c.FindsSame index index' :=
  findsSame_of_loops ⟨query, hcompile⟩
    (loops_congr ⟨query, hcompile⟩ h h' (Diagram.agreeOn_of_members hmembers hends))

/--
Who knows whom, asked of two graphs of which the second has another sort of node and another sort of
edge besides, entered in between.
-/
theorem findsSame_besides_others :
    let person : NodeType := ⟨⟨2⟩, "person", [⟨2⟩, .root .node]⟩
    let knows : EdgeType := ⟨⟨3⟩, "knows", [⟨3⟩, .root .edge]⟩
    let a : Node := ⟨⟨1⟩, person⟩
    let b : Node := ⟨⟨2⟩, person⟩
    let ops : List Index.Operation :=
      [.insertNode a, .insertNode b, .insertEdge ⟨⟨3⟩, knows⟩ ⟨a.id, b.id⟩]
    let others : List Index.Operation := [.insertNode b, .insertNode ⟨⟨4⟩, .root .node⟩,
      .insertEdge ⟨⟨5⟩, .root .edge⟩ ⟨b.id, ⟨4⟩⟩, .insertNode a,
      .insertEdge ⟨⟨3⟩, knows⟩ ⟨a.id, b.id⟩]
    ∃ c, Query.compile (.single (.nodeFragment (.any person) (some "a") []
        [(.leadsTo, .edgeFragment (.any knows) none [] [(.leadsTo, .nodeType person)])])) = .ok c ∧
      Index.after ops ≠ Index.after others ∧
      (∃ rows, c.collect (Index.after ops) = .ok rows ∧ rows.length = 1) ∧
      c.FindsSame (Index.after ops) (Index.after others) := by
  intro person knows a b ops others
  let g := Diagram.after ops
  let g' := Diagram.after others
  obtain ⟨c, hcompile, hcheck⟩ := Query.exists_of_compiles
    (.single (.nodeFragment (.any person) (some "a") []
      [(.leadsTo, .edgeFragment (.any knows) none [] [(.leadsTo, .nodeType person)])]))
    (fun c => decide ((∀ n ∈ g.nodeList ++ g'.nodeList, c.slots.isRelevant (.node n) = true →
        n ∈ g.nodeList ∧ n ∈ g'.nodeList) ∧
      (∀ e ∈ g.edgeList ++ g'.edgeList, c.slots.isRelevant (.edge e) = true →
        e ∈ g.edgeList ∧ e ∈ g'.edgeList) ∧
      (c.collect (Index.after ops)).toOption.map List.length = some 1)) (by decide +kernel)
  obtain ⟨hnodes, hedges, hrows⟩ := of_decide_eq_true hcheck
  have hmembers : ∀ item, c.slots.isRelevant item = true → (g.Has item ↔ g'.Has item) := by
    rintro (n | e) hrelevant
    · rw [← Diagram.mem_nodeList, ← Diagram.mem_nodeList]
      exact ⟨fun hn => (hnodes n (List.mem_append_left _ hn) hrelevant).2,
        fun hn => (hnodes n (List.mem_append_right _ hn) hrelevant).1⟩
    · rw [← Diagram.mem_edgeList, ← Diagram.mem_edgeList]
      exact ⟨fun he => (hedges e (List.mem_append_left _ he) hrelevant).2,
        fun he => (hedges e (List.mem_append_right _ he) hrelevant).1⟩
  have hends : ∀ v ∈ g.wires.toList, ∀ w ∈ g'.wires.toList, v.1 = w.1 → v.2.ends = w.2.ends := by
    decide +kernel
  refine ⟨c, hcompile, by decide +kernel, ?_, findsSame_of_relevant hcompile
    (Index.after_represents ops) (Index.after_represents others) hmembers ?_⟩
  · cases hcollect : c.collect (Index.after ops) with
    | error fault =>
        rw [hcollect] at hrows
        cases hrows
    | ok rows =>
        rw [hcollect] at hrows
        exact ⟨rows, rfl, Option.some.inj hrows⟩
  · intro id v w hv hw _ _
    exact hends (id, v) (Std.ExtTreeMap.mem_toList_iff_getElem?_eq_some.mpr hv) (id, w)
      (Std.ExtTreeMap.mem_toList_iff_getElem?_eq_some.mpr hw) rfl

end CompiledQuery

end PatternGraph
