import PatternGraph.Proofs.Session.Owed
import PatternGraph.Proofs.Session.Release

/-!
# Coherent sessions

A live query that holds its rows and is listed on the board of its graph holds the rows that its
graph has now, unless it is still owed an event about an item that is relevant to it.  That and what
is needed to keep it so makes a session coherent with the trace of the commands begun so far: of
these it matters only which subscriptions a client has ended by number.
-/

namespace PatternGraph

variable {ρ : Type}

namespace Session

/-- Whether a number stands for a live query of a graph, if it stands for one at all. -/
structure Serves (s : Session ρ) (graph : GraphId) (id : QueryId) : Prop where
  issued : id.number ≤ s.issued
  graph : ∀ live : LiveQuery, s.queries[id]? = some live → live.graph = graph

end Session

/-- Whether a live query is listed as long as its subscription lasts, and fresh while it is listed. -/
structure LiveQuery.Upheld (trace : List (Command ρ)) (s : Session ρ) (id : QueryId)
    (live : LiveQuery) : Prop where
  graph : live.graph.number ≤ s.store.graphCount
  compiled : ∃ query : Query, query.compile = .ok live.query
  held : live.cached = true → live.active = true → ∃ snapshot subscription,
    live.snapshot = some snapshot ∧ live.subscription = some subscription
  issued : ∀ subscription, live.subscription = some subscription →
    subscription ≤ (s.board live.graph).issued
  listed : ∀ subscription, live.subscription = some subscription →
    .unsubscribe live.graph subscription ∉ trace →
      (subscription, .query id) ∈ (s.board live.graph).handlers
  fresh : ∀ subscription snapshot, live.active = true → live.subscription = some subscription →
    (subscription, .query id) ∈ (s.board live.graph).handlers → live.snapshot = some snapshot →
      (∃ event, s.Owes live.graph id event ∧ live.query.slots.isRelevant event.item = true) ∨
        s.collect live.query live.graph = .ok snapshot.rows

namespace Session

/-- Whether the live queries of a session are as fresh as they can be. -/
structure Coherent (trace : List (Command ρ)) (s : Session ρ) : Prop where
  sound : s.Sound
  number : ∀ (id : QueryId) (live : LiveQuery), s.queries[id]? = some live → id.number ≤ s.issued
  handlers : ∀ graph subscription id,
    (subscription, .query id) ∈ (s.board graph).handlers → s.Serves graph id
  deliveries : ∀ graph event handlers id,
    .deliver graph event handlers ∈ s.tasks → .query id ∈ handlers → s.Serves graph id
  apart : ∀ (id id' : QueryId) (live live' : LiveQuery) (subscription : Nat),
    s.queries[id]? = some live → s.queries[id']? = some live' → live.graph = live'.graph →
      live.subscription = some subscription → live'.subscription = some subscription → id = id'
  upheld : ∀ (id : QueryId) (live : LiveQuery), s.queries[id]? = some live → live.Upheld trace s id

namespace Coherent

variable {trace trace' : List (Command ρ)} {s s' : Session ρ} {graph : GraphId} {id : QueryId}
  {live : LiveQuery}

theorem empty : Coherent [] (Session.empty : Session ρ) := by
  constructor
  · intro graph
    exact ⟨.empty, by simpa [Session.empty, Store.index, Store.empty] using Index.represents_empty⟩
  · intro id live hlive
    simp [Session.empty] at hlive
  · intro graph subscription id hmem
    simp [Session.empty, board, Board.empty] at hmem
  · intro graph event handlers id hmem
    simp [Session.empty] at hmem
  · intro id id' live live' subscription hlive
    simp [Session.empty] at hlive
  · intro id live hlive
    simp [Session.empty] at hlive

/-- A longer trace promises less. -/
theorem mono (h : Coherent trace s) (htrace : ∀ c ∈ trace, c ∈ trace') : Coherent trace' s := by
  refine ⟨h.sound, h.number, h.handlers, h.deliveries, h.apart, fun id live hlive => ?_⟩
  have hupheld := h.upheld id live hlive
  exact { hupheld with
    listed := fun subscription hsome hnot =>
      hupheld.listed subscription hsome fun hmem => hnot (htrace _ hmem) }

/-- A session that carries a coherent one forward is coherent. -/
theorem carries (h : Coherent trace s) (hcarries : s.Carries s') : Coherent trace s' := by
  have hboard : ∀ graph, s'.board graph = s.board graph := by
    intro graph
    rw [board, board, hcarries.boards]
  have hserves : ∀ graph id, s.Serves graph id → s'.Serves graph id := by
    rintro graph id ⟨hissued, hgraph⟩
    exact ⟨hissued.trans hcarries.issued, by rwa [hcarries.queries]⟩
  refine ⟨hcarries.sound h.sound, fun id live hlive => ?_, fun graph subscription id hmem => ?_,
    fun graph event handlers id htask hid => ?_, ?_, fun id live hlive => ?_⟩
  · rw [hcarries.queries] at hlive
    exact (h.number id live hlive).trans hcarries.issued
  · rw [hboard] at hmem
    exact hserves graph id (h.handlers graph subscription id hmem)
  · exact hserves graph id
      (h.deliveries graph event handlers id (hcarries.deliveries graph event handlers htask) hid)
  · rw [hcarries.queries]
    exact h.apart
  · rw [hcarries.queries] at hlive
    obtain ⟨hgraph, hcompiled, hheld, hissued, hlisted, hfresh⟩ := h.upheld id live hlive
    refine ⟨hgraph.trans hcarries.count, hcompiled, hheld, ?_, ?_, ?_⟩
    · rwa [hboard]
    · rwa [hboard]
    · rw [hboard]
      intro subscription snapshot hactive hsubscription hmem hsnapshot
      rcases hfresh subscription snapshot hactive hsubscription hmem hsnapshot with
        ⟨event, howes, hrelevant⟩ | hrows
      · exact Or.inl ⟨event, hcarries.owes _ _ _ howes, hrelevant⟩
      · -- a relevant item that came or went is owed to this query as to any other
        by_cases hnew : ∃ event, (∀ id, s'.Owes live.graph id event) ∧
            live.query.slots.isRelevant event.item = true
        · obtain ⟨event, howes, hrelevant⟩ := hnew
          exact Or.inl ⟨event, howes id, hrelevant⟩
        · obtain ⟨g, hg⟩ := h.sound live.graph
          obtain ⟨g', hg', hagree⟩ := hcarries.told live.graph hgraph g hg
          have hrelevant := hagree.mono (P := fun item => live.query.slots.isRelevant item = true)
            fun item hitem event howes heq => hnew ⟨event, howes, heq ▸ hitem⟩
          right
          rw [collect, ← CompiledQuery.collect_congr hcompiled hg hg' hrelevant]
          exact hrows

/-- Letting go of what nothing holds keeps the graphs of all live queries. -/
theorem release (h : Coherent trace s) : Coherent trace s.release := by
  obtain ⟨observers, holdsEdge, heq, -⟩ := s.release_eq
  rw [heq]
  refine ⟨fun graph => ?_, h.number, fun graph subscription id hmem => ?_,
    fun graph event handlers id htask hid => ?_, h.apart, fun id live hlive => ?_⟩
  · rcases s.store.index_release s.holdsGraph holdsEdge graph with hsame | ⟨-, hempty⟩
    · simpa only [hsame] using h.sound graph
    · exact ⟨.empty, by simpa only [hempty] using Index.represents_empty⟩
  · exact ⟨(h.handlers graph subscription id hmem).issued, (h.handlers graph subscription id hmem).graph⟩
  · have hserves := h.deliveries graph event handlers id htask hid
    exact ⟨hserves.issued, hserves.graph⟩
  · obtain ⟨hgraph, hcompiled, hheld, hissued, hlisted, hfresh⟩ := h.upheld id live hlive
    have hindex : (s.store.release s.holdsGraph holdsEdge).index live.graph =
        s.store.index live.graph := by
      refine (s.store.index_release s.holdsGraph holdsEdge live.graph).resolve_right fun hfree => ?_
      have hheld : s.holdsGraph live.graph = true := holdsGraph_of_query hlive
      rw [hheld] at hfree
      cases hfree.1
    refine ⟨?_, hcompiled, hheld, hissued, hlisted, ?_⟩
    · rw [(s.store.graphs_release s.holdsGraph holdsEdge).1]
      exact hgraph
    · simp only [collect, hindex]
      exact hfresh

/-- A change of one live query that leaves it upheld. -/
theorem updateQuery
    {change : LiveQuery → LiveQuery}
    (h : Coherent trace s)
    (hgraph : ∀ live, (change live).graph = live.graph)
    (hsubscription : ∀ live subscription,
      (change live).subscription = some subscription → live.subscription = some subscription)
    (hupheld : ∀ live, s.queries[id]? = some live → live.Upheld trace s id →
      (change live).Upheld trace s id) :
    Coherent trace (s.updateQuery id change) := by
  have hqueries : ∀ (other : QueryId) (live : LiveQuery),
      (s.updateQuery id change).queries[other]? = some live →
        ∃ former, s.queries[other]? = some former ∧
          (other = id ∧ live = change former ∨ other ≠ id ∧ live = former) := by
    intro other live hlive
    rw [Session.updateQuery, getElem?_modify_eq] at hlive
    split at hlive
    · rename_i hother
      obtain ⟨former, hformer, rfl⟩ := Option.map_eq_some_iff.mp hlive
      exact ⟨former, hformer, Or.inl ⟨hother, rfl⟩⟩
    · rename_i hother
      exact ⟨live, hlive, Or.inr ⟨hother, rfl⟩⟩
  have hsame : ∀ (other : QueryId) (live : LiveQuery),
      (s.updateQuery id change).queries[other]? = some live →
        ∃ former, s.queries[other]? = some former ∧ live.graph = former.graph ∧
          ∀ subscription, live.subscription = some subscription →
            former.subscription = some subscription := by
    intro other live hlive
    obtain ⟨former, hformer, ⟨-, rfl⟩ | ⟨-, rfl⟩⟩ := hqueries other live hlive
    · exact ⟨former, hformer, hgraph former, hsubscription former⟩
    · exact ⟨live, hformer, rfl, fun _ hsome => hsome⟩
  have hserves : ∀ graph id', s.Serves graph id' → (s.updateQuery id change).Serves graph id' := by
    rintro graph id' ⟨hissued, hserved⟩
    refine ⟨hissued, fun live hlive => ?_⟩
    obtain ⟨former, hformer, hgraphs, -⟩ := hsame id' live hlive
    exact hgraphs.trans (hserved former hformer)
  refine ⟨h.sound, fun other live hlive => ?_, fun graph subscription other hmem => ?_,
    fun graph event handlers other htask hother => ?_, ?_, fun other live hlive => ?_⟩
  · obtain ⟨former, hformer, -⟩ := hsame other live hlive
    exact h.number other former hformer
  · exact hserves graph other (h.handlers graph subscription other hmem)
  · exact hserves graph other (h.deliveries graph event handlers other htask hother)
  · intro other other' live live' subscription hlive hlive' hgraphs hsome hsome'
    obtain ⟨former, hformer, hformerGraph, hformerSome⟩ := hsame other live hlive
    obtain ⟨former', hformer', hformerGraph', hformerSome'⟩ := hsame other' live' hlive'
    rw [hformerGraph, hformerGraph'] at hgraphs
    exact h.apart other other' former former' subscription hformer hformer' hgraphs
      (hformerSome subscription hsome) (hformerSome' subscription hsome')
  · obtain ⟨former, hformer, ⟨rfl, rfl⟩ | ⟨-, rfl⟩⟩ := hqueries other live hlive
    · have hchanged := hupheld former hformer (h.upheld other former hformer)
      exact { hchanged with }
    · have hkept := h.upheld other live hformer
      exact { hkept with }

/-- The board of a graph after that of a graph has been replaced. -/
theorem board_setBoard (s : Session ρ) (graph other : GraphId) (board : Board) :
    (s.setBoard graph board).board other = if other = graph then board else s.board other := by
  rw [Session.board, setBoard, Std.ExtTreeMap.getD_insert]
  by_cases hother : other = graph
  · simp [hother]
  · simp [hother, Ne.symm hother, Session.board]

/-- Replacing the board of a graph; a query that is listed anew is still to be opened. -/
theorem setBoard
    {board : Board}
    (h : Coherent trace s)
    (hissued : (s.board graph).issued ≤ board.issued)
    (hhandlers : ∀ subscription id, (subscription, .query id) ∈ board.handlers →
      (subscription, .query id) ∈ (s.board graph).handlers ∨
        (id.number ≤ s.issued ∧ s.queries[id]? = none))
    (hlisted : ∀ (id : QueryId) (live : LiveQuery) (subscription : Nat),
      s.queries[id]? = some live → live.graph = graph → live.subscription = some subscription →
        .unsubscribe graph subscription ∉ trace →
          (subscription, .query id) ∈ (s.board graph).handlers →
            (subscription, .query id) ∈ board.handlers) :
    Coherent trace (s.setBoard graph board) := by
  have hformer : ∀ other subscription id,
      (subscription, .query id) ∈ ((s.setBoard graph board).board other).handlers →
        (subscription, .query id) ∈ (s.board other).handlers ∨
          (id.number ≤ s.issued ∧ s.queries[id]? = none) := by
    intro other subscription id hmem
    rw [board_setBoard] at hmem
    split at hmem
    · rename_i heq
      exact heq ▸ hhandlers subscription id hmem
    · exact Or.inl hmem
  refine ⟨h.sound, h.number, fun other subscription id hmem => ?_, fun other event handlers id htask
    hid => ?_, h.apart, fun id live hlive => ?_⟩
  · rcases hformer other subscription id hmem with hmem | ⟨hissued, hnone⟩
    · have hserves := h.handlers other subscription id hmem
      exact { hserves with }
    · refine ⟨hissued, fun live hlive => ?_⟩
      have hlive : s.queries[id]? = some live := hlive
      rw [hnone] at hlive
      cases hlive
  · have hserves := h.deliveries other event handlers id htask hid
    exact { hserves with }
  · have hupheld := h.upheld id live hlive
    refine ⟨hupheld.graph, hupheld.compiled, hupheld.held, fun subscription hsome => ?_,
      fun subscription hsome hlasts => ?_, fun subscription snapshot hactive hsome hmem => ?_⟩
    · have hformerIssued := hupheld.issued subscription hsome
      rw [board_setBoard]
      split
      · rename_i heq
        rw [heq] at hformerIssued
        exact hformerIssued.trans hissued
      · exact hformerIssued
    · have hmem := hupheld.listed subscription hsome hlasts
      rw [board_setBoard]
      split
      · rename_i heq
        rw [heq] at hlasts hmem
        exact hlisted id live subscription hlive heq hsome hlasts hmem
      · exact hmem
    · rcases hformer _ _ _ hmem with hmem | ⟨-, hnone⟩
      · exact hupheld.fresh subscription snapshot hactive hsome hmem
      · have hlive : s.queries[id]? = some live := hlive
        rw [hnone] at hlive
        cases hlive

/-- A subscription ends that is ended by number or belongs to no live query. -/
theorem unsubscribe
    {subscription : Nat}
    (h : Coherent trace s)
    (hfree : ∀ (id : QueryId) (live : LiveQuery), s.queries[id]? = some live →
      live.graph = graph → live.subscription = some subscription →
        .unsubscribe graph subscription ∈ trace) :
    Coherent trace (s.setBoard graph ((s.board graph).unsubscribe subscription)) := by
  refine h.setBoard (Nat.le_refl _) (fun _ _ hmem => Or.inl (List.mem_filter.mp hmem).1) ?_
  intro id live other hlive hgraph hother hlasts hmem
  refine List.mem_filter.mpr ⟨hmem, ?_⟩
  have hne : other ≠ subscription := by
    rintro rfl
    exact hlasts (hfree id live hlive hgraph hother)
  simpa using hne

/-- A script subscribes. -/
theorem subscribeScript
    (h : Coherent trace s)
    (graph : GraphId)
    (script : ScriptId)
    (on : Option Change)
    (item : Option String) :
    Coherent trace (s.setBoard graph ((s.board graph).subscribe (.script script on item)).2) := by
  refine h.setBoard (Nat.le_succ _) (fun subscription id hmem => ?_) ?_
  · left
    simpa [Board.subscribe] using hmem
  · intro id live subscription _ _ _ _ hmem
    exact List.mem_append_left _ hmem

/-- A new live query, listed on the board of its graph at most. -/
theorem insertQuery
    (h : Coherent trace s)
    (hissued : id.number ≤ s.issued)
    (hhandlers : ∀ graph subscription, (subscription, .query id) ∈ (s.board graph).handlers →
      graph = live.graph)
    (hdeliveries : ∀ graph event handlers, .deliver graph event handlers ∈ s.tasks →
      .query id ∉ handlers)
    (hapart : ∀ (other : QueryId) (live' : LiveQuery) (subscription : Nat),
      s.queries[other]? = some live' → live'.graph = live.graph →
        live'.subscription = some subscription → live.subscription ≠ some subscription)
    (hupheld : live.Upheld trace s id) :
    Coherent trace { s with queries := s.queries.insert id live } := by
  have hqueries : ∀ (other : QueryId) (live' : LiveQuery),
      (s.queries.insert id live)[other]? = some live' →
        other = id ∧ live' = live ∨ other ≠ id ∧ s.queries[other]? = some live' :=
    fun _ _ => eq_or_of_getElem?_insert
  refine ⟨h.sound, fun other live' hlive' => ?_, fun graph subscription other hmem => ?_,
    fun graph event handlers other htask hother => ?_, ?_, fun other live' hlive' => ?_⟩
  · rcases hqueries other live' hlive' with ⟨rfl, -⟩ | ⟨-, hlive'⟩
    · exact hissued
    · exact h.number other live' hlive'
  · have hserves := h.handlers graph subscription other hmem
    refine ⟨hserves.issued, fun live' hlive' => ?_⟩
    rcases hqueries other live' hlive' with ⟨rfl, rfl⟩ | ⟨-, hlive'⟩
    · exact (hhandlers graph subscription hmem).symm
    · exact hserves.graph live' hlive'
  · have hserves := h.deliveries graph event handlers other htask hother
    refine ⟨hserves.issued, fun live' hlive' => ?_⟩
    rcases hqueries other live' hlive' with ⟨rfl, -⟩ | ⟨-, hlive'⟩
    · exact absurd hother (hdeliveries graph event handlers htask)
    · exact hserves.graph live' hlive'
  · intro other other' live₁ live₂ subscription hlive₁ hlive₂ hgraphs hsome₁ hsome₂
    rcases hqueries other live₁ hlive₁ with ⟨rfl, rfl⟩ | ⟨-, hformer₁⟩
    · rcases hqueries other' live₂ hlive₂ with ⟨rfl, -⟩ | ⟨-, hformer₂⟩
      · rfl
      · exact absurd hsome₁ (hapart other' live₂ subscription hformer₂ hgraphs.symm hsome₂)
    · rcases hqueries other' live₂ hlive₂ with ⟨rfl, rfl⟩ | ⟨-, hformer₂⟩
      · exact absurd hsome₂ (hapart other live₁ subscription hformer₁ hgraphs hsome₁)
      · exact h.apart other other' live₁ live₂ subscription hformer₁ hformer₂ hgraphs hsome₁ hsome₂
  · rcases hqueries other live' hlive' with ⟨rfl, rfl⟩ | ⟨-, hlive'⟩
    · exact { hupheld with }
    · have hkept := h.upheld other live' hlive'
      exact { hkept with }

/-- A live query less. -/
theorem eraseQuery (h : Coherent trace s) (id : QueryId) :
    Coherent trace { s with queries := s.queries.erase id } := by
  have hqueries : ∀ (other : QueryId) (live : LiveQuery),
      (s.queries.erase id)[other]? = some live → s.queries[other]? = some live :=
    fun _ _ hlive => (of_getElem?_erase hlive).2
  refine ⟨h.sound, fun other live hlive => h.number other live (hqueries other live hlive),
    fun graph subscription other hmem => ?_, fun graph event handlers other htask hother => ?_,
    fun other other' live live' subscription hlive hlive' => h.apart other other' live live'
      subscription (hqueries other live hlive) (hqueries other' live' hlive'),
    fun other live hlive => ?_⟩
  · have hserves := h.handlers graph subscription other hmem
    exact ⟨hserves.issued, fun live hlive => hserves.graph live (hqueries other live hlive)⟩
  · have hserves := h.deliveries graph event handlers other htask hother
    exact ⟨hserves.issued, fun live hlive => hserves.graph live (hqueries other live hlive)⟩
  · have hkept := h.upheld other live (hqueries other live hlive)
    exact { hkept with }

end Coherent

end Session

end PatternGraph
