import PatternGraph.Proofs.Session.Coherence

/-!
# Opening, refreshing and destroying live queries

What opening a live query or an observer leaves behind, and that it keeps a session coherent, as does
destroying one.  A delivery may be taken up when the live query that it comes to is refreshed.
-/

namespace PatternGraph

variable {ρ : Type}

namespace Session

variable {s s' : Session ρ} {graph : GraphId} {query : Query} {id : QueryId} {live : LiveQuery}

theorem openUncached_eq_ok (h : s.openUncached graph query = .ok (id, live, s')) :
    ∃ compiled, query.compile = .ok compiled ∧ id = ⟨s.issued + 1⟩ ∧
      live = .uncached graph compiled ∧
      s' = { s with issued := s.issued + 1, queries := s.queries.insert id live } := by
  rw [openUncached] at h
  cases hcompile : query.compile with
  | error fault =>
      rw [hcompile] at h
      cases h
  | ok compiled =>
      rw [hcompile] at h
      cases h
      exact ⟨compiled, rfl, rfl, rfl, rfl⟩

theorem openCached_eq_ok
    {observer : Option ObserverId}
    (h : s.openCached graph query observer = .ok (id, live, s')) :
    ∃ compiled rows, query.compile = .ok compiled ∧ s.collect compiled graph = .ok rows ∧
      id = ⟨s.issued + 1⟩ ∧
      live = .holding graph compiled ⟨s.issued + 2, rows⟩ ((s.board graph).issued + 1) observer ∧
      s' = { s.setBoard graph ((s.board graph).subscribe (.query id)).2 with
        issued := s.issued + 2, queries := s.queries.insert id live } := by
  rw [openCached] at h
  cases hcompile : query.compile with
  | error fault =>
      rw [hcompile] at h
      cases h
  | ok compiled =>
      cases hrows : s.collect compiled graph with
      | error fault =>
          rw [hcompile] at h
          simp only [hrows, bind, Except.bind] at h
          cases h
      | ok rows =>
          rw [hcompile] at h
          simp only [hrows, bind, Except.bind] at h
          cases h
          exact ⟨compiled, rows, rfl, hrows, rfl, rfl, rfl⟩

/-- An observer is opened with the rows of its live query. -/
theorem openObserver_eq_ok
    {observer : ObserverId}
    (h : s.openObserver graph query = .ok (observer, live, s')) :
    ∃ id s₁ rows, ({ s with issued := s.issued + 1 } : Session ρ).openCached graph query
        (some observer) = .ok (id, live, s₁) ∧
      observer = ⟨s.issued + 1⟩ ∧ live.snapshot.map Snapshot.rows = some rows ∧
      s' = { s₁ with observers := s₁.observers.insert observer (.ofRows id rows) } := by
  rw [openObserver] at h
  cases hopen : ({ s with issued := s.issued + 1 } : Session ρ).openCached graph query
      (some ⟨s.issued + 1⟩) with
  | error fault =>
      simp only [issue, hopen, bind, Except.bind] at h
      cases h
  | ok opened =>
      obtain ⟨id, live', s₁⟩ := opened
      simp only [issue, hopen, bind, Except.bind] at h
      cases h
      obtain ⟨compiled, rows, -, -, -, hlive, -⟩ := openCached_eq_ok hopen
      refine ⟨id, s₁, rows, hopen, rfl, ?_, ?_⟩
      · rw [hlive]
        rfl
      · rw [hlive]
        rfl

namespace Coherent

variable {trace : List (Command ρ)}

theorem openUncached
    (h : Coherent trace s)
    (hgraph : graph.number ≤ s.store.graphCount)
    (hopen : s.openUncached graph query = .ok (id, live, s')) :
    Coherent trace s' := by
  obtain ⟨compiled, hcompile, rfl, rfl, rfl⟩ := openUncached_eq_ok hopen
  have hissue : Coherent trace { s with issued := s.issued + 1 } :=
    h.carries (.still (.refl s.store) rfl (Nat.le_succ _) rfl rfl)
  have hnumber : ¬s.issued + 1 ≤ s.issued := Nat.not_succ_le_self _
  refine hissue.insertQuery (Nat.le_refl _) ?_ ?_ ?_ ⟨hgraph, ⟨query, hcompile⟩, nofun, nofun, nofun,
    nofun⟩
  · intro other subscription hmem
    exact absurd (h.handlers other subscription _ hmem).issued hnumber
  · intro other event handlers htask hmem
    exact absurd (h.deliveries other event handlers _ htask hmem).issued hnumber
  · intro other live' subscription _ _ _
    nofun

theorem openCached
    {observer : Option ObserverId}
    (h : Coherent trace s)
    (hgraph : graph.number ≤ s.store.graphCount)
    (hopen : s.openCached graph query observer = .ok (id, live, s')) :
    Coherent trace s' := by
  obtain ⟨compiled, rows, hcompile, hrows, rfl, rfl, rfl⟩ := openCached_eq_ok hopen
  have hnumber : ¬s.issued + 1 ≤ s.issued := Nat.not_succ_le_self _
  have hnone : s.queries[(⟨s.issued + 1⟩ : QueryId)]? = none := by
    cases hlive : s.queries[(⟨s.issued + 1⟩ : QueryId)]? with
    | none => rfl
    | some live => exact absurd (h.number _ live hlive) hnumber
  have hissue : Coherent trace { s with issued := s.issued + 2 } :=
    h.carries (.still (.refl s.store) rfl (Nat.le_add_right _ 2) rfl rfl)
  have hboard : Coherent trace ({ s with issued := s.issued + 2 }.setBoard graph
      ((s.board graph).subscribe (.query ⟨s.issued + 1⟩)).2) := by
    refine hissue.setBoard (Nat.le_succ _) ?_ ?_
    · intro subscription other hmem
      rcases List.mem_append.mp hmem with hmem | hmem
      · exact Or.inl hmem
      · obtain ⟨-, hother⟩ := Prod.mk.inj (List.mem_singleton.mp hmem)
        cases hother
        exact Or.inr ⟨Nat.le_succ _, hnone⟩
    · intro other live subscription _ _ _ _ hmem
      exact List.mem_append_left _ hmem
  refine hboard.insertQuery (Nat.le_succ _) ?_ ?_ ?_ ?_
  · intro other subscription hmem
    by_contra hother
    have hne : other ≠ graph := hother
    rw [board_setBoard, if_neg hne] at hmem
    exact hnumber (h.handlers other subscription _ hmem).issued
  · intro other event handlers htask hmem
    exact hnumber (h.deliveries other event handlers _ htask hmem).issued
  · intro other live' subscription hlive' hgraph' hsome' hsome
    obtain rfl := Option.some.inj hsome
    have hle := (h.upheld other live' hlive').issued _ hsome'
    rw [hgraph'] at hle
    exact Nat.not_succ_le_self _ hle
  · refine ⟨hgraph, ⟨query, hcompile⟩, fun _ _ => ⟨_, _, rfl, rfl⟩, ?_, ?_, ?_⟩
    · intro subscription hsome
      obtain rfl := Option.some.inj hsome
      simp [board_setBoard, LiveQuery.holding, Board.subscribe]
    · intro subscription hsome _
      obtain rfl := Option.some.inj hsome
      simp [board_setBoard, LiveQuery.holding, Board.subscribe]
    · intro subscription snapshot _ _ _ hsnapshot
      obtain rfl := Option.some.inj hsnapshot
      exact Or.inr hrows

theorem openObserver
    {observer : ObserverId}
    (h : Coherent trace s)
    (hgraph : graph.number ≤ s.store.graphCount)
    (hopen : s.openObserver graph query = .ok (observer, live, s')) :
    Coherent trace s' := by
  obtain ⟨id, s₁, rows, hcached, -, -, rfl⟩ := openObserver_eq_ok hopen
  have hissue : Coherent trace { s with issued := s.issued + 1 } :=
    h.carries (.still (.refl s.store) rfl (Nat.le_succ _) rfl rfl)
  exact (hissue.openCached hgraph hcached).carries
    (.still (.refl s₁.store) rfl (Nat.le_refl _) rfl rfl)

theorem destroyQuery (h : Coherent trace s) (id : QueryId) : Coherent trace (s.destroyQuery id) := by
  rw [Session.destroyQuery]
  cases hlive : s.queries[id]? with
  | none => exact h
  | some live =>
      have hdestroyed : Coherent trace (s.updateQuery id LiveQuery.destroy) := by
        refine h.updateQuery (fun _ => rfl) nofun fun live _ hupheld => ?_
        exact ⟨hupheld.graph, hupheld.compiled, nofun, nofun, nofun, nofun⟩
      cases hsubscription : live.subscription with
      | none =>
          simp only [hsubscription]
          exact hdestroyed
      | some subscription =>
          simp only [hsubscription]
          refine hdestroyed.unsubscribe fun other live' hlive' hgraph hsome => ?_
          -- the destroyed query has lost its subscription, and no other one had it
          rw [Session.updateQuery, getElem?_modify_eq] at hlive'
          split at hlive'
          · obtain ⟨former, -, rfl⟩ := Option.map_eq_some_iff.mp hlive'
            cases hsome
          · rename_i hne
            have heq := h.apart id other live live' subscription hlive hlive' hgraph.symm
              hsubscription hsome
            exact absurd heq.symm hne

theorem discardQuery (h : Coherent trace s) (id : QueryId) : Coherent trace (s.discardQuery id) :=
  (h.destroyQuery id).eraseQuery id

theorem destroyObserver (h : Coherent trace s) (id : ObserverId) :
    Coherent trace (s.destroyObserver id) := by
  rw [Session.destroyObserver]
  split
  · exact h
  · rename_i observer _
    exact (h.destroyQuery observer.query).carries (.still (.refl _) rfl (Nat.le_refl _) rfl rfl)

theorem discardObserver (h : Coherent trace s) (id : ObserverId) :
    Coherent trace (s.discardObserver id) := by
  rw [Session.discardObserver]
  split
  · exact h
  · exact h.discardQuery _

end Coherent

end Session

end PatternGraph
