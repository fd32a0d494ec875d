import PatternGraph.Proofs.Session.Listings
import PatternGraph.Proofs.Session.Tending

/-!
# Live queries on boards

Whoever is listed as a live query on the board of a graph is a live query of that graph, and is listed
under the number that it knows as its subscription.  So the board forgets a live query when its
subscription is ended.
-/

namespace PatternGraph

variable {ρ : Type}

namespace Session

variable {s s' : Session ρ} {begun : List (Command ρ)} {past : List (Stage ρ)}

/-- Whether all live queries on boards are there under the subscriptions that they know. -/
def Subscribed (s : Session ρ) : Prop :=
  ∀ (graph : GraphId) (subscription : Nat) (id : QueryId),
    (subscription, .query id) ∈ (s.board graph).handlers →
      ∃ live, s.queries[id]? = some live ∧ live.graph = graph ∧
        live.subscription = some subscription

namespace Subscribed

theorem empty : Subscribed (Session.empty : Session ρ) := by
  intro graph subscription id hmem
  rw [board, Session.empty, Std.ExtTreeMap.getD_empty] at hmem
  cases hmem

/-- The boards list no further live queries, and live queries keep their subscriptions. -/
theorem keeps
    (h : s.Subscribed)
    (hboards : ∀ graph subscription id, (subscription, .query id) ∈ (s'.board graph).handlers →
      (subscription, .query id) ∈ (s.board graph).handlers)
    (hqueries : ∀ (id : QueryId) (live : LiveQuery), s.queries[id]? = some live →
      ∃ live', s'.queries[id]? = some live' ∧ live'.graph = live.graph ∧
        live'.subscription = live.subscription) :
    s'.Subscribed := by
  intro graph subscription id hmem
  obtain ⟨live, hlive, hgraph, hsome⟩ := h graph subscription id (hboards graph subscription id hmem)
  obtain ⟨live', hlive', hgraph', hsome'⟩ := hqueries id live hlive
  exact ⟨live', hlive', hgraph'.trans hgraph, hsome'.trans hsome⟩

theorem same (h : s.Subscribed) (hboards : s'.boards = s.boards) (hqueries : s'.queries = s.queries) :
    s'.Subscribed := by
  refine h.keeps (fun graph subscription id hmem => ?_) fun id live hlive =>
    ⟨live, hqueries ▸ hlive, rfl, rfl⟩
  rwa [board, hboards] at hmem

theorem proceeds (h : s.Subscribed) (hproceeds : s.Proceeds s') : s'.Subscribed :=
  h.same hproceeds.boards hproceeds.queries

theorem updateQuery
    {change : LiveQuery → LiveQuery}
    (h : s.Subscribed)
    (id : QueryId)
    (hgraph : ∀ live, (change live).graph = live.graph)
    (hsubscription : ∀ live, (change live).subscription = live.subscription) :
    (s.updateQuery id change).Subscribed := by
  refine h.keeps (fun _ _ _ hmem => hmem) fun other live hlive => ?_
  rw [getElem?_updateQuery, hlive]
  split
  · exact ⟨_, rfl, hgraph live, hsubscription live⟩
  · exact ⟨live, rfl, rfl, rfl⟩

theorem unsubscribe (h : s.Subscribed) (graph : GraphId) (subscription : Nat) :
    (s.setBoard graph ((s.board graph).unsubscribe subscription)).Subscribed := by
  refine h.keeps (fun other number id hmem => ?_) fun id live hlive => ⟨live, hlive, rfl, rfl⟩
  rw [Coherent.board_setBoard] at hmem
  split at hmem
  · rename_i hother
    exact hother ▸ List.mem_of_mem_filter hmem
  · exact hmem

theorem subscribeScript
    (h : s.Subscribed)
    (graph : GraphId)
    (id : ScriptId)
    (on : Option Change)
    (item : Option String) :
    (s.setBoard graph ((s.board graph).subscribe (.script id on item)).2).Subscribed := by
  refine h.keeps (fun other number query hmem => ?_) fun query live hlive => ⟨live, hlive, rfl, rfl⟩
  rw [Coherent.board_setBoard] at hmem
  split at hmem
  · rename_i hother
    rcases List.mem_append.mp hmem with hmem | hmem
    · exact hother ▸ hmem
    · cases List.mem_singleton.mp hmem
  · exact hmem

/-- A live query that is destroyed leaves its board. -/
theorem destroyQuery (h : s.Subscribed) (id : QueryId) : (s.destroyQuery id).Subscribed := by
  intro graph subscription other hmem
  rw [Session.destroyQuery] at hmem
  have hlisted : (subscription, .query other) ∈ (s.board graph).handlers ∧
      ∀ live, s.queries[id]? = some live → live.graph = graph →
        live.subscription ≠ some subscription := by
    cases hlive : s.queries[id]? with
    | none =>
        rw [hlive] at hmem
        exact ⟨hmem, fun live hlive => by cases hlive⟩
    | some live =>
        rw [hlive] at hmem
        dsimp only at hmem
        cases hknown : live.subscription with
        | none =>
            rw [hknown] at hmem
            refine ⟨hmem, fun live' hlive' _ => ?_⟩
            obtain rfl := Option.some.inj hlive'
            rw [hknown]
            simp
        | some number =>
            rw [hknown] at hmem
            dsimp only at hmem
            rw [Coherent.board_setBoard] at hmem
            split at hmem
            · rename_i hgraph
              subst hgraph
              obtain ⟨hmem, hne⟩ := List.mem_filter.mp hmem
              refine ⟨hmem, fun live' hlive' _ hsome => ?_⟩
              obtain rfl := Option.some.inj hlive'
              rw [hknown, Option.some.injEq] at hsome
              simp [hsome] at hne
            · rename_i hgraph
              refine ⟨hmem, fun live' hlive' hsame => ?_⟩
              obtain rfl := Option.some.inj hlive'
              exact absurd hsame.symm hgraph
  obtain ⟨live, hlive, hgraph, hsome⟩ := h graph subscription other hlisted.1
  refine ⟨live, ?_, hgraph, hsome⟩
  rw [getElem?_destroyQuery, if_neg, hlive]
  rintro rfl
  exact hlisted.2 live hlive hgraph hsome

theorem discardQuery (h : s.Subscribed) (id : QueryId) : (s.discardQuery id).Subscribed := by
  intro graph subscription other hmem
  have hdestroyed := h.destroyQuery id
  obtain ⟨live, hlive, hgraph, hsome⟩ := hdestroyed graph subscription other hmem
  refine ⟨live, ?_, hgraph, hsome⟩
  rw [getElem?_destroyQuery] at hlive
  rw [getElem?_discardQuery]
  split at hlive
  · -- a destroyed live query has no subscription
    obtain ⟨former, -, rfl⟩ := Option.map_eq_some_iff.mp hlive
    cases hsome
  · rename_i hother
    rw [if_neg hother]
    exact hlive

theorem dropQuery (h : s.Subscribed) (name : String) : (s.dropQuery name).Subscribed := by
  rw [Session.dropQuery]
  split
  · exact h
  · exact (h.discardQuery _).same rfl rfl

theorem discardObserver (h : s.Subscribed) (id : ObserverId) : (s.discardObserver id).Subscribed := by
  rw [Session.discardObserver]
  split
  · exact h
  · exact h.discardQuery _

theorem dropObserver (h : s.Subscribed) (name : String) : (s.dropObserver name).Subscribed := by
  rw [Session.dropObserver]
  split
  · exact h
  · exact (h.discardObserver _).same rfl rfl

theorem letGo (h : s.Subscribed) (name : String) (holding : Holding) :
    (s.letGo name holding).Subscribed := by
  cases holding with
  | query => exact h.dropQuery name
  | observer => exact h.dropObserver name
  | _ => exact h.same rfl rfl

section Opening

variable {graph : GraphId} {query : Query} {id : QueryId} {live : LiveQuery}

/-- A live query that has a new number. -/
theorem insertQuery
    (h : s.Subscribed)
    (hnone : s.queries[id]? = none)
    (hqueries : s'.queries = s.queries.insert id live)
    (hboards : ∀ graph subscription other,
      (subscription, .query other) ∈ (s'.board graph).handlers →
        (subscription, .query other) ∈ (s.board graph).handlers ∨
          other = id ∧ graph = live.graph ∧ live.subscription = some subscription) :
    s'.Subscribed := by
  intro graph subscription other hmem
  rw [hqueries]
  rcases hboards graph subscription other hmem with hmem | ⟨rfl, hgraph, hsome⟩
  · obtain ⟨former, hformer, hgraph, hsome⟩ := h graph subscription other hmem
    refine ⟨former, ?_, hgraph, hsome⟩
    rw [getElem?_insert_eq, if_neg]
    · exact hformer
    · rintro rfl
      rw [hnone] at hformer
      cases hformer
  · exact ⟨live, Std.ExtTreeMap.getElem?_insert_self, hgraph.symm, hsome⟩

theorem openUncached
    (h : s.Subscribed)
    (hmirrored : s.Mirrored)
    (hopen : s.openUncached graph query = .ok (id, live, s')) :
    s'.Subscribed := by
  obtain ⟨compiled, -, rfl, rfl, rfl⟩ := openUncached_eq_ok hopen
  exact h.insertQuery (hmirrored.query_eq_none (Nat.lt_succ_self _)) rfl fun _ _ _ => Or.inl

theorem openCached
    {observer : Option ObserverId}
    (h : s.Subscribed)
    (hmirrored : s.Mirrored)
    (hopen : s.openCached graph query observer = .ok (id, live, s')) :
    s'.Subscribed := by
  obtain ⟨compiled, rows, -, -, rfl, rfl, rfl⟩ := openCached_eq_ok hopen
  refine h.insertQuery (hmirrored.query_eq_none (Nat.lt_succ_self _)) rfl
    fun other subscription query' hmem => ?_
  have hmem : (subscription, .query query') ∈ ((s.setBoard graph
      ((s.board graph).subscribe (.query ⟨s.issued + 1⟩)).2).board other).handlers := hmem
  rw [Coherent.board_setBoard] at hmem
  split at hmem
  · rename_i hother
    rcases List.mem_append.mp hmem with hmem | hmem
    · exact Or.inl (hother ▸ hmem)
    · obtain ⟨rfl, hquery⟩ := Prod.mk.inj (List.mem_singleton.mp hmem)
      cases hquery
      exact Or.inr ⟨rfl, hother, rfl⟩
  · exact Or.inl hmem

theorem nameQuery (h : s.Subscribed) (hmirrored : s.Mirrored) (as : String) (graph : GraphId)
    (query : Query) (cached : Bool) : (s.nameQuery as graph query cached).Subscribed := by
  unfold Session.nameQuery
  dsimp only
  split
  · exact h.same rfl rfl
  · rename_i id live s' hopen
    have hopened : s'.Subscribed := by
      cases cached with
      | true => exact h.openCached hmirrored hopen
      | false => exact h.openUncached hmirrored hopen
    exact (hopened.dropQuery as).same rfl rfl

theorem nameObserver (h : s.Subscribed) (hmirrored : s.Mirrored) (as : String) (graph : GraphId)
    (query : Query) : (s.nameObserver as graph query).Subscribed := by
  rw [Session.nameObserver]
  split
  · exact h.same rfl rfl
  · rename_i observer live s' hopen
    obtain ⟨id, s₁, rows, hcached, -, -, rfl⟩ := openObserver_eq_ok hopen
    have hissued : Subscribed { s with issued := s.issued + 1 } := h.same rfl rfl
    have hopened := hissued.openCached (hmirrored.same (Nat.le_succ _) rfl rfl rfl rfl) hcached
    have hshown : Subscribed { s₁ with observers := s₁.observers.insert observer (.ofRows id rows) } :=
      hopened.same rfl rfl
    exact (hshown.dropObserver as).same rfl rfl

end Opening

theorem refresh (h : s.Subscribed) (graph : GraphId) (event : Event) (id : QueryId) :
    (s.refresh graph event id).Subscribed := by
  unfold Session.refresh
  split
  · exact h
  · split
    · split
      · exact h
      · rename_i live _ _ _ rows _
        have hissued : Subscribed { s with issued := s.issued + 1 } := h.same rfl rfl
        have hrefreshed : (({ s with issued := s.issued + 1 } : Session ρ).updateQuery id fun live =>
            { live with snapshot := some ⟨s.issued + 1, rows⟩ }).Subscribed :=
          hissued.updateQuery id (fun _ => rfl) fun _ => rfl
        dsimp only
        split
        · exact hrefreshed
        · rename_i observer _
          exact hrefreshed.same (Carries.observe _ observer live.query rows).boards
            (observe_spares _ observer live.query rows).2.1
    · exact h

theorem begin (h : s.Subscribed) (hmirrored : s.Mirrored) (c : Command ρ) :
    (s.begin c).Subscribed := by
  by_cases hplain : c.Plain
  · exact h.proceeds (Proceeds.begin s hplain)
  · cases c with
    | letGo holding name => exact (h.letGo name holding).same rfl rfl
    | subscribe as graph on item times steps =>
        have hscript : Subscribed (s.addScript ⟨as, times, 0, steps⟩).2 := h.same rfl rfl
        exact (hscript.subscribeScript graph ⟨s.issued + 1⟩ on item).same rfl rfl
    | unsubscribe graph subscription => exact (h.unsubscribe graph subscription).same rfl rfl
    | openQuery as graph query cached => exact h.nameQuery hmirrored as graph query cached
    | destroyQuery query => exact (h.destroyQuery query).same rfl rfl
    | snapshot query =>
        rw [Session.begin, showSnapshot]
        split
        · exact h.same rfl rfl
        · rename_i snapshot _
          have hshown : (s.updateQuery query fun live =>
              { live with shown := some snapshot.stamp }).Subscribed :=
            h.updateQuery query (fun _ => rfl) fun _ => rfl
          exact hshown.same rfl rfl
    | observe as graph query => exact h.nameObserver hmirrored as graph query
    | listen as observer on times steps => exact h.same rfl rfl
    | drain observer change =>
        rw [Session.begin, drain]
        split
        · exact h.same rfl rfl
        · exact h.same rfl rfl
    | destroyObserver observer =>
        rw [Session.begin, destroyObserver]
        split
        · exact h.same rfl rfl
        · exact (h.destroyQuery _).same rfl rfl
    | _ => exact absurd trivial hplain

theorem issueRequest (h : s.Subscribed) (hmirrored : s.Mirrored) (interpret : Interpreter ρ)
    (request : ρ) : (s.issueRequest interpret request).Subscribed := by
  rcases issueRequest_cases interpret s request with ⟨refusal, heq⟩ | ⟨c, -, heq⟩
  · rw [heq]
    exact h.same rfl rfl
  · rw [heq]
    exact h.begin hmirrored c

theorem perform
    {interpret : Interpreter ρ}
    {task : Task ρ}
    {rest : List (Task ρ)}
    (h : s.Subscribed)
    (hmirrored : s.Mirrored)
    (htasks : s.tasks = task :: rest) :
    (({ s with tasks := rest } : Session ρ).perform interpret task).Subscribed := by
  have htaken : ∀ tasks, Subscribed { s with tasks := tasks } := fun _ => h.same rfl rfl
  by_cases hplain : task.Plain
  · exact h.proceeds (Proceeds.perform htasks hplain)
  · cases task with
    | dispatch graph events =>
        cases events with
        | nil => exact htaken rest
        | cons event events => exact htaken _
    | deliver graph event handlers =>
        cases handlers with
        | nil => exact htaken rest
        | cons handler handlers =>
            cases handler with
            | query id => exact (htaken _).refresh graph event id
            | script id on item =>
                exact (htaken _).proceeds (Proceeds.tellScript _ graph event id on item)
    | script label requests =>
        cases requests with
        | nil => exact htaken rest
        | cons request requests =>
            have hpushed := htaken (.record label :: .script label requests :: rest)
            exact hpushed.issueRequest (hmirrored.same (Nat.le_refl _) rfl rfl rfl rfl) interpret request
    | _ => exact absurd trivial hplain

theorem release (h : s.Subscribed) : s.release.Subscribed := by
  obtain ⟨observers, holdsEdge, heq, -⟩ := s.release_eq
  rw [heq]
  exact h.same rfl rfl

theorem turn (h : s.Subscribed) (hmirrored : s.Mirrored) (hturn : s.Turn begun s') :
    s'.Subscribed := by
  cases hturn with
  | request interpret request hidle hproper =>
      have hcleared : Subscribed { s with log := [] } := h.same rfl rfl
      exact (hcleared.issueRequest (hmirrored.same (Nat.le_refl _) rfl rfl rfl rfl) interpret
        request).release
  | step interpret hproper =>
      rw [Session.step]
      split
      · exact h
      · rename_i task rest htasks
        exact (h.perform hmirrored htasks).release

end Subscribed

theorem Course.subscribed (h : Course .empty past s) : s.Subscribed := by
  induction h with
  | refl => exact .empty
  | turn h hturn ih => exact ih.turn h.mirrored hturn

end Session

end PatternGraph
