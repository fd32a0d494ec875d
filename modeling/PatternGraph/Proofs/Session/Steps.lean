import PatternGraph.Proofs.Session.Plain
import PatternGraph.Proofs.Session.Queries

/-!
# Commands and steps keep sessions coherent

Plain commands and tasks carry a session forward.  The others open, refresh or destroy live queries,
replace the board of a graph, or bring an event closer to the live queries that are owed it.
-/

namespace PatternGraph

variable {ρ : Type}

namespace Session

variable {s : Session ρ}

theorem Carries.observe (s : Session ρ) (id : ObserverId) (query : CompiledQuery)
    (rows : List Row) : s.Carries (s.observe id query rows) := by
  unfold Session.observe
  split
  · exact .still (.refl s.store) rfl (Nat.le_refl _) rfl rfl
  · split
    · exact .still (.refl s.store) rfl (Nat.le_refl _) rfl rfl
    · dsimp only
      split
      · exact .still (.refl s.store) rfl (Nat.le_refl _) rfl rfl
      · exact .push (.refl s.store) rfl (by simp) (Nat.le_refl _) rfl rfl

namespace Coherent

variable {trace : List (Command ρ)}

theorem dropQuery (h : Coherent trace s) (name : String) : Coherent trace (s.dropQuery name) := by
  rw [Session.dropQuery]
  split
  · exact h
  · exact (h.discardQuery _).carries (.still (.refl _) rfl (Nat.le_refl _) rfl rfl)

theorem dropObserver (h : Coherent trace s) (name : String) :
    Coherent trace (s.dropObserver name) := by
  rw [Session.dropObserver]
  split
  · exact h
  · exact (h.discardObserver _).carries (.still (.refl _) rfl (Nat.le_refl _) rfl rfl)

theorem letGo (h : Coherent trace s) (name : String) (holding : Holding) :
    Coherent trace (s.letGo name holding) := by
  cases holding with
  | query => exact h.dropQuery name
  | observer => exact h.dropObserver name
  | node => exact h.carries (.still (.refl _) rfl (Nat.le_refl _) rfl rfl)
  | edge => exact h.carries (.still (.refl _) rfl (Nat.le_refl _) rfl rfl)
  | graph => exact h.carries (.still (.refl _) rfl (Nat.le_refl _) rfl rfl)
  | cursor => exact h.carries (.still (.refl _) rfl (Nat.le_refl _) rfl rfl)
  | compiled => exact h.carries (.still (.refl _) rfl (Nat.le_refl _) rfl rfl)

theorem subscribe (h : Coherent trace s) (as : String) (graph : GraphId) (on : Option Change)
    (item : Option String) (times : Nat) (steps : List ρ) :
    Coherent trace (s.subscribe as graph on item times steps) := by
  have hscript : Coherent trace (s.addScript ⟨as, times, 0, steps⟩).2 :=
    h.carries (.still (.refl s.store) rfl (Nat.le_succ _) rfl rfl)
  exact (hscript.subscribeScript graph _ on item).carries (.still (.refl _) rfl (Nat.le_refl _) rfl rfl)

theorem nameQuery
    {graph : GraphId}
    (h : Coherent trace s)
    (hgraph : graph.number ≤ s.store.graphCount)
    (as : String)
    (query : Query)
    (cached : Bool) :
    Coherent trace (s.nameQuery as graph query cached) := by
  unfold Session.nameQuery
  dsimp only
  split
  · exact h.carries (.still (.refl _) rfl (Nat.le_refl _) rfl rfl)
  · rename_i id live s' hopen
    have hopened : Coherent trace s' := by
      cases cached with
      | true => exact h.openCached hgraph hopen
      | false => exact h.openUncached hgraph hopen
    exact (hopened.dropQuery as).carries (.still (.refl _) rfl (Nat.le_refl _) rfl rfl)

theorem nameObserver
    {graph : GraphId}
    (h : Coherent trace s)
    (hgraph : graph.number ≤ s.store.graphCount)
    (as : String)
    (query : Query) :
    Coherent trace (s.nameObserver as graph query) := by
  rw [Session.nameObserver]
  split
  · exact h.carries (.still (.refl _) rfl (Nat.le_refl _) rfl rfl)
  · rename_i id live s' hopen
    exact ((h.openObserver hgraph hopen).dropObserver as).carries
      (.still (.refl _) rfl (Nat.le_refl _) rfl rfl)

theorem showSnapshot (h : Coherent trace s) (query : QueryId) :
    Coherent trace (s.showSnapshot query) := by
  rw [Session.showSnapshot]
  split
  · exact h.carries (.still (.refl _) rfl (Nat.le_refl _) rfl rfl)
  · rename_i snapshot _
    have hshown : Coherent trace
        (s.updateQuery query fun live => { live with shown := some snapshot.stamp }) := by
      refine h.updateQuery (fun _ => rfl) (fun _ _ hsome => hsome) fun live _ hupheld => ?_
      exact { hupheld with }
    exact hshown.carries (.still (.refl _) rfl (Nat.le_refl _) rfl rfl)

/-- Beginning a command keeps a session coherent with the trace that has the command as its latest. -/
theorem begin {c : Command ρ} (h : Coherent trace s) (hproper : c.Proper s) :
    Coherent (c :: trace) (s.begin c) := by
  have hlater := h.mono fun _ hc => List.mem_cons_of_mem c hc
  by_cases hplain : c.Plain
  · exact hlater.carries (Proceeds.begin s hplain).toCarries
  · cases c with
    | letGo holding name =>
        exact (hlater.letGo name holding).carries (.still (.refl _) rfl (Nat.le_refl _) rfl rfl)
    | subscribe as graph on item times steps =>
        exact hlater.subscribe as graph on item times steps
    | unsubscribe graph subscription =>
        have hended : Coherent (.unsubscribe graph subscription :: trace)
            (s.setBoard graph ((s.board graph).unsubscribe subscription)) :=
          hlater.unsubscribe fun _ _ _ _ _ => List.mem_cons_self
        exact hended.carries (.still (.refl _) rfl (Nat.le_refl _) rfl rfl)
    | openQuery as graph query cached => exact hlater.nameQuery hproper as query cached
    | destroyQuery query =>
        exact (hlater.destroyQuery query).carries (.still (.refl _) rfl (Nat.le_refl _) rfl rfl)
    | snapshot query => exact hlater.showSnapshot query
    | observe as graph query => exact hlater.nameObserver hproper as query
    | listen as observer on times steps =>
        exact hlater.carries (.still (.refl s.store) rfl (Nat.le_succ _) rfl rfl)
    | drain observer change =>
        rw [Session.begin, drain]
        split
        · exact hlater.carries (.still (.refl s.store) rfl (Nat.le_refl _) rfl rfl)
        · exact hlater.carries (.still (.refl s.store) rfl (Nat.le_refl _) rfl rfl)
    | destroyObserver observer =>
        exact (hlater.destroyObserver observer).carries
          (.still (.refl _) rfl (Nat.le_refl _) rfl rfl)
    | _ => exact absurd trivial hplain

theorem issueRequest
    {interpret : Interpreter ρ}
    {request : ρ}
    (h : Coherent trace s)
    (hproper : ∀ c ∈ interpret.reads s.names request, c.Proper s) :
    Coherent (interpret.reads s.names request ++ trace) (s.issueRequest interpret request) := by
  rw [Session.issueRequest, Interpreter.reads]
  rw [Interpreter.reads] at hproper
  split
  · rename_i refusal hread
    rw [hread]
    exact h.carries (.still (.refl _) rfl (Nat.le_refl _) rfl rfl)
  · rename_i c hread
    rw [hread] at hproper ⊢
    exact h.begin (hproper c (List.mem_singleton_self c))

/-- Other tasks that keep all promises: every event that is relevant stays owed, or is settled. -/
theorem retask
    {tasks : List (Task ρ)}
    (h : Coherent trace s)
    (hdeliveries : ∀ graph event handlers id, .deliver graph event handlers ∈ tasks →
      .query id ∈ handlers → s.Serves graph id)
    (howes : ∀ (id : QueryId) (live : LiveQuery) (subscription : Nat) (event : Event),
      s.queries[id]? = some live → live.active = true →
        (subscription, .query id) ∈ (s.board live.graph).handlers → s.Owes live.graph id event →
          live.query.slots.isRelevant event.item = true →
            ({ s with tasks := tasks } : Session ρ).Owes live.graph id event ∨
              ∀ snapshot, live.snapshot = some snapshot →
                s.collect live.query live.graph = .ok snapshot.rows) :
    Coherent trace { s with tasks := tasks } := by
  refine ⟨h.sound, h.number, fun graph subscription id hmem => ?_, fun graph event handlers id htask
    hid => ?_, h.apart, fun id live hlive => ?_⟩
  · have hserves := h.handlers graph subscription id hmem
    exact { hserves with }
  · have hserves := hdeliveries graph event handlers id htask hid
    exact { hserves with }
  · have hupheld := h.upheld id live hlive
    refine ⟨hupheld.graph, hupheld.compiled, hupheld.held, hupheld.issued, hupheld.listed, ?_⟩
    intro subscription snapshot hactive hsome hmem hsnapshot
    rcases hupheld.fresh subscription snapshot hactive hsome hmem hsnapshot with
      ⟨event, howed, hrelevant⟩ | hrows
    · rcases howes id live subscription event hlive hactive hmem howed hrelevant with hstill | hrows
      · exact Or.inl ⟨event, hstill, hrelevant⟩
      · exact Or.inr (hrows snapshot hsnapshot)
    · exact Or.inr hrows

/-- An event is about to be delivered to all that are listed at that moment. -/
theorem dispatch
    {graph : GraphId}
    {event : Event}
    {events : List Event}
    {rest : List (Task ρ)}
    (h : Coherent trace s)
    (htasks : s.tasks = .dispatch graph (event :: events) :: rest) :
    Coherent trace
      { s with
        tasks := .deliver graph event ((s.board graph).handlers.map Prod.snd) ::
          .dispatch graph events :: rest } := by
  refine h.retask ?_ ?_
  · intro other event' handlers id htask hid
    rcases List.mem_cons.mp htask with heq | htask
    · cases heq
      obtain ⟨⟨subscription, handler⟩, hmem, rfl⟩ := List.mem_map.mp hid
      exact h.handlers graph subscription id hmem
    · rcases List.mem_cons.mp htask with heq | htask
      · cases heq
      · exact h.deliveries other event' handlers id (htasks ▸ List.mem_cons_of_mem _ htask) hid
  · rintro id live subscription event' hlive hactive hmem ⟨task, htask, howes⟩ hrelevant
    left
    rw [htasks] at htask
    rcases List.mem_cons.mp htask with rfl | htask
    · obtain ⟨hgraph, hevent⟩ := howes
      subst hgraph
      rcases List.mem_cons.mp hevent with rfl | hevent
      · exact ⟨_, List.mem_cons_self, rfl, rfl, List.mem_map.mpr ⟨_, hmem, rfl⟩⟩
      · exact ⟨_, List.mem_cons_of_mem _ List.mem_cons_self, rfl, hevent⟩
    · exact ⟨task, List.mem_cons_of_mem _ (List.mem_cons_of_mem _ htask), howes⟩

/-- A delivery has come to a handler, by which the event is settled if the handler is a live query. -/
theorem deliver
    {graph : GraphId}
    {event : Event}
    {handler : Handler}
    {handlers : List Handler}
    {rest : List (Task ρ)}
    (h : Coherent trace s)
    (htasks : s.tasks = .deliver graph event (handler :: handlers) :: rest)
    (hsettled : ∀ (id : QueryId) (live : LiveQuery), handler = .query id →
      s.queries[id]? = some live → live.active = true →
        live.query.slots.isRelevant event.item = true →
          ∀ snapshot, live.snapshot = some snapshot →
            s.collect live.query live.graph = .ok snapshot.rows) :
    Coherent trace { s with tasks := .deliver graph event handlers :: rest } := by
  refine h.retask ?_ ?_
  · intro other event' handlers' id htask hid
    rcases List.mem_cons.mp htask with heq | htask
    · cases heq
      refine h.deliveries graph event (handler :: handlers) id ?_ (List.mem_cons_of_mem _ hid)
      rw [htasks]
      exact List.mem_cons_self
    · exact h.deliveries other event' handlers' id (htasks ▸ List.mem_cons_of_mem _ htask) hid
  · rintro id live subscription event' hlive hactive hmem ⟨task, htask, howes⟩ hrelevant
    rw [htasks] at htask
    rcases List.mem_cons.mp htask with rfl | htask
    · obtain ⟨hgraph, rfl, hid⟩ := howes
      rcases List.mem_cons.mp hid with heq | hid
      · exact Or.inr (hsettled id live heq.symm hlive hactive hrelevant)
      · exact Or.inl ⟨_, List.mem_cons_self, hgraph, rfl, hid⟩
    · exact Or.inl ⟨task, List.mem_cons_of_mem _ htask, howes⟩

/-- A live query is refreshed by a delivery, which leaves it fresh. -/
theorem refresh
    {graph : GraphId}
    {event : Event}
    {id : QueryId}
    {handlers : List Handler}
    {rest : List (Task ρ)}
    (h : Coherent trace s)
    (htasks : s.tasks = .deliver graph event (.query id :: handlers) :: rest) :
    Coherent trace
      (({ s with tasks := .deliver graph event handlers :: rest } : Session ρ).refresh graph event
        id) := by
  rw [Session.refresh]
  dsimp only
  cases hlive : s.queries[id]? with
  | none =>
      refine h.deliver htasks fun other live heq hother => ?_
      cases heq
      rw [hlive] at hother
      cases hother
  | some live =>
      dsimp only
      split
      · rename_i hconcerns
        rw [LiveQuery.concerns, Bool.and_eq_true] at hconcerns
        have hupheld := h.upheld id live hlive
        have hgraph : live.graph = graph :=
          (h.deliveries graph event _ id (htasks ▸ List.mem_cons_self) List.mem_cons_self).graph live
            hlive
        obtain ⟨g, hg⟩ := h.sound graph
        obtain ⟨rows, hrows⟩ := CompiledQuery.exists_collect hupheld.compiled hg
        let refreshed (live : LiveQuery) : LiveQuery :=
          { live with snapshot := some ⟨s.issued + 1, rows⟩ }
        have hrefreshed : Coherent trace (s.updateQuery id refreshed) := by
          refine h.updateQuery (fun _ => rfl) (fun _ _ hsome => hsome) fun live' hlive' hupheld' => ?_
          obtain rfl : live = live' := by simpa [hlive] using hlive'
          refine ⟨hupheld.graph, hupheld.compiled, fun hcached hactive => ?_, hupheld.issued,
            hupheld.listed, ?_⟩
          · obtain ⟨-, subscription, -, hsome⟩ := hupheld.held hcached hactive
            exact ⟨_, subscription, rfl, hsome⟩
          · intro subscription snapshot _ _ _ hsnapshot
            obtain rfl := Option.some.inj hsnapshot
            right
            rw [show (refreshed live).graph = graph from hgraph]
            exact hrows
        have hdelivered : Coherent trace
            { s.updateQuery id refreshed with tasks := .deliver graph event handlers :: rest } := by
          refine hrefreshed.deliver htasks fun other live' heq hother _ _ snapshot hsnapshot => ?_
          cases heq
          obtain rfl : refreshed live = live' := by
            simpa [Session.updateQuery, hlive] using hother
          obtain rfl := Option.some.inj hsnapshot
          rw [show (refreshed live).graph = graph from hgraph]
          exact hrows
        have hcollect : ({ s with tasks := .deliver graph event handlers :: rest } :
            Session ρ).collect live.query graph = .ok rows := hrows
        rw [hcollect]
        dsimp only
        have hissued : Coherent trace
            { s.updateQuery id refreshed with
              tasks := .deliver graph event handlers :: rest, issued := s.issued + 1 } :=
          hdelivered.carries (.still (.refl s.store) rfl (Nat.le_succ s.issued) rfl rfl)
        split
        · exact hissued
        · exact hissued.carries (.observe _ _ _ _)
      · rename_i hconcerns
        refine h.deliver htasks fun other live' heq hother hactive hrelevant => ?_
        cases heq
        obtain rfl : live = live' := by simpa [hlive] using hother
        exact absurd (by simp [LiveQuery.concerns, hactive, hrelevant]) hconcerns

/-- Doing a part of the topmost task keeps a session coherent. -/
theorem perform
    {interpret : Interpreter ρ}
    {task : Task ρ}
    {rest : List (Task ρ)}
    (h : Coherent trace s)
    (htasks : s.tasks = task :: rest)
    (hproper : ∀ c ∈ s.upcoming interpret, c.Proper s) :
    Coherent (s.upcoming interpret ++ trace)
      (({ s with tasks := rest } : Session ρ).perform interpret task) := by
  have hlater := h.mono fun c hc => List.mem_append_right (s.upcoming interpret) hc
  by_cases hplain : task.Plain
  · exact hlater.carries (Proceeds.perform htasks hplain).toCarries
  · cases task with
    | dispatch graph events =>
        cases events with
        | nil => exact hlater.carries (.take htasks fun _ _ _ howes => List.not_mem_nil howes.2)
        | cons event events => exact hlater.dispatch htasks
    | deliver graph event handlers =>
        cases handlers with
        | nil => exact hlater.carries (.take htasks fun _ _ _ howes => List.not_mem_nil howes.2.2)
        | cons handler handlers =>
            cases handler with
            | query id => exact hlater.refresh htasks
            | script id on item =>
                exact (hlater.deliver htasks nofun).carries
                  (Proceeds.tellScript _ graph event id on item).toCarries
    | script label requests =>
        cases requests with
        | nil => exact hlater.carries (.take htasks fun _ _ _ => id)
        | cons request requests =>
            rw [upcoming_of_script htasks] at hproper ⊢
            have hrest : Coherent trace (({ s with tasks := rest } : Session ρ).push
                [.record label, .script label requests]) :=
              (h.carries (.take htasks fun _ _ _ => id)).carries (.pushTasks _ (by simp))
            exact hrest.issueRequest hproper
    | _ => exact absurd trivial hplain

theorem step
    {interpret : Interpreter ρ}
    (h : Coherent trace s)
    (hproper : ∀ c ∈ s.upcoming interpret, c.Proper s) :
    Coherent (s.upcoming interpret ++ trace) (s.step interpret) := by
  rw [Session.step]
  cases htasks : s.tasks with
  | nil => exact h.mono fun c hc => List.mem_append_right _ hc
  | cons task rest => exact (h.perform htasks hproper).release

end Coherent

/-- Every reachable session is coherent. -/
theorem Reaches.coherent {trace : List (Command ρ)} (h : Reaches trace s) : Coherent trace s := by
  induction h with
  | empty => exact .empty
  | @request trace s interpret request h hproper ih =>
      have hcleared : Coherent trace { s with log := [] } :=
        ih.carries (.still (.refl _) rfl (Nat.le_refl _) rfl rfl)
      exact (hcleared.issueRequest hproper).release
  | step interpret h hproper ih => exact ih.step hproper

end Session

end PatternGraph
