import PatternGraph.Proofs.Session.MirrorSteps
import PatternGraph.Proofs.Session.Steps

/-!
# Live queries are fresh whenever nothing is in progress

However the subscribers of graphs and the listeners of observers interfere, a live query that holds
its rows holds those of its graph as it is now once all tasks are done, and so does an observer.
-/

namespace PatternGraph

variable {ρ : Type}

/-- Whether nobody has ended the subscription of a live query by its number. -/
def LiveQuery.Undisturbed (trace : List (Command ρ)) (live : LiveQuery) : Prop :=
  ∀ subscription, live.subscription = some subscription →
    .unsubscribe live.graph subscription ∉ trace

theorem LiveQuery.undisturbed
    {trace : List (Command ρ)}
    (h : ∀ graph subscription, .unsubscribe graph subscription ∉ trace)
    (live : LiveQuery) :
    live.Undisturbed trace :=
  fun subscription _ => h live.graph subscription

namespace Session

variable {trace : List (Command ρ)} {s : Session ρ}

/-- Whether a live query holds rows, and these are the rows that its graph has now. -/
structure Shows (s : Session ρ) (live : LiveQuery) (rows : List Row) : Prop where
  held : live.snapshot.map Snapshot.rows = some rows
  current : s.collect live.query live.graph = .ok rows

/-- When nothing is in progress, no event is owed. -/
theorem not_owes_of_idle (hidle : s.idle = true) (graph : GraphId) (id : QueryId) (event : Event) :
    ¬s.Owes graph id event := by
  rintro ⟨task, htask, -⟩
  rw [List.isEmpty_iff.mp hidle] at htask
  cases htask

theorem Coherent.shows
    {id : QueryId}
    {live : LiveQuery}
    (h : Coherent trace s)
    (hidle : s.idle = true)
    (hlive : s.queries[id]? = some live)
    (hcached : live.cached = true)
    (hactive : live.active = true)
    (hundisturbed : live.Undisturbed trace) :
    ∃ rows, s.Shows live rows := by
  have hupheld := h.upheld id live hlive
  obtain ⟨snapshot, subscription, hsnapshot, hsome⟩ := hupheld.held hcached hactive
  have hlisted := hupheld.listed subscription hsome (hundisturbed subscription hsome)
  refine ⟨snapshot.rows, by rw [hsnapshot, Option.map_some], ?_⟩
  rcases hupheld.fresh subscription snapshot hactive hsome hlisted hsnapshot with
    ⟨event, howed, -⟩ | hcurrent
  · exact absurd howed (not_owes_of_idle hidle live.graph id event)
  · exact hcurrent

/--
Whenever nothing is in progress, every live query that is to hold its rows, is not destroyed and has
not lost its subscription holds the rows that its graph has now, and every observer that a client
holds shows the rows of such a live query until it is destroyed.
-/
theorem Reaches.fresh_when_idle
    (h : Reaches trace s)
    (hidle : s.idle = true) :
    (∀ (id : QueryId) (live : LiveQuery), s.queries[id]? = some live → live.cached = true →
      live.active = true → live.Undisturbed trace → ∃ rows, s.Shows live rows) ∧
    ∀ (name : String) (id : ObserverId), s.names.observers[name]? = some id →
      ∃ observer live, s.observers[id]? = some observer ∧
        s.queries[observer.query]? = some live ∧
        (observer.destroyed = false → live.Undisturbed trace →
          ∃ rows, s.Shows live rows ∧ s.respond (.results id) = .ok (.rows rows)) := by
  have hcoherent := h.coherent
  have hmirrored := h.mirrored
  refine ⟨fun id live hlive hcached hactive hundisturbed =>
    hcoherent.shows hidle hlive hcached hactive hundisturbed, fun name id hname => ?_⟩
  obtain ⟨observer, live, hobserver, hlive⟩ := hmirrored.named name id hname
  refine ⟨observer, live, hobserver, hlive, fun hdestroyed hundisturbed => ?_⟩
  obtain ⟨hknown, hsame, hretained⟩ := hmirrored.mirrors id observer live hobserver hlive
  have hactive : live.active = true := by
    rw [hsame, hdestroyed]
    rfl
  have hcached := ((hmirrored.number observer.query live hlive).2 id hknown).2
  obtain ⟨rows, hshows⟩ := hcoherent.shows hidle hlive hcached hactive hundisturbed
  refine ⟨rows, hshows, ?_⟩
  obtain rfl := Option.some.inj ((hretained hactive).symm.trans hshows.held)
  rw [respond, withObserver, hobserver]

/-- A graph with an observer, to which a node is added, upon which a subscriber adds another one. -/
theorem fresh_after_reentry :
    ∃ (trace : List (Command Unit)) (s : Session Unit) (observer : Observer) (live : LiveQuery)
      (rows : List Row), Reaches trace s ∧ s.idle = true ∧
        s.observers[(⟨1⟩ : ObserverId)]? = some observer ∧ observer.destroyed = false ∧
        s.queries[observer.query]? = some live ∧ live.Undisturbed trace ∧ rows.length = 2 ∧
        s.Shows live rows ∧ s.respond (.results ⟨1⟩) = .ok (.rows rows) := by
  have hgraph : Reaches [.createGraph "g"] _ := (Reaches.empty : Reaches [] _).begun () trivial
  have hobserve : Reaches (.observe "o" ⟨1⟩ (.single (.nodeType (.root .node))) :: _) _ :=
    hgraph.begun () (Nat.le_refl 1)
  have hsubscribe : Reaches (.subscribe "s" ⟨1⟩ (some .added) none 1 [()] :: _) _ :=
    hobserve.begun () trivial
  have hfirst : Reaches (.createNode "a" (.root .node) .null :: _) _ := hsubscribe.begun () trivial
  have hsecond : Reaches (.createNode "b" (.root .node) .null :: _) _ := hfirst.begun () trivial
  have hadd : Reaches (.addNode ⟨1⟩ ⟨⟨1⟩, .root .node⟩ :: _) _ := hsecond.begun () trivial
  let reentrant : Interpreter Unit := fun _ _ => .ok (.addNode ⟨1⟩ ⟨⟨2⟩, .root .node⟩)
  have hreads : ∀ names request, ∀ c ∈ reentrant.reads names request,
      c = .addNode ⟨1⟩ ⟨⟨2⟩, .root .node⟩ := fun _ _ c hc => List.mem_singleton.mp hc
  have hproper : ∀ trace s, Reaches trace s →
      ∀ request, ∀ c ∈ reentrant.reads s.names request, c.Proper s := by
    intro trace s _ request c hc
    rw [hreads s.names request c hc]
    trivial
  obtain ⟨later, hlater, hrun⟩ := hadd.run hproper 40
  generalize htrace : later ++ _ = trace at hrun
  obtain ⟨observer, live, hobserver, hlive, hshows⟩ :=
    (hrun.fresh_when_idle (by decide +kernel)).2 "o" ⟨1⟩ (by decide +kernel)
  have hholds : ((fun observer => (observer.destroyed, observer.retained.length)) <$> some observer) =
      some (false, 2) := by
    rw [← hobserver]
    decide +kernel
  obtain ⟨hdestroyed, hlength⟩ := Prod.mk.inj (Option.some.inj hholds)
  have hundisturbed : live.Undisturbed trace := by
    refine live.undisturbed fun graph subscription hmem => ?_
    rw [← htrace] at hmem
    rcases List.mem_append.mp hmem with hmem | hmem
    · obtain ⟨names, request, hread⟩ := hlater _ hmem
      cases hreads names request _ hread
    · simp at hmem
  obtain ⟨rows, hrows, hresults⟩ := hshows hdestroyed hundisturbed
  have hlength' : rows.length = 2 := by
    rw [respond, withObserver, hobserver] at hresults
    cases hresults
    exact hlength
  exact ⟨_, _, observer, live, rows, hrun, by decide +kernel, hobserver, hdestroyed, hlive,
    hundisturbed, hlength', hrows, hresults⟩

end Session

end PatternGraph
