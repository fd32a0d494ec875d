import PatternGraph.Proofs.Store.Told
import PatternGraph.Session.Machine

/-!
# Events that are owed

Between a change of a graph and the notification of a live query the event is kept by one of the
tasks in progress: by an attachment that gathers it, by the dispatch of the graph's events, or by a
delivery that has still to come to the query.  A session carries another one forward when it has the
same live queries and boards, still owes all events that were owed, and owes an event for every item
that a graph has gained or lost meanwhile.
-/

namespace PatternGraph

variable {ρ : Type}

/-- Whether a task is going to tell a live query of a graph about an event. -/
def Task.Owes (graph : GraphId) (id : QueryId) (event : Event) : Task ρ → Prop
  | .attach a _ => a.graph = graph ∧ event ∈ a.events
  | .dispatch g events => g = graph ∧ event ∈ events
  | .deliver g e handlers => g = graph ∧ e = event ∧ .query id ∈ handlers
  | _ => False

namespace Session

/-- Whether something in progress is going to tell a live query of a graph about an event. -/
def Owes (s : Session ρ) (graph : GraphId) (id : QueryId) (event : Event) : Prop :=
  ∃ task ∈ s.tasks, task.Owes graph id event

/-- Whether the contents of all graphs are free of contradictions. -/
def Sound (s : Session ρ) : Prop :=
  ∀ graph, ∃ g, (s.store.index graph).Represents g

/-- Whether a session has changed only in ways of which its live queries are going to be told. -/
structure Carries (s s' : Session ρ) : Prop where
  sound : s.Sound → s'.Sound
  told : ∀ graph, graph.number ≤ s.store.graphCount → ∀ g, (s.store.index graph).Represents g →
    ∃ g', (s'.store.index graph).Represents g' ∧
      g.AgreeOn (fun item => ∀ event, (∀ id, s'.Owes graph id event) → event.item ≠ item) g'
  count : s.store.graphCount ≤ s'.store.graphCount
  owes : ∀ graph id event, s.Owes graph id event → s'.Owes graph id event
  deliveries : ∀ graph event handlers, .deliver graph event handlers ∈ s'.tasks →
    .deliver graph event handlers ∈ s.tasks
  issued : s.issued ≤ s'.issued
  boards : s'.boards = s.boards
  queries : s'.queries = s.queries

namespace Carries

variable {s s' s'' : Session ρ} {dropped pushed rest : List (Task ρ)} {graph : GraphId}
  {events : List Event}

theorem trans (h : s.Carries s') (h' : s'.Carries s'') : s.Carries s'' := by
  constructor
  · exact fun hs => h'.sound (h.sound hs)
  · intro graph hgraph g hg
    obtain ⟨g', hg', hagree⟩ := h.told graph hgraph g hg
    obtain ⟨g'', hg'', hagree'⟩ := h'.told graph (hgraph.trans h.count) g' hg'
    refine ⟨g'', hg'', (hagree.mono fun item hitem event hevent => ?_).trans hagree'⟩
    exact hitem event fun id => h'.owes graph id event (hevent id)
  · exact h.count.trans h'.count
  · exact fun graph id event howes => h'.owes graph id event (h.owes graph id event howes)
  · exact fun graph event handlers hmem =>
      h.deliveries graph event handlers (h'.deliveries graph event handlers hmem)
  · exact h.issued.trans h'.issued
  · rw [h'.boards, h.boards]
  · rw [h'.queries, h.queries]

/-- A change of one graph whose events, with those of the tasks that are replaced, new tasks owe. -/
theorem of_tells
    (htells : s.store.Tells graph events s'.store)
    (htasks : s.tasks = dropped ++ rest)
    (htasks' : s'.tasks = pushed ++ rest)
    (howes : ∀ task ∈ dropped, ∀ graph id event, task.Owes graph id event →
      ∃ task' ∈ pushed, task'.Owes graph id event)
    (hevents : ∀ event ∈ events, ∀ id, ∃ task ∈ pushed, task.Owes graph id event)
    (hdeliveries : ∀ graph event handlers, .deliver graph event handlers ∉ pushed)
    (hissued : s.issued ≤ s'.issued)
    (hboards : s'.boards = s.boards)
    (hqueries : s'.queries = s.queries) :
    s.Carries s' := by
  have hpushed : ∀ g id event, (∃ task ∈ pushed, task.Owes g id event) → s'.Owes g id event := by
    rintro g id event ⟨task, htask, howes⟩
    exact ⟨task, by rw [htasks']; exact List.mem_append_left _ htask, howes⟩
  constructor
  · intro hs other
    obtain ⟨g, hg⟩ := hs other
    by_cases hother : other = graph
    · subst hother
      obtain ⟨g', hg', -⟩ := htells.told g hg
      exact ⟨g', hg'⟩
    · exact ⟨g, by rwa [htells.others other hother]⟩
  · intro other _ g hg
    by_cases hother : other = graph
    · subst hother
      obtain ⟨g', hg', hagree⟩ := htells.told g hg
      refine ⟨g', hg', hagree.mono fun item hitem event hevent => hitem event fun id => ?_⟩
      exact hpushed _ id event (hevents event hevent id)
    · exact ⟨g, by rwa [htells.others other hother], .refl g⟩
  · exact htells.count.ge
  · rintro g id event ⟨task, htask, howesTask⟩
    rw [htasks] at htask
    rcases List.mem_append.mp htask with htask | htask
    · exact hpushed g id event (howes task htask g id event howesTask)
    · exact ⟨task, by rw [htasks']; exact List.mem_append_right _ htask, howesTask⟩
  · intro g event handlers hmem
    rw [htasks'] at hmem
    rw [htasks]
    exact List.mem_append_right _ ((List.mem_append.mp hmem).resolve_left (hdeliveries g event handlers))
  · exact hissued
  · exact hboards
  · exact hqueries

/-- New tasks after a change of one graph whose events they owe. -/
theorem pushTelling
    (htells : s.store.Tells graph events s'.store)
    (htasks : s'.tasks = .dispatch graph events :: pushed ++ s.tasks)
    (hdeliveries : ∀ graph event handlers, .deliver graph event handlers ∉ pushed)
    (hissued : s.issued ≤ s'.issued)
    (hboards : s'.boards = s.boards)
    (hqueries : s'.queries = s.queries) :
    s.Carries s' := by
  have hnone : s.tasks = [] ++ s.tasks := rfl
  refine of_tells htells hnone htasks ?_ ?_ ?_ hissued hboards hqueries
  · intro task htask
    cases htask
  · intro event hevent id
    exact ⟨_, List.mem_cons_self, rfl, hevent⟩
  · intro g event handlers hmem
    rcases List.mem_cons.mp hmem with heq | hmem
    · cases heq
    · exact hdeliveries g event handlers hmem

/-- New tasks after a change that leaves the graphs alone. -/
theorem push
    (hstore : s.store.KeepsGraphs s'.store)
    (htasks : s'.tasks = pushed ++ s.tasks)
    (hdeliveries : ∀ graph event handlers, .deliver graph event handlers ∉ pushed)
    (hissued : s.issued ≤ s'.issued)
    (hboards : s'.boards = s.boards)
    (hqueries : s'.queries = s.queries) :
    s.Carries s' := by
  have hnone : s.tasks = [] ++ s.tasks := rfl
  refine of_tells (.of_keepsGraphs hstore ⟨0⟩) hnone htasks ?_ ?_ hdeliveries hissued hboards
    hqueries
  · intro task htask
    cases htask
  · intro event hevent
    cases hevent

/-- A change that leaves the graphs and the tasks alone. -/
theorem still
    (hstore : s.store.KeepsGraphs s'.store)
    (htasks : s'.tasks = s.tasks)
    (hissued : s.issued ≤ s'.issued)
    (hboards : s'.boards = s.boards)
    (hqueries : s'.queries = s.queries) :
    s.Carries s' := by
  have hnone : s'.tasks = [] ++ s.tasks := htasks
  exact push hstore hnone (fun _ _ _ => List.not_mem_nil) hissued hboards hqueries

/-- Replacing a task by tasks that owe what it owes. -/
theorem replace
    {task : Task ρ}
    (htasks : s.tasks = task :: rest)
    (howes : ∀ graph id event, task.Owes graph id event →
      ∃ task' ∈ pushed, task'.Owes graph id event)
    (hdeliveries : ∀ graph event handlers, .deliver graph event handlers ∉ pushed) :
    s.Carries { s with tasks := pushed ++ rest } := by
  have hone : s.tasks = [task] ++ rest := htasks
  have hstore : s.store.Tells ⟨0⟩ [] ({ s with tasks := pushed ++ rest } : Session ρ).store :=
    .of_keepsGraphs (.refl s.store) ⟨0⟩
  refine of_tells hstore hone rfl ?_ ?_ hdeliveries (Nat.le_refl _) rfl rfl
  · intro other hother
    rw [List.mem_singleton.mp hother]
    exact howes
  · intro event hevent
    cases hevent

/-- Taking up a task that owes nothing. -/
theorem take
    {task : Task ρ}
    (htasks : s.tasks = task :: rest)
    (howes : ∀ graph id event, ¬task.Owes graph id event) :
    s.Carries { s with tasks := rest } := by
  have hcarries : s.Carries { s with tasks := [] ++ rest } :=
    replace htasks (fun graph id event howesTask => absurd howesTask (howes graph id event))
      fun _ _ _ => List.not_mem_nil
  exact hcarries

theorem pushTasks
    (s : Session ρ)
    (hdeliveries : ∀ graph event handlers, .deliver graph event handlers ∉ pushed) :
    s.Carries (s.push pushed) :=
  push (.refl s.store) rfl hdeliveries (Nat.le_refl _) rfl rfl

end Carries

end Session

end PatternGraph
