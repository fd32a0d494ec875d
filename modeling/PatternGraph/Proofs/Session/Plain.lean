import PatternGraph.Proofs.Session.Adding
import PatternGraph.Proofs.Session.Owed
import PatternGraph.Proofs.Session.Reachable

/-!
# Plain commands and tasks

Most commands, and the tasks that only begin further ones, do nothing to live queries and observers:
they carry a session forward and leave the observers, and what the client holds of both, alone.
-/

namespace PatternGraph

variable {ρ : Type}

namespace Session

variable {s s' : Session ρ}

/-- Whether a session has carried another one forward and has the same observers and the same
names for live queries and observers. -/
structure Proceeds (s s' : Session ρ) : Prop extends s.Carries s' where
  observers : s'.observers = s.observers
  namedQueries : s'.names.queries = s.names.queries
  namedObservers : s'.names.observers = s.names.observers

namespace Carries

theorem createGraph (s : Session ρ) : s.Carries { s with store := s.store.createGraph.2 } := by
  have hindex : ∀ graph, graph ≠ s.store.createGraph.1 →
      s.store.createGraph.2.index graph = s.store.index graph :=
    fun graph hgraph => s.store.index_setIndex_of_ne .empty hgraph
  constructor
  · intro hs graph
    by_cases hgraph : graph = s.store.createGraph.1
    · subst hgraph
      have hempty : s.store.createGraph.2.index s.store.createGraph.1 = .empty :=
        s.store.index_setIndex_self _ .empty
      exact ⟨.empty, by simpa only [hempty] using Index.represents_empty⟩
    · obtain ⟨g, hg⟩ := hs graph
      exact ⟨g, by simpa only [hindex graph hgraph] using hg⟩
  · intro graph hnumber g hg
    have hgraph : graph ≠ s.store.createGraph.1 := by
      rintro rfl
      exact Nat.not_succ_le_self _ hnumber
    exact ⟨g, by simpa only [hindex graph hgraph] using hg, .refl g⟩
  · exact Nat.le_succ _
  · exact fun _ _ _ howes => howes
  · exact fun _ _ _ hmem => hmem
  · exact Nat.le_refl _
  · rfl
  · rfl

section Attachment

variable {a a' : Attachment} {job : Job} {jobs : List Job} {ending : Ending} {store : Store}
  {rest : List (Task ρ)}

/-- What a job changes in the receiving graph is gathered. -/
theorem gather
    (htasks : s.tasks = .attach a ending :: rest)
    (hmoves : ({ a with jobs := jobs } : Attachment).Moves s.store job store a' none) :
    s.Carries { s with store := store, tasks := .attach a' ending :: rest } := by
  obtain ⟨events, hevents, htells⟩ := hmoves.tells
  have hone : s.tasks = [.attach a ending] ++ rest := htasks
  have hnew : .attach a' ending :: rest = [.attach a' ending] ++ rest := rfl
  refine of_tells htells hone hnew ?_ ?_ (by simp) (Nat.le_refl _) rfl rfl
  · rintro task htask graph id event howes
    rw [List.mem_singleton.mp htask] at howes
    refine ⟨_, List.mem_singleton_self _, hmoves.graph_eq.trans howes.1, ?_⟩
    rw [hevents]
    exact List.mem_append_right _ howes.2
  · intro event hevent id
    refine ⟨_, List.mem_singleton_self _, hmoves.graph_eq, ?_⟩
    rw [hevents]
    exact List.mem_append_left _ hevent

/-- What a job takes out of another graph is told there at once. -/
theorem depart
    {d : Departure}
    (htasks : s.tasks = .attach a ending :: rest)
    (hmoves : ({ a with jobs := jobs } : Attachment).Moves s.store job store a' (some d)) :
    s.Carries
      { s with
        store := store
        tasks := .dispatch d.graph d.events :: .attach a' ending :: rest } := by
  obtain ⟨hevents, htells⟩ := hmoves.tells
  have hone : s.tasks = [.attach a ending] ++ rest := htasks
  have hnew : .dispatch d.graph d.events :: .attach a' ending :: rest =
      [.dispatch d.graph d.events, .attach a' ending] ++ rest := rfl
  refine of_tells htells hone hnew ?_ ?_ (by simp) (Nat.le_refl _) rfl rfl
  · rintro task htask graph id event howes
    rw [List.mem_singleton.mp htask] at howes
    refine ⟨_, List.mem_cons_of_mem _ (List.mem_singleton_self _), hmoves.graph_eq.trans howes.1, ?_⟩
    rw [hevents]
    exact howes.2
  · intro event hevent id
    exact ⟨_, List.mem_cons_self, rfl, hevent⟩

/-- The events that have been gathered are told when the attachment is over. -/
theorem tellGathered
    (htasks : s.tasks = .attach a ending :: rest)
    (last : Ending) :
    s.Carries { s with tasks := .dispatch a.graph a.events.reverse :: .finish last :: rest } := by
  have hcarries : s.Carries { s with
      tasks := [.dispatch a.graph a.events.reverse, .finish last] ++ rest } := by
    refine replace htasks (fun graph id event howes => ?_) (by simp)
    exact ⟨_, List.mem_cons_self, howes.1, List.mem_reverse.mpr howes.2⟩
  exact hcarries

end Attachment

end Carries

namespace Proceeds

theorem trans {s'' : Session ρ} (h : s.Proceeds s') (h' : s'.Proceeds s'') : s.Proceeds s'' :=
  ⟨h.toCarries.trans h'.toCarries, h'.observers.trans h.observers,
    h'.namedQueries.trans h.namedQueries, h'.namedObservers.trans h.namedObservers⟩

/-- A change that leaves the graphs, the tasks, the boards, the live queries and the observers alone. -/
theorem aside
    (hstore : s.store.KeepsGraphs s'.store)
    (htasks : s'.tasks = s.tasks)
    (hboards : s'.boards = s.boards)
    (hqueries : s'.queries = s.queries)
    (hobservers : s'.observers = s.observers)
    (hissued : s'.issued = s.issued)
    (hnamedQueries : s'.names.queries = s.names.queries)
    (hnamedObservers : s'.names.observers = s.names.observers) :
    s.Proceeds s' :=
  ⟨.still hstore htasks hissued.ge hboards hqueries, hobservers, hnamedQueries, hnamedObservers⟩

theorem conclude (s : Session ρ) (outcome : Outcome) : s.Proceeds (s.conclude outcome) :=
  aside (.refl s.store) rfl rfl rfl rfl rfl rfl rfl

theorem write (s : Session ρ) (entry : Entry) : s.Proceeds (s.write entry) :=
  aside (.refl s.store) rfl rfl rfl rfl rfl rfl rfl

theorem setStore (s : Session ρ) {store : Store} (h : s.store.KeepsGraphs store) :
    s.Proceeds { s with store := store } :=
  aside h rfl rfl rfl rfl rfl rfl rfl

theorem updateNames
    {change : Names → Names}
    (s : Session ρ)
    (hqueries : (change s.names).queries = s.names.queries)
    (hobservers : (change s.names).observers = s.names.observers) :
    s.Proceeds (s.updateNames change) :=
  aside (.refl s.store) rfl rfl rfl rfl rfl hqueries hobservers

theorem push
    {pushed : List (Task ρ)}
    (s : Session ρ)
    (hdeliveries : ∀ graph event handlers, .deliver graph event handlers ∉ pushed) :
    s.Proceeds (s.push pushed) :=
  ⟨.pushTasks s hdeliveries, rfl, rfl, rfl⟩

theorem take
    {task : Task ρ}
    {rest : List (Task ρ)}
    (htasks : s.tasks = task :: rest)
    (howes : ∀ graph id event, ¬task.Owes graph id event) :
    s.Proceeds { s with tasks := rest } :=
  ⟨.take htasks howes, rfl, rfl, rfl⟩

/-- What has been taken out of a graph is told by a new task. -/
theorem removes
    {graph : GraphId}
    {events : List Event}
    {store : Store}
    {pushed : List (Task ρ)}
    (hremoves : s.store.Removes graph events store)
    (hdeliveries : ∀ graph event handlers, .deliver graph event handlers ∉ pushed) :
    s.Proceeds (({ s with store := store } : Session ρ).push (.dispatch graph events :: pushed)) :=
  ⟨.pushTelling hremoves.tells rfl hdeliveries (Nat.le_refl _) rfl rfl, rfl, rfl, rfl⟩

theorem withStore
    {graph : GraphId}
    {pushed : List (Task ρ)}
    {result : Except Fault (List Event × Store)}
    (hremoves : ∀ events store, result = .ok (events, store) → s.store.Removes graph events store)
    (hdeliveries : ∀ graph event handlers, .deliver graph event handlers ∉ pushed) :
    s.Proceeds (s.withStore result fun events s => s.push (.dispatch graph events :: pushed)) := by
  unfold Session.withStore
  split
  · exact conclude s _
  · rename_i events store
    exact removes (hremoves events store rfl) hdeliveries

theorem addNode (s : Session ρ) (graph : GraphId) (node : Node) :
    s.Proceeds (s.addNode graph node) := by
  rcases s.addNode_cases graph node with ⟨outcome, heq⟩ | ⟨ending, heq⟩
  · exact heq ▸ conclude s outcome
  · exact heq ▸ push s (by simp)

theorem addGivenEdge (s : Session ρ) (graph : GraphId) (source target : Node) (edge : Edge)
    (as : Option String) : s.Proceeds (s.addEdge graph source target (some edge) as) := by
  rcases s.addGivenEdge_cases graph source target edge as with ⟨outcome, heq⟩ | ⟨ending, heq⟩ |
    ⟨ending, -, ⟨-, heq⟩ | ⟨previous, -, -, heq⟩⟩
  · exact heq ▸ conclude s outcome
  · exact heq ▸ push s (by simp)
  · exact heq ▸ push s (by simp)
  · exact heq ▸ withStore (fun events store h => .removeEdge h) (by simp)

theorem addEdge (s : Session ρ) (graph : GraphId) (source target : Node) (given : Option Edge)
    (as : Option String) : s.Proceeds (s.addEdge graph source target given as) := by
  cases given with
  | some edge => exact addGivenEdge s graph source target edge as
  | none =>
      -- an edge that is not given is created before anything else
      let created := s.store.createEdge (.root .edge) .null
      have hcreated : s.Proceeds { s with store := created.2 } := setStore s (.createEdge s.store _ _)
      exact hcreated.trans (addGivenEdge _ graph source target created.1 as)

theorem insertEdge (s : Session ρ) (graph : GraphId) (edge : Edge) :
    s.Proceeds (s.insertEdge graph edge) := by
  rcases s.insertEdge_cases graph edge with ⟨outcome, heq⟩ | ⟨ending, heq⟩
  · exact heq ▸ conclude s outcome
  · exact heq ▸ push s (by simp)

theorem trigger (s : Session ρ) (id : ScriptId) (script : Script ρ) :
    s.Proceeds (s.trigger id script) := by
  rw [Session.trigger]
  split
  · exact aside (.refl s.store) rfl rfl rfl rfl rfl rfl rfl
  · exact ⟨.push (.refl s.store) rfl (by simp) (Nat.le_refl _) rfl rfl, rfl, rfl, rfl⟩

theorem inform (s : Session ρ) (change : Change) (rows : List Row) (id : ScriptId) :
    s.Proceeds (s.inform change rows id) := by
  rw [Session.inform]
  split
  · exact aside (.refl s.store) rfl rfl rfl rfl rfl rfl rfl
  · exact (write s _).trans (trigger _ id _)

theorem tellScript (s : Session ρ) (graph : GraphId) (event : Event) (id : ScriptId)
    (on : Option Change) (item : Option String) :
    s.Proceeds (s.tell graph event (.script id on item)) := by
  rw [Session.tell]
  split
  · exact aside (.refl s.store) rfl rfl rfl rfl rfl rfl rfl
  · dsimp only
    split
    · exact (write s _).trans (trigger _ id _)
    · exact write s _

theorem finish (s : Session ρ) (ending : Ending) : s.Proceeds (s.finish ending) := by
  unfold Session.finish
  dsimp only
  split
  · exact conclude s _
  · exact (conclude s _).trans (updateNames _ rfl rfl)

end Proceeds

end Session

/-- Whether a command has nothing to do with handlers, live queries and observers. -/
def Command.Plain : Command ρ → Prop
  | .letGo .. | .subscribe .. | .unsubscribe .. | .openQuery .. | .destroyQuery _ | .snapshot _
  | .observe .. | .listen .. | .drain .. | .destroyObserver _ => False
  | _ => True

/-- Whether a task neither tells handlers nor issues requests. -/
def Task.Plain : Task ρ → Prop
  | .dispatch .. | .deliver .. | .script .. => False
  | _ => True

namespace Session.Proceeds

variable {s : Session ρ}

theorem begin {c : Command ρ} (s : Session ρ) (hplain : c.Plain) : s.Proceeds (s.begin c) := by
  cases c with
  | declareNodeType as name parent => exact aside (.refl s.store) rfl rfl rfl rfl rfl rfl rfl
  | declareEdgeType as name parent => exact aside (.refl s.store) rfl rfl rfl rfl rfl rfl rfl
  | createNode as type data =>
      exact aside (.createNode s.store type data) rfl rfl rfl rfl rfl rfl rfl
  | createEdge as type data =>
      exact aside (.createEdge s.store type data) rfl rfl rfl rfl rfl rfl rfl
  | createEdgeBetween as type source target =>
      exact aside (.createEdgeBetween s.store type source target) rfl rfl rfl rfl rfl rfl rfl
  | createGraph as =>
      have hcreated : s.Proceeds { s with store := s.store.createGraph.2 } :=
        ⟨.createGraph s, rfl, rfl, rfl⟩
      exact (hcreated.trans (updateNames _ rfl rfl)).trans (conclude _ _)
  | setSource edge node =>
      rw [Session.begin]
      split
      · exact conclude s _
      · rename_i store hset
        exact (setStore s (.setSource hset)).trans (conclude _ _)
  | setTarget edge node =>
      rw [Session.begin]
      split
      · exact conclude s _
      · rename_i store hset
        exact (setStore s (.setTarget hset)).trans (conclude _ _)
  | addNodes graph nodes => exact (conclude s _).trans (push _ (by simp))
  | addNode graph node => exact addNode s graph node
  | removeNode graph node => exact push s (by simp)
  | removeNodes graph nodes => exact push s (by simp)
  | removeNodesByType graph type =>
      exact removes (.removeNodesByType s.store graph type) (by simp)
  | addEdge graph source target edge as => exact addEdge s graph source target edge as
  | insertEdge graph edge => exact insertEdge s graph edge
  | removeEdge graph edge => exact push s (by simp)
  | removeEdges graph edges => exact push s (by simp)
  | removeEdgesByNodes graph selector =>
      exact withStore (fun events store h => .removeEdgesByNodes h) (by simp)
  | removeEdgesByType graph type =>
      exact removes (.removeEdgesByType s.store graph type) (by simp)
  | compile as query =>
      rw [Session.begin, nameCompiled]
      split
      · exact conclude s _
      · exact (updateNames s rfl rfl).trans (conclude _ _)
  | openCursor as query =>
      rw [Session.begin, nameCursor]
      split
      · exact conclude s _
      · exact (updateNames s rfl rfl).trans (conclude _ _)
  | advance cursor limit =>
      rw [Session.begin, readCursor]
      split
      · exact conclude s _
      · exact (updateNames s rfl rfl).trans (conclude _ _)
  | ask question => exact conclude s _
  | _ => exact hplain.elim

theorem perform
    {interpret : Interpreter ρ}
    {task : Task ρ}
    {rest : List (Task ρ)}
    (htasks : s.tasks = task :: rest)
    (hplain : task.Plain) :
    s.Proceeds (({ s with tasks := rest } : Session ρ).perform interpret task) := by
  have htake : (∀ graph id event, ¬task.Owes graph id event) →
      s.Proceeds { s with tasks := rest } := take htasks
  cases task with
  | connect edge source target ending =>
      have hrewired := (htake fun _ _ _ => id).trans (setStore _ (.rewire s.store edge source target))
      exact hrewired.trans (push _ (by simp))
  | attach a ending =>
      cases perform_attach interpret { s with tasks := rest } a ending with
      | ends last hlast hnext => exact hnext ▸ ⟨.tellGathered htasks last, rfl, rfl, rfl⟩
      | stays job jobs store a' hjobs hmoves hnext =>
          exact hnext ▸ ⟨.gather htasks hmoves, rfl, rfl, rfl⟩
      | departs job jobs store a' d hjobs hmoves hnext =>
          exact hnext ▸ ⟨.depart htasks hmoves, rfl, rfl, rfl⟩
  | announce a =>
      have htaken := htake fun _ _ _ => id
      unfold Session.perform
      dsimp only
      split
      · exact htaken
      · split
        · exact htaken.trans (push _ (by simp))
        · exact (htaken.trans (push _ (by simp))).trans (push _ (by simp))
  | notify change rows listeners =>
      have htaken := htake fun _ _ _ => id
      cases listeners with
      | nil => exact htaken
      | cons listener listeners =>
          exact (htaken.trans (push _ (by simp))).trans (inform _ change rows listener)
  | record label => exact (htake fun _ _ _ => id).trans (write _ _)
  | addNodes graph others added =>
      have htaken := htake fun _ _ _ => id
      unfold Session.perform
      dsimp only
      split
      · exact htaken
      · split
        · exact htaken.trans (conclude _ _)
        · exact (htaken.trans (push _ (by simp))).trans (addNode _ graph _)
  | removeNodes graph others =>
      have htaken := htake fun _ _ _ => id
      cases others with
      | nil => exact htaken.trans (conclude _ _)
      | cons node others =>
          exact htaken.trans (withStore (fun events store h => .removeNode h) (by simp))
  | removeEdges graph others named =>
      have htaken := htake fun _ _ _ => id
      cases others with
      | nil => exact htaken.trans (conclude _ _)
      | cons edge others =>
          exact htaken.trans (withStore (fun events store h => .removeEdge h) (by simp))
  | finish ending => exact (htake fun _ _ _ => id).trans (finish _ ending)
  | dispatch | deliver | script => exact hplain.elim

end Session.Proceeds

end PatternGraph
