import PatternGraph.Proofs.Session.Queries
import PatternGraph.Proofs.Session.Reachable
import PatternGraph.Proofs.Store.Sound

/-!
# Histories of genuine commands

A history is a run of a session from the start, with all the states it has been in.  Its commands are
genuine: they use items and graphs that have been created, and edges only while they are there.  A
client issues commands while nothing is in progress, and scripts issue commands that the history
permits them.  What is in progress is a stack of notes, which tell handlers of what has happened, on
top of the duties of a command, which change graphs.
-/

namespace PatternGraph

variable {ρ : Type}

namespace Command

/-- Whether a command changes the content of a graph or the wiring of an edge. -/
def Mutates : Command ρ → Prop
  | .createEdgeBetween .. | .setSource .. | .setTarget .. | .addNodes .. | .addNode ..
  | .removeNode .. | .removeNodes .. | .removeNodesByType .. | .addEdge .. | .insertEdge ..
  | .removeEdge .. | .removeEdges .. | .removeEdgesByNodes .. | .removeEdgesByType .. => True
  | _ => False

/--
Whether a command uses what has been created: known items, edges that are still there, and graphs
that are still there.  What it creates has the type that the catalogue foresees.
-/
def Genuine (c : Catalogue) (store : Store) : Command ρ → Prop
  | .createNode _ type _ => type = c.node ⟨store.nodeCount + 1⟩
  | .createEdge _ type _ => type = c.edge ⟨store.edgeCount + 1⟩
  | .createEdgeBetween _ type source target =>
    type = c.edge ⟨store.edgeCount + 1⟩ ∧ store.KnowsNode c source ∧ store.KnowsNode c target
  | .setSource edge node | .setTarget edge node =>
    store.KnowsEdge c edge ∧ edge.id ∈ store.edges ∧ store.KnowsNode c node
  | .addNodes graph nodes => graph ∈ store.graphs ∧ ∀ n ∈ nodes, store.KnowsNode c n
  | .addNode graph node => graph ∈ store.graphs ∧ store.KnowsNode c node
  | .addEdge graph source target none _ =>
    graph ∈ store.graphs ∧ .root .edge = c.edge ⟨store.edgeCount + 1⟩ ∧
      store.KnowsNode c source ∧ store.KnowsNode c target
  | .addEdge graph source target (some edge) _ =>
    graph ∈ store.graphs ∧ (store.KnowsEdge c edge ∧ edge.id ∈ store.edges) ∧
      store.KnowsNode c source ∧ store.KnowsNode c target
  | .insertEdge graph edge =>
    graph ∈ store.graphs ∧ store.KnowsEdge c edge ∧ edge.id ∈ store.edges
  | _ => True

instance (c : Catalogue) (store : Store) (n : Node) : Decidable (store.KnowsNode c n) :=
  inferInstanceAs (Decidable (_ ∧ _))

instance (c : Catalogue) (store : Store) (e : Edge) : Decidable (store.KnowsEdge c e) :=
  inferInstanceAs (Decidable (_ ∧ _))

instance (cmd : Command ρ) : Decidable cmd.Mutates := by
  cases cmd <;> (unfold Mutates; infer_instance)

instance (c : Catalogue) (store : Store) (cmd : Command ρ) : Decidable (cmd.Genuine c store) := by
  unfold Genuine
  split <;> infer_instance

end Command

namespace Task

/-- How far a task is from the handlers that it has told; duties are not told to anyone. -/
def rank : Task ρ → Nat
  | .record _ => 0
  | .script .. => 1
  | .notify .. => 2
  | .announce _ => 3
  | .deliver .. => 4
  | .dispatch .. => 5
  | _ => 6

/-- How much a note has still to tell. -/
def size : Task ρ → Nat
  | .script _ requests => requests.length
  | .notify _ _ listeners => listeners.length
  | .announce a => a.rest.length
  | .deliver _ _ handlers => handlers.length
  | .dispatch _ events => events.length
  | _ => 0

/-- Whether a task tells handlers of what has happened, or runs a script that has been told. -/
def Note (task : Task ρ) : Prop :=
  task.rank < 6

/-- Whether a task is nearer to the handlers than another one, or has less to tell. -/
def Lighter (task other : Task ρ) : Prop :=
  task.rank < other.rank ∨ task.rank = other.rank ∧ task.size < other.size

theorem Note.of_lighter {task other : Task ρ} (h : task.Lighter other) (hnote : other.Note) :
    task.Note := by
  rcases h with hrank | ⟨hrank, -⟩
  · exact Nat.lt_trans hrank hnote
  · rwa [Note, hrank]

end Task

namespace Session

variable {s s' s'' : Session ρ}

/--
Whether a session comes about by genuine commands, of which scripts issue only permitted ones, and
has been in the listed states before, latest first.
-/
inductive History (c : Catalogue) (permits : Command ρ → Prop) :
    List (Session ρ) → Session ρ → Prop
  | empty : History c permits [] .empty
  | request {past : List (Session ρ)} {s : Session ρ} (interpret : Interpreter ρ) (request : ρ)
      (h : History c permits past s) (hidle : s.idle = true)
      (hgenuine : ∀ cmd ∈ interpret.reads s.names request, cmd.Genuine c s.store) :
      History c permits (s :: past) ({ s with log := [] }.issueRequest interpret request).release
  | step {past : List (Session ρ)} {s : Session ρ} (interpret : Interpreter ρ)
      (h : History c permits past s)
      (hgenuine : ∀ cmd ∈ s.upcoming interpret, cmd.Genuine c s.store ∧ permits cmd) :
      History c permits (s :: past) (s.step interpret)

/-- Whether the scripts that the next steps run issue genuine and permitted commands only. -/
def Abides (c : Catalogue) (permits : Command ρ → Prop) (interpret : Interpreter ρ) :
    Nat → Session ρ → Prop
  | 0, _ => True
  | fuel + 1, s =>
    (∀ cmd ∈ s.upcoming interpret, cmd.Genuine c s.store ∧ permits cmd) ∧
      (s.step interpret).Abides c permits interpret fuel

instance decidableAbides (c : Catalogue) (permits : Command ρ → Prop) [DecidablePred permits]
    (interpret : Interpreter ρ) : ∀ fuel s, Decidable (Abides c permits interpret fuel s)
  | 0, _ => inferInstanceAs (Decidable True)
  | fuel + 1, s =>
    have := decidableAbides c permits interpret fuel (s.step interpret)
    inferInstanceAs (Decidable (_ ∧ _))

namespace History

variable {c : Catalogue} {permits : Command ρ → Prop} {past : List (Session ρ)}

/-- A client may issue any genuine command while nothing is in progress. -/
theorem issued
    (h : History c permits past s)
    (cmd : Command ρ)
    (hidle : s.idle = true)
    (request : ρ)
    (hgenuine : cmd.Genuine c s.store) :
    History c permits (s :: past) (Session.request (fun _ _ => .ok cmd) 0 s request) := by
  refine h.request (fun _ _ => .ok cmd) request hidle fun cmd' hcmd' => ?_
  obtain rfl := List.mem_singleton.mp hcmd'
  exact hgenuine

/-- A run leads from histories to histories if its scripts abide by what is permitted. -/
theorem run
    (h : History c permits past s)
    (interpret : Interpreter ρ)
    (fuel : Nat)
    (habides : s.Abides c permits interpret fuel) :
    ∃ later, History c permits (later ++ past) (s.run interpret fuel) := by
  induction fuel generalizing past s with
  | zero => exact ⟨[], h⟩
  | succ fuel ih =>
      rw [Session.run]
      split
      · exact ⟨[], h⟩
      · obtain ⟨later, hlater⟩ := ih (h.step interpret habides.1) habides.2
        exact ⟨later ++ [s], by rwa [List.append_assoc]⟩

end History

theorem issueRequest_cases (interpret : Interpreter ρ) (s : Session ρ) (request : ρ) :
    (∃ refusal, s.issueRequest interpret request = s.conclude (.refused refusal)) ∨
      ∃ cmd ∈ interpret.reads s.names request, s.issueRequest interpret request = s.begin cmd := by
  rw [issueRequest, Interpreter.reads]
  cases interpret s.names request with
  | error refusal => exact Or.inl ⟨refusal, rfl⟩
  | ok cmd => exact Or.inr ⟨cmd, List.mem_singleton_self cmd, rfl⟩

/-- Whether a session has kept its store and only got tasks of some kind on top. -/
def Adds (P : Task ρ → Prop) (s s' : Session ρ) : Prop :=
  s'.store = s.store ∧ ∃ pushed, s'.tasks = pushed ++ s.tasks ∧ ∀ task ∈ pushed, P task

namespace Adds

variable {P : Task ρ → Prop}

theorem aside (hstore : s'.store = s.store) (htasks : s'.tasks = s.tasks) : s.Adds P s' :=
  ⟨hstore, [], htasks, fun _ h => absurd h List.not_mem_nil⟩

theorem refl (s : Session ρ) : s.Adds P s :=
  aside rfl rfl

theorem trans (h : s.Adds P s') (h' : s'.Adds P s'') : s.Adds P s'' := by
  obtain ⟨hstore, pushed, htasks, hpushed⟩ := h
  obtain ⟨hstore', pushed', htasks', hpushed'⟩ := h'
  refine ⟨hstore'.trans hstore, pushed' ++ pushed, by rw [htasks', htasks, List.append_assoc],
    fun task htask => ?_⟩
  rcases List.mem_append.mp htask with htask | htask
  · exact hpushed' task htask
  · exact hpushed task htask

theorem mono {Q : Task ρ → Prop} (h : s.Adds P s') (hPQ : ∀ task, P task → Q task) :
    s.Adds Q s' := by
  obtain ⟨hstore, pushed, htasks, hpushed⟩ := h
  exact ⟨hstore, pushed, htasks, fun task htask => hPQ task (hpushed task htask)⟩

theorem push {pushed : List (Task ρ)} (hpushed : ∀ task ∈ pushed, P task) :
    s.Adds P (s.push pushed) :=
  ⟨rfl, pushed, rfl, hpushed⟩

end Adds

section Handlers

theorem trigger_adds (s : Session ρ) (id : ScriptId) (script : Script ρ) :
    s.Adds (·.rank < 2) (s.trigger id script) := by
  rw [trigger]
  split
  · exact .refl s
  · exact .push (by simp [Task.rank])

theorem inform_adds (s : Session ρ) (change : Change) (rows : List Row) (id : ScriptId) :
    s.Adds (·.rank < 2) (s.inform change rows id) := by
  rw [inform]
  split
  · exact .refl s
  · exact (Adds.aside rfl rfl).trans (trigger_adds _ id _)

theorem observe_adds (s : Session ρ) (id : ObserverId) (query : CompiledQuery) (rows : List Row) :
    s.Adds (·.rank < 4) (s.observe id query rows) := by
  unfold observe
  split
  · exact .refl s
  · split
    · exact .refl s
    · dsimp only
      split
      · exact .aside rfl rfl
      · exact (Adds.aside rfl rfl).trans (.push (by simp [Task.rank]))

theorem refresh_adds (s : Session ρ) (graph : GraphId) (event : Event) (id : QueryId) :
    s.Adds (·.rank < 4) (s.refresh graph event id) := by
  unfold refresh
  split
  · exact .refl s
  · split
    · split
      · exact .refl s
      · dsimp only
        split
        · exact .aside rfl rfl
        · exact (Adds.aside rfl rfl).trans (observe_adds _ _ _ _)
    · exact .refl s

theorem tell_adds (s : Session ρ) (graph : GraphId) (event : Event) (handler : Handler) :
    s.Adds (·.rank < 4) (s.tell graph event handler) := by
  cases handler with
  | query id => exact refresh_adds s graph event id
  | script id on item =>
      rw [tell]
      split
      · exact .refl s
      · dsimp only
        split
        · exact (Adds.aside rfl rfl).trans ((trigger_adds _ id _).mono fun _ h =>
            Nat.lt_trans h (by decide))
        · exact .aside rfl rfl

/-- A note that issues no request only leaves lighter notes. -/
theorem perform_note
    {task : Task ρ}
    (interpret : Interpreter ρ)
    (s : Session ρ)
    (hnote : task.Note)
    (hsilent : ∀ label request requests, task ≠ .script label (request :: requests)) :
    s.Adds (·.Lighter task) (s.perform interpret task) := by
  have hrank : ∀ other : Task ρ, other.rank < task.rank → other.Lighter task := fun _ => Or.inl
  cases task with
  | dispatch graph events =>
      cases events with
      | nil => exact .refl s
      | cons event events => exact .push (by simp [Task.Lighter, Task.rank, Task.size])
  | deliver graph event handlers =>
      cases handlers with
      | nil => exact .refl s
      | cons handler handlers =>
          exact (Adds.push (by simp [Task.Lighter, Task.rank, Task.size])).trans
            ((tell_adds _ graph event handler).mono hrank)
  | announce a =>
      unfold perform
      dsimp only
      split
      · exact .refl s
      · rename_i change rest hrest
        have hagain : s.Adds (·.Lighter (.announce a))
            (s.push [.announce { a with rest := rest }]) :=
          .push (by simp [Task.Lighter, Task.rank, Task.size, hrest])
        split
        · exact hagain
        · exact hagain.trans (.push (by simp [Task.Lighter, Task.rank]))
  | notify change rows listeners =>
      cases listeners with
      | nil => exact .refl s
      | cons listener listeners =>
          exact (Adds.push (by simp [Task.Lighter, Task.rank, Task.size])).trans
            ((inform_adds _ change rows listener).mono fun _ h => hrank _ h)
  | script label requests =>
      cases requests with
      | nil => exact .refl s
      | cons request requests => exact absurd rfl (hsilent label request requests)
  | record label => exact .aside rfl rfl
  | connect | attach | addNodes | removeNodes | removeEdges | finish =>
      exact absurd hnote (by simp [Task.Note, Task.rank])

end Handlers

section Commands

variable {P : Task ρ → Prop}

theorem destroyQuery_adds (s : Session ρ) (id : QueryId) : s.Adds P (s.destroyQuery id) := by
  unfold destroyQuery
  split
  · exact .refl s
  · dsimp only
    split
    · exact .aside rfl rfl
    · exact .aside rfl rfl

theorem discardQuery_adds (s : Session ρ) (id : QueryId) : s.Adds P (s.discardQuery id) :=
  (destroyQuery_adds s id).trans (.aside rfl rfl)

theorem dropQuery_adds (s : Session ρ) (name : String) : s.Adds P (s.dropQuery name) := by
  rw [dropQuery]
  split
  · exact .refl s
  · exact (discardQuery_adds s _).trans (.aside rfl rfl)

theorem dropObserver_adds (s : Session ρ) (name : String) : s.Adds P (s.dropObserver name) := by
  rw [dropObserver]
  split
  · exact .refl s
  · rw [discardObserver]
    split
    · exact .aside rfl rfl
    · exact (discardQuery_adds s _).trans (.aside rfl rfl)

theorem nameQuery_adds (s : Session ρ) (as : String) (graph : GraphId) (query : Query)
    (cached : Bool) : s.Adds P (s.nameQuery as graph query cached) := by
  unfold nameQuery
  dsimp only
  split
  · exact .aside rfl rfl
  · rename_i id live s' hopen
    have hopened : s.Adds P s' := by
      cases cached with
      | true =>
          obtain ⟨compiled, rows, -, -, -, -, rfl⟩ := openCached_eq_ok hopen
          exact .aside rfl rfl
      | false =>
          obtain ⟨compiled, -, -, -, rfl⟩ := openUncached_eq_ok hopen
          exact .aside rfl rfl
    exact (hopened.trans (dropQuery_adds s' as)).trans (.aside rfl rfl)

theorem nameObserver_adds (s : Session ρ) (as : String) (graph : GraphId) (query : Query) :
    s.Adds P (s.nameObserver as graph query) := by
  rw [nameObserver]
  split
  · exact .aside rfl rfl
  · rename_i id live s' hopen
    have hopened : s.Adds P s' := by
      obtain ⟨queryId, s₁, rows, hcached, -, -, rfl⟩ := openObserver_eq_ok hopen
      obtain ⟨compiled, rows', -, -, -, -, rfl⟩ := openCached_eq_ok hcached
      exact .aside rfl rfl
    exact (hopened.trans (dropObserver_adds s' as)).trans (.aside rfl rfl)

theorem letGo_adds (s : Session ρ) (name : String) (holding : Holding) :
    s.Adds P (s.letGo name holding) := by
  cases holding with
  | query => exact dropQuery_adds s name
  | observer => exact dropObserver_adds s name
  | node => exact .aside rfl rfl
  | edge => exact .aside rfl rfl
  | graph => exact .aside rfl rfl
  | cursor => exact .aside rfl rfl
  | compiled => exact .aside rfl rfl

/-- A command that does not mutate does its work at once, and at most creates something. -/
theorem begin_calm
    {cmd : Command ρ}
    (s : Session ρ)
    (hpristine : s.store.Pristine)
    (hcalm : ¬cmd.Mutates) :
    (s.begin cmd).tasks = s.tasks ∧ s.store.Grows (s.begin cmd).store := by
  have haside : ∀ {s' : Session ρ}, s.Adds (fun _ => False) s' →
      s'.tasks = s.tasks ∧ s.store.Grows s'.store := by
    rintro s' ⟨hstore, pushed, htasks, hpushed⟩
    rw [List.eq_nil_iff_forall_not_mem.mpr hpushed] at htasks
    rw [hstore]
    exact ⟨htasks, .refl hpristine⟩
  cases cmd with
  | declareNodeType as name parent => exact haside (.aside rfl rfl)
  | declareEdgeType as name parent => exact haside (.aside rfl rfl)
  | createNode as type data => exact ⟨rfl, .createNode hpristine type data⟩
  | createEdge as type data => exact ⟨rfl, .createEdge hpristine type data⟩
  | createGraph as => exact ⟨rfl, .createGraph hpristine⟩
  | letGo holding name => exact haside ((letGo_adds s name holding).trans (.aside rfl rfl))
  | subscribe as graph on item times steps => exact haside (.aside rfl rfl)
  | unsubscribe graph subscription => exact haside (.aside rfl rfl)
  | compile as query =>
      rw [begin, nameCompiled]
      split
      · exact haside (.aside rfl rfl)
      · exact haside (.aside rfl rfl)
  | openQuery as graph query cached => exact haside (nameQuery_adds s as graph query cached)
  | destroyQuery query => exact haside ((destroyQuery_adds s query).trans (.aside rfl rfl))
  | openCursor as query =>
      rw [begin, nameCursor]
      split
      · exact haside (.aside rfl rfl)
      · exact haside (.aside rfl rfl)
  | advance cursor limit =>
      rw [begin, readCursor]
      split
      · exact haside (.aside rfl rfl)
      · exact haside (.aside rfl rfl)
  | snapshot query =>
      rw [begin, showSnapshot]
      split
      · exact haside (.aside rfl rfl)
      · exact haside (.aside rfl rfl)
  | observe as graph query => exact haside (nameObserver_adds s as graph query)
  | listen as observer on times steps => exact haside (.aside rfl rfl)
  | drain observer change =>
      rw [begin, drain]
      split
      · exact haside (.aside rfl rfl)
      · exact haside (.aside rfl rfl)
  | destroyObserver observer =>
      have hdestroyed : s.Adds (fun _ => False) (s.destroyObserver observer) := by
        rw [destroyObserver]
        split
        · exact .refl s
        · exact (destroyQuery_adds s _).trans (.aside rfl rfl)
      exact haside (hdestroyed.trans (.aside rfl rfl))
  | ask question => exact haside (.aside rfl rfl)
  | _ => exact absurd trivial hcalm

end Commands

end Session

end PatternGraph
