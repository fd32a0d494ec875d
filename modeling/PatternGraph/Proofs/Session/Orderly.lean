import PatternGraph.Proofs.Session.Undertaking

/-!
# Orderly sessions

A session is orderly if its store is sound and its tasks are about items and graphs that are there.
Genuine commands and steps keep a session orderly unless a task is overtaken: handlers have put an item
into another graph between its departure from the graph it was in and its arrival in the new one.
-/

namespace PatternGraph

variable {ρ : Type} {c : Catalogue}

namespace Session

variable {s s' s'' : Session ρ}

section Releasing

/-- Letting go changes the observers, and takes out of the store what is not held. -/
theorem release_eq_retain (s : Session ρ) :
    ∃ observers, s.release = { s with
      observers := observers
      store := s.store.release s.holdsGraph ({ s with observers := observers } : Session ρ).holdsEdge } := by
  unfold release
  dsimp only
  split
  · exact ⟨s.observers, rfl⟩
  · exact ⟨_, rfl⟩

theorem tasks_release (s : Session ρ) : s.release.tasks = s.tasks := by
  obtain ⟨observers, h⟩ := s.release_eq_retain
  rw [h]

theorem holdsGraph_release (s : Session ρ) (g : GraphId) :
    s.release.holdsGraph g = s.holdsGraph g := by
  obtain ⟨observers, h⟩ := s.release_eq_retain
  rw [h]
  rfl

theorem mem_graphs_release (s : Session ρ) (g : GraphId) :
    g ∈ s.release.store.graphs ↔ g ∈ s.store.graphs ∧ s.holdsGraph g = true := by
  obtain ⟨observers, h⟩ := s.release_eq_retain
  rw [h]
  exact s.store.mem_graphs_release _ _ g

theorem index_release (s : Session ρ) {g : GraphId} (hg : g ∈ s.release.store.graphs) :
    s.release.store.index g = s.store.index g := by
  obtain ⟨observers, h⟩ := s.release_eq_retain
  rw [h] at hg ⊢
  exact s.store.index_release_of_mem _ _ hg

theorem ages_release (s : Session ρ) (h : s.store.Pristine) : s.store.Ages s.release.store := by
  obtain ⟨observers, heq⟩ := s.release_eq_retain
  rw [heq]
  exact .release _ _ h

theorem holdsGraph_of_task
    {task : Task ρ}
    {g : GraphId}
    (htask : task ∈ s.tasks)
    (hg : g ∈ task.graphs) :
    s.holdsGraph g = true := by
  have hany : (s.tasks.any fun task => task.graphs.contains g) = true :=
    List.any_eq_true.mpr ⟨task, htask, List.contains_iff_mem.mpr hg⟩
  rw [holdsGraph, hany, Bool.or_true]

/-- A graph that a task works on is not let go. -/
theorem mem_graphs_release_of_task
    {task : Task ρ}
    {g : GraphId}
    (htask : task ∈ s.tasks)
    (hg : g ∈ task.graphs)
    (hmem : g ∈ s.store.graphs) :
    g ∈ s.release.store.graphs :=
  (s.mem_graphs_release g).mpr ⟨hmem, holdsGraph_of_task htask hg⟩

/-- An edge that a task holds is not let go. -/
theorem mem_edges_release_of_task
    {task : Task ρ}
    {id : EdgeId}
    (htask : task ∈ s.tasks)
    (hholds : task.holds id = true)
    (hmem : id ∈ s.store.edges) :
    id ∈ s.release.store.edges := by
  obtain ⟨observers, h⟩ := s.release_eq_retain
  have hany : s.tasks.any (Task.holds id) = true := List.any_eq_true.mpr ⟨task, htask, hholds⟩
  rw [h]
  refine (s.store.mem_edges_release _ _ id).mpr ⟨hmem, Or.inr ?_⟩
  simp [holdsEdge, hany]

end Releasing

/-- Whether the store is sound, and all tasks are about what is there. -/
structure Orderly (c : Catalogue) (s : Session ρ) : Prop where
  sound : s.store.Sound c
  ready : ∀ task ∈ s.tasks, task.Ready c s.store

/-- Whether a session has gone on soundly, with further tasks on top that are about what is there. -/
structure Leads (c : Catalogue) (s s' : Session ρ) : Prop where
  sound : s'.store.Sound c
  nodeCount : s.store.nodeCount ≤ s'.store.nodeCount
  edgeCount : s.store.edgeCount ≤ s'.store.edgeCount
  keepsGraph : ∀ g ∈ s.store.graphs, g ∈ s'.store.graphs
  tasks : ∃ pushed, s'.tasks = pushed ++ s.tasks ∧ ∀ task ∈ pushed, task.Ready c s'.store

/-- Whether the topmost task is about to put in an item that another graph includes. -/
def Overtaken (s : Session ρ) : Prop :=
  match s.tasks with
  | .attach a _ :: _ => a.Overtaken s.store
  | _ => False

namespace Orderly

theorem leads (h : Orderly c s) (hleads : Leads c s s') : Orderly c s' := by
  obtain ⟨pushed, htasks, hpushed⟩ := hleads.tasks
  refine ⟨hleads.sound, fun task htask => ?_⟩
  rw [htasks] at htask
  rcases List.mem_append.mp htask with htask | htask
  · exact hpushed task htask
  · exact (h.ready task htask).mono hleads.nodeCount hleads.edgeCount fun g _ => hleads.keepsGraph g

theorem take
    {task : Task ρ}
    {rest : List (Task ρ)}
    (h : Orderly c s)
    (htasks : s.tasks = task :: rest) :
    Orderly c { s with tasks := rest } :=
  ⟨h.sound, fun other hother => h.ready other (htasks ▸ List.mem_cons_of_mem task hother)⟩

theorem release (h : Orderly c s) : Orderly c s.release := by
  have hages := s.ages_release h.sound.toPristine
  refine ⟨h.sound.ages hages, fun task htask => ?_⟩
  rw [tasks_release] at htask
  exact (h.ready task htask).mono hages.nodeCount hages.edgeCount
    fun g hg hmem => mem_graphs_release_of_task htask hg hmem

end Orderly

namespace Leads

theorem trans (h : Leads c s s') (h' : Leads c s' s'') : Leads c s s'' := by
  obtain ⟨pushed, htasks, hpushed⟩ := h.tasks
  obtain ⟨pushed', htasks', hpushed'⟩ := h'.tasks
  refine ⟨h'.sound, h.nodeCount.trans h'.nodeCount, h.edgeCount.trans h'.edgeCount,
    fun g hg => h'.keepsGraph g (h.keepsGraph g hg), pushed' ++ pushed,
    by rw [htasks', htasks, List.append_assoc], fun task htask => ?_⟩
  rcases List.mem_append.mp htask with htask | htask
  · exact hpushed' task htask
  · exact (hpushed task htask).mono h'.nodeCount h'.edgeCount fun g _ => h'.keepsGraph g

theorem adds
    {P : Task ρ → Prop}
    (hsound : s.store.Sound c)
    (hadds : s.Adds P s')
    (hready : ∀ task, P task → task.Ready c s.store) :
    Leads c s s' := by
  obtain ⟨hstore, pushed, htasks, hpushed⟩ := hadds
  refine ⟨?_, ?_, ?_, ?_, pushed, htasks, ?_⟩
  all_goals rw [hstore]
  · exact hsound
  · exact fun g hg => hg
  · exact fun task htask => hready task (hpushed task htask)

theorem aside
    (hsound : s.store.Sound c)
    (hstore : s'.store = s.store)
    (htasks : s'.tasks = s.tasks) :
    Leads c s s' :=
  adds (P := fun _ => False) hsound (.aside hstore htasks) fun _ => False.elim

theorem push
    {pushed : List (Task ρ)}
    (hsound : s.store.Sound c)
    (hpushed : ∀ task ∈ pushed, task.Ready c s.store) :
    Leads c s (s.push pushed) :=
  adds hsound (.push hpushed) fun _ h => h

theorem grows
    (hsound : s.store.Sound c)
    (hgrows : s.store.Grows s'.store)
    (htasks : s'.tasks = s.tasks) :
    Leads c s s' :=
  ⟨hsound.ages hgrows.toAges, hgrows.nodeCount, hgrows.edgeCount, hgrows.keepsGraph, [], htasks,
    fun _ h => absurd h List.not_mem_nil⟩

theorem rewires
    {e : Edge}
    {given : List Node}
    (hsound : s.store.Sound c)
    (hrewires : s.store.Rewires e given s'.store)
    (hknown : s.store.KnowsEdge c e)
    (hgiven : ∀ n ∈ given, s.store.KnowsNode c n)
    (htasks : s'.tasks = s.tasks) :
    Leads c s s' :=
  ⟨hsound.rewires hrewires hknown hgiven, hrewires.nodeCount.ge, hrewires.edgeCount.ge,
    fun g hg => by rwa [hrewires.graphs], [], htasks, fun _ h => absurd h List.not_mem_nil⟩

theorem loses
    {g : GraphId}
    {events : List Event}
    (hsound : s.store.Sound c)
    (hloses : s.store.Loses g events s'.store)
    (htasks : s'.tasks = s.tasks) :
    Leads c s s' :=
  ⟨hsound.loses hloses, hloses.nodeCount.ge, hloses.edgeCount.ge,
    fun g hg => (hloses.graphs g).mpr hg, [], htasks, fun _ h => absurd h List.not_mem_nil⟩

theorem of_undertakes
    {aim : Option GraphId}
    (hsound : s.store.Sound c)
    (h : Undertakes c aim s s') :
    Leads c s s' := by
  cases h with
  | rests hgrows htasks => exact .grows hsound hgrows htasks
  | wires store edge given hgrows hrewires hedge hgiven hdetached htasks =>
      have hgrown : Leads c s { s with store := store } := .grows hsound hgrows rfl
      exact hgrown.trans (.rewires hgrown.sound hrewires hedge.1 hgiven htasks)
  | starts duty hgrows htasks hdue =>
      have hgrown : Leads c s { s with store := s'.store } := .grows hsound hgrows rfl
      exact hgrown.trans (.adds hgrown.sound ⟨rfl, [duty], htasks,
        List.forall_mem_singleton.mpr hdue.ready⟩ fun _ h => h)
  | removes store graph events duty hgrows hremoves haim htasks hdue =>
      have hgrown : Leads c s { s with store := store } := .grows hsound hgrows rfl
      have hlost : Leads c { s with store := store } { s with store := s'.store } :=
        .loses hgrown.sound (hremoves.loses hgrown.sound.represented) rfl
      refine (hgrown.trans hlost).trans (.adds hlost.sound
        ⟨rfl, [.dispatch graph events, duty], htasks, fun task htask => ?_⟩ fun _ h => h)
      simp only [List.mem_cons, List.not_mem_nil, or_false] at htask
      rcases htask with rfl | rfl
      · trivial
      · exact hdue.ready

end Leads

section Commands

theorem begin_leads
    {cmd : Command ρ}
    (hsound : s.store.Sound c)
    (hgenuine : cmd.Genuine c s.store) :
    Leads c s (s.begin cmd) :=
  .of_undertakes hsound (begin_undertakes hsound hgenuine)

theorem issueRequest_leads
    {interpret : Interpreter ρ}
    {request : ρ}
    (hsound : s.store.Sound c)
    (hgenuine : ∀ cmd ∈ interpret.reads s.names request, cmd.Genuine c s.store) :
    Leads c s (s.issueRequest interpret request) := by
  rcases issueRequest_cases interpret s request with ⟨refusal, heq⟩ | ⟨cmd, hcmd, heq⟩
  · rw [heq]
    exact .aside hsound rfl rfl
  · rw [heq]
    exact begin_leads hsound (hgenuine cmd hcmd)

end Commands

section Steps

variable {a : Attachment} {ending : Ending} {interpret : Interpreter ρ}

/-- When a job has been done, the attachment goes on from there. -/
theorem moves_leads
    {job : Job}
    {jobs : List Job}
    {store : Store}
    {a' : Attachment}
    {departure : Option Departure}
    (hsound : s.store.Sound c)
    (hready : (Task.attach a ending : Task ρ).Ready c s.store)
    (hfree : ¬a.Overtaken s.store)
    (hjobs : a.jobs = job :: jobs)
    (hmoves : ({ a with jobs := jobs } : Attachment).Moves s.store job store a' departure) :
    Leads c s (({ s with store := store } : Session ρ).push [.attach a' ending]) := by
  obtain ⟨hgraph, hknown⟩ := hready
  rw [hjobs] at hknown
  have hjob := hknown job List.mem_cons_self
  have hcounts : store.nodeCount = s.store.nodeCount ∧ store.edgeCount = s.store.edgeCount ∧
      ∀ g ∈ s.store.graphs, g ∈ store.graphs := by
    rcases hmoves.store_cases hsound.represented with rfl | hgains | ⟨g, events, -, hloses⟩
    · exact ⟨rfl, rfl, fun _ hg => hg⟩
    · exact ⟨hgains.nodeCount, hgains.edgeCount, fun g hg => (hgains.graphs g).mpr (Or.inr hg)⟩
    · exact ⟨hloses.nodeCount, hloses.edgeCount, fun g hg => (hloses.graphs g).mpr hg⟩
  obtain ⟨hnodes, hedges, hgraphs⟩ := hcounts
  have hlater := hmoves.known hsound hjob fun other hother =>
    hknown other (List.mem_cons_of_mem job hother)
  refine ⟨hmoves.sound hsound hgraph hjob hjobs hfree, hnodes.ge, hedges.ge, hgraphs,
    [.attach a' ending], rfl, List.forall_mem_singleton.mpr ⟨?_, fun other hother => ?_⟩⟩
  · rw [hmoves.graph_eq]
    exact hgraphs _ hgraph
  · exact (hlater other hother).mono hnodes.ge hedges.ge

theorem attach_leads
    (hsound : s.store.Sound c)
    (hready : (Task.attach a ending : Task ρ).Ready c s.store)
    (hfree : ¬a.Overtaken s.store) :
    Leads c s (s.perform interpret (.attach a ending)) := by
  cases perform_attach interpret s a ending with
  | ends last hlast hnext => exact hnext ▸ .push hsound (by simp [Task.Ready])
  | stays job jobs store a' hjobs hmoves hnext =>
      exact hnext ▸ moves_leads hsound hready hfree hjobs hmoves
  | departs job jobs store a' d hjobs hmoves hnext =>
      have hleads := moves_leads hsound hready hfree hjobs hmoves
      exact hnext ▸ hleads.trans (.push hleads.sound (by simp [Task.Ready]))

theorem routine_leads
    {task : Task ρ}
    (hsound : s.store.Sound c)
    (hready : task.Ready c s.store)
    (hroutine : task.Routine) :
    Leads c s (s.perform interpret task) := by
  obtain ⟨aim, haims⟩ := hroutine.exists_aims s.store
  obtain ⟨kept, hkept, hundertakes⟩ := perform_undertakes hroutine hsound hready haims
  have hpushed : Leads c s (s.push kept) := .push hsound fun other hother =>
    (hkept other hother).2.ready
  exact hpushed.trans (.of_undertakes hsound hundertakes)

/-- Doing a part of a task leads on soundly, unless it puts in an item that another graph includes. -/
theorem perform_leads
    {task : Task ρ}
    (hsound : s.store.Sound c)
    (hready : task.Ready c s.store)
    (hfree : ∀ a ending, task = .attach a ending → ¬a.Overtaken s.store)
    (hgenuine : ∀ label request requests, task = .script label (request :: requests) →
      ∀ cmd ∈ interpret.reads s.names request, cmd.Genuine c s.store) :
    Leads c s (s.perform interpret task) := by
  have hnote : task.Note → (∀ label request requests, task ≠ .script label (request :: requests)) →
      Leads c s (s.perform interpret task) := by
    intro hnote hsilent
    exact .adds hsound (perform_note interpret s hnote hsilent) fun other hother =>
      (Task.Note.of_lighter hother hnote).ready
  cases task with
  | connect edge source target ending =>
      obtain ⟨hedge, hsource, htarget, hgraph⟩ := hready
      have hgiven : ∀ n ∈ [source, target], s.store.KnowsNode c n := by
        simp [hsource, htarget]
      have hrewires := Store.Rewires.rewire s.store edge source target
      have hleads : Leads c s { s with store := s.store.rewire edge source target } :=
        .rewires hsound hrewires hedge hgiven rfl
      refine hleads.trans (.push hleads.sound fun task htask => ?_)
      obtain rfl := List.mem_singleton.mp htask
      refine ⟨hleads.keepsGraph _ hgraph, fun job hjob => ?_⟩
      obtain rfl := List.mem_singleton.mp hjob
      exact hedge.mono hrewires.edgeCount.ge
  | attach a ending => exact attach_leads hsound hready (hfree a ending rfl)
  | addNodes | removeNodes | removeEdges | finish => exact routine_leads hsound hready trivial
  | script label requests =>
      cases requests with
      | nil => exact hnote (by simp [Task.Note, Task.rank]) (by simp)
      | cons request requests =>
          have hpushed : Leads c s (s.push [.record label, .script label requests]) :=
            .push hsound (by simp [Task.Ready])
          exact hpushed.trans
            (issueRequest_leads hsound (hgenuine label request requests rfl))
  | dispatch | deliver | announce | notify | record =>
      exact hnote (by simp [Task.Note, Task.rank]) (by simp)

/-- A step keeps a session orderly unless the topmost task has been overtaken. -/
theorem Orderly.step
    (h : Orderly c s)
    (hfree : ¬s.Overtaken)
    (hgenuine : ∀ cmd ∈ s.upcoming interpret, cmd.Genuine c s.store) :
    Orderly c (s.step interpret) := by
  rw [Session.step]
  cases htasks : s.tasks with
  | nil => exact h
  | cons task rest =>
      have htaken := h.take htasks
      refine (htaken.leads (perform_leads htaken.sound
        (h.ready task (htasks ▸ List.mem_cons_self)) ?_ ?_)).release
      · rintro a ending rfl
        rw [Overtaken, htasks] at hfree
        exact hfree
      · rintro label request requests rfl cmd hcmd
        exact hgenuine cmd (by rwa [upcoming_of_script htasks])

end Steps

end Session

end PatternGraph
