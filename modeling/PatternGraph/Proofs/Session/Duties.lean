import PatternGraph.Proofs.Session.History
import PatternGraph.Proofs.Store.Moves

/-!
# What tasks are about

A task is about items and graphs that are there, it can go on without harm, it brings items only into
the graph that its command aims at, and some tasks have events to tell.  A duty that is about to be
taken up is all right in each of these respects, and has nothing to tell yet.
-/

namespace PatternGraph

variable {ρ : Type} {c : Catalogue} {store store' : Store}

namespace Task

variable {task : Task ρ}

section Ready

/-- Whether a task is about items that have been created and graphs that are there. -/
def Ready (c : Catalogue) (store : Store) : Task ρ → Prop
  | .connect edge source target ending =>
    store.KnowsEdge c edge ∧ store.KnowsNode c source ∧ store.KnowsNode c target ∧
      ending.graph ∈ store.graphs
  | .attach a _ => a.graph ∈ store.graphs ∧ ∀ job ∈ a.jobs, job.Known c store
  | .addNodes graph rest _ => graph ∈ store.graphs ∧ ∀ n ∈ rest, store.KnowsNode c n
  | _ => True

theorem Ready.mono
    (h : task.Ready c store)
    (hnodes : store.nodeCount ≤ store'.nodeCount)
    (hedges : store.edgeCount ≤ store'.edgeCount)
    (hgraphs : ∀ g ∈ task.graphs, g ∈ store.graphs → g ∈ store'.graphs) :
    task.Ready c store' := by
  cases task with
  | connect edge source target ending =>
      exact ⟨h.1.mono hedges, h.2.1.mono hnodes, h.2.2.1.mono hnodes,
        hgraphs _ (List.mem_singleton_self _) h.2.2.2⟩
  | attach a ending =>
      exact ⟨hgraphs _ List.mem_cons_self h.1, fun job hjob => (h.2 job hjob).mono hnodes hedges⟩
  | addNodes graph rest added =>
      exact ⟨hgraphs _ (List.mem_singleton_self _) h.1, fun n hn => (h.2 n hn).mono hnodes⟩
  | _ => trivial

theorem Note.ready (h : task.Note) : task.Ready c store := by
  cases task with
  | connect | attach | addNodes => exact absurd h (by simp [Note, rank])
  | _ => trivial

end Ready

section Fit

/-- Whether a task adds further nodes. -/
def Collects : Task ρ → Prop
  | .addNodes .. => True
  | _ => False

/-- Whether a task can go on without harm. -/
def Fit (store : Store) : Task ρ → Prop
  | .connect edge _ _ _ => edge.id ∈ store.edges ∧ store.graphOfEdge edge = none
  | .attach a _ => ∀ job ∈ a.jobs, job.Fits a.graph store
  | _ => True

theorem Collects.not_note (h : task.Collects) : ¬task.Note := by
  cases task with
  | addNodes graph rest added => simp [Note, rank]
  | _ => exact h.elim

theorem Collects.fit (h : task.Collects) (store : Store) : task.Fit store := by
  cases task with
  | addNodes graph rest added => trivial
  | _ => exact h.elim

theorem Note.fit (h : task.Note) (store : Store) : task.Fit store := by
  cases task with
  | connect | attach => exact absurd h (by simp [Note, rank])
  | _ => trivial

/-- A task stays fit while a store ages, as long as the edges that it holds are kept. -/
theorem Fit.ages
    (h : task.Fit store)
    (hready : task.Ready c store)
    (hsound : store.Sound c)
    (hages : store.Ages store')
    (hheld : ∀ id, task.holds id = true → id ∈ store.edges → id ∈ store'.edges) :
    task.Fit store' := by
  have hhome : ∀ id, store'.home id = none ∨ store'.home id = store.home id := by
    intro id
    cases hid : store'.home id with
    | none => exact Or.inl rfl
    | some g => exact Or.inr (hages.home_of_home hsound hid).symm
  cases task with
  | connect edge source target ending =>
      refine ⟨hheld edge.id (by simp [holds]) h.1, ?_⟩
      rcases hhome (.edge edge.id) with hnone | hsame
      · exact hnone
      · exact hsame.trans h.2
  | attach a ending =>
      intro job hjob
      refine (h job hjob).mono (fun id hid hmem => hheld id ?_ hmem)
        (fun id => (hhome id).imp_right Or.inl) fun e hid hmem => ?_
      · have hany : a.jobs.any (Job.holds id) = true := by
          refine List.any_eq_true.mpr ⟨job, hjob, ?_⟩
          cases job with
          | node | settle => cases hid
          | edge | join => simpa [Job.holds, Job.item] using hid
        simp [holds, hany]
      · have hissued : e.id.number ≤ store.edgeCount := by
          have hknown := hready.2 job hjob
          cases job with
          | node | settle => cases hid
          | edge f => exact ItemId.edge.inj hid ▸ hknown.2
          | join f source target => exact ItemId.edge.inj hid ▸ hknown.1.2
        rw [(hages.edge e hissued hmem).2]
        exact ⟨rfl, rfl⟩
  | _ => trivial

end Fit

end Task

section Aims

/-- Whether a node that has left its graph is put in next, if there is one, and is still detached. -/
structure Attachment.Prompt (a : Attachment) (store : Store) : Prop where
  head : ∀ n, a.jobs.head? = some (.settle n) → store.graphOfNode n = none
  tail : ∀ n, .settle n ∉ a.jobs.tail

theorem Attachment.Prompt.of_not_mem {a : Attachment} (h : ∀ n, .settle n ∉ a.jobs) :
    a.Prompt store :=
  ⟨fun n hn => absurd (List.mem_of_head? hn) (h n), fun n hn => h n (List.mem_of_mem_tail hn)⟩

theorem Attachment.Prompt.ages
    {a : Attachment}
    (h : a.Prompt store)
    (hsound : store.Sound c)
    (hages : store.Ages store') :
    a.Prompt store' := by
  refine ⟨fun n hn => ?_, h.tail⟩
  cases hhome : store'.home (.node n.id) with
  | none => exact hhome
  | some g =>
      have hbefore : store.graphOfNode n = some g := hages.home_of_home hsound hhome
      rw [h.head n hn] at hbefore
      cases hbefore

/-- The graph into which a command brings items, if any. -/
def Command.aim : Command ρ → Option GraphId
  | .addNodes graph _ | .addNode graph _ | .addEdge graph _ _ _ _ | .insertEdge graph _ => some graph
  | _ => none

namespace Task

variable {aim : Option GraphId} {task : Task ρ}

/--
Whether a task brings items into the graph that is aimed at and takes them out of others only, and tells
accordingly.
-/
def Aims (aim : Option GraphId) (store : Store) : Task ρ → Prop
  | .connect _ _ _ ending => aim = some ending.graph
  | .attach a _ => aim = some a.graph ∧ (∀ event ∈ a.events, event.change = .added) ∧ a.Prompt store
  | .dispatch graph events => ∀ event ∈ events, event.change = .added ↔ aim = some graph
  | .addNodes graph _ _ => aim = some graph
  | .removeNodes graph _ | .removeEdges graph _ _ => aim ≠ some graph
  | _ => True

theorem Aims.of_rank (h : task.rank < 5) : task.Aims aim store := by
  cases task with
  | connect | attach | dispatch | addNodes | removeNodes | removeEdges =>
      exact absurd h (by simp [rank])
  | _ => trivial

theorem Aims.ages
    (h : task.Aims aim store)
    (hsound : store.Sound c)
    (hages : store.Ages store') :
    task.Aims aim store' := by
  cases task with
  | attach a ending => exact ⟨h.1, h.2.1, h.2.2.ages hsound hages⟩
  | _ => exact h

theorem Aims.collects (h : task.Aims aim store) (hcollects : task.Collects) :
    task.Aims aim store' := by
  cases task with
  | addNodes graph rest added => exact h
  | _ => exact hcollects.elim

/-- Removals are told of a graph that is not aimed at. -/
theorem Aims.departures
    {graph : GraphId}
    {events : List Event}
    (hevents : ∀ event ∈ events, event.change = .removed)
    (hgraph : aim ≠ some graph) :
    (Task.dispatch graph events : Task ρ).Aims aim store := by
  intro event hevent
  rw [hevents event hevent]
  simpa using hgraph

end Task

end Aims

namespace Task

section Due

variable {aim : Option GraphId} {task : Task ρ} {graph : GraphId}

/-- The events of a graph that a task has still to tell, a delivery only to the handlers that count. -/
def backlog (counts : Handler → Bool) (g : GraphId) : Task ρ → List Event
  | .attach a _ => if a.graph = g then a.events.reverse else []
  | .dispatch graph events => if graph = g then events else []
  | .deliver graph event handlers =>
    if graph = g ∧ handlers.any counts = true then [event] else []
  | _ => []

theorem backlog_of_rank {counts : Handler → Bool} {g : GraphId} (h : task.rank < 4) :
    task.backlog counts g = [] := by
  cases task with
  | connect | attach | dispatch | deliver | addNodes | removeNodes | removeEdges | finish =>
      exact absurd h (by simp [rank])
  | _ => rfl

/-- Whether a task goes through a list of items, or only ends a command. -/
def Routine : Task ρ → Prop
  | .addNodes .. | .removeNodes .. | .removeEdges .. | .finish _ => True
  | _ => False

theorem Routine.exists_aims (h : task.Routine) (store : Store) : ∃ aim, task.Aims aim store := by
  cases task with
  | addNodes graph rest added => exact ⟨some graph, rfl⟩
  | removeNodes graph rest => exact ⟨none, by simp [Aims]⟩
  | removeEdges graph rest named => exact ⟨none, by simp [Aims]⟩
  | finish ending => exact ⟨none, trivial⟩
  | _ => exact h.elim

/-- Whether a task can be taken up as the duty of a command that aims at some graph. -/
structure Due (c : Catalogue) (aim : Option GraphId) (store : Store) (task : Task ρ) : Prop where
  duty : ¬task.Note
  ready : task.Ready c store
  fit : task.Fit store
  aims : task.Aims aim store
  silent : ∀ counts g, task.backlog counts g = []

namespace Due

theorem finish (ending : Ending) : (Task.finish ending : Task ρ).Due c aim store where
  duty := by simp [Note, rank]
  ready := trivial
  fit := trivial
  aims := trivial
  silent := fun _ _ => rfl

theorem removeNodes (nodes : List Node) (haim : aim ≠ some graph) :
    (Task.removeNodes graph nodes : Task ρ).Due c aim store where
  duty := by simp [Note, rank]
  ready := trivial
  fit := trivial
  aims := haim
  silent := fun _ _ => rfl

theorem removeEdges (edges named : List Edge) (haim : aim ≠ some graph) :
    (Task.removeEdges graph edges named : Task ρ).Due c aim store where
  duty := by simp [Note, rank]
  ready := trivial
  fit := trivial
  aims := haim
  silent := fun _ _ => rfl

theorem addNodes
    {nodes : List Node}
    (added : List Node)
    (hgraph : graph ∈ store.graphs)
    (hnodes : ∀ n ∈ nodes, store.KnowsNode c n) :
    (Task.addNodes graph nodes added : Task ρ).Due c (some graph) store where
  duty := by simp [Note, rank]
  ready := ⟨hgraph, hnodes⟩
  fit := trivial
  aims := rfl
  silent := fun _ _ => rfl

/-- An attachment of one item that has not left a graph has gathered nothing yet. -/
theorem attach
    {job : Job}
    (ending : Ending)
    (hgraph : graph ∈ store.graphs)
    (hknown : job.Known c store)
    (hfits : job.Fits graph store)
    (hsettles : ∀ n, job ≠ .settle n) :
    (Task.attach ⟨graph, [job], []⟩ ending : Task ρ).Due c (some graph) store where
  duty := by simp [Note, rank]
  ready := ⟨hgraph, List.forall_mem_singleton.mpr hknown⟩
  fit := List.forall_mem_singleton.mpr hfits
  aims := ⟨rfl, by simp, .of_not_mem fun n hn => hsettles n (List.mem_singleton.mp hn).symm⟩
  silent := fun _ _ => by simp [backlog]

theorem connect
    {edge : Edge}
    {source target : Node}
    (ending : Ending)
    (hgraph : ending.graph ∈ store.graphs)
    (hedge : store.KnowsEdge c edge ∧ edge.id ∈ store.edges)
    (hsource : store.KnowsNode c source)
    (htarget : store.KnowsNode c target)
    (hdetached : store.graphOfEdge edge = none) :
    (Task.connect edge source target ending : Task ρ).Due c (some ending.graph) store where
  duty := by simp [Note, rank]
  ready := ⟨hedge.1, hsource, htarget, hgraph⟩
  fit := ⟨hedge.2, hdetached⟩
  aims := rfl
  silent := fun _ _ => rfl

end Due

end Due

end Task

end PatternGraph
