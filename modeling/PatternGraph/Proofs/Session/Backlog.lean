import PatternGraph.Proofs.Session.Orderly
import PatternGraph.Proofs.Store.Journal

/-!
# The backlog of a graph

The backlog of a graph consists of the events that are still to be told, from the topmost task down:
an attachment has yet to tell what it has gathered, a dispatch its events, and a delivery its event as
long as certain handlers are among those to be told.  A step takes what it tells off the top of the
backlog, and posts the events of what it changes in the graph below the rest of its own task.  These can
be replayed on what the graph includes.
-/

namespace PatternGraph

variable {ρ : Type} {c : Catalogue}

namespace Task

/-- The events of a graph that no handler which counts is still to be told when a task has gone on. -/
def tells (counts : Handler → Bool) (g : GraphId) (board : Board) : Task ρ → List Event
  | .dispatch graph (event :: _) =>
    if graph = g ∧ (board.handlers.map Prod.snd).any counts = false then [event] else []
  | .deliver graph event (handler :: handlers) =>
    if graph = g ∧ counts handler = true ∧ handlers.any counts = false then [event] else []
  | _ => []

end Task

namespace Session

variable {s s' s'' : Session ρ} {counts : Handler → Bool} {g graph : GraphId} {kept events : List Event}

/-- The events of a graph that are still to be told to the handlers that count. -/
def backlog (counts : Handler → Bool) (g : GraphId) (s : Session ρ) : List Event :=
  s.tasks.flatMap (Task.backlog counts g)

/-- The events of a graph that no handler which counts is still to be told after the next step. -/
def tells (counts : Handler → Bool) (g : GraphId) (s : Session ρ) : List Event :=
  s.tasks.head?.elim [] (Task.tells counts g (s.board g))

theorem backlog_of_idle (h : s.idle = true) : s.backlog counts g = [] := by
  rw [backlog, List.isEmpty_iff.mp h, List.flatMap_nil]

/--
Whether a session has got tasks on top that have still to tell what has been kept and the events of
what has happened to a graph.
-/
def Posts (counts : Handler → Bool) (g : GraphId) (kept : List Event) (s s' : Session ρ) : Prop :=
  ∃ pushed events, s'.tasks = pushed ++ s.tasks ∧
    pushed.flatMap (Task.backlog counts g) = kept ++ events ∧ s.store.Follows g events s'.store

namespace Posts

theorem still (hfollows : s.store.Follows g [] s'.store) (htasks : s'.tasks = s.tasks) :
    Posts counts g [] s s' :=
  ⟨[], [], htasks, rfl, hfollows⟩

theorem aside (hstore : s'.store = s.store) (htasks : s'.tasks = s.tasks) :
    Posts counts g [] s s' :=
  still (hstore ▸ .refl s.store g) htasks

theorem conclude (s : Session ρ) (outcome : Outcome) : Posts counts g [] s (s.conclude outcome) :=
  aside rfl rfl

/-- Tasks that keep what is owed come on top. -/
theorem push
    {pushed : List (Task ρ)}
    (hpushed : pushed.flatMap (Task.backlog counts g) = kept) :
    Posts counts g kept s (s.push pushed) :=
  ⟨pushed, [], rfl, by rw [hpushed, List.append_nil], .refl s.store g⟩

/-- Tasks that owe nothing have come on top before. -/
theorem after
    (pushed : List (Task ρ))
    (h : Posts counts g kept s' s'')
    (hfollows : s.store.Follows g [] s'.store)
    (htasks : s'.tasks = pushed ++ s.tasks)
    (hpushed : pushed.flatMap (Task.backlog counts g) = []) :
    Posts counts g kept s s'' := by
  obtain ⟨pushed', events, htasks', hpushed', hfollows'⟩ := h
  refine ⟨pushed' ++ pushed, events, by rw [htasks', htasks, List.append_assoc], ?_,
    hfollows.before hfollows'⟩
  rw [List.flatMap_append, hpushed', hpushed, List.append_nil]

/-- Handlers get lighter tasks on top, which owe nothing. -/
theorem adds
    (h : Posts counts g kept s s')
    (hadds : s'.Adds (·.rank < 4) s'') :
    Posts counts g kept s s'' := by
  obtain ⟨pushed, events, htasks, hpushed, hfollows⟩ := h
  obtain ⟨hstore, pushed', htasks', hpushed'⟩ := hadds
  refine ⟨pushed' ++ pushed, events, by rw [htasks', htasks, List.append_assoc], ?_,
    hstore ▸ hfollows⟩
  have hnone : pushed'.flatMap (Task.backlog counts g) = [] :=
    List.flatMap_eq_nil_iff.mpr fun task htask => Task.backlog_of_rank (hpushed' task htask)
  rw [List.flatMap_append, hnone, hpushed, List.nil_append]

/-- What is undertaken is told by the tasks that it leaves. -/
theorem of_undertakes
    {aim : Option GraphId}
    (hpristine : s.store.Pristine)
    (h : Undertakes c aim s s') :
    Posts counts g [] s s' := by
  cases h with
  | rests hgrows htasks => exact still (.ages hgrows.toAges hpristine g) htasks
  | wires store edge given hgrows hrewires hedge hgiven hdetached htasks =>
      have hkeeps : store.KeepsGraphs s'.store := ⟨hrewires.graphs, hrewires.graphCount⟩
      exact still ((Store.Follows.ages hgrows.toAges hpristine g).before (.of_keepsGraphs hkeeps g))
        htasks
  | starts duty hgrows htasks hdue =>
      refine ⟨[duty], [], htasks, ?_, .ages hgrows.toAges hpristine g⟩
      rw [List.flatMap_singleton, hdue.silent]
      rfl
  | removes store graph events duty hgrows hremoves haim htasks hdue =>
      refine ⟨[.dispatch graph events, duty], _, htasks, ?_,
        (Store.Follows.ages hgrows.toAges hpristine g).before (.of_logs hremoves.logs g)⟩
      rw [List.flatMap_cons, List.flatMap_singleton, hdue.silent, List.append_nil]
      rfl

end Posts

/-- To let go of what nobody holds does nothing to a graph that stays. -/
theorem follows_release
    {store : Store}
    (h : store.Follows g events s.store)
    (hpristine : s.store.Pristine) :
    store.Follows g events s.release.store :=
  h.afterwards (.ages (s.ages_release hpristine) hpristine g)

section Steps

variable {interpret : Interpreter ρ}

/-- What a request does to graphs is told by the tasks that it leaves. -/
theorem issueRequest_posts
    {request : ρ}
    (counts : Handler → Bool)
    (g : GraphId)
    (interpret : Interpreter ρ)
    (hsound : s.store.Sound c)
    (hgenuine : ∀ cmd ∈ interpret.reads s.names request, cmd.Genuine c s.store) :
    Posts counts g [] s (s.issueRequest interpret request) := by
  rcases issueRequest_cases interpret s request with ⟨refusal, heq⟩ | ⟨cmd, hcmd, heq⟩
  · rw [heq]
    exact .conclude s _
  · rw [heq]
    exact .of_undertakes hsound.toPristine (begin_undertakes hsound (hgenuine cmd hcmd))

/-- Whether the topmost task is about to put in an item that has come into a graph meanwhile. -/
def Forestalled (s : Session ρ) : Prop :=
  match s.tasks with
  | .attach a _ :: _ => a.Forestalled s.store
  | _ => False

instance (s : Session ρ) : Decidable s.Forestalled := by
  unfold Forestalled
  split <;> infer_instance

instance (s : Session ρ) : Decidable s.Overtaken := by
  unfold Overtaken
  split <;> infer_instance

/-- Whether the topmost task is about to put an item into a graph once more that it has got meanwhile. -/
def Repeats (g : GraphId) (id : ItemId) (s : Session ρ) : Prop :=
  match s.tasks with
  | .attach a _ :: _ => a.Repeats s.store g id
  | _ => False

instance (g : GraphId) (id : ItemId) (s : Session ρ) : Decidable (s.Repeats g id) := by
  unfold Repeats
  split <;> infer_instance

/-- An attachment keeps what it has gathered, and what its next job does comes after that. -/
theorem attach_posts
    {a : Attachment}
    {ending : Ending}
    (hsound : s.store.Sound c)
    (hgraph : a.graph ∈ s.store.graphs)
    (hfree : ¬a.Forestalled s.store) :
    Posts counts g ((Task.attach a ending : Task ρ).backlog counts g) s
      (s.perform interpret (.attach a ending)) := by
  cases perform_attach interpret s a ending with
  | ends last hlast hnext => exact hnext ▸ .push (by simp [Task.backlog])
  | stays job jobs store a' hjobs hmoves hnext =>
      have hsame : a'.graph = a.graph := hmoves.graph_eq
      obtain ⟨events, hevents, hlogs, -⟩ := hmoves.accounts hsound hgraph hjobs hfree
      rw [hnext]
      refine ⟨[.attach a' ending], _, rfl, ?_, Store.Follows.of_logs hlogs g⟩
      rw [List.flatMap_singleton, Task.backlog, Task.backlog, hsame, hevents, List.reverse_append,
        List.reverse_reverse]
      split <;> rfl
  | departs job jobs store a' d hjobs hmoves hnext =>
      have hsame : a'.graph = a.graph := hmoves.graph_eq
      obtain ⟨hevents, hother, hlogs, -⟩ := hmoves.accounts hsound hgraph hjobs hfree
      rw [hnext]
      refine ⟨[.dispatch d.graph d.events, .attach a' ending], _, rfl, ?_,
        Store.Follows.of_logs hlogs g⟩
      rw [List.flatMap_cons, List.flatMap_singleton, Task.backlog, Task.backlog, Task.backlog,
        hsame, hevents]
      -- the two tasks are about different graphs
      by_cases hg : a.graph = g
      · rw [if_pos hg, if_neg fun heq => hother (heq.trans hg.symm), List.append_nil,
          List.nil_append]
      · rw [if_neg hg, List.append_nil, List.nil_append]

theorem routine_posts
    {task : Task ρ}
    (hsound : s.store.Sound c)
    (hready : task.Ready c s.store)
    (hroutine : task.Routine) :
    Posts counts g [] s (s.perform interpret task) := by
  obtain ⟨aim, haims⟩ := hroutine.exists_aims s.store
  obtain ⟨kept, hkept, hundertakes⟩ := perform_undertakes hroutine hsound hready haims
  have hposts : Posts counts g [] (s.push kept) (s.perform interpret task) :=
    .of_undertakes hsound.toPristine hundertakes
  exact hposts.after kept (.refl s.store g) rfl
    (List.flatMap_eq_nil_iff.mpr fun other hother => (hkept other hother).2.silent counts g)

/-- Doing a part of a task takes what it tells off the top, and posts what it does. -/
theorem perform_posts
    {task : Task ρ}
    (counts : Handler → Bool)
    (g : GraphId)
    (interpret : Interpreter ρ)
    (s : Session ρ)
    (hsound : s.store.Sound c)
    (hready : task.Ready c s.store)
    (hfree : ∀ a ending, task = .attach a ending → ¬a.Forestalled s.store)
    (hgenuine : ∀ label request requests, task = .script label (request :: requests) →
      ∀ cmd ∈ interpret.reads s.names request, cmd.Genuine c s.store) :
    ∃ kept, task.backlog counts g = task.tells counts g (s.board g) ++ kept ∧
      Posts counts g kept s (s.perform interpret task) := by
  have hlight : task.rank < 4 →
      (∀ label request requests, task ≠ .script label (request :: requests)) →
      Posts counts g [] s (s.perform interpret task) := by
    intro hrank hsilent
    have hadds := perform_note interpret s (Nat.lt_trans hrank (by decide)) hsilent
    refine (Posts.aside rfl rfl).adds (hadds.mono fun other hother => ?_)
    rcases hother with hless | ⟨hsame, -⟩
    · exact Nat.lt_trans hless hrank
    · exact hsame ▸ hrank
  cases task with
  | connect edge source target ending =>
      let wired : Session ρ := { s with store := s.store.rewire edge source target }
      have hpushed : Posts counts g [] wired (s.perform interpret (.connect edge source target ending)) :=
        .push (by simp [Task.backlog])
      have hkeeps := Store.KeepsGraphs.rewire s.store edge source target
      exact ⟨[], rfl, hpushed.after [] (.of_keepsGraphs hkeeps g) rfl rfl⟩
  | attach a ending =>
      exact ⟨_, rfl, attach_posts hsound hready.1 (hfree a ending rfl)⟩
  | addNodes | removeNodes | removeEdges | finish =>
      exact ⟨[], rfl, routine_posts hsound hready trivial⟩
  | dispatch graph events =>
      cases events with
      | nil => exact ⟨[], by simp [Task.backlog, Task.tells], .aside rfl rfl⟩
      | cons event events =>
          refine ⟨_, ?_, .push rfl⟩
          by_cases hg : graph = g
          · subst hg
            cases hcounts : ((s.board graph).handlers.map Prod.snd).any counts <;>
              simp [Task.backlog, Task.tells, hcounts]
          · simp [Task.backlog, Task.tells, hg]
  | deliver graph event handlers =>
      cases handlers with
      | nil => exact ⟨[], by simp [Task.backlog, Task.tells], .aside rfl rfl⟩
      | cons handler handlers =>
          refine ⟨_, ?_, (Posts.push rfl).adds (tell_adds _ graph event handler)⟩
          cases hrest : handlers.any counts <;> cases hfirst : counts handler <;>
            simp [Task.backlog, Task.tells, hrest, hfirst]
  | script label requests =>
      refine ⟨[], rfl, ?_⟩
      cases requests with
      | nil => exact .aside rfl rfl
      | cons request requests =>
          have hissued := issueRequest_posts (s := s.push [.record label, .script label requests])
            counts g interpret hsound (hgenuine label request requests rfl)
          exact hissued.after [.record label, .script label requests] (.refl s.store g) rfl rfl
  | announce | notify | record => exact ⟨[], rfl, hlight (by simp [Task.rank]) (by simp)⟩

/--
A step takes what it tells off the top of the backlog, and posts the events of what it does to the
graph above the backlog of the tasks below its own.
-/
theorem Orderly.step_posts
    {task : Task ρ}
    {rest : List (Task ρ)}
    (h : Orderly c s)
    (counts : Handler → Bool)
    (g : GraphId)
    (htasks : s.tasks = task :: rest)
    (hfree : ¬s.Forestalled)
    (hgenuine : ∀ cmd ∈ s.upcoming interpret, cmd.Genuine c s.store) :
    ∃ kept events, task.backlog counts g = s.tells counts g ++ kept ∧
      (s.step interpret).backlog counts g =
        kept ++ events ++ rest.flatMap (Task.backlog counts g) ∧
      s.store.Follows g events (s.step interpret).store := by
  have htaken := h.take htasks
  have hready := h.ready task (htasks ▸ List.mem_cons_self)
  have hnotForestalled : ∀ a ending, task = .attach a ending → ¬a.Forestalled s.store := by
    rintro a ending rfl
    rwa [Forestalled, htasks] at hfree
  have hissued : ∀ label request requests, task = .script label (request :: requests) →
      ∀ cmd ∈ interpret.reads s.names request, cmd.Genuine c s.store := by
    rintro label request requests rfl cmd hcmd
    exact hgenuine cmd (by rwa [upcoming_of_script htasks])
  obtain ⟨kept, hkept, pushed, events, hpushed, hbacklog, hfollows⟩ :=
    perform_posts counts g interpret { s with tasks := rest } htaken.sound hready hnotForestalled
      hissued
  let done : Session ρ := ({ s with tasks := rest } : Session ρ).perform interpret task
  have hstep : s.step interpret = done.release := by
    rw [Session.step, htasks]
  have hpristine : done.store.Pristine := by
    refine (perform_leads htaken.sound hready (fun a ending heq hovertaken => ?_)
      hissued).sound.toPristine
    exact hnotForestalled a ending heq hovertaken.forestalled
  refine ⟨kept, events, ?_, ?_, ?_⟩
  · rw [tells, htasks]
    exact hkept
  · rw [hstep, backlog, tasks_release, hpushed, List.flatMap_append, hbacklog]
  · rw [hstep]
    exact follows_release hfollows hpristine

/--
An attachment that puts a node in which has come into its graph meanwhile tells that it has come, though
nothing happens to any graph.
-/
theorem Orderly.step_settles
    {a : Attachment}
    {ending : Ending}
    {rest : List (Task ρ)}
    {n : Node}
    {jobs : List Job}
    (h : Orderly c s)
    (counts : Handler → Bool)
    (g : GraphId)
    (interpret : Interpreter ρ)
    (htasks : s.tasks = .attach a ending :: rest)
    (hjobs : a.jobs = .settle n :: jobs)
    (hin : s.store.graphOfNode n = some a.graph) :
    (s.step interpret).backlog counts g =
      (Task.attach a ending : Task ρ).backlog counts g ++
        (if a.graph = g then [⟨.added, .node n⟩] else []) ++ rest.flatMap (Task.backlog counts g) ∧
      s.store.Follows g [] (s.step interpret).store := by
  let settled := ({ a with jobs := jobs } : Attachment).settle s.store n
  let done : Session ρ :=
    ({ s with tasks := rest, store := settled.1 } : Session ρ).push [.attach settled.2 ending]
  have hperform : ({ s with tasks := rest } : Session ρ).perform interpret (.attach a ending) = done := by
    rw [perform]
    simp only [hjobs, Attachment.perform]
    rfl
  have hready := h.ready _ (htasks ▸ List.mem_cons_self)
  have hpristine : done.store.Pristine := by
    rw [← hperform]
    have hfree : ¬a.Overtaken s.store := by
      rw [Attachment.Overtaken, hjobs]
      rintro ⟨g, hg, hother⟩
      exact hother (Option.some.inj (hg.symm.trans hin))
    refine (perform_leads (h.take htasks).sound hready ?_ ?_).sound.toPristine
    · rintro a' ending' ⟨⟩
      exact hfree
    · rintro label request requests ⟨⟩
  have hlogs : s.store.Logs a.graph [] settled.1 :=
    Attachment.settle_logs_nil { a with jobs := jobs } hready.1
      ((h.sound.home_eq_some_iff (.node n.id)).mp hin)
  have hfollows : s.store.Follows g [] settled.1 := by
    simpa using Store.Follows.of_logs hlogs g
  have hstep : s.step interpret = done.release := by
    rw [Session.step, htasks]
    exact congrArg Session.release hperform
  constructor
  · rw [hstep, backlog, tasks_release]
    change ((Task.attach settled.2 ending : Task ρ) :: rest).flatMap (Task.backlog counts g) = _
    rw [List.flatMap_cons]
    by_cases hg : a.graph = g
    · simp [Task.backlog, settled, Attachment.settle, hg]
    · simp [Task.backlog, settled, Attachment.settle, hg]
  · rw [hstep]
    exact follows_release hfollows hpristine

/-- A request of a client posts the events of what it does to the graph. -/
theorem Orderly.request_posts
    {request : ρ}
    (h : Orderly c s)
    (counts : Handler → Bool)
    (g : GraphId)
    (hidle : s.idle = true)
    (hgenuine : ∀ cmd ∈ interpret.reads s.names request, cmd.Genuine c s.store) :
    s.store.Follows g
      (({ s with log := [] }.issueRequest interpret request).release.backlog counts g)
      ({ s with log := [] }.issueRequest interpret request).release.store := by
  let cleared : Session ρ := { s with log := [] }
  let issued : Session ρ := cleared.issueRequest interpret request
  have hpristine : issued.store.Pristine :=
    (issueRequest_leads (s := cleared) h.sound hgenuine).sound.toPristine
  obtain ⟨pushed, events, htasks, hpushed, hfollows⟩ :=
    issueRequest_posts (s := cleared) counts g interpret h.sound hgenuine
  have hnone : cleared.tasks = [] := List.isEmpty_iff.mp hidle
  rw [hnone, List.append_nil] at htasks
  rw [backlog, tasks_release, htasks, hpushed, List.nil_append]
  exact follows_release hfollows hpristine

end Steps

end Session

end PatternGraph
