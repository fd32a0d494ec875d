import PatternGraph.Proofs.Session.Backlog
import PatternGraph.Proofs.Session.Poised

/-!
# What a call aims at

A call aims at one graph at most, into which it brings items, and every other graph only loses items to
it.  While handlers do not mutate, what is told of the graph that is aimed at are arrivals and what is
told of the others are departures, and a node that has left its graph for another one comes in before
anything else can happen to it.  So no attachment is ever forestalled.
-/

namespace PatternGraph

variable {ρ : Type} {c : Catalogue}

namespace Attachment

variable {a a' : Attachment} {store store' : Store} {job : Job} {departure : Option Departure}

/-- What is left after a job is as prompt as before. -/
theorem Moves.prompt
    {jobs : List Job}
    (hmoves : ({ a with jobs := jobs } : Attachment).Moves store job store' a' departure)
    (hrepresented : ∀ g, ∃ d, (store.index g).Represents d)
    (hrest : ∀ n, .settle n ∉ jobs) :
    a'.Prompt store' := by
  have hsettle : ∀ n : Node, (({ a with jobs := jobs } : Attachment).settle store n).2.Prompt
      (({ a with jobs := jobs } : Attachment).settle store n).1 := by
    intro n
    refine .of_not_mem fun m hm => ?_
    rcases List.mem_append.mp hm with hm | hm
    · obtain ⟨e, -, he⟩ := List.mem_map.mp hm
      cases he
    · exact hrest m hm
  have hunfold : ∀ (e : Edge) (source target : Node) (store : Store),
      ({ a with jobs := .node source :: .node target :: .join e source target :: jobs } :
        Attachment).Prompt store :=
    fun e source target store => .of_not_mem (by simpa using hrest)
  cases hmoves with
  | passNode n howned => exact .of_not_mem hrest
  | passEdge e howned => exact .of_not_mem hrest
  | passJoin e source target howned => exact .of_not_mem hrest
  | enter n howned hfree => exact hsettle n
  | settle n => exact hsettle n
  | leaveNode n howned hhome hremove =>
      refine ⟨fun m hm => ?_, hrest⟩
      obtain rfl : n = m := by simpa using hm
      obtain ⟨hloses, htold, -⟩ := Store.Loses.removeNode hrepresented hremove
      rw [Store.home_node, Store.home, hloses.owner, if_pos htold]
      rfl
  | unfold e howned hends hfree => exact hunfold e _ _ _
  | leaveEdge e howned hends hhome hremove => exact hunfold e _ _ _
  | join e source target howned hjoin =>
      obtain rfl := join_eq_ok hjoin
      exact .of_not_mem hrest

theorem Prompt.not_forestalled
    (h : a.Prompt store)
    (hfits : ∀ job ∈ a.jobs, job.Fits a.graph store) :
    ¬a.Forestalled store := by
  rw [Forestalled]
  split
  · rename_i n jobs hjobs
    rintro ⟨g, hhome⟩
    rw [h.head n (by rw [hjobs]; rfl)] at hhome
    cases hhome
  · exact not_overtaken hfits

end Attachment

namespace Session

variable {s s' s'' : Session ρ} {aim : Option GraphId} {graph : GraphId}

/-- Whether all tasks bring items into the graph that is aimed at only. -/
def Aimed (aim : Option GraphId) (s : Session ρ) : Prop :=
  ∀ task ∈ s.tasks, task.Aims aim s.store

namespace Aimed

/-- Tasks come on top of nodes that are to be added. -/
theorem collects
    (pushed : List (Task ρ))
    (h : s.Aimed aim)
    (hcollects : ∀ task ∈ s.tasks, task.Collects)
    (htasks : s'.tasks = pushed ++ s.tasks)
    (hpushed : ∀ task ∈ pushed, task.Aims aim s'.store) :
    s'.Aimed aim := by
  intro task htask
  rw [htasks] at htask
  rcases List.mem_append.mp htask with htask | htask
  · exact hpushed task htask
  · exact (h task htask).collects (hcollects task htask)

/-- Tasks come on top while the store is as it was. -/
theorem push
    {pushed : List (Task ρ)}
    (h : s.Aimed aim)
    (hstore : s'.store = s.store)
    (htasks : s'.tasks = pushed ++ s.tasks)
    (hpushed : ∀ task ∈ pushed, task.Aims aim s.store) :
    s'.Aimed aim := by
  intro task htask
  rw [htasks] at htask
  rw [hstore]
  rcases List.mem_append.mp htask with htask | htask
  · exact hpushed task htask
  · exact h task htask

theorem ages
    (h : s.Aimed aim)
    (hsound : s.store.Sound c)
    (hages : s.store.Ages s'.store)
    (htasks : s'.tasks = s.tasks) :
    s'.Aimed aim := by
  intro task htask
  rw [htasks] at htask
  exact (h task htask).ages hsound hages

/-- What is undertaken above nodes that are to be added has the same aim. -/
theorem of_undertakes
    (h : s.Aimed aim)
    (hcollects : ∀ task ∈ s.tasks, task.Collects)
    (hundertakes : Undertakes c aim s s') :
    s'.Aimed aim := by
  cases hundertakes with
  | rests hgrows htasks => exact h.collects [] hcollects htasks (by simp)
  | wires store edge given hgrows hrewires hedge hgiven hdetached htasks =>
      exact h.collects [] hcollects htasks (by simp)
  | starts duty hgrows htasks hdue =>
      exact h.collects [duty] hcollects htasks (List.forall_mem_singleton.mpr hdue.aims)
  | removes store graph events duty hgrows hremoves haim htasks hdue =>
      refine h.collects [.dispatch graph events, duty] hcollects htasks fun task htask => ?_
      simp only [List.mem_cons, List.not_mem_nil, or_false] at htask
      rcases htask with rfl | rfl
      · exact .departures hremoves.change_eq haim
      · exact hdue.aims

/-- A command that a client begins while nothing is in progress sets the aim. -/
theorem begin
    {cmd : Command ρ}
    (hidle : s.tasks = [])
    (hsound : s.store.Sound c)
    (hgenuine : cmd.Genuine c s.store) :
    (s.begin cmd).Aimed cmd.aim := by
  have hstart : s.Aimed cmd.aim := fun task htask => by
    rw [hidle] at htask
    cases htask
  exact hstart.of_undertakes (by simp [hidle]) (begin_undertakes hsound hgenuine)

section Steps

variable {interpret : Interpreter ρ} {task : Task ρ}

/-- Every request of a client has an aim. -/
theorem request
    {request : ρ}
    (h : Orderly c s)
    (hidle : s.idle = true)
    (hgenuine : ∀ cmd ∈ interpret.reads s.names request, cmd.Genuine c s.store) :
    ∃ aim, ({ s with log := [] }.issueRequest interpret request).release.Aimed aim := by
  let cleared : Session ρ := { s with log := [] }
  have hnone : cleared.tasks = [] := List.isEmpty_iff.mp hidle
  have hsound : (cleared.issueRequest interpret request).store.Sound c :=
    (issueRequest_leads (s := cleared) h.sound hgenuine).sound
  obtain ⟨aim, haimed⟩ : ∃ aim, (cleared.issueRequest interpret request).Aimed aim := by
    rcases issueRequest_cases interpret cleared request with ⟨refusal, heq⟩ | ⟨cmd, hcmd, heq⟩
    · rw [heq]
      refine ⟨none, fun task htask => ?_⟩
      rw [show (cleared.conclude (.refused refusal)).tasks = [] from hnone] at htask
      cases htask
    · rw [heq]
      exact ⟨cmd.aim, begin hnone h.sound (hgenuine cmd hcmd)⟩
  exact ⟨aim, haimed.ages hsound (ages_release _ hsound.toPristine) (tasks_release _)⟩

theorem attach
    {a : Attachment}
    {ending : Ending}
    (h : s.Aimed aim)
    (hcollects : ∀ task ∈ s.tasks, task.Collects)
    (hsound : s.store.Sound c)
    (hready : (Task.attach a ending : Task ρ).Ready c s.store)
    (hfits : ∀ job ∈ a.jobs, job.Fits a.graph s.store)
    (haims : (Task.attach a ending : Task ρ).Aims aim s.store) :
    (s.perform interpret (.attach a ending)).Aimed aim := by
  obtain ⟨haim, hadded, hprompt⟩ := haims
  have hfree := hprompt.not_forestalled hfits
  cases perform_attach interpret s a ending with
  | ends last hlast hnext =>
      rw [hnext]
      refine h.push rfl rfl fun task htask => ?_
      simp only [List.mem_cons, List.not_mem_nil, or_false] at htask
      rcases htask with rfl | rfl
      · intro event hevent
        exact iff_of_true (hadded event (List.mem_reverse.mp hevent)) haim
      · trivial
  | stays job jobs store a' hjobs hmoves hnext =>
      have hrest : ∀ n, .settle n ∉ jobs := fun n hn => hprompt.tail n (by rwa [hjobs])
      obtain ⟨events, hevents, -, hnew⟩ := hmoves.accounts hsound hready.1 hjobs hfree
      rw [hnext]
      refine h.collects [.attach a' ending] hcollects rfl (List.forall_mem_singleton.mpr
        ⟨haim.trans (congrArg some hmoves.graph_eq.symm), fun event hevent => ?_,
          hmoves.prompt hsound.represented hrest⟩)
      rw [hevents, List.mem_append, List.mem_reverse] at hevent
      exact hevent.elim (hnew event) (hadded event)
  | departs job jobs store a' d hjobs hmoves hnext =>
      have hrest : ∀ n, .settle n ∉ jobs := fun n hn => hprompt.tail n (by rwa [hjobs])
      obtain ⟨hevents, hother, -, hremoved⟩ := hmoves.accounts hsound hready.1 hjobs hfree
      rw [hnext]
      refine h.collects [.dispatch d.graph d.events, .attach a' ending] hcollects rfl
        fun task htask => ?_
      simp only [List.mem_cons, List.not_mem_nil, or_false] at htask
      rcases htask with rfl | rfl
      · exact .departures hremoved fun heq => hother (Option.some.inj (heq.symm.trans haim))
      · exact ⟨haim.trans (congrArg some hmoves.graph_eq.symm), by rwa [hevents],
          hmoves.prompt hsound.represented hrest⟩

theorem routine
    (h : s.Aimed aim)
    (hcollects : ∀ task ∈ s.tasks, task.Collects)
    (hsound : s.store.Sound c)
    (hready : task.Ready c s.store)
    (hroutine : task.Routine)
    (haims : task.Aims aim s.store) :
    (s.perform interpret task).Aimed aim := by
  obtain ⟨kept, hkept, hundertakes⟩ := perform_undertakes hroutine hsound hready haims
  have hpushed : (s.push kept).Aimed aim :=
    h.push rfl rfl fun other hother => (hkept other hother).2.aims
  refine hpushed.of_undertakes (fun other hother => ?_) hundertakes
  rcases List.mem_append.mp hother with hother | hother
  · exact (hkept other hother).1
  · exact hcollects other hother

/-- A duty goes on with the same aim. -/
theorem performDuty
    (h : s.Aimed aim)
    (hcollects : ∀ task ∈ s.tasks, task.Collects)
    (hsound : s.store.Sound c)
    (hduty : ¬task.Note)
    (hready : task.Ready c s.store)
    (hfit : task.Fit s.store)
    (haims : task.Aims aim s.store) :
    (s.perform interpret task).Aimed aim := by
  cases task with
  | connect edge source target ending =>
      exact h.collects [.attach ⟨ending.graph, [.edge edge], []⟩ ending] hcollects rfl
        (List.forall_mem_singleton.mpr ⟨haims, by simp, .of_not_mem (by simp)⟩)
  | attach a ending => exact attach h hcollects hsound hready hfit haims
  | addNodes | removeNodes | removeEdges | finish =>
      exact h.routine hcollects hsound hready trivial haims
  | _ => exact absurd (by simp [Task.Note, Task.rank]) hduty

/-- A note tells what it has to tell, and leaves notes that have to tell no more than that. -/
theorem performNote
    (h : s.Aimed aim)
    (hsound : s.store.Sound c)
    (hnote : task.Note)
    (hcalm : ∀ label request requests, task = .script label (request :: requests) →
      ∀ cmd ∈ interpret.reads s.names request, ¬cmd.Mutates)
    (haims : task.Aims aim s.store) :
    (s.perform interpret task).Aimed aim := by
  by_cases hdispatch : ∃ graph event events, task = .dispatch graph (event :: events)
  · obtain ⟨graph, event, events, rfl⟩ := hdispatch
    refine h.push rfl rfl fun task htask => ?_
    simp only [List.mem_cons, List.not_mem_nil, or_false] at htask
    rcases htask with rfl | rfl
    · trivial
    · exact fun event hevent => haims event (List.mem_cons_of_mem _ hevent)
  · obtain ⟨hgrows, pushed, htasks, hlighter⟩ := perform_calm hsound.toPristine hnote hcalm
    intro other hother
    rw [htasks] at hother
    rcases List.mem_append.mp hother with hother | hother
    · -- only a dispatch with events to tell leaves a dispatch
      refine .of_rank ?_
      rcases hlighter other hother with hless | ⟨hsame, hsize⟩
      · exact Nat.lt_of_lt_of_le hless (Nat.le_of_lt_succ hnote)
      · rw [hsame]
        refine Nat.lt_of_le_of_ne (Nat.le_of_lt_succ hnote) fun hrank => hdispatch ?_
        cases task with
        | dispatch graph events =>
            cases events with
            | nil => exact absurd hsize (Nat.not_lt_zero _)
            | cons event events => exact ⟨graph, event, events, rfl⟩
        | _ => exact absurd hrank (by simp [Task.rank])
    · exact (h other hother).ages hsound hgrows.toAges

/-- A step goes on with the same aim if scripts do not mutate. -/
theorem step
    (h : s.Aimed aim)
    (horderly : Orderly c s)
    (hpoised : s.Poised)
    (hgenuine : ∀ cmd ∈ s.upcoming interpret, cmd.Genuine c s.store ∧ ¬cmd.Mutates) :
    (s.step interpret).Aimed aim := by
  rw [Session.step]
  cases htasks : s.tasks with
  | nil => exact h
  | cons task rest =>
      have hmem : task ∈ s.tasks := htasks ▸ List.mem_cons_self
      have htaken : Orderly c ({ s with tasks := rest } : Session ρ) := horderly.take htasks
      have hrest : ({ s with tasks := rest } : Session ρ).Aimed aim := fun other hother =>
        h other (htasks ▸ List.mem_cons_of_mem task hother)
      have hreads : ∀ label request requests, task = .script label (request :: requests) →
          ∀ cmd ∈ interpret.reads s.names request, cmd.Genuine c s.store ∧ ¬cmd.Mutates := by
        rintro label request requests rfl cmd hcmd
        exact hgenuine cmd (by rwa [upcoming_of_script htasks])
      have hleads : Leads c ({ s with tasks := rest } : Session ρ)
          (({ s with tasks := rest } : Session ρ).perform interpret task) := by
        refine perform_leads htaken.sound (horderly.ready task hmem) ?_ ?_
        · rintro a ending rfl
          exact Attachment.not_overtaken (hpoised.fit _ hmem)
        · exact fun label request requests heq cmd hcmd =>
            (hreads label request requests heq cmd hcmd).1
      have hnext : (({ s with tasks := rest } : Session ρ).perform interpret task).Aimed aim := by
        have harranged := hpoised.arranged
        rw [htasks] at harranged
        cases harranged with
        | duty hduty hcollects =>
            exact hrest.performDuty hcollects htaken.sound hduty (horderly.ready task hmem)
              (hpoised.fit task hmem) (h task hmem)
        | note hnote _ =>
            exact hrest.performNote htaken.sound hnote
              (fun label request requests heq cmd hcmd =>
                (hreads label request requests heq cmd hcmd).2) (h task hmem)
      exact hnext.ages hleads.sound (ages_release _ hleads.sound.toPristine) (tasks_release _)

end Steps

/-- What a session is aimed at is put in at once. -/
theorem not_forestalled (h : s.Aimed aim) (hpoised : s.Poised) : ¬s.Forestalled := by
  rw [Forestalled]
  split
  · rename_i a ending rest htasks
    have hmem : .attach a ending ∈ s.tasks := htasks ▸ List.mem_cons_self
    exact (h _ hmem).2.2.not_forestalled (hpoised.fit _ hmem)
  · exact id

end Aimed

end Session

end PatternGraph
