import PatternGraph.Proofs.Session.Exclusive

/-!
# Poised sessions

While handlers do not mutate, at most one command changes graphs at a time: what is in progress is a
stack of notes above the duty of that command, and below it there are only nodes to be added
afterwards.  The duty finds everything as it left it, so the store stays wired, and no task is ever
overtaken.
-/

namespace PatternGraph

variable {ρ : Type} {c : Catalogue}

namespace Task

/-- Whether notes come first, then one duty, and then only nodes to be added. -/
inductive Arranged : List (Task ρ) → Prop
  | done : Arranged []
  | duty {task : Task ρ} {rest : List (Task ρ)} (hduty : ¬task.Note)
      (hrest : ∀ other ∈ rest, other.Collects) : Arranged (task :: rest)
  | note {task : Task ρ} {rest : List (Task ρ)} (hnote : task.Note) (hrest : Arranged rest) :
      Arranged (task :: rest)

theorem Arranged.collects {tasks : List (Task ρ)} (h : ∀ task ∈ tasks, task.Collects) :
    Arranged tasks := by
  cases tasks with
  | nil => exact .done
  | cons task rest =>
      exact .duty (h task List.mem_cons_self).not_note fun other hother =>
        h other (List.mem_cons_of_mem task hother)

theorem Arranged.notes
    {notes rest : List (Task ρ)}
    (hnotes : ∀ task ∈ notes, task.Note)
    (h : Arranged rest) :
    Arranged (notes ++ rest) := by
  induction notes with
  | nil => exact h
  | cons task notes ih =>
      exact .note (hnotes task List.mem_cons_self)
        (ih fun other hother => hnotes other (List.mem_cons_of_mem task hother))

end Task

namespace Session

variable {s s' : Session ρ}

/-- Whether the store is wired, and the tasks are arranged and can go on without harm. -/
structure Poised (s : Session ρ) : Prop where
  wired : s.store.Wired
  arranged : Task.Arranged s.tasks
  fit : ∀ task ∈ s.tasks, task.Fit s.store

namespace Poised

theorem aside (h : s.Poised) (hstore : s'.store = s.store) (htasks : s'.tasks = s.tasks) :
    s'.Poised := by
  obtain ⟨hwired, harranged, hfit⟩ := h
  exact ⟨hstore ▸ hwired, htasks ▸ harranged, by rwa [hstore, htasks]⟩

theorem collects (hwired : s.store.Wired) (htasks : ∀ task ∈ s.tasks, task.Collects) : s.Poised :=
  ⟨hwired, .collects htasks, fun task htask => (htasks task htask).fit s.store⟩

/-- A duty is taken up, above nodes to be added. -/
theorem duty
    {task : Task ρ}
    {rest : List (Task ρ)}
    (hwired : s.store.Wired)
    (htasks : s.tasks = task :: rest)
    (hrest : ∀ other ∈ rest, other.Collects)
    (hduty : ¬task.Note)
    (hfit : task.Fit s.store) :
    s.Poised := by
  refine ⟨hwired, htasks ▸ .duty hduty hrest, fun other hother => ?_⟩
  rw [htasks] at hother
  rcases List.mem_cons.mp hother with rfl | hother
  · exact hfit
  · exact (hrest other hother).fit s.store

/-- Notes come on top. -/
theorem notes
    {notes : List (Task ρ)}
    (h : s.Poised)
    (hstore : s'.store = s.store)
    (htasks : s'.tasks = notes ++ s.tasks)
    (hnotes : ∀ task ∈ notes, task.Note) :
    s'.Poised := by
  refine ⟨hstore ▸ h.wired, htasks ▸ .notes hnotes h.arranged, fun task htask => ?_⟩
  rw [htasks] at htask
  rw [hstore]
  rcases List.mem_append.mp htask with htask | htask
  · exact (hnotes task htask).fit s.store
  · exact h.fit task htask

theorem tell
    {graph : GraphId}
    {events : List Event}
    (h : s.Poised) :
    (s.push [.dispatch graph events]).Poised :=
  h.notes rfl rfl (by simp [Task.Note, Task.rank])

/-- The store has aged, and the tasks are the same. -/
theorem ages
    (h : s.Poised)
    (horderly : Orderly c s)
    (hages : s.store.Ages s'.store)
    (htasks : s'.tasks = s.tasks)
    (hheld : ∀ task ∈ s.tasks, ∀ id, task.holds id = true →
      id ∈ s.store.edges → id ∈ s'.store.edges) :
    s'.Poised := by
  refine ⟨h.wired.ages horderly.sound hages, htasks ▸ h.arranged, fun task htask => ?_⟩
  rw [htasks] at htask
  exact (h.fit task htask).ages (horderly.ready task htask) horderly.sound hages
    (hheld task htask)

theorem release (h : s.Poised) (horderly : Orderly c s) : s.release.Poised :=
  h.ages horderly (s.ages_release horderly.sound.toPristine) s.tasks_release
    fun _ htask _ hholds hmem => mem_edges_release_of_task htask hholds hmem

/-- What is undertaken above nodes that are to be added leaves a session poised. -/
theorem of_undertakes
    {aim : Option GraphId}
    (hsound : s.store.Sound c)
    (hwired : s.store.Wired)
    (hcollects : ∀ task ∈ s.tasks, task.Collects)
    (h : Undertakes c aim s s') :
    s'.Poised := by
  cases h with
  | rests hgrows htasks =>
      exact collects (hwired.ages hsound hgrows.toAges) (htasks ▸ hcollects)
  | wires store edge given hgrows hrewires hedge hgiven hdetached htasks =>
      have hgrown := hwired.ages hsound hgrows.toAges
      exact collects (hgrown.rewires (hsound.ages hgrows.toAges) hrewires hedge.1 hedge.2 hdetached)
        (htasks ▸ hcollects)
  | starts task hgrows htasks hdue =>
      exact duty (hwired.ages hsound hgrows.toAges) htasks hcollects hdue.duty hdue.fit
  | removes store graph events task hgrows hremoves haim htasks hdue =>
      have hgrown := hwired.ages hsound hgrows.toAges
      have hsound' := hsound.ages hgrows.toAges
      have hnext : ({ s' with tasks := task :: s.tasks } : Session ρ).Poised :=
        Poised.duty (hgrown.loses hsound' (hremoves.loses hsound'.represented)) rfl hcollects
          hdue.duty hdue.fit
      have htold : s'.tasks = [.dispatch graph events] ++ task :: s.tasks := htasks
      exact hnext.notes rfl htold (by simp [Task.Note, Task.rank])

/-- A command that a client begins while nothing is in progress leaves a session poised. -/
theorem begin
    {cmd : Command ρ}
    (hsound : s.store.Sound c)
    (hwired : s.store.Wired)
    (hidle : s.tasks = [])
    (hgenuine : cmd.Genuine c s.store) :
    (s.begin cmd).Poised :=
  of_undertakes hsound hwired (by simp [hidle]) (begin_undertakes hsound hgenuine)

section Steps

variable {a : Attachment} {ending : Ending} {interpret : Interpreter ρ}

/-- When a job has been done, the attachment can go on from there. -/
theorem moves
    {job : Job}
    {jobs : List Job}
    {store : Store}
    {a' : Attachment}
    {departure : Option Departure}
    (hsound : s.store.Sound c)
    (hwired : s.store.Wired)
    (hcollects : ∀ task ∈ s.tasks, task.Collects)
    (hready : (Task.attach a ending : Task ρ).Ready c s.store)
    (hfit : ∀ job ∈ a.jobs, job.Fits a.graph s.store)
    (hjobs : a.jobs = job :: jobs)
    (hmoves : ({ a with jobs := jobs } : Attachment).Moves s.store job store a' departure) :
    (({ s with store := store } : Session ρ).push [.attach a' ending]).Poised := by
  rw [hjobs] at hfit
  have hjob := hfit job List.mem_cons_self
  have hwired' := hmoves.wired hsound hwired hready.1 (hready.2 job (hjobs ▸ List.mem_cons_self)) hjob
  have hfits := hmoves.fits hsound.represented hready.1 hjob fun other hother =>
    hfit other (List.mem_cons_of_mem job hother)
  refine duty hwired' rfl hcollects (by simp [Task.Note, Task.rank]) fun other hother => ?_
  rw [hmoves.graph_eq]
  exact hfits other hother

theorem attach
    (hsound : s.store.Sound c)
    (hwired : s.store.Wired)
    (hcollects : ∀ task ∈ s.tasks, task.Collects)
    (hready : (Task.attach a ending : Task ρ).Ready c s.store)
    (hfit : ∀ job ∈ a.jobs, job.Fits a.graph s.store) :
    (s.perform interpret (.attach a ending)).Poised := by
  cases perform_attach interpret s a ending with
  | ends last hlast hnext =>
      have hfinish : (s.push [.finish last]).Poised :=
        duty hwired rfl hcollects (by simp [Task.Note, Task.rank]) trivial
      exact hnext ▸ hfinish.tell
  | stays job jobs store a' hjobs hmoves hnext =>
      exact hnext ▸ moves hsound hwired hcollects hready hfit hjobs hmoves
  | departs job jobs store a' d hjobs hmoves hnext =>
      exact hnext ▸ (moves hsound hwired hcollects hready hfit hjobs hmoves).tell

theorem routine
    {task : Task ρ}
    (hsound : s.store.Sound c)
    (hwired : s.store.Wired)
    (hcollects : ∀ other ∈ s.tasks, other.Collects)
    (hready : task.Ready c s.store)
    (hroutine : task.Routine) :
    (s.perform interpret task).Poised := by
  obtain ⟨aim, haims⟩ := hroutine.exists_aims s.store
  obtain ⟨kept, hkept, hundertakes⟩ := perform_undertakes hroutine hsound hready haims
  refine of_undertakes (s := s.push kept) hsound hwired (fun task htask => ?_) hundertakes
  rcases List.mem_append.mp htask with htask | htask
  · exact (hkept task htask).1
  · exact hcollects task htask

/-- A duty leaves a session poised. -/
theorem performDuty
    {task : Task ρ}
    (hsound : s.store.Sound c)
    (hwired : s.store.Wired)
    (hcollects : ∀ other ∈ s.tasks, other.Collects)
    (hduty : ¬task.Note)
    (hready : task.Ready c s.store)
    (hfit : task.Fit s.store) :
    (s.perform interpret task).Poised := by
  cases task with
  | connect edge source target ending =>
      have hrewires := Store.Rewires.rewire s.store edge source target
      refine duty (hwired.rewires hsound hrewires hready.1 hfit.1 hfit.2) rfl hcollects
        (by simp [Task.Note, Task.rank]) fun job hjob => ?_
      obtain rfl := List.mem_singleton.mp hjob
      exact (hrewires.alive edge.id).mpr (Or.inl hfit.1)
  | attach a ending => exact attach hsound hwired hcollects hready hfit
  | addNodes | removeNodes | removeEdges | finish =>
      exact routine hsound hwired hcollects hready trivial
  | dispatch | deliver | announce | notify | script | record =>
      exact absurd (by simp [Task.Note, Task.rank]) hduty

end Steps

end Poised

/-- A note leaves lighter notes, and the store grows at most, if scripts do not mutate. -/
theorem perform_calm
    {task : Task ρ}
    {interpret : Interpreter ρ}
    (hpristine : s.store.Pristine)
    (hnote : task.Note)
    (hcalm : ∀ label request requests, task = .script label (request :: requests) →
      ∀ cmd ∈ interpret.reads s.names request, ¬cmd.Mutates) :
    s.store.Grows (s.perform interpret task).store ∧
      ∃ pushed, (s.perform interpret task).tasks = pushed ++ s.tasks ∧
        ∀ other ∈ pushed, other.Lighter task := by
  by_cases hscript : ∃ label request requests, task = .script label (request :: requests)
  · obtain ⟨label, request, requests, rfl⟩ := hscript
    let pushed : List (Task ρ) := [.record label, .script label requests]
    have hpushed : ∀ other ∈ pushed, other.Lighter (.script label (request :: requests)) := by
      simp [pushed, Task.Lighter, Task.rank, Task.size]
    have hperform : s.perform interpret (.script label (request :: requests)) =
      (s.push pushed).issueRequest interpret request := rfl
    rw [hperform]
    rcases issueRequest_cases interpret (s.push pushed) request with ⟨refusal, heq⟩ | ⟨cmd, hcmd, heq⟩
    · rw [heq]
      exact ⟨.refl hpristine, pushed, rfl, hpushed⟩
    · rw [heq]
      obtain ⟨htasks, hgrows⟩ := (s.push pushed).begin_calm hpristine
        (hcalm label request requests rfl cmd hcmd)
      exact ⟨hgrows, pushed, htasks, hpushed⟩
  · obtain ⟨hstore, pushed, htasks, hpushed⟩ := perform_note interpret s hnote
      fun label request requests heq => hscript ⟨label, request, requests, heq⟩
    rw [hstore]
    exact ⟨.refl hpristine, pushed, htasks, hpushed⟩

/-- A poised session is not overtaken. -/
theorem Poised.not_overtaken (h : s.Poised) : ¬s.Overtaken := by
  rw [Overtaken]
  split
  · rename_i a ending rest htasks
    exact Attachment.not_overtaken (h.fit (.attach a ending) (htasks ▸ List.mem_cons_self))
  · exact id

/-- A step leaves a session poised if scripts do not mutate. -/
theorem Poised.step
    {interpret : Interpreter ρ}
    (h : s.Poised)
    (horderly : Orderly c s)
    (hgenuine : ∀ cmd ∈ s.upcoming interpret, cmd.Genuine c s.store ∧ ¬cmd.Mutates) :
    (s.step interpret).Poised := by
  rw [Session.step]
  cases htasks : s.tasks with
  | nil => exact h
  | cons task rest =>
      have htaken := horderly.take htasks
      have hready := horderly.ready task (htasks ▸ List.mem_cons_self)
      have hfit := h.fit task (htasks ▸ List.mem_cons_self)
      have hreads : ∀ label request requests, task = .script label (request :: requests) →
          ∀ cmd ∈ interpret.reads s.names request, cmd.Genuine c s.store ∧ ¬cmd.Mutates := by
        rintro label request requests rfl cmd hcmd
        exact hgenuine cmd (by rwa [upcoming_of_script htasks])
      have hnext : Orderly c (({ s with tasks := rest } : Session ρ).perform interpret task) := by
        refine htaken.leads (perform_leads htaken.sound hready ?_ ?_)
        · rintro a ending rfl
          exact Attachment.not_overtaken hfit
        · intro label request requests heq cmd hcmd
          exact (hreads label request requests heq cmd hcmd).1
      refine Poised.release (c := c) ?_ hnext
      have harranged := h.arranged
      rw [htasks] at harranged
      cases harranged with
      | duty hduty hrest => exact performDuty htaken.sound h.wired hrest hduty hready hfit
      | note hnote hrest =>
          have hrested : ({ s with tasks := rest } : Session ρ).Poised :=
            ⟨h.wired, hrest, fun other hother =>
              h.fit other (htasks ▸ List.mem_cons_of_mem task hother)⟩
          obtain ⟨hgrows, pushed, hpushed, hlighter⟩ :=
            perform_calm htaken.sound.toPristine hnote fun label request requests heq cmd hcmd =>
              (hreads label request requests heq cmd hcmd).2
          have hgrown : ({ s with
              tasks := rest
              store := (({ s with tasks := rest } : Session ρ).perform interpret task).store } :
                Session ρ).Poised :=
            hrested.ages htaken hgrows.toAges rfl fun _ _ id _ hmem => hgrows.keepsEdge id hmem
          exact hgrown.notes rfl hpushed fun other hother =>
            Task.Note.of_lighter (hlighter other hother) hnote

end Session

end PatternGraph
