import PatternGraph.Proofs.Session.Deliveries
import PatternGraph.Proofs.Session.EventLog
import PatternGraph.Proofs.Session.Phases

/-!
# What subscribers see of a call

A call that adds a node or an edge to a graph puts its items in one after the other, and other graphs
tell in between what they have lost to it.  While handlers do not mutate, whoever looks at the graph
during the call sees the first of the arrivals that the graph is going to announce: its own subscribers
see all of them, and those of other graphs never do unless the call fails.
-/

namespace PatternGraph

variable {ρ : Type} {c : Catalogue} {interpret : Interpreter ρ}

/-- Whether a task tells the subscribers of a graph of an event. -/
def Task.Delivers (g : GraphId) : Task ρ → Prop
  | .deliver graph _ _ => graph = g
  | _ => False

instance (g : GraphId) (task : Task ρ) : Decidable (task.Delivers g) := by
  cases task <;> (unfold Task.Delivers; infer_instance)

namespace Session

/-- Whether a graph is telling its subscribers of an event. -/
def Telling (g : GraphId) (s : Session ρ) : Prop :=
  ∃ task ∈ s.tasks, task.Delivers g

instance (g : GraphId) (s : Session ρ) : Decidable (s.Telling g) :=
  inferInstanceAs (Decidable (∃ task ∈ s.tasks, _))

variable {s : Session ρ} {g : GraphId} {aim : Option GraphId} {past : List (Session ρ)}
  {cmd : Command ρ} {id : ItemId} {permits : Command ρ → Prop}

theorem run_add (s : Session ρ) (m n : Nat) :
    s.run interpret (m + n) = (s.run interpret m).run interpret n := by
  induction m generalizing s with
  | zero => rw [Nat.zero_add, run]
  | succ m ih =>
      by_cases hidle : s.idle = true
      · rw [run_of_idle hidle, run_of_idle hidle, run_of_idle hidle]
      · rw [Nat.succ_add, run, if_neg hidle, run, if_neg hidle, ih]

theorem announced_add (s : Session ρ) (g : GraphId) (m n : Nat) :
    announced interpret g (m + n) s =
      announced interpret g m s ++ announced interpret g n (s.run interpret m) := by
  induction m generalizing s with
  | zero => rw [Nat.zero_add, announced, List.nil_append, run]
  | succ m ih =>
      by_cases hidle : s.idle = true
      · rw [announced_of_idle hidle, announced_of_idle hidle, run_of_idle hidle,
          announced_of_idle hidle, List.append_nil]
      · rw [Nat.succ_add, announced, announced, ih, run, if_neg hidle, List.append_assoc]

/-- A run that comes to an end comes to the same end from any moment. -/
theorem run_of_moment {fuel : Nat} (hdone : (s.run interpret fuel).idle = true) (moment : Nat) :
    (s.run interpret moment).run interpret fuel = s.run interpret fuel := by
  rw [← run_add, Nat.add_comm, run_add]
  exact run_of_idle hdone moment

theorem announced_of_moment {fuel : Nat} (hdone : (s.run interpret fuel).idle = true) (moment : Nat) :
    announced interpret g fuel s =
      announced interpret g moment s ++ announced interpret g fuel (s.run interpret moment) := by
  rw [← announced_add, Nat.add_comm, announced_add, announced_of_idle hdone, List.append_nil]

theorem Calm.run (h : Calm c interpret s) (fuel : Nat) : Calm c interpret (s.run interpret fuel) :=
  run_preserves (P := Calm c interpret) (fun _ hcalm => hcalm.step) h fuel

theorem Aimed.run (h : s.Aimed aim) (hcalm : Calm c interpret s) (fuel : Nat) :
    (s.run interpret fuel).Aimed aim :=
  (run_preserves (P := fun t => t.Aimed aim ∧ Calm c interpret t)
    (fun _ ⟨haimed, hcalm⟩ =>
      ⟨haimed.step hcalm.orderly hcalm.poised (hcalm.abides 1).1, hcalm.step⟩)
    ⟨h, hcalm⟩ fuel).1

theorem Phase.run (h : s.Phase g) (hcalm : Calm c interpret s) (haimed : s.Aimed aim) (fuel : Nat) :
    (s.run interpret fuel).Phase g :=
  (run_preserves (P := fun t => t.Phase g ∧ t.Aimed aim ∧ Calm c interpret t)
    (fun _ ⟨hphase, haimed, hcalm⟩ =>
      ⟨hphase.step hcalm (haimed.not_forestalled hcalm.poised),
        haimed.step hcalm.orderly hcalm.poised (hcalm.abides 1).1, hcalm.step⟩)
    ⟨h, haimed, hcalm⟩ fuel).1

theorem not_idle_of_last {notes : List (Task ρ)} {duty : Task ρ} (h : s.tasks = notes ++ [duty]) :
    ¬s.idle = true := by
  intro hidle
  rw [List.isEmpty_iff.mp hidle] at h
  exact List.cons_ne_nil _ _ (List.append_eq_nil_iff.mp h.symm).2

/-- While a call only tells and ends, things are at most let go. -/
theorem Calm.run_tells
    {notes : List (Task ρ)}
    {ending : Ending}
    (h : Calm c interpret s)
    (htasks : s.tasks = notes ++ [.finish ending])
    (hnotes : ∀ note ∈ notes, note.Note)
    (fuel : Nat) :
    s.store.Ages (s.run interpret fuel).store := by
  induction fuel generalizing s notes with
  | zero => exact .refl h.orderly.sound.toPristine
  | succ fuel ih =>
      rw [Session.run]
      split
      · exact .refl h.orderly.sound.toPristine
      · cases notes with
        | nil =>
            obtain ⟨hidle, -, hages⟩ := h.step_finish htasks
            rwa [run_of_idle hidle]
        | cons note notes =>
            obtain ⟨⟨notes', htasks', hnotes'⟩, hages⟩ := h.step_notes htasks hnotes
            exact hages.trans (ih h.step htasks' hnotes')

/-- What is in the graph that a call aims at is there when the call is over. -/
theorem Aimed.run_keeps
    (h : s.Aimed (some g))
    (hcalm : Calm c interpret s)
    {fuel : Nat}
    (hidle : (s.run interpret fuel).idle = true)
    (hspares : (s.run interpret fuel).store.Spares g)
    (hin : (s.store.index g).Includes id) :
    ((s.run interpret fuel).store.index g).Includes id := by
  obtain ⟨-, hchanges, hreplays⟩ := h.run_replays hcalm fuel hspares
  obtain ⟨d, hd⟩ := hcalm.orderly.sound.represented g
  obtain ⟨d', events, hd', hreplay, hall⟩ := hreplays d hd
  rw [backlog_of_idle hidle, List.append_nil] at hall
  rw [hd'.includes_iff]
  refine hreplay.keeps (fun event hevent => ?_) ((hd.includes_iff id).mp hin)
  exact (hchanges event (hall ▸ List.mem_append_right _ hevent)).mpr rfl

/-- What a call is about to bring in is there when the call is over, unless it has failed. -/
theorem Aimed.run_promises
    {notes : List (Task ρ)}
    {duty : Task ρ}
    (h : s.Aimed (some g))
    (hcalm : Calm c interpret s)
    (htasks : s.tasks = notes ++ [duty])
    (hnotes : ∀ note ∈ notes, note.Note)
    (hduty : duty.Feeds g ∨ ∃ ending, duty = .finish ending)
    (hpromises : duty.Promises id)
    {fuel : Nat}
    (hidle : (s.run interpret fuel).idle = true)
    (hspares : (s.run interpret fuel).store.Spares g) :
    (s.run interpret fuel).outcome.failed = true ∨
      ((s.run interpret fuel).store.index g).Includes id := by
  induction fuel generalizing s notes duty with
  | zero => exact absurd hidle (not_idle_of_last htasks)
  | succ fuel ih =>
      rw [Session.run, if_neg (not_idle_of_last htasks)] at hidle hspares ⊢
      have hnext := h.step hcalm.orderly hcalm.poised (hcalm.abides 1).1
      cases notes with
      | nil =>
          rcases hduty with hfeeds | ⟨ending, rfl⟩
          · have hadvances := hcalm.step_feeds (h.not_forestalled hcalm.poised) htasks hfeeds
            cases hadvances with
            | feeds notes next htasks' hfeeds' hgraph hnotes' howed hkept =>
                rcases hkept id hpromises with hin | hpromises'
                · exact Or.inr (hnext.run_keeps hcalm.step hidle hspares hin)
                · exact ih hnext hcalm.step htasks' (fun note hnote => (hnotes' note hnote).1)
                    (Or.inl hfeeds') hpromises' hidle hspares
            | tells notes ending htasks' hnotes' hkept =>
                exact ih hnext hcalm.step htasks' (fun note hnote => (hnotes' note hnote).1)
                  (Or.inr ⟨ending, rfl⟩) (hkept id hpromises) hidle hspares
          · obtain ⟨hdone, houtcome, -⟩ := hcalm.step_finish htasks
            rw [run_of_idle hdone, houtcome]
            exact Or.inl hpromises
      | cons note notes =>
          obtain ⟨⟨notes', htasks', hnotes'⟩, -⟩ := hcalm.step_notes htasks hnotes
          exact ih hnext hcalm.step htasks' hnotes' hduty hpromises hidle hspares

/--
While a graph tells its subscribers of a call, nothing is left to come in, and while another graph does so
something is, unless the call fails.
-/
theorem Phase.left_of_telling
    {fuel : Nat}
    {left : List Event}
    {d d' : Diagram}
    {k : GraphId}
    (h : s.Phase g)
    (hcalm : Calm c interpret s)
    (haimed : s.Aimed (some g))
    (hidle : (s.run interpret fuel).idle = true)
    (hspares : (s.run interpret fuel).store.Spares g)
    (hd : (s.store.index g).Represents d)
    (hd' : ((s.run interpret fuel).store.index g).Represents d')
    (hleft : d.Replays left d')
    (hadded : ∀ event ∈ left, event.change = .added)
    (htelling : s.Telling k) :
    (k = g → left = []) ∧
      (k ≠ g → (s.run interpret fuel).outcome.failed = false → left ≠ []) := by
  obtain ⟨task, htask, hdelivers⟩ := htelling
  have hgraphs : task.graphs = [k] := by
    cases task with
    | deliver graph event handlers => exact congrArg (fun g => [g]) hdelivers
    | _ => exact hdelivers.elim
  cases h with
  | brings notes duty htasks hfeeds hnotes howed =>
      have hnote : task ∈ notes := by
        rw [htasks] at htask
        refine (List.mem_append.mp htask).resolve_right fun hmem => ?_
        rw [List.mem_singleton.mp hmem] at hdelivers
        cases duty with
        | connect | attach => exact hdelivers
        | _ => exact hfeeds
      have hk : k ≠ g := by
        rintro rfl
        exact (hnotes task hnote).2 (hgraphs ▸ List.mem_singleton_self k)
      refine ⟨fun heq => absurd heq hk, fun _ hok hnone => ?_⟩
      obtain ⟨id, hout, hpromises⟩ := howed (List.ne_nil_of_mem hnote)
      rcases haimed.run_promises hcalm htasks (fun note hnote => (hnotes note hnote).1) (Or.inl hfeeds)
        hpromises hidle hspares with hfailed | hin
      · rw [hok] at hfailed
        cases hfailed
      · subst hnone
        cases hleft
        rw [hd.includes_iff] at hout
        exact hout ((hd'.includes_iff id).mp hin)
  | tells notes ending htasks hnotes =>
      have hnote : task ∈ notes := by
        rw [htasks] at htask
        refine (List.mem_append.mp htask).resolve_right fun hmem => ?_
        rw [List.mem_singleton.mp hmem] at hdelivers
        exact hdelivers
      have hk : k = g := (hnotes task hnote).2 k (hgraphs ▸ List.mem_singleton_self k)
      refine ⟨fun _ => ?_, fun hne => absurd hk hne⟩
      have hages := hcalm.run_tells htasks (fun note hnote => (hnotes note hnote).1) fuel
      have hindex := (Store.Follows.ages hages hcalm.orderly.sound.toPristine g).index_eq hspares
        (hcalm.orderly.sound.represented g)
      exact (hleft.index_eq_iff hd hd' .added hadded).mp hindex
  | done htasks =>
      rw [htasks] at htask
      cases htask

/-- A call that adds a node or an edge aims at the graph, and is in one of its phases. -/
theorem Phase.request
    {request : ρ}
    (hsound : s.store.Sound c)
    (hidle : s.idle = true)
    (hreads : interpret s.names request = .ok cmd)
    (hgenuine : cmd.Genuine c s.store)
    (hbrings : cmd.BringsInto g) :
    (Session.request interpret 0 s request).Aimed (some g) ∧
      (Session.request interpret 0 s request).Phase g := by
  have hnone : s.tasks = [] := List.isEmpty_iff.mp hidle
  have hbegin : Session.request interpret 0 s request =
      (({ s with log := [] } : Session ρ).begin cmd).release := request_eq_run hreads 0
  have hleads := begin_leads (s := { s with log := [] }) hsound hgenuine
  rw [hbegin]
  constructor
  · have haimed : (({ s with log := [] } : Session ρ).begin cmd).Aimed cmd.aim :=
      .begin hnone hsound hgenuine
    rw [hbrings.aim] at haimed
    exact haimed.ages hleads.sound (ages_release _ hleads.sound.toPristine) (tasks_release _)
  · exact (Phase.begin (s := { s with log := [] }) hnone hsound hbrings).release
      (hleads.keepsGraph g (hbrings.mem_graphs hgenuine))

/--
In every history in which no task has been overtaken, and from a wired store, a call that adds a node or
an edge to a graph is made, and handlers do not mutate.  Whoever looks at the graph during the call sees
the content before with the first of the arrivals that the graph is going to announce, and the others
lead from there to the content afterwards.  It looks as before exactly if it is none of them, and as
afterwards exactly if it is all of them.  While the graph tells its subscribers it is all of them, and
while another graph does so it is not, unless the call fails.
-/
theorem History.observed_during_call
    (h : History c permits past s)
    (hfree : ∀ t ∈ past, ¬t.Overtaken)
    (hwired : s.store.Wired)
    (interpret : Interpreter ρ)
    (request : ρ)
    (fuel : Nat)
    (hidle : s.idle = true)
    (hreads : interpret s.names request = .ok cmd)
    (hgenuine : cmd.Genuine c s.store)
    (hbrings : cmd.BringsInto g)
    (habides : (Session.request interpret 0 s request).Abides c (fun cmd => ¬cmd.Mutates)
      interpret fuel)
    (hdone : (Session.request interpret fuel s request).idle = true)
    (hg : g ∈ (Session.request interpret fuel s request).store.graphs)
    (moment : Nat) :
    let u := Session.request interpret moment s request
    let t := Session.request interpret fuel s request
    ∃ put left d du dt,
      announced interpret g fuel (Session.request interpret 0 s request) = put ++ left ∧
      (s.store.index g).Represents d ∧ (u.store.index g).Represents du ∧
      (t.store.index g).Represents dt ∧ d.Replays put du ∧ du.Replays left dt ∧
      (u.store.index g = s.store.index g ↔ put = []) ∧
      (t.store.index g = u.store.index g ↔ left = []) ∧
      ∀ k, u.Telling k → (k = g → left = []) ∧ (k ≠ g → t.outcome.failed = false → left ≠ []) := by
  intro u t
  let begun : Session ρ := Session.request interpret 0 s request
  have horderly := h.orderly hfree
  have hsound := horderly.sound
  have hpoised : s.Poised := .collects hwired (by simp [List.isEmpty_iff.mp hidle])
  have hgenuines : ∀ cmd' ∈ interpret.reads s.names request, cmd'.Genuine c s.store := by
    intro cmd' hcmd'
    rw [Interpreter.reads, hreads] at hcmd'
    exact List.mem_singleton.mp hcmd' ▸ hgenuine
  -- the session in which the command has been begun
  have hcalm : Calm c interpret begun :=
    ⟨horderly.request hgenuines, hpoised.request horderly hidle hgenuines,
      abides_of_idle fuel habides hdone⟩
  obtain ⟨haimed, hphase⟩ : begun.Aimed (some g) ∧ begun.Phase g :=
    Phase.request hsound hidle hreads hgenuine hbrings
  -- the run from the moment on comes to the same end
  have hend : (begun.run interpret fuel).idle = true := hdone
  have hlater : u.run interpret fuel = t := run_of_moment hend moment
  have hall : announced interpret g fuel begun =
      announced interpret g moment begun ++ announced interpret g fuel u :=
    announced_of_moment hend moment
  -- what has come in by the moment, and what is still to come
  have hdone' : (u.run interpret fuel).idle = true := hlater ▸ hdone
  have hspares : (u.run interpret fuel).store.Spares g := hlater.symm ▸ Or.inr hg
  have hcalm' : Calm c interpret u := hcalm.run moment
  have haimed' : u.Aimed (some g) := haimed.run hcalm moment
  obtain ⟨hspares', hchanges, hlast⟩ := haimed'.run_replays hcalm' fuel hspares
  obtain ⟨hspares'', hchanges', hmiddle⟩ := haimed.run_replays hcalm moment hspares'
  have hfollows : s.store.Follows g (begun.backlog (fun _ => false) g) begun.store :=
    horderly.request_posts (fun _ => false) g hidle hgenuines
  obtain ⟨d, hd⟩ := hsound.represented g
  obtain ⟨db, hdb, hfirst⟩ := hfollows.replays hspares'' d hd
  obtain ⟨du, more, hdu, hmore, hput⟩ := hmiddle db hdb
  obtain ⟨dt, left, hdt, hleft, hrest⟩ := hlast du hdu
  rw [backlog_of_idle hdone', List.append_nil] at hrest
  have hsplit : announced interpret g fuel begun =
      (begun.backlog (fun _ => false) g ++ more) ++ left := by
    rw [hput, hall, List.append_assoc]
    exact congrArg _ hrest.symm
  have hadded : ∀ event ∈ announced interpret g fuel begun, event.change = .added := by
    intro event hevent
    rw [hall] at hevent
    rcases List.mem_append.mp hevent with hevent | hevent
    · exact (hchanges' event hevent).mpr rfl
    · exact (hchanges event hevent).mpr rfl
  rw [hsplit] at hadded
  have hleftAdded : ∀ event ∈ left, event.change = .added := fun event hevent =>
    hadded event (List.mem_append_right _ hevent)
  have hreplays := hfirst.append hmore
  rw [hlater] at hdt
  refine ⟨_, left, d, du, dt, hsplit, hd, hdu, hdt, hreplays, hleft,
    hreplays.index_eq_iff hd hdu .added fun event hevent =>
      hadded event (List.mem_append_left _ hevent),
    hleft.index_eq_iff hdu hdt .added hleftAdded, fun k htelling => ?_⟩
  have htold : (k = g → left = []) ∧
      (k ≠ g → (u.run interpret fuel).outcome.failed = false → left ≠ []) :=
    (hphase.run hcalm haimed moment).left_of_telling hcalm' haimed' hdone' hspares hdu
      (hlater.symm ▸ hdt) hleft hleftAdded htelling
  rwa [hlater] at htold

/--
A node that is detached is connected to a node in the second graph, which has a subscriber.  The last
command adds it to the first graph.
-/
def transferring : Interpreter Nat :=
  numbered [.createGraph "g", .createGraph "h", .createNode "m" (.root .node) .null,
    .createNode "n" (.root .node) .null, .addNode ⟨2⟩ ⟨⟨2⟩, .root .node⟩,
    .createEdgeBetween "e" (.root .edge) ⟨⟨1⟩, .root .node⟩ ⟨⟨2⟩, .root .node⟩,
    .subscribe "t" ⟨2⟩ none none 0 [], .addNode ⟨1⟩ ⟨⟨1⟩, .root .node⟩]

theorem transferring_history :
    History plainCatalogue (fun cmd => ¬cmd.Mutates)
      (trail transferring 30 [0, 1, 2, 3, 4, 5, 6] .empty ++ [])
      ([0, 1, 2, 3, 4, 5, 6].foldl (Session.request transferring 30) .empty) :=
  History.empty.requested transferring 30 [0, 1, 2, 3, 4, 5, 6] (by decide +kernel)

/--
While the second graph tells its subscriber that the connected node has gone, that node has still to come
into the first graph.
-/
theorem neighbour_still_to_come :
    ∃ (past : List (Session Nat)) (s u t : Session Nat) (put left : List Event) (d du dt : Diagram),
      History plainCatalogue (fun cmd => ¬cmd.Mutates) past s ∧
        u = Session.request transferring 5 s 7 ∧ t = Session.request transferring 30 s 7 ∧
        (s.store.index ⟨1⟩).Represents d ∧ (u.store.index ⟨1⟩).Represents du ∧
        (t.store.index ⟨1⟩).Represents dt ∧ d.Replays put du ∧ du.Replays left dt ∧
        u.Telling ⟨2⟩ ∧ left ≠ [] := by
  have h := transferring_history
  have hreads : ∀ names, transferring names 7 = .ok (.addNode ⟨1⟩ ⟨⟨1⟩, .root .node⟩) := fun _ => rfl
  obtain ⟨put, left, d, du, dt, -, hd, hdu, hdt, hput, hleft, -, -, htold⟩ :=
    h.observed_during_call (g := ⟨1⟩) h.not_overtaken h.poised.2.wired transferring 7 30
      (by decide +kernel) (hreads _) (by decide +kernel) rfl (by decide +kernel) (by decide +kernel)
      (by decide +kernel) 5
  have htelling : (Session.request transferring 5
      ([0, 1, 2, 3, 4, 5, 6].foldl (Session.request transferring 30) .empty) 7).Telling ⟨2⟩ := by
    decide +kernel
  exact ⟨_, _, _, _, put, left, d, du, dt, h, rfl, rfl, hd, hdu, hdt, hput, hleft, htelling,
    (htold _ htelling).2 (by decide) (by decide +kernel)⟩

/--
What that subscriber sees of the first graph is neither the content before, which lacks the one node, nor
the content afterwards, which includes the other one.
-/
theorem half_applied_arrival :
    ∃ (past : List (Session Nat)) (s u t : Session Nat),
      History plainCatalogue (fun cmd => ¬cmd.Mutates) past s ∧ s.idle = true ∧
        transferring.reads s.names 7 = [.addNode ⟨1⟩ ⟨⟨1⟩, .root .node⟩] ∧
        u = Session.request transferring 5 s 7 ∧ t = Session.request transferring 30 s 7 ∧
        (Session.request transferring 0 s 7).Abides plainCatalogue (fun cmd => ¬cmd.Mutates)
          transferring 30 ∧ t.idle = true ∧
        u.receives ⟨2⟩ (.script ⟨1⟩ none none) = [⟨.removed, .node ⟨⟨2⟩, .root .node⟩⟩] ∧
        ¬(s.store.index ⟨1⟩).Includes (.node ⟨1⟩) ∧ (u.store.index ⟨1⟩).Includes (.node ⟨1⟩) ∧
        ¬(u.store.index ⟨1⟩).Includes (.node ⟨2⟩) ∧ (t.store.index ⟨1⟩).Includes (.node ⟨2⟩) := by
  exact ⟨_, _, _, _, transferring_history, by decide +kernel, rfl, rfl, rfl, by decide +kernel,
    by decide +kernel, by decide +kernel, by decide +kernel, by decide +kernel, by decide +kernel,
    by decide +kernel⟩

end Session

end PatternGraph
