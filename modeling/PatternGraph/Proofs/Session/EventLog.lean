import PatternGraph.Proofs.Session.Aims
import PatternGraph.Proofs.Session.Closing

/-!
# The event log of a call

While handlers do not mutate, the events that a graph announces during a call can be replayed on the
content that it had before, and lead to the content that it has afterwards.  No item is named twice, so
the items that are named are those that have come or gone altogether.
-/

namespace PatternGraph

variable {ρ : Type} {c : Catalogue} {interpret : Interpreter ρ}

namespace Session

variable {s : Session ρ} {g : GraphId} {aim : Option GraphId} {past : List (Session ρ)}

/-- The event that a graph begins to tell its subscribers with the next step, if any. -/
def announces (g : GraphId) (s : Session ρ) : List Event :=
  match s.tasks with
  | .dispatch graph (event :: _) :: _ => if graph = g then [event] else []
  | _ => []

/-- The events that a graph tells its subscribers during a run, in this order. -/
def announced (interpret : Interpreter ρ) (g : GraphId) : Nat → Session ρ → List Event
  | 0, _ => []
  | fuel + 1, s => s.announces g ++ announced interpret g fuel (s.step interpret)

theorem announces_of_idle (h : s.idle = true) : s.announces g = [] := by
  rw [announces, List.isEmpty_iff.mp h]

theorem announced_of_idle (h : s.idle = true) (fuel : Nat) : announced interpret g fuel s = [] := by
  induction fuel with
  | zero => rfl
  | succ fuel ih => rw [announced, announces_of_idle h, step_of_idle h, ih, List.nil_append]

/-- What is not owed to any handler is what has still to be announced. -/
theorem tells_none (g : GraphId) (s : Session ρ) : s.tells (fun _ => false) g = s.announces g := by
  rw [tells, announces]
  cases htasks : s.tasks with
  | nil => rfl
  | cons task rest =>
      cases task with
      | dispatch graph events => cases events <;> simp [Task.tells]
      | deliver graph event handlers => cases handlers <;> simp [Task.tells]
      | _ => rfl

/-- What the next step announces has the change that the aim foresees. -/
theorem Aimed.announces {event : Event} (h : s.Aimed aim) (hevent : event ∈ s.announces g) :
    event.change = .added ↔ aim = some g := by
  rw [Session.announces] at hevent
  split at hevent
  · rename_i graph first events rest htasks
    split at hevent
    · rename_i hg
      obtain rfl := List.mem_singleton.mp hevent
      have haims := h (.dispatch graph (event :: events)) (htasks ▸ List.mem_cons_self)
      rw [← hg]
      exact haims event List.mem_cons_self
    · cases hevent
  · cases hevent

/-- What a step does to a graph comes behind everything that is still to be announced. -/
theorem Aimed.step_follows
    (h : s.Aimed aim)
    (hcalm : Calm c interpret s)
    (hspares : (s.step interpret).store.Spares g) :
    ∃ events, s.store.Follows g events (s.step interpret).store ∧
      s.backlog (fun _ => false) g ++ events =
        s.announces g ++ (s.step interpret).backlog (fun _ => false) g := by
  cases htasks : s.tasks with
  | nil =>
      have hidle : s.idle = true := List.isEmpty_iff.mpr htasks
      rw [step_of_idle hidle, announces_of_idle hidle]
      exact ⟨[], .refl s.store g, by simp⟩
  | cons task rest =>
      have hsound := hcalm.orderly.sound
      obtain ⟨kept, events, hkept, hbacklog, hfollows⟩ :=
        hcalm.orderly.step_posts (fun _ => false) g htasks (h.not_forestalled hcalm.poised)
          fun cmd hcmd => ((hcalm.abides 1).1 cmd hcmd).1
      refine ⟨events, hfollows, ?_⟩
      rw [backlog, htasks, List.flatMap_cons, hkept, hbacklog, tells_none]
      have harranged := hcalm.poised.arranged
      rw [htasks] at harranged
      cases harranged with
      | duty hduty hcollects =>
          have hnone : rest.flatMap (Task.backlog (fun _ => false) g) = [] := by
            refine List.flatMap_eq_nil_iff.mpr fun other hother => ?_
            have hcollect := hcollects other hother
            cases other with
            | addNodes => rfl
            | _ => exact hcollect.elim
          rw [hnone]
          simp only [List.append_nil, List.append_assoc]
      | note hnote _ =>
          have hages := (hcalm.step_note htasks hnote).2.1
          have hsame := (Store.Follows.ages hages hsound.toPristine g).index_eq hspares
            (hsound.represented g)
          rw [hfollows.eq_nil hspares (hsound.represented g) hsame]
          simp only [List.append_nil, List.append_assoc]

/-- What a run announces, and what is still to be announced then, can be replayed. -/
theorem Aimed.run_replays
    (h : s.Aimed aim)
    (hcalm : Calm c interpret s)
    (fuel : Nat)
    (hspares : (s.run interpret fuel).store.Spares g) :
    s.store.Spares g ∧
      (∀ event ∈ announced interpret g fuel s, event.change = .added ↔ aim = some g) ∧
      ∀ d, (s.store.index g).Represents d → ∃ d' events,
        ((s.run interpret fuel).store.index g).Represents d' ∧ d.Replays events d' ∧
          s.backlog (fun _ => false) g ++ events =
            announced interpret g fuel s ++ (s.run interpret fuel).backlog (fun _ => false) g := by
  induction fuel generalizing s with
  | zero =>
      refine ⟨hspares, fun _ hevent => absurd hevent List.not_mem_nil,
        fun d hd => ⟨d, [], hd, .nil d, ?_⟩⟩
      rw [List.append_nil]
      rfl
  | succ fuel ih =>
      by_cases hidle : s.idle = true
      · rw [run_of_idle hidle] at hspares ⊢
        rw [announced_of_idle hidle]
        exact ⟨hspares, by simp, fun d hd => ⟨d, [], hd, .nil d, by simp⟩⟩
      · rw [run, if_neg hidle] at hspares ⊢
        have hnext := h.step hcalm.orderly hcalm.poised (hcalm.abides 1).1
        obtain ⟨hspared, hchanges, hreplays⟩ := ih hnext hcalm.step hspares
        obtain ⟨events, hfollows, hbacklog⟩ := h.step_follows hcalm hspared
        refine ⟨hfollows.spares hspared, fun event hevent => ?_, fun d hd => ?_⟩
        · rcases List.mem_append.mp hevent with hevent | hevent
          · exact h.announces hevent
          · exact hchanges event hevent
        · obtain ⟨d', hd', hfirst⟩ := hfollows.replays hspared d hd
          obtain ⟨d'', more, hd'', hmore, hrest⟩ := hreplays d' hd'
          refine ⟨d'', events ++ more, hd'', hfirst.append hmore, ?_⟩
          rw [← List.append_assoc, hbacklog, announced, List.append_assoc, hrest, List.append_assoc]

/--
In every history in which no task has been overtaken, and from a wired store, a call is made, and handlers
do not mutate.  The events that a graph announces during the call can be replayed on the content that it
had before: each is about an item that is not there yet or is there, an edge comes after its ends and goes
before them.  They lead to the content that the graph has when the call is over, and name every item that
has come or gone altogether, and no other item, once.
-/
theorem History.announced_replays
    {permits : Command ρ → Prop}
    (h : History c permits past s)
    (hfree : ∀ t ∈ past, ¬t.Overtaken)
    (hwired : s.store.Wired)
    (interpret : Interpreter ρ)
    (request : ρ)
    (fuel : Nat)
    (hidle : s.idle = true)
    (hgenuine : ∀ cmd ∈ interpret.reads s.names request, cmd.Genuine c s.store)
    (habides : (Session.request interpret 0 s request).Abides c (fun cmd => ¬cmd.Mutates)
      interpret fuel)
    (hdone : (Session.request interpret fuel s request).idle = true)
    (hg : g ∈ (Session.request interpret fuel s request).store.graphs) :
    let events := announced interpret g fuel (Session.request interpret 0 s request)
    ∃ d d', (s.store.index g).Represents d ∧
      ((Session.request interpret fuel s request).store.index g).Represents d' ∧
      d.Replays events d' ∧ (Store.told events).Nodup ∧
      ∀ id, id ∈ Store.told events ↔ ¬(d.Includes id ↔ d'.Includes id) := by
  intro events
  let begun := Session.request interpret 0 s request
  have horderly := h.orderly hfree
  have hpoised : s.Poised := .collects hwired (by simp [List.isEmpty_iff.mp hidle])
  have hcalm : Calm c interpret begun :=
    ⟨horderly.request hgenuine, hpoised.request horderly hidle hgenuine,
      abides_of_idle fuel habides hdone⟩
  obtain ⟨aim, haimed⟩ : ∃ aim, begun.Aimed aim := Aimed.request horderly hidle hgenuine
  obtain ⟨hspares, hchanges, hreplays⟩ := haimed.run_replays hcalm fuel (Or.inr hg)
  have hfollows : s.store.Follows g (begun.backlog (fun _ => false) g) begun.store :=
    horderly.request_posts (fun _ => false) g hidle hgenuine
  obtain ⟨d, hd⟩ := horderly.sound.represented g
  obtain ⟨d', hd', hbegun⟩ := hfollows.replays hspares d hd
  obtain ⟨d'', more, hd'', hmore, hall⟩ := hreplays d' hd'
  have hrest : (begun.run interpret fuel).backlog (fun _ => false) g = [] := backlog_of_idle hdone
  rw [hrest, List.append_nil] at hall
  have hreplay : d.Replays events d'' := by
    change d.Replays (announced interpret g fuel begun) d''
    rw [← hall]
    exact hbegun.append hmore
  have hnodup : (Store.told events).Nodup := by
    by_cases haim : aim = some g
    · exact hreplay.nodup_of_change .added fun event hevent => (hchanges event hevent).mpr haim
    · refine hreplay.nodup_of_change .removed fun event hevent => ?_
      have hnot := (hchanges event hevent).not.mpr haim
      cases hchange : event.change with
      | added => exact absurd hchange hnot
      | removed => rfl
  exact ⟨d, d'', hd, hd'', hreplay, hnodup, fun id => hreplay.mem_told_iff hnodup id⟩

/--
A graph that loses a node to another graph announces that the edge at it has gone, and then that the
node has gone.
-/
theorem announced_by_losing_graph :
    ∃ (past : List (Session Unit)) (s t : Session Unit) (d d' : Diagram),
      History plainCatalogue (fun cmd => ¬cmd.Mutates) past s ∧ t.idle = true ∧
        (s.store.index ⟨2⟩).Represents d ∧ (t.store.index ⟨2⟩).Represents d' ∧
        d.Replays [⟨.removed, .edge ⟨⟨1⟩, .root .edge⟩⟩, ⟨.removed, .node ⟨⟨2⟩, .root .node⟩⟩] d' := by
  let first : Node := ⟨⟨1⟩, .root .node⟩
  let second : Node := ⟨⟨2⟩, .root .node⟩
  let wired : Session Unit := (settling.foldl (carryOut 30) .empty).carryOut 0
    (.createEdgeBetween "f" (.root .edge) first second)
  let adding : Interpreter Unit := fun _ _ => .ok (.addNode ⟨1⟩ first)
  obtain ⟨past, hsettled⟩ := settling_history
  have hwired : History plainCatalogue _ _ wired :=
    hsettled.issued _ (by decide +kernel) () (by decide +kernel)
  have hgenuine : ∀ cmd ∈ adding.reads wired.names (), cmd.Genuine plainCatalogue wired.store := by
    decide +kernel
  obtain ⟨d, d', hd, hd', hreplays, -⟩ := hwired.announced_replays (g := ⟨2⟩) hwired.not_overtaken
    hwired.poised.2.wired adding () 40 (by decide +kernel) hgenuine (by decide +kernel)
      (by decide +kernel) (by decide +kernel)
  have hevents : announced adding ⟨2⟩ 40 (Session.request adding 0 wired ()) =
      [⟨.removed, .edge ⟨⟨1⟩, .root .edge⟩⟩, ⟨.removed, .node second⟩] := by
    decide +kernel
  rw [hevents] at hreplays
  exact ⟨_, wired, _, d, d', hwired, by decide +kernel, hd, hd', hreplays⟩

end Session

end PatternGraph
