import PatternGraph.Proofs.Session.Closing

/-!
# Commands that fail

A command that changes graphs or wirings in one go either fails before it has done anything, or does
not fail at all.  When it fails, no handler is told of anything, and the session is as it was but for
the outcome; an edge that was to be created has used up its number.
-/

namespace PatternGraph

variable {ρ : Type} {c : Catalogue} {interpret : Interpreter ρ}

namespace Command

/-- Whether a command changes graphs or wirings in one go. -/
def Single : Command ρ → Prop
  | .setSource .. | .setTarget .. | .addNode .. | .addEdge .. | .insertEdge .. | .removeNode ..
  | .removeEdge .. | .removeEdgesByNodes .. => True
  | _ => False

/-- Whether a command creates the edge that it connects. -/
def CreatesEdge : Command ρ → Prop
  | .addEdge _ _ _ none _ => True
  | _ => False

end Command

namespace Store

variable {store store' : Store}

/--
Whether two stores agree on graphs and their contents, on the owners of items, the ends of edges and
the edges that nodes remember.
-/
structure Untouched (store store' : Store) : Prop where
  graphs : store'.graphs = store.graphs
  home : ∀ id, store'.home id = store.home id
  source : ∀ e, (store'.edgeState e).source = (store.edgeState e).source
  target : ∀ e, (store'.edgeState e).target = (store.edgeState e).target
  pending : ∀ n, store'.pendingEdges n = store.pendingEdges n

namespace Untouched

theorem refl (store : Store) : store.Untouched store :=
  ⟨rfl, fun _ => rfl, fun _ => rfl, fun _ => rfl, fun _ => rfl⟩

/-- A store that has only got blank edges is untouched. -/
theorem of_ages
    (hages : store.Ages store')
    (hsound : store.Sound c)
    (hgraphs : store'.graphs = store.graphs)
    (hnodes : store'.nodes = store.nodes)
    (hkept : ∀ id ∈ store.edges, id ∈ store'.edges) :
    store.Untouched store' := by
  have hedge : ∀ e : Edge, store'.edgeState e = store.edgeState e ∨
      (store'.edgeState e).Blank ∧ (store.edgeState e).Blank := by
    intro e
    rcases Nat.lt_or_ge store.edgeCount e.id.number with hnew | hold
    · exact Or.inr ⟨hages.newEdge e hnew, hsound.edge e hnew⟩
    · by_cases hmem : e.id ∈ store'.edges
      · exact Or.inl (hages.edge e hold hmem).2
      · rw [edgeState_of_not_mem hmem, edgeState_of_not_mem fun halive => hmem (hkept _ halive)]
        exact Or.inl rfl
  refine ⟨hgraphs, fun id => ?_, fun e => ?_, fun e => ?_, fun n => ?_⟩
  · have howner : store'.owner id = store.owner id := by
      cases id with
      | node id => rw [owner, owner, hnodes]
      | edge id =>
          rcases hedge ⟨id, default⟩ with hsame | ⟨hblank', hblank⟩
          · exact congrArg EdgeState.owner hsame
          · exact hblank'.owner.trans hblank.owner.symm
    rw [Store.home, Store.home, living, living, howner, hgraphs]
  · rcases hedge e with hsame | ⟨hblank', hblank⟩
    · rw [hsame]
    · rw [hblank'.source, hblank.source]
  · rcases hedge e with hsame | ⟨hblank', hblank⟩
    · rw [hsame]
    · rw [hblank'.target, hblank.target]
  · have hstate : store'.nodeState n = store.nodeState n := by
      rw [nodeState, nodeState, hnodes]
    rw [pendingEdges, pendingEdges, hstate]
    refine List.filter_congr fun e he => ?_
    have hold := (hsound.pending n e he).2
    rw [Bool.eq_iff_iff, ← Std.ExtTreeMap.mem_iff_contains, ← Std.ExtTreeMap.mem_iff_contains]
    exact ⟨fun hmem => (hages.edge e hold hmem).1, hkept e.id⟩

end Untouched

end Store

namespace Session

variable {s begun : Session ρ} {cmd : Command ρ} {K : Store → Prop} {g : GraphId}

/-- Whether a command that has begun fails with its first step, with no one told of anything. -/
def Declines (interpret : Interpreter ρ) (K : Store → Prop) (s begun : Session ρ) : Prop :=
  (∀ task ∈ begun.tasks, ¬task.Note) ∧ K begun.store ∧
    ∃ store fault,
      begun.step interpret = { s with store := store, outcome := .fault fault } ∧ K store

/-- A command that fails at once declines. -/
theorem Declines.of_fail
    {fault : Fault}
    (htidy : s.Tidy)
    (hidle : s.tasks = [])
    (hbegun : begun = s.fail fault) :
    Declines interpret (· = s.store) s begun.release := by
  rw [hbegun, fail, htidy.release_conclude]
  refine ⟨fun task htask => ?_, rfl, s.store, fault, step_of_idle (List.isEmpty_iff.mpr hidle), rfl⟩
  rw [conclude, hidle] at htask
  cases htask

/-- A command that fails after it has created an edge leaves the store untouched. -/
theorem Declines.of_created
    {fault : Fault}
    (htidy : s.Tidy)
    (hidle : s.tasks = [])
    (hsound : s.store.Sound c)
    (hbegun : begun =
      ({ s with store := (s.store.createEdge (.root .edge) .null).2 } : Session ρ).fail fault) :
    Declines interpret s.store.Untouched s begun.release := by
  have hgrows := Store.Grows.createEdge hsound.toPristine (.root .edge) .null
  let created : Store := (s.store.createEdge (.root .edge) .null).2
  let store : Store := created.release s.holdsGraph s.holdsEdge
  have hrelease : begun.release = { s with store := store, outcome := .fault fault } := by
    rw [hbegun]
    exact release_of_observers htidy.observers
  have hgraphs : store.graphs = s.store.graphs := by
    have hretain : created.retainGraphs s.holdsGraph = created :=
      Store.retainGraphs_of_held htidy.graphs
    change (created.release s.holdsGraph s.holdsEdge).graphs = s.store.graphs
    rw [Store.release_eq_retain, Store.graphs_retainEdges, hretain]
    rfl
  have hkept : ∀ id ∈ s.store.edges, id ∈ store.edges := by
    intro id hid
    refine (created.mem_edges_release _ _ id).mpr ⟨hgrows.keepsEdge id hid, ?_⟩
    refine (htidy.edges id hid).imp_left fun hcontains => ?_
    obtain ⟨g, hg⟩ := (s.store.containsEdge_iff id).mp hcontains
    refine ⟨g, ?_⟩
    change id ∈ (store.index g).edges
    rwa [Store.index, hgraphs]
  have huntouched : s.store.Untouched store :=
    .of_ages (hgrows.toAges.trans (.release _ _ hgrows.pristine)) hsound hgraphs
      (created.counts_release _ _).1 hkept
  rw [hrelease]
  refine ⟨fun task htask => ?_, huntouched, store, fault,
    step_of_idle (List.isEmpty_iff.mpr hidle), huntouched⟩
  rw [hidle] at htask
  cases htask

section Removals

variable {events : List Event} {last : Task ρ}

/-- A command that has only to tell of something, and then to end, succeeds. -/
theorem Calm.told_ends
    (h : Calm c interpret s)
    (htasks : s.tasks = [.dispatch g events, last])
    (hlast : ∀ t : Session ρ, Calm c interpret t → t.tasks = [last] →
      (t.step interpret).idle = true ∧ (t.step interpret).outcome.failed = false) :
    Succeeds interpret (fun _ => True) s := by
  have hlasts : Lasts c last fun _ => True := fun _ _ _ _ _ _ => trivial
  have htasks' : s.tasks = [.dispatch g events] ++ [last] := htasks
  refine (drain hlasts (by simp [Task.Note, Task.rank]) h htasks' trivial).trans ?_
  rintro t ⟨ht, httasks, -⟩
  obtain ⟨hdone, hreplied⟩ := hlast t ht httasks
  exact .later (.now ⟨hdone, hreplied, trivial⟩)

/-- The removal of one item declines, or succeeds. -/
theorem removal_ends
    {task : Task ρ}
    {result : Except Fault (List Event × Store)}
    (htidy : s.Tidy)
    (hidle : s.tasks = [])
    (hduty : ¬task.Note)
    (hperform : s.perform interpret task =
      s.withStore result fun events s => s.push [.dispatch g events, last])
    (hlast : ∀ t : Session ρ, Calm c interpret t → t.tasks = [last] →
      (t.step interpret).idle = true ∧ (t.step interpret).outcome.failed = false)
    (hcalm : Calm c interpret (s.push [task]).release) :
    Declines interpret (· = s.store) s (s.push [task]).release ∨
      Succeeds interpret (fun _ => True) (s.push [task]).release := by
  rw [htidy.release_push] at hcalm ⊢
  have hsame : ({ s with tasks := [] } : Session ρ) = s :=
    congrArg (fun tasks => ({ s with tasks := tasks } : Session ρ)) hidle.symm
  have htasks : (s.push [task]).tasks = [task] := tasks_push hidle [task]
  have hstep : (s.push [task]).step interpret = (s.perform interpret task).release := by
    rw [Session.step, htasks]
    exact congrArg (fun s => (s.perform interpret task).release) hsame
  rw [hperform] at hstep
  cases result with
  | error fault =>
      have hfail : (s.push [task]).step interpret = s.fail fault :=
        hstep.trans (htidy.release_conclude (.fault fault))
      refine Or.inl ⟨fun other hother => ?_, rfl, s.store, fault, hfail, rfl⟩
      rw [htasks] at hother
      rwa [List.mem_singleton.mp hother]
  | ok removed =>
      obtain ⟨events, store⟩ := removed
      have htasks' : ((s.push [task]).step interpret).tasks = [.dispatch g events, last] := by
        rw [hstep, tasks_release]
        exact tasks_push hidle _
      exact Or.inr (.later (hcalm.step.told_ends htasks' hlast))

/-- A task that has only to reply ends a command. -/
theorem step_answers
    {task : Task ρ}
    (htasks : s.tasks = [task])
    (hperform : ∀ t : Session ρ, t.perform interpret task = t.answer .done) :
    (s.step interpret).idle = true ∧ (s.step interpret).outcome.failed = false := by
  have hstep : s.step interpret = (({ s with tasks := [] } : Session ρ).answer .done).release := by
    rw [Session.step, htasks]
    exact congrArg release (hperform _)
  rw [hstep, idle, tasks_release, outcome_release]
  exact ⟨rfl, rfl⟩

/-- Edges that a selector picks are removed, or the selector is refused. -/
theorem removeEdgesByNodes_ends
    {selector : Selector}
    (htidy : s.Tidy)
    (hidle : s.tasks = [])
    (hcalm : Calm c interpret (s.begin (.removeEdgesByNodes g selector)).release) :
    Declines interpret (· = s.store) s (s.begin (.removeEdgesByNodes g selector)).release ∨
      Succeeds interpret (fun _ => True) (s.begin (.removeEdgesByNodes g selector)).release := by
  cases hremove : s.store.removeEdgesByNodes g selector with
  | error fault =>
      have hbegin : s.begin (.removeEdgesByNodes g selector) = s.fail fault := by
        rw [Session.begin, hremove]
        rfl
      exact Or.inl (.of_fail htidy hidle hbegin)
  | ok removed =>
      obtain ⟨events, store⟩ := removed
      let ending : Ending := .reply g .done
      have hbegin : s.begin (.removeEdgesByNodes g selector) =
          ({ s with store := store } : Session ρ).push [.dispatch g events, .finish ending] := by
        rw [Session.begin, hremove]
        rfl
      have htasks : (s.begin (.removeEdgesByNodes g selector)).release.tasks =
          [.dispatch g events, .finish ending] := by
        rw [tasks_release, hbegin]
        exact tasks_push hidle _
      refine Or.inr (hcalm.told_ends htasks fun t ht httasks => ?_)
      obtain ⟨hdone, houtcome, -⟩ := ht.step_finish httasks
      exact ⟨hdone, houtcome ▸ rfl⟩

end Removals

/-- A wiring of one end is done at once, or declined. -/
theorem wiring_ends
    (result : Except Fault Store)
    (htidy : s.Tidy)
    (hidle : s.tasks = [])
    (hrefused : ∀ fault, result = .error fault → begun = s.fail fault)
    (hdone : ∀ store, result = .ok store →
      begun = ({ s with store := store } : Session ρ).answer .done) :
    Declines interpret (· = s.store) s begun.release ∨
      Succeeds interpret (fun _ => True) begun.release := by
  cases result with
  | error fault => exact Or.inl (.of_fail htidy hidle (hrefused fault rfl))
  | ok store =>
      rw [hdone store rfl]
      refine Or.inr (.now ?_ ?_ trivial)
      · rw [idle, tasks_release]
        exact List.isEmpty_iff.mpr hidle
      · rw [outcome_release]
        rfl

/-- Whether a store is as it was, but for an edge that a command has created. -/
def Spared (cmd : Command ρ) (before after : Store) : Prop :=
  before.Untouched after ∧ (¬cmd.CreatesEdge → after = before)

theorem Declines.spared
    (h : Declines interpret (· = s.store) s begun) :
    Declines interpret (Spared cmd s.store) s begun := by
  obtain ⟨hsilent, hbegun, store, fault, hstep, rfl⟩ := h
  have hspared : Spared cmd s.store s.store := ⟨.refl s.store, fun _ => rfl⟩
  exact ⟨hsilent, hbegun ▸ hspared, s.store, fault, hstep, hspared⟩

/-- A command that changes graphs or wirings in one go declines, or succeeds. -/
theorem single_ends
    (htidy : s.Tidy)
    (hidle : s.tasks = [])
    (hsound : s.store.Sound c)
    (hwired : s.store.Wired)
    (hsingle : cmd.Single)
    (hgenuine : cmd.Genuine c s.store)
    (hcalm : Calm c interpret (s.begin cmd).release) :
    Declines interpret (Spared cmd s.store) s (s.begin cmd).release ∨
      Succeeds interpret (fun _ => True) (s.begin cmd).release := by
  have hsucceeds : ∀ {K : Store → Prop}, Succeeds interpret K (s.begin cmd).release →
      Succeeds interpret (fun _ => True) (s.begin cmd).release := fun h => h.mono fun _ _ => trivial
  have hduty : ∀ task : Task ρ, task.rank = 6 → ¬task.Note := fun task hrank => by
    simp [Task.Note, hrank]
  cases cmd with
  | setSource edge node =>
      refine (wiring_ends (s.store.setSource edge node) htidy hidle (fun fault hrefused => ?_)
        fun store hdone => ?_).imp_left .spared
      · rw [Session.begin, hrefused]
      · rw [Session.begin, hdone]
  | setTarget edge node =>
      refine (wiring_ends (s.store.setTarget edge node) htidy hidle (fun fault hrefused => ?_)
        fun store hdone => ?_).imp_left .spared
      · rw [Session.begin, hrefused]
      · rw [Session.begin, hdone]
  | addNode graph node =>
      refine (addNode_ends htidy hidle hsound hwired hgenuine.1 hgenuine.2 hcalm).imp ?_ hsucceeds
      rintro ⟨fault, hfail⟩
      exact (Declines.of_fail htidy hidle hfail).spared
  | insertEdge graph edge =>
      refine (insertEdge_ends htidy hidle hsound hwired hgenuine.1 hgenuine.2.1 hgenuine.2.2
        hcalm).imp ?_ hsucceeds
      rintro ⟨fault, hfail⟩
      exact (Declines.of_fail htidy hidle hfail).spared
  | addEdge graph source target given as =>
      cases given with
      | some edge =>
          refine (addGivenEdge_ends hidle hsound (.refl hsound.toPristine) hsound hwired
            hgenuine.1 hcalm).imp ?_ hsucceeds
          rintro ⟨fault, hfail⟩
          exact (Declines.of_fail htidy hidle hfail).spared
      | none =>
          refine (addCreatedEdge_ends hidle hsound hwired hgenuine.1 hcalm).imp ?_ hsucceeds
          rintro ⟨fault, hfail⟩
          have hdeclines : Declines interpret s.store.Untouched s
              (s.begin (.addEdge graph source target none as)).release :=
            .of_created htidy hidle hsound hfail
          obtain ⟨hsilent, hbegun, store, fault', hstep, huntouched⟩ := hdeclines
          exact ⟨hsilent, ⟨hbegun, absurd trivial⟩, store, fault', hstep, huntouched,
            absurd trivial⟩
  | removeNode graph node =>
      exact (removal_ends htidy hidle (hduty _ rfl) rfl
        (fun t _ httasks => step_answers httasks fun _ => rfl) hcalm).imp_left .spared
  | removeEdge graph edge =>
      exact (removal_ends htidy hidle (hduty _ rfl) rfl
        (fun t _ httasks => step_answers httasks fun _ => rfl) hcalm).imp_left .spared
  | removeEdgesByNodes graph selector =>
      exact (removeEdgesByNodes_ends htidy hidle hcalm).imp_left .spared
  | _ => exact hsingle.elim

/--
In every history whose handlers do not mutate, a command that changes graphs or wirings in one go and
comes to a fault has changed nothing but the outcome, apart from the number of an edge that it was to
create.  At no time has an item moved or been wired, or a handler been told of anything.
-/
theorem History.unchanged_of_fault
    {past : List (Session ρ)}
    (h : History c (fun cmd => ¬cmd.Mutates) past s)
    (interpret : Interpreter ρ)
    (request : ρ)
    (hidle : s.idle = true)
    (hreads : interpret s.names request = .ok cmd)
    (hsingle : cmd.Single)
    (hgenuine : cmd.Genuine c s.store)
    (habides : ∀ fuel, (Session.request interpret 0 s request).Abides c (fun cmd => ¬cmd.Mutates)
      interpret fuel)
    (fuel : Nat)
    (t : Session ρ)
    (ht : t = Session.request interpret fuel s request)
    (hdone : t.idle = true)
    (hfault : t.outcome.failed = true) :
    t = { s with store := t.store, log := [], outcome := t.outcome } ∧
      s.store.Untouched t.store ∧
      (¬cmd.CreatesEdge → t.store = s.store) ∧
      ∀ steps, s.store.Untouched (Session.request interpret steps s request).store ∧
        ∀ task ∈ (Session.request interpret steps s request).tasks, ¬task.Note := by
  have hcalm := h.calm_request hidle hreads hgenuine habides
  have htasks := List.isEmpty_iff.mp hidle
  have htidy := h.tidy.working [] [] s.outcome
  simp only [request_eq_run hreads] at ht ⊢
  rcases single_ends (s := { s with log := [] }) htidy htasks h.poised.1.sound h.poised.2.wired
    hsingle hgenuine hcalm with
    ⟨hsilent, ⟨hbegun, -⟩, store, fault, hstep, huntouched, hsame⟩ | hends
  · have hended : ((({ s with log := [] } : Session ρ).begin cmd).release.step interpret).idle =
        true := by
      rw [hstep]
      exact hidle
    have hlast : t = { s with store := store, log := [], outcome := .fault fault } := by
      rw [← hstep]
      rcases run_of_step_idle hended fuel with hnow | hlater
      · rw [hnow] at ht
        rw [← ht, step_of_idle hdone]
      · exact ht.trans hlater
    subst hlast
    refine ⟨rfl, huntouched, hsame, fun steps => ?_⟩
    rcases run_of_step_idle hended steps with hnow | hlater
    · rw [hnow]
      exact ⟨hbegun, hsilent⟩
    · rw [hlater, List.isEmpty_iff.mp hended, hstep]
      exact ⟨huntouched, fun task htask => absurd htask List.not_mem_nil⟩
  · rw [ht] at hdone hfault
    have hreplied := (Eventually.of_idle hends hdone).1
    rw [hfault] at hreplied
    cases hreplied

/--
An edge of one graph is to be connected in another graph, with a node that remembers a half wired
edge: this fails, and the edge stays where it is and as it is.
-/
theorem edge_stays_after_fault :
    ∃ (past : List (Session Unit)) (s t : Session Unit),
      History plainCatalogue (fun cmd => ¬cmd.Mutates) past s ∧ t.idle = true ∧
        t.outcome.failed = true ∧
        s.store.graphOfEdge ⟨⟨1⟩, .root .edge⟩ = some ⟨2⟩ ∧
        t = { s with store := t.store, log := [], outcome := t.outcome } ∧ t.store = s.store := by
  let first : Node := ⟨⟨1⟩, .root .node⟩
  let second : Node := ⟨⟨2⟩, .root .node⟩
  let edge : Edge := ⟨⟨1⟩, .root .edge⟩
  let half : Edge := ⟨⟨2⟩, .root .edge⟩
  let connecting : Interpreter Unit := fun _ _ => .ok (.addEdge ⟨1⟩ second first (some edge) none)
  obtain ⟨past, hsettled⟩ := settling_history
  have hhalf := hsettled.issued (.createEdge "f" (.root .edge) .null) (by decide +kernel) ()
    (by decide +kernel)
  have hwired := hhalf.issued (.setSource half first) (by decide +kernel) () (by decide +kernel)
  obtain ⟨hsame, -, hstore, -⟩ := hwired.unchanged_of_fault connecting () (by decide +kernel) rfl
    trivial (by decide +kernel) (abides_of_idle 1 (by decide +kernel) (by decide +kernel)) 1 _ rfl
    (by decide +kernel) (by decide +kernel)
  exact ⟨_, _, _, hwired, by decide +kernel, by decide +kernel, by decide +kernel, hsame,
    hstore id⟩

end Session

end PatternGraph
