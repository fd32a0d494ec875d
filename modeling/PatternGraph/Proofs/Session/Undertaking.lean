import PatternGraph.Proofs.Session.Adding
import PatternGraph.Proofs.Session.Duties

/-!
# What commands and duties do at once

A genuine command changes the store in one go, in one of few ways, and leaves at most one duty to be
done next.  So does each part of a duty that goes through a list of items.  What all of this keeps is
shown for each of these ways, and not for each command.
-/

namespace PatternGraph

variable {ρ : Type} {c : Catalogue}

namespace Session

variable {s s' s'' : Session ρ} {aim : Option GraphId} {graph : GraphId}

/-- Whether a session has changed its store in one go, with at most one duty to be done next. -/
inductive Undertakes (c : Catalogue) (aim : Option GraphId) (s s' : Session ρ) : Prop
  /-- At most something has been created. -/
  | rests (hgrows : s.store.Grows s'.store) (htasks : s'.tasks = s.tasks)
  /-- A detached edge has been wired. -/
  | wires (store : Store) (edge : Edge) (given : List Node) (hgrows : s.store.Grows store)
      (hrewires : store.Rewires edge given s'.store)
      (hedge : store.KnowsEdge c edge ∧ edge.id ∈ store.edges)
      (hgiven : ∀ n ∈ given, store.KnowsNode c n)
      (hdetached : store.graphOfEdge edge = none)
      (htasks : s'.tasks = s.tasks)
  /-- A duty has been taken up. -/
  | starts (duty : Task ρ) (hgrows : s.store.Grows s'.store) (htasks : s'.tasks = duty :: s.tasks)
      (hdue : duty.Due c aim s'.store)
  /-- Items have been taken out of a graph, which is to be told before a duty is done. -/
  | removes (store : Store) (graph : GraphId) (events : List Event) (duty : Task ρ)
      (hgrows : s.store.Grows store) (hremoves : store.Removes graph events s'.store)
      (haim : aim ≠ some graph) (htasks : s'.tasks = .dispatch graph events :: duty :: s.tasks)
      (hdue : duty.Due c aim s'.store)

namespace Undertakes

/-- Something has been created before. -/
theorem after
    (h : Undertakes c aim s' s'')
    (hgrows : s.store.Grows s'.store)
    (htasks : s'.tasks = s.tasks) :
    Undertakes c aim s s'' := by
  cases h with
  | rests hgrows' htasks' => exact .rests (hgrows.trans hgrows') (htasks'.trans htasks)
  | wires store edge given hgrows' hrewires hedge hgiven hdetached htasks' =>
      exact .wires store edge given (hgrows.trans hgrows') hrewires hedge hgiven hdetached
        (htasks'.trans htasks)
  | starts duty hgrows' htasks' hdue =>
      exact .starts duty (hgrows.trans hgrows') (htasks ▸ htasks') hdue
  | removes store graph events duty hgrows' hremoves haim htasks' hdue =>
      exact .removes store graph events duty (hgrows.trans hgrows') hremoves haim
        (htasks ▸ htasks') hdue

theorem aside
    (hpristine : s.store.Pristine)
    (hstore : s'.store = s.store)
    (htasks : s'.tasks = s.tasks) :
    Undertakes c aim s s' := by
  refine .rests ?_ htasks
  rw [hstore]
  exact .refl hpristine

theorem push
    {duty : Task ρ}
    (hpristine : s.store.Pristine)
    (hdue : duty.Due c aim s.store) :
    Undertakes c aim s (s.push [duty]) :=
  .starts duty (.refl hpristine) rfl hdue

theorem announceEvents
    {events : List Event}
    {store : Store}
    (hpristine : s.store.Pristine)
    (hremoves : s.store.Removes graph events store)
    (haim : aim ≠ some graph)
    (ending : Ending) :
    Undertakes c aim s (({ s with store := store } : Session ρ).announceEvents graph events ending) :=
  .removes s.store graph events (.finish ending) (.refl hpristine) hremoves haim rfl (.finish ending)

/-- A removal is told and followed by a duty, or fails. -/
theorem withStore
    {duty : Task ρ}
    {result : Except Fault (List Event × Store)}
    (hpristine : s.store.Pristine)
    (hremoves : ∀ events store, result = .ok (events, store) → s.store.Removes graph events store)
    (haim : aim ≠ some graph)
    (hdue : ∀ events store, result = .ok (events, store) → duty.Due c aim store) :
    Undertakes c aim s
      (s.withStore result fun events s => s.push [.dispatch graph events, duty]) := by
  unfold Session.withStore
  split
  · exact aside hpristine rfl rfl
  · rename_i events store
    exact .removes s.store graph events duty (.refl hpristine) (hremoves events store rfl) haim rfl
      (hdue events store rfl)

end Undertakes

section Commands

theorem addNode_undertakes
    {node : Node}
    (hsound : s.store.Sound c)
    (hgraph : graph ∈ s.store.graphs)
    (hnode : s.store.KnowsNode c node) :
    Undertakes c (some graph) s (s.addNode graph node) := by
  rcases s.addNode_cases graph node with ⟨outcome, heq⟩ | ⟨ending, heq⟩
  · exact heq ▸ .aside hsound.toPristine rfl rfl
  · exact heq ▸ .push hsound.toPristine (.attach ending hgraph hnode trivial (by simp))

theorem insertEdge_undertakes
    {edge : Edge}
    (hsound : s.store.Sound c)
    (hgraph : graph ∈ s.store.graphs)
    (hedge : s.store.KnowsEdge c edge ∧ edge.id ∈ s.store.edges) :
    Undertakes c (some graph) s (s.insertEdge graph edge) := by
  rcases s.insertEdge_cases graph edge with ⟨outcome, heq⟩ | ⟨ending, heq⟩
  · exact heq ▸ .aside hsound.toPristine rfl rfl
  · exact heq ▸ .push hsound.toPristine (.attach ending hgraph hedge.1 hedge.2 (by simp))

theorem addGivenEdge_undertakes
    {source target : Node}
    {edge : Edge}
    (hsound : s.store.Sound c)
    (hgraph : graph ∈ s.store.graphs)
    (hedge : s.store.KnowsEdge c edge ∧ edge.id ∈ s.store.edges)
    (hsource : s.store.KnowsNode c source)
    (htarget : s.store.KnowsNode c target)
    (as : Option String) :
    Undertakes c (some graph) s (s.addEdge graph source target (some edge) as) := by
  have hpristine := hsound.toPristine
  rcases s.addGivenEdge_cases graph source target edge as with ⟨outcome, heq⟩ | ⟨ending, heq⟩ |
    ⟨ending, rfl, ⟨hnone, heq⟩ | ⟨previous, -, hother, heq⟩⟩
  · exact heq ▸ .aside hpristine rfl rfl
  · exact heq ▸ .push hpristine (.finish ending)
  · exact heq ▸ .push hpristine (.connect ending hgraph hedge hsource htarget hnone)
  · rw [heq]
    refine .withStore hpristine (fun events store h => .removeEdge h)
      (fun haim => hother (Option.some.inj haim).symm) fun events store h => ?_
    obtain ⟨hloses, htold⟩ := Store.Loses.removeEdge hsound.represented h
    refine .connect ending ((hloses.graphs ending.graph).mpr hgraph)
      ⟨hedge.1.mono hloses.edgeCount.ge, (hloses.alive edge.id).mpr (Or.inl hedge.2)⟩
      (hsource.mono hloses.nodeCount.ge) (htarget.mono hloses.nodeCount.ge) ?_
    rw [Store.home_edge, Store.home, hloses.owner, if_pos ((htold _).mpr rfl)]
    rfl

theorem addEdge_undertakes
    {source target : Node}
    {given : Option Edge}
    {as : Option String}
    (hsound : s.store.Sound c)
    (hgenuine : (Command.addEdge graph source target given as : Command ρ).Genuine c s.store) :
    Undertakes c (some graph) s (s.addEdge graph source target given as) := by
  cases given with
  | some edge =>
      obtain ⟨hgraph, hedge, hsource, htarget⟩ := hgenuine
      exact addGivenEdge_undertakes hsound hgraph hedge hsource htarget as
  | none =>
      -- an edge that is not given is created before anything else
      obtain ⟨hgraph, htype, hsource, htarget⟩ := hgenuine
      have hgrows := Store.Grows.createEdge hsound.toPristine (.root .edge) .null
      let created : Session ρ := { s with store := (s.store.createEdge (.root .edge) .null).2 }
      have hadded : Undertakes c (some graph) created (s.addEdge graph source target none as) :=
        addGivenEdge_undertakes (s := created) (hsound.ages hgrows.toAges)
          (hgrows.keepsGraph graph hgraph)
          ⟨⟨htype, Nat.le_refl _⟩, Std.ExtTreeMap.mem_insert_self⟩ (hsource.mono hgrows.nodeCount)
          (htarget.mono hgrows.nodeCount) as
      exact hadded.after hgrows rfl

/-- A genuine command brings items only into the graph that it aims at. -/
theorem begin_undertakes
    {cmd : Command ρ}
    (hsound : s.store.Sound c)
    (hgenuine : cmd.Genuine c s.store) :
    Undertakes c cmd.aim s (s.begin cmd) := by
  have hpristine := hsound.toPristine
  by_cases hmutates : cmd.Mutates
  · cases cmd with
    | createEdgeBetween as type source target =>
        obtain ⟨htype, hsource, htarget⟩ := hgenuine
        have hgrows := Store.Grows.createEdge hpristine type .null
        refine .wires _ _ [source, target] hgrows (.rewire _ _ source target)
          ⟨⟨htype, Nat.le_refl _⟩, Std.ExtTreeMap.mem_insert_self⟩ (fun n hn => ?_) ?_ rfl
        · simp only [List.mem_cons, List.not_mem_nil, or_false] at hn
          rcases hn with rfl | rfl
          · exact hsource.mono hgrows.nodeCount
          · exact htarget.mono hgrows.nodeCount
        · rw [Store.graphOfEdge, (hgrows.newEdge _ (Nat.lt_succ_self _)).owner]
          rfl
    | setSource edge node =>
        obtain ⟨hknown, halive, hnode⟩ := hgenuine
        rw [begin]
        split
        · exact .aside hpristine rfl rfl
        · rename_i store hset
          obtain ⟨hrewires, hdetached⟩ := Store.Rewires.setSource hset
          exact .wires s.store edge [node] (.refl hpristine) hrewires ⟨hknown, halive⟩
            (List.forall_mem_singleton.mpr hnode) hdetached rfl
    | setTarget edge node =>
        obtain ⟨hknown, halive, hnode⟩ := hgenuine
        rw [begin]
        split
        · exact .aside hpristine rfl rfl
        · rename_i store hset
          obtain ⟨hrewires, hdetached⟩ := Store.Rewires.setTarget hset
          exact .wires s.store edge [node] (.refl hpristine) hrewires ⟨hknown, halive⟩
            (List.forall_mem_singleton.mpr hnode) hdetached rfl
    | addNodes graph nodes =>
        exact .starts _ (.refl hpristine) rfl (.addNodes [] hgenuine.1 hgenuine.2)
    | addNode graph node => exact addNode_undertakes hsound hgenuine.1 hgenuine.2
    | addEdge graph source target given as => exact addEdge_undertakes hsound hgenuine
    | insertEdge graph edge => exact insertEdge_undertakes hsound hgenuine.1 hgenuine.2
    | removeNode graph node => exact .push hpristine (.removeNodes _ (by simp [Command.aim]))
    | removeNodes graph nodes => exact .push hpristine (.removeNodes _ (by simp [Command.aim]))
    | removeNodesByType graph type =>
        exact .announceEvents hpristine (.removeNodesByType s.store graph type)
          (by simp [Command.aim]) _
    | removeEdge graph edge => exact .push hpristine (.removeEdges _ _ (by simp [Command.aim]))
    | removeEdges graph edges => exact .push hpristine (.removeEdges _ _ (by simp [Command.aim]))
    | removeEdgesByNodes graph selector =>
        exact .withStore hpristine (fun events store h => .removeEdgesByNodes h)
          (by simp [Command.aim]) fun _ _ _ => .finish _
    | removeEdgesByType graph type =>
        exact .announceEvents hpristine (.removeEdgesByType s.store graph type)
          (by simp [Command.aim]) _
    | _ => exact absurd hmutates id
  · obtain ⟨htasks, hgrows⟩ := s.begin_calm hpristine hmutates
    exact .rests hgrows htasks

end Commands

/--
A part of a duty that goes through a list of items, or ends a command, is done in one go.  The nodes
that are still to be added come afterwards.
-/
theorem perform_undertakes
    {task : Task ρ}
    {interpret : Interpreter ρ}
    (hroutine : task.Routine)
    (hsound : s.store.Sound c)
    (hready : task.Ready c s.store)
    (haims : task.Aims aim s.store) :
    ∃ kept : List (Task ρ), (∀ other ∈ kept, other.Collects ∧ other.Due c aim s.store) ∧
      Undertakes c aim (s.push kept) (s.perform interpret task) := by
  have hpristine := hsound.toPristine
  have hnone : ∀ {s' : Session ρ}, Undertakes c aim s s' →
      ∃ kept : List (Task ρ), (∀ other ∈ kept, other.Collects ∧ other.Due c aim s.store) ∧
        Undertakes c aim (s.push kept) s' := fun h => ⟨[], by simp, h⟩
  cases task with
  | addNodes graph rest added =>
      obtain rfl : aim = some graph := haims
      unfold perform
      dsimp only
      split
      · exact hnone (.aside hpristine rfl rfl)
      · split
        · exact hnone (.aside hpristine rfl rfl)
        · rename_i node rest
          refine ⟨[.addNodes graph rest (node :: added)], fun other hother => ?_, ?_⟩
          · obtain rfl := List.mem_singleton.mp hother
            exact ⟨trivial, .addNodes _ hready.1 fun n hn =>
              hready.2 n (List.mem_cons_of_mem node hn)⟩
          · exact addNode_undertakes (s := s.push [.addNodes graph rest (node :: added)]) hsound
              hready.1 (hready.2 node List.mem_cons_self)
  | removeNodes graph rest =>
      cases rest with
      | nil => exact hnone (.aside hpristine rfl rfl)
      | cons node rest =>
          exact hnone (.withStore hpristine (fun events store h => .removeNode h) haims
            fun _ _ _ => .removeNodes rest haims)
  | removeEdges graph rest named =>
      cases rest with
      | nil => exact hnone (.aside hpristine rfl rfl)
      | cons edge rest =>
          exact hnone (.withStore hpristine (fun events store h => .removeEdge h) haims
            fun _ _ _ => .removeEdges rest named haims)
  | finish ending =>
      have hfinished : Undertakes c aim s (s.finish ending) := by
        unfold finish
        dsimp only
        split
        · exact .aside hpristine rfl rfl
        · exact .aside hpristine rfl rfl
      exact hnone hfinished
  | _ => exact hroutine.elim

end Session

end PatternGraph
