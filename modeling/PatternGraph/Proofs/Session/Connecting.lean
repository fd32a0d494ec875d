import PatternGraph.Proofs.Session.Bringing
import PatternGraph.Proofs.Session.Tidy
import PatternGraph.Proofs.Store.Closure

/-!
# Bringing items in

A command that brings items into a graph is refused by its preflight, or it never fails: what it
draws along has both ends, and an edge that it wires has left the graph that it was in by then.  When
nothing is in progress any more, the stores before and after are related as `Closes` says.
-/

namespace PatternGraph

variable {ρ : Type} {c : Catalogue} {interpret : Interpreter ρ}

namespace Session

variable {s : Session ρ} {g : GraphId}

/-- Whether a session comes to rest without a fault, in a store as required. -/
def Succeeds (interpret : Interpreter ρ) (K : Store → Prop) (s : Session ρ) : Prop :=
  Eventually interpret (fun t => t.idle = true ∧ t.outcome.failed = false ∧ K t.store) s

theorem Succeeds.now
    {K : Store → Prop}
    (hidle : s.idle = true)
    (houtcome : s.outcome.failed = false)
    (hK : K s.store) :
    Succeeds interpret K s :=
  Eventually.now ⟨hidle, houtcome, hK⟩

theorem Succeeds.mono
    {K K' : Store → Prop}
    (h : Succeeds interpret K s)
    (hK : ∀ store, K store → K' store) :
    Succeeds interpret K' s :=
  Eventually.mono h fun t ht => ⟨ht.1, ht.2.1, hK t.store ht.2.2⟩

namespace Calm

variable {ending : Ending} {e : Edge} {source target : Node} {base : Store}

/-- The step that connects an edge leaves its attachment to be done. -/
theorem step_connect
    (h : Calm c interpret s)
    (htasks : s.tasks = [.connect e source target ending])
    (hbase : base.Sound c)
    (hwired : base.Wired)
    (hdrifts : base.Drifts (· = .edge e.id) s.store)
    (hpreflight : base.preflight [source, target] = .ok ()) :
    (s.step interpret).tasks = [.attach ⟨ending.graph, [.edge e], []⟩ ending] ∧
      base.Connects e source target (s.step interpret).store ∧
      Attachment.Starts c [.edge e.id] (s.step interpret).store ∧
      e.id ∈ (s.step interpret).store.edges ∧ ending.graph ∈ (s.step interpret).store.graphs := by
  obtain ⟨hedge, hsource, htarget, -⟩ :
      (Task.connect e source target ending : Task ρ).Ready c s.store :=
    h.orderly.ready _ (htasks ▸ List.mem_singleton_self _)
  have hgiven : ∀ n ∈ [source, target], s.store.KnowsNode c n := by
    simp [hsource, htarget]
  have hrewired := h.orderly.sound.rewires (.rewire s.store e source target) hedge hgiven
  let wired : Session ρ :=
    { s with
      store := s.store.rewire e source target
      tasks := [.attach ⟨ending.graph, [.edge e], []⟩ ending] }
  have hstep : s.step interpret = wired.release := by
    rw [Session.step, htasks]
    rfl
  have htasks' : (s.step interpret).tasks = [.attach ⟨ending.graph, [.edge e], []⟩ ending] := by
    rw [hstep, tasks_release]
  have hages : (s.store.rewire e source target).Ages (s.step interpret).store := by
    rw [hstep]
    exact wired.ages_release hrewired.toPristine
  have hconnects : base.Connects e source target (s.step interpret).store :=
    .of_rewire hdrifts (.of_ages hages hrewired.toPristine) hbase.toPristine
  obtain ⟨hgraph, hknown⟩ :
      (Task.attach ⟨ending.graph, [.edge e], []⟩ ending : Task ρ).Ready c (s.step interpret).store :=
    h.step.orderly.ready _ (htasks' ▸ List.mem_singleton_self _)
  have hissued : (s.step interpret).store.KnowsEdge c e := hknown (.edge e) List.mem_cons_self
  have halive : e.id ∈ (s.step interpret).store.edges :=
    h.step.poised.fit (.attach ⟨ending.graph, [.edge e], []⟩ ending)
      (htasks' ▸ List.mem_singleton_self _) (.edge e) List.mem_cons_self
  exact ⟨htasks', hconnects, hconnects.starts hbase hwired hpreflight h.step.orderly.sound
    h.step.poised.wired hissued.2 halive, halive, hgraph⟩

/-- The attachment of one root comes to an end, and all that it draws along is in the graph. -/
theorem attach_root_ends
    {job : Job}
    (h : Calm c interpret s)
    (htasks : s.tasks = [.attach ⟨g, [job], []⟩ ending])
    (hgraph : ending.graph = g)
    (hstarts : Attachment.Starts c [job.item] s.store)
    (hsupplied : Attachment.Supplied (· ∈ (s.store.index g).nodes) [job]) :
    Eventually interpret (fun t => t.idle = true ∧ Calm c interpret t ∧
      t.outcome = ending.outcome ∧
      (g ∈ t.store.graphs → s.store.Underway g [job.item] [] t.store)) s :=
  h.attach_ends htasks hgraph hstarts ⟨.start hstarts.sound, hsupplied⟩

/-- An edge that is to be connected comes into the graph in the end, with all that it draws along. -/
theorem connect_ends
    {before : Store}
    {notes : List (Task ρ)}
    (h : Calm c interpret s)
    (htasks : s.tasks = notes ++ [.connect e source target ending])
    (hnotes : ∀ note ∈ notes, note.Note)
    (hbefore : before.Sound c)
    (hprior : before.Drifts (fun _ => False) base)
    (hbase : base.Sound c)
    (hwired : base.Wired)
    (hdrifts : base.Drifts (· = .edge e.id) s.store)
    (hpreflight : base.preflight [source, target] = .ok ())
    (hfault : ending.outcome.failed = false) :
    Succeeds interpret (fun store => e.id ∉ (before.index ending.graph).edges →
      ending.graph ∈ store.graphs →
      before.Closes (base.rewire e source target) ending.graph [.edge e.id] store) s := by
  have hlasts : Lasts c (.connect e source target ending : Task ρ)
      (base.Drifts (· = .edge e.id)) := fun store store' hsound hdrifts hages _ =>
    hdrifts.trans (.of_ages hages hsound.toPristine) hbase.toPristine
  refine (drain hlasts hnotes h htasks hdrifts).trans ?_
  rintro t ⟨ht, httasks, hdrifted⟩
  obtain ⟨htasks', hconnects, hstarts, halive, hgraph⟩ :=
    ht.step_connect httasks hbase hwired hdrifted hpreflight
  refine .later ((ht.step.attach_root_ends htasks' rfl hstarts trivial).mono ?_)
  rintro last ⟨hidle, hlast, houtcome, hunderway⟩
  refine ⟨hidle, houtcome ▸ hfault, fun hout hmem => ?_⟩
  have hprepares := Store.Prepares.of_connects (g := ending.graph) hprior hconnects
    hbefore.toPristine hwired hstarts.wired halive hgraph hout
  refine (hunderway hmem).closes hprepares hbefore hstarts.sound hlast.orderly.sound
    hlast.poised.wired fun f hf => ?_
  rw [ItemId.edge.inj (List.mem_singleton.mp hf)]
  exact halive

end Calm

section Commands

variable {n source target : Node} {e : Edge} {as : Option String}

theorem tasks_push (hidle : s.tasks = []) (pushed : List (Task ρ)) :
    (s.push pushed).tasks = pushed := by
  rw [push, hidle]
  exact List.append_nil pushed

/-- A tidy session lets go of nothing when it takes up tasks. -/
theorem Tidy.release_push (h : s.Tidy) (tasks : List (Task ρ)) :
    (s.push tasks).release = s.push tasks :=
  (h.working tasks s.log s.outcome).release_eq

theorem Tidy.release_conclude (h : s.Tidy) (outcome : Outcome) :
    (s.conclude outcome).release = s.conclude outcome :=
  (h.working [] s.log outcome).release_eq

/-- The attachment of one root, as the only task of a tidy session, closes the graph. -/
theorem attach_closes
    {job : Job}
    (ending : Ending)
    (htidy : s.Tidy)
    (hidle : s.tasks = [])
    (hsound : s.store.Sound c)
    (hwired : s.store.Wired)
    (hgraph : ending.graph ∈ s.store.graphs)
    (hcalm : Calm c interpret (s.push [.attach ⟨ending.graph, [job], []⟩ ending]).release)
    (hstarts : Attachment.Starts c [job.item] s.store)
    (hsupplied : Attachment.Supplied (· ∈ (s.store.index ending.graph).nodes) [job])
    (hroot : ∀ e : Edge, .edge e.id ∈ [job.item] → e.id ∈ s.store.edges)
    (hfault : ending.outcome.failed = false) :
    Succeeds interpret (fun store => ending.graph ∈ store.graphs →
      s.store.Closes s.store ending.graph [job.item] store)
      (s.push [.attach ⟨ending.graph, [job], []⟩ ending]).release := by
  rw [htidy.release_push] at hcalm ⊢
  refine (hcalm.attach_root_ends (tasks_push hidle _) rfl hstarts hsupplied).mono ?_
  rintro t ⟨ht, hlast, houtcome, hunderway⟩
  refine ⟨ht, houtcome ▸ hfault, fun hmem => ?_⟩
  exact (hunderway hmem).closes
    (.of_drifts (.refl hsound.toPristine) hwired hwired hgraph) hsound hsound
    hlast.orderly.sound hlast.poised.wired hroot

/-- A node is refused, or comes into the graph with all that it draws along. -/
theorem addNode_ends
    (htidy : s.Tidy)
    (hidle : s.tasks = [])
    (hsound : s.store.Sound c)
    (hwired : s.store.Wired)
    (hgraph : g ∈ s.store.graphs)
    (hknown : s.store.KnowsNode c n)
    (hcalm : Calm c interpret (s.addNode g n).release) :
    (∃ fault, s.addNode g n = s.fail fault) ∨
      Succeeds interpret (fun store => g ∈ store.graphs →
        s.store.Closes s.store g [.node n.id] store) (s.addNode g n).release := by
  cases hpreflight : s.store.preflight [n] with
  | error fault =>
      refine Or.inl ⟨fault, ?_⟩
      rw [addNode, hpreflight]
  | ok accepted =>
      have hbegin : s.addNode g n =
          s.push [.attach ⟨g, [.node n], []⟩ (.reply g (.item (.node n.id)))] := by
        rw [addNode, hpreflight]
      have hstarts : Attachment.Starts c [.node n.id] s.store := by
        refine ⟨hsound, hwired, fun root hroot => ?_, fun e he =>
          Store.endpoints_of_preflight hpreflight he⟩
        rw [List.mem_singleton.mp hroot]
        exact hknown.2
      rw [hbegin] at hcalm ⊢
      exact Or.inr (attach_closes (.reply g (.item (.node n.id))) htidy hidle hsound hwired
        hgraph hcalm hstarts trivial (fun e he => by cases List.mem_singleton.mp he) rfl)

/-- A wired edge is refused, or comes into the graph with all that it draws along. -/
theorem insertEdge_ends
    (htidy : s.Tidy)
    (hidle : s.tasks = [])
    (hsound : s.store.Sound c)
    (hwired : s.store.Wired)
    (hgraph : g ∈ s.store.graphs)
    (hknown : s.store.KnowsEdge c e)
    (halive : e.id ∈ s.store.edges)
    (hcalm : Calm c interpret (s.insertEdge g e).release) :
    (∃ fault, s.insertEdge g e = s.fail fault) ∨
      Succeeds interpret (fun store => e.id ∉ (s.store.index g).edges → g ∈ store.graphs →
        s.store.Closes s.store g [.edge e.id] store) (s.insertEdge g e).release := by
  by_cases howned : s.store.ownsEdge g e = true
  · have hbegin : s.insertEdge g e = s.answer (.item (.edge e.id)) := by
      rw [insertEdge, if_pos howned]
    have hin : e.id ∈ (s.store.index g).edges :=
      (hsound.housed g hgraph (.edge e.id)).mp ((s.store.ownsEdge_iff e).mp howned)
    rw [hbegin, answer, htidy.release_conclude]
    exact Or.inr (.now (List.isEmpty_iff.mpr hidle) rfl fun hout => absurd hin hout)
  · cases hends : s.store.endpoints? e with
    | none =>
        refine Or.inl ⟨.halfWired e.id, ?_⟩
        rw [insertEdge, if_neg howned, hends]
    | some ends =>
        obtain ⟨source, target⟩ := ends
        cases hpreflight : s.store.preflight [source, target] with
        | error fault =>
            refine Or.inl ⟨fault, ?_⟩
            rw [insertEdge, if_neg howned, hends]
            dsimp only
            rw [hpreflight]
        | ok accepted =>
            let ending := (Ending.reply g (.item (.edge e.id))).holding [e]
            have hbegin : s.insertEdge g e = s.push [.attach ⟨g, [.edge e], []⟩ ending] := by
              rw [insertEdge, if_neg howned, hends]
              dsimp only
              rw [hpreflight]
            have hconnects := Store.Connects.refl hends
            have hstarts : Attachment.Starts c [.edge e.id] s.store :=
              hconnects.starts hsound hwired hpreflight hsound hwired hknown.2 halive
            rw [hbegin] at hcalm ⊢
            refine Or.inr ((attach_closes ending htidy hidle hsound hwired hgraph hcalm
              hstarts trivial (fun f hf => ?_) rfl).mono fun store hcloses _ => hcloses)
            rw [ItemId.edge.inj (List.mem_singleton.mp hf)]
            exact halive

/-- An edge that the graph owns already is left as it is. -/
theorem addOwnedEdge_ends
    {before : Store}
    (hidle : s.tasks = [])
    (hprior : before.Drifts (fun _ => False) s.store)
    (hsound : s.store.Sound c)
    (hgraph : g ∈ s.store.graphs)
    (howned : s.store.ownsEdge g e = true)
    (hcalm : Calm c interpret (s.addEdge g source target (some e) as).release) :
    Succeeds interpret (fun store => e.id ∉ (before.index g).edges → g ∈ store.graphs →
      before.Closes (s.store.rewire e source target) g [.edge e.id] store)
      (s.addEdge g source target (some e) as).release := by
  let ending : Ending :=
    ⟨.reply (.item (.edge e.id)), g, [e], as.map fun name => (name, e)⟩
  have hbegin : s.addEdge g source target (some e) as = s.push [.finish ending] := by
    simp only [addEdge, howned, if_true]
    rfl
  have hin : e.id ∈ (s.store.index g).edges :=
    (hsound.housed g hgraph (.edge e.id)).mp ((s.store.ownsEdge_iff e).mp howned)
  rw [hbegin] at hcalm ⊢
  have htasks : (s.push [.finish ending]).release.tasks = [.finish ending] := by
    rw [tasks_release, tasks_push hidle]
  obtain ⟨hdone, houtcome, -⟩ := hcalm.step_finish htasks
  refine Eventually.later (Eventually.now ⟨hdone, houtcome ▸ rfl, fun hout => ?_⟩)
  exact absurd (hprior.included g (.edge e.id) hin) hout

/-- An edge whose ends the preflight refuses is refused. -/
theorem addEdge_of_refused
    {fault : Fault}
    (howned : s.store.ownsEdge g e = false)
    (hpreflight : s.store.preflight [source, target] = .error fault) :
    s.addEdge g source target (some e) as = s.fail fault := by
  simp only [addEdge, howned, hpreflight]
  rfl

/-- An edge whose ends the preflight accepts is wired and comes into the graph. -/
theorem addAcceptedEdge_ends
    {before : Store}
    (hidle : s.tasks = [])
    (hbefore : before.Sound c)
    (hprior : before.Drifts (fun _ => False) s.store)
    (hsound : s.store.Sound c)
    (hwired : s.store.Wired)
    (howned : s.store.ownsEdge g e = false)
    (hpreflight : s.store.preflight [source, target] = .ok ())
    (hcalm : Calm c interpret (s.addEdge g source target (some e) as).release) :
    Succeeds interpret (fun store => e.id ∉ (before.index g).edges → g ∈ store.graphs →
      before.Closes (s.store.rewire e source target) g [.edge e.id] store)
      (s.addEdge g source target (some e) as).release := by
  let ending : Ending :=
    ⟨.reply (.item (.edge e.id)), g, [e], as.map fun name => (name, e)⟩
  cases hhome : s.store.graphOfEdge e with
  | none =>
      have hbegin : s.addEdge g source target (some e) as =
          s.push [.connect e source target ending] := by
        simp only [addEdge, howned, hpreflight, hhome]
        rfl
      rw [hbegin] at hcalm ⊢
      have htasks : (s.push [.connect e source target ending]).release.tasks =
          [] ++ [.connect e source target ending] := by
        rw [tasks_release, tasks_push hidle, List.nil_append]
      have hages := (s.push [.connect e source target ending]).ages_release hsound.toPristine
      exact hcalm.connect_ends htasks (by simp) hbefore hprior hsound hwired
        (.of_ages hages hsound.toPristine) hpreflight rfl
  | some previous =>
      obtain ⟨⟨events, store⟩, hremove⟩ := Store.removeEdge_isOk hsound.represented
        ((hsound.home_eq_some_iff (.edge e.id)).mp hhome)
      obtain ⟨hloses, htold⟩ := Store.Loses.removeEdge hsound.represented hremove
      let left : Session ρ := ({ s with store := store } : Session ρ).push
        [.dispatch previous events, .connect e source target ending]
      have hbegin : s.addEdge g source target (some e) as = left := by
        simp only [addEdge, howned, hpreflight, hhome, hremove, withStore]
        rfl
      rw [hbegin] at hcalm ⊢
      have htasks : left.release.tasks =
          [.dispatch previous events] ++ [.connect e source target ending] := by
        rw [tasks_release]
        exact tasks_push hidle _
      have hlost := hsound.loses hloses
      have hleft : s.store.Drifts (· = .edge e.id) store :=
        .of_loses hloses hsound.contained fun id hid => (htold id).mp hid
      have hdrifts : s.store.Drifts (· = .edge e.id) left.release.store :=
        hleft.trans (.of_ages (left.ages_release hlost.toPristine) hlost.toPristine)
          hsound.toPristine
      exact hcalm.connect_ends htasks (by simp [Task.Note, Task.rank]) hbefore hprior
        hsound hwired hdrifts hpreflight rfl

/-- An edge is refused, or is wired and comes into the graph with all that it draws along. -/
theorem addGivenEdge_ends
    {before : Store}
    (hidle : s.tasks = [])
    (hbefore : before.Sound c)
    (hprior : before.Drifts (fun _ => False) s.store)
    (hsound : s.store.Sound c)
    (hwired : s.store.Wired)
    (hgraph : g ∈ s.store.graphs)
    (hcalm : Calm c interpret (s.addEdge g source target (some e) as).release) :
    (∃ fault, s.addEdge g source target (some e) as = s.fail fault) ∨
      Succeeds interpret (fun store => e.id ∉ (before.index g).edges → g ∈ store.graphs →
        before.Closes (s.store.rewire e source target) g [.edge e.id] store)
        (s.addEdge g source target (some e) as).release := by
  cases howned : s.store.ownsEdge g e with
  | true => exact Or.inr (addOwnedEdge_ends hidle hprior hsound hgraph howned hcalm)
  | false =>
      cases hpreflight : s.store.preflight [source, target] with
      | error fault => exact Or.inl ⟨fault, addEdge_of_refused howned hpreflight⟩
      | ok accepted =>
          exact Or.inr (addAcceptedEdge_ends hidle hbefore hprior hsound hwired howned hpreflight
            hcalm)

/-- An edge between two nodes is refused, or is created and comes into the graph. -/
theorem addCreatedEdge_ends
    (hidle : s.tasks = [])
    (hsound : s.store.Sound c)
    (hwired : s.store.Wired)
    (hgraph : g ∈ s.store.graphs)
    (hcalm : Calm c interpret (s.addEdge g source target none as).release) :
    let created := s.store.createEdge (.root .edge) .null
    (∃ fault, s.addEdge g source target none as =
      ({ s with store := created.2 } : Session ρ).fail fault) ∨
      Succeeds interpret (fun store => g ∈ store.graphs →
        s.store.Closes (created.2.rewire created.1 source target) g [.edge created.1.id] store)
        (s.addEdge g source target none as).release := by
  intro created
  have hgrows := Store.Grows.createEdge hsound.toPristine (.root .edge) .null
  have hout : created.1.id ∉ (s.store.index g).edges := by
    intro hin
    have hissued : s.store.Issued (.edge created.1.id) := hsound.issued_of_includes hin
    exact Nat.not_succ_le_self _ hissued
  refine (addGivenEdge_ends (s := { s with store := created.2 }) hidle hsound
    (.of_ages hgrows.toAges hsound.toPristine) (hsound.ages hgrows.toAges)
    (hwired.ages hsound hgrows.toAges) (hgrows.keepsGraph g hgraph) hcalm).imp_right fun hends => ?_
  exact hends.mono fun store hcloses => hcloses hout

end Commands

end Session

end PatternGraph
