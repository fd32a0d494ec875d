import PatternGraph.Proofs.Session.Running
import PatternGraph.Proofs.Store.Attaching

/-!
# Attachments come to an end

In a calm session an attachment that has started never fails, and it comes to an end: each of its jobs
dwindles what is left to be done, and in between the notes of graphs that items have left are told.
-/

namespace PatternGraph

variable {ρ : Type} {c : Catalogue} {interpret : Interpreter ρ}

namespace Session

variable {s : Session ρ}

theorem outcome_release (s : Session ρ) : s.release.outcome = s.outcome := by
  obtain ⟨observers, h⟩ := s.release_eq_retain
  rw [h]

namespace Calm

variable {ending : Ending} {a : Attachment} {first : Store} {roots : List ItemId}

/-- A command ends with the outcome that its ending foresees. -/
theorem step_finish
    (h : Calm c interpret s)
    (htasks : s.tasks = [.finish ending]) :
    (s.step interpret).idle = true ∧ (s.step interpret).outcome = ending.outcome ∧
      s.store.Ages (s.step interpret).store := by
  let ended : Session ρ := ({ s with tasks := [] } : Session ρ).finish ending
  have hstep : s.step interpret = ended.release := by
    rw [Session.step, htasks]
    rfl
  have hended : ended.store = s.store ∧ ended.tasks = [] ∧ ended.outcome = ending.outcome := by
    unfold ended finish
    dsimp only
    split
    · exact ⟨rfl, rfl, rfl⟩
    · exact ⟨rfl, rfl, rfl⟩
  obtain ⟨hstore, hnone, houtcome⟩ := hended
  rw [hstep]
  refine ⟨?_, ?_, ?_⟩
  · rw [idle, tasks_release, hnone]
    rfl
  · rw [outcome_release, houtcome]
  · have hages := ended.ages_release (hstore ▸ h.orderly.sound.toPristine)
    rwa [hstore] at hages

/-- A job is done, after which the attachment is still underway and less is left to be done. -/
theorem step_attach
    {job : Job}
    {jobs : List Job}
    (h : Calm c interpret s)
    (htasks : s.tasks = [.attach a ending])
    (hjobs : a.jobs = job :: jobs)
    (hstarts : Attachment.Starts c roots first)
    (hunderway : a.Underway first roots s.store) :
    ∃ notes a', (s.step interpret).tasks = notes ++ [.attach a' ending] ∧
      (∀ note ∈ notes, note.Note) ∧ a'.graph = a.graph ∧
      a'.Underway first roots (s.step interpret).store ∧
      Prod.Lex (· < ·) (· < ·)
        ((s.step interpret).store.absent a.graph first.nodeCount, a'.weight)
        (s.store.absent a.graph first.nodeCount, a.weight) := by
  have hsound := h.orderly.sound
  have hwired := h.poised.wired
  obtain ⟨hgraph, hknown⟩ : (Task.attach a ending : Task ρ).Ready c s.store :=
    h.orderly.ready _ (htasks ▸ List.mem_singleton_self _)
  have hfits : ∀ job ∈ a.jobs, job.Fits a.graph s.store :=
    h.poised.fit (.attach a ending) (htasks ▸ List.mem_singleton_self _)
  obtain ⟨⟨store, a', departure⟩, hperform⟩ :=
    hunderway.perform_isOk hstarts hsound hjobs hfits
  have hmoves := Attachment.moves_of_perform hperform
  have hfit := hfits job (hjobs ▸ List.mem_cons_self)
  have hmoved := hunderway.moves hstarts hsound hwired hgraph hjobs hfit hmoves
  have hdwindles := hunderway.dwindles hstarts hsound hwired hjobs hmoves
  have hsound' := hmoves.sound hsound hgraph (hknown job (hjobs ▸ List.mem_cons_self)) hjobs
    (Attachment.not_overtaken hfits)
  have hsame : a'.graph = a.graph := hmoves.graph_eq
  let notes : List (Task ρ) := departure.toList.map fun d => .dispatch d.graph d.events
  let done : Session ρ := { s with store := store, tasks := notes ++ [.attach a' ending] }
  have hstep : s.step interpret = done.release := by
    rw [Session.step, htasks]
    dsimp only
    unfold perform
    dsimp only
    rw [hjobs]
    dsimp only
    rw [hperform]
    cases departure <;> rfl
  have htasks' : (s.step interpret).tasks = notes ++ [.attach a' ending] := by
    rw [hstep, tasks_release]
  have hready : (Task.attach a' ending : Task ρ).Ready c (s.step interpret).store :=
    h.step.orderly.ready _ (htasks' ▸ List.mem_append_right _ (List.mem_singleton_self _))
  have hheld : a'.graph ∈ done.store.graphs := by
    have hmem := hready.1
    rw [hstep] at hmem
    exact ((done.mem_graphs_release a'.graph).mp hmem).1
  have hages : store.Ages (s.step interpret).store := by
    rw [hstep]
    exact done.ages_release hsound'.toPristine
  obtain ⟨hunderway', habsent⟩ := hmoved.ages hstarts hsound' hages hheld hready.1
  refine ⟨notes, a', htasks', fun note hnote => ?_, hsame, hunderway', ?_⟩
  · obtain ⟨d, -, rfl⟩ := List.mem_map.mp hnote
    simp [Task.Note, Task.rank]
  · rw [hsame] at habsent
    rw [habsent]
    exact Prod.lex_def.mpr hdwindles

/-- When no job is left, the events are told and the command ends. -/
theorem attach_nil_ends
    (h : Calm c interpret s)
    (htasks : s.tasks = [.attach a ending])
    (hgraph : ending.graph = a.graph)
    (hstarts : Attachment.Starts c roots first)
    (hjobs : a.jobs = [])
    (hdue : first.Underway a.graph roots [] s.store) :
    Eventually interpret (fun t => t.idle = true ∧ Calm c interpret t ∧
      t.outcome = ending.outcome ∧
      (a.graph ∈ t.store.graphs → first.Underway a.graph roots [] t.store)) s := by
  let told : Session ρ :=
    { s with tasks := [.dispatch a.graph a.events.reverse] ++ [.finish ending] }
  have hstep : s.step interpret = told.release := by
    rw [Session.step, htasks]
    dsimp only
    unfold perform
    dsimp only
    rw [hjobs]
    rfl
  have htasks' : (s.step interpret).tasks =
      [.dispatch a.graph a.events.reverse] ++ [.finish ending] := by
    rw [hstep, tasks_release]
  have hmem : a.graph ∈ s.store.graphs :=
    (h.orderly.ready (.attach a ending) (htasks ▸ List.mem_singleton_self _)).1
  have hlasts : Lasts c (.finish ending : Task ρ) fun store =>
      a.graph ∈ store.graphs ∧ first.Underway a.graph roots [] store := by
    rintro store store' hsound ⟨hmem, hdue⟩ hages hkept
    have hmem' := hkept a.graph (by simp [Task.graphs, hgraph]) hmem
    exact ⟨hmem', hdue.ages hstarts.sound hsound hages hmem hmem'⟩
  have hbegun : a.graph ∈ (s.step interpret).store.graphs ∧
      first.Underway a.graph roots [] (s.step interpret).store := by
    have hages : s.store.Ages (s.step interpret).store := by
      rw [hstep]
      exact told.ages_release h.orderly.sound.toPristine
    refine hlasts _ _ h.orderly.sound ⟨hmem, hdue⟩ hages fun g hg hmem => ?_
    rw [hstep]
    exact mem_graphs_release_of_task
      (List.mem_append_right _ (List.mem_singleton_self _)) hg hmem
  have hnotes : ∀ note ∈ [(.dispatch a.graph a.events.reverse : Task ρ)], note.Note := by
    simp [Task.Note, Task.rank]
  refine .later ((drain hlasts hnotes h.step htasks' hbegun).trans ?_)
  rintro t ⟨ht, httasks, hmem', hdue'⟩
  obtain ⟨hidle, houtcome, hages⟩ := ht.step_finish httasks
  exact .later (.now ⟨hidle, ht.step, houtcome, fun hmem'' =>
    hdue'.ages hstarts.sound ht.orderly.sound hages hmem' hmem''⟩)

/-- An attachment that has started comes to an end, with the outcome that its ending foresees. -/
theorem attach_ends
    (h : Calm c interpret s)
    (htasks : s.tasks = [.attach a ending])
    (hgraph : ending.graph = a.graph)
    (hstarts : Attachment.Starts c roots first)
    (hunderway : a.Underway first roots s.store) :
    Eventually interpret (fun t => t.idle = true ∧ Calm c interpret t ∧
      t.outcome = ending.outcome ∧
      (a.graph ∈ t.store.graphs → first.Underway a.graph roots [] t.store)) s := by
  have hwf : WellFounded (Prod.Lex (· < · : Nat → Nat → Prop) (· < · : Nat → Nat → Prop)) :=
    Nat.lt_wfRel.wf.prod_lex Nat.lt_wfRel.wf
  induction hm : (s.store.absent a.graph first.nodeCount, a.weight) using hwf.induction
    generalizing s a with
  | _ measure ih =>
      cases hjobs : a.jobs with
      | nil =>
          have hdue := hunderway.due
          rw [hjobs] at hdue
          exact h.attach_nil_ends htasks hgraph hstarts hjobs hdue
      | cons job jobs =>
          obtain ⟨notes, a', htasks', hnotes, hsame, hunderway', hless⟩ :=
            h.step_attach htasks hjobs hstarts hunderway
          have hlasts : Lasts c (.attach a' ending : Task ρ) fun store =>
              a'.graph ∈ store.graphs ∧ a'.Underway first roots store ∧
                store.absent a'.graph first.nodeCount =
                  (s.step interpret).store.absent a'.graph first.nodeCount := by
            rintro store store' hsound ⟨hmem, hunder, hcount⟩ hages hkept
            have hmem' := hkept a'.graph (by simp [Task.graphs]) hmem
            obtain ⟨hunder', habsent⟩ := hunder.ages hstarts hsound hages hmem hmem'
            exact ⟨hmem', hunder', habsent.trans hcount⟩
          have hmem : a'.graph ∈ (s.step interpret).store.graphs :=
            (h.step.orderly.ready (.attach a' ending)
              (htasks' ▸ List.mem_append_right _ (List.mem_singleton_self _))).1
          refine .later ((drain hlasts hnotes h.step htasks' ⟨hmem, hunderway', rfl⟩).trans ?_)
          rintro t ⟨ht, httasks, -, hunder, hcount⟩
          rw [← hsame] at hless hm ⊢
          refine ih _ ?_ ht httasks (hgraph.trans hsame.symm) hunder rfl
          rw [hcount, ← hm]
          exact hless

end Calm

end Session

end PatternGraph
