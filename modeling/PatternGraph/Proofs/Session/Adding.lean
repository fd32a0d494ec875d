import PatternGraph.Proofs.Store.Moves
import PatternGraph.Session.Machine

/-!
# How items are added

A command that adds a node or an edge declines at once, or leaves a task that brings the item in.  An
edge that is in another graph leaves that graph before.  The task does one job after the other until
none is left or one fails.
-/

namespace PatternGraph

variable {ρ : Type}

namespace Session

theorem addNode_cases (s : Session ρ) (graph : GraphId) (node : Node) :
    (∃ outcome, s.addNode graph node = s.conclude outcome) ∨
      ∃ ending, s.addNode graph node = s.push [.attach ⟨graph, [.node node], []⟩ ending] := by
  rw [addNode]
  split
  · exact Or.inl ⟨_, rfl⟩
  · exact Or.inr ⟨_, rfl⟩

theorem insertEdge_cases (s : Session ρ) (graph : GraphId) (edge : Edge) :
    (∃ outcome, s.insertEdge graph edge = s.conclude outcome) ∨
      ∃ ending, s.insertEdge graph edge = s.push [.attach ⟨graph, [.edge edge], []⟩ ending] := by
  unfold insertEdge
  dsimp only
  split
  · exact Or.inl ⟨_, rfl⟩
  · split
    · exact Or.inl ⟨_, rfl⟩
    · split
      · exact Or.inl ⟨_, rfl⟩
      · exact Or.inr ⟨_, rfl⟩

/-- An edge that is given is there already, or is connected when it has left the graph it was in. -/
theorem addGivenEdge_cases (s : Session ρ) (graph : GraphId) (source target : Node) (edge : Edge)
    (as : Option String) :
    (∃ outcome, s.addEdge graph source target (some edge) as = s.conclude outcome) ∨
      (∃ ending, s.addEdge graph source target (some edge) as = s.push [.finish ending]) ∨
      ∃ ending, ending.graph = graph ∧
        (s.store.graphOfEdge edge = none ∧
            s.addEdge graph source target (some edge) as =
              s.push [.connect edge source target ending] ∨
          ∃ previous, s.store.graphOfEdge edge = some previous ∧ previous ≠ graph ∧
            s.addEdge graph source target (some edge) as =
              s.withStore (s.store.removeEdge previous edge) fun events s =>
                s.push [.dispatch previous events, .connect edge source target ending]) := by
  let ending : Ending :=
    ⟨.reply (.item (.edge edge.id)), graph, [edge], as.map fun name => (name, edge)⟩
  unfold addEdge
  dsimp only
  split
  · exact Or.inr (Or.inl ⟨_, rfl⟩)
  · rename_i howned
    rw [Store.ownsEdge_iff] at howned
    split
    · exact Or.inl ⟨_, rfl⟩
    · split
      · rename_i hhome
        exact Or.inr (Or.inr ⟨ending, rfl, Or.inl ⟨hhome, rfl⟩⟩)
      · rename_i previous hhome
        have hother : previous ≠ graph := by
          rintro rfl
          exact howned ((s.store.home_eq_some_iff (.edge edge.id)).mp hhome).1
        exact Or.inr (Or.inr ⟨ending, rfl, Or.inr ⟨previous, hhome, hother, rfl⟩⟩)

/-- What an attachment comes to next: it ends its command, or it has done one of its jobs. -/
inductive AttachStep (a : Attachment) (ending : Ending) (s s' : Session ρ) : Prop
  /-- There is no further job, or the job has failed. -/
  | ends (last : Ending) (hlast : a.jobs = [] ∧ last = ending ∨ last.outcome.failed = true)
      (hnext : s' = s.push [.dispatch a.graph a.events.reverse, .finish last])
  /-- Nothing has left another graph. -/
  | stays (job : Job) (jobs : List Job) (store : Store) (a' : Attachment)
      (hjobs : a.jobs = job :: jobs)
      (hmoves : ({ a with jobs := jobs } : Attachment).Moves s.store job store a' none)
      (hnext : s' = ({ s with store := store } : Session ρ).push [.attach a' ending])
  /-- Items have left another graph, which is to be told first. -/
  | departs (job : Job) (jobs : List Job) (store : Store) (a' : Attachment) (d : Departure)
      (hjobs : a.jobs = job :: jobs)
      (hmoves : ({ a with jobs := jobs } : Attachment).Moves s.store job store a' (some d))
      (hnext : s' = (({ s with store := store } : Session ρ).push [.attach a' ending]).push
        [.dispatch d.graph d.events])

theorem perform_attach (interpret : Interpreter ρ) (s : Session ρ) (a : Attachment)
    (ending : Ending) : AttachStep a ending s (s.perform interpret (.attach a ending)) := by
  unfold perform
  dsimp only
  split
  · rename_i hjobs
    exact .ends ending (Or.inl ⟨hjobs, rfl⟩) rfl
  · rename_i job jobs hjobs
    split
    · exact .ends _ (Or.inr rfl) rfl
    · rename_i store a' departure hperform
      have hmoves := Attachment.moves_of_perform hperform
      cases departure with
      | none => exact .stays job jobs store a' hjobs hmoves rfl
      | some d => exact .departs job jobs store a' d hjobs hmoves rfl

end Session

end PatternGraph
