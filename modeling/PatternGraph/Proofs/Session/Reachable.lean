import PatternGraph.Session.Machine

/-!
# Reachable sessions

A session is reached from the empty one by requests and by steps, in any order.  Requests may be read
by a different interpreter each time, so that a run is not tied to one language of requests.  The
trace lists the commands that have been begun, by the client and by scripts, the latest first.
-/

namespace PatternGraph

variable {ρ : Type}

/--
Whether a command makes sense as a use of what has been handed out: it opens live queries and
observers on graphs that have been created, and destroys live queries that the client holds.
-/
def Command.Proper (s : Session ρ) : Command ρ → Prop
  | .openQuery _ graph _ _ | .observe _ graph _ => graph.number ≤ s.store.graphCount
  | .destroyQuery id => ∃ name : String, s.names.queries[name]? = some id
  | _ => True

/-- The command that a request is read as, if any. -/
def Interpreter.reads (interpret : Interpreter ρ) (names : Names) (request : ρ) :
    List (Command ρ) :=
  (interpret names request).toOption.toList

namespace Session

/-- The command that the next step begins, if any. -/
def upcoming (interpret : Interpreter ρ) (s : Session ρ) : List (Command ρ) :=
  match s.tasks with
  | .script _ (request :: _) :: _ => interpret.reads s.names request
  | _ => []

theorem upcoming_of_script
    {interpret : Interpreter ρ}
    {s : Session ρ}
    {label : String}
    {request : ρ}
    {requests : List ρ}
    {rest : List (Task ρ)}
    (htasks : s.tasks = .script label (request :: requests) :: rest) :
    s.upcoming interpret = interpret.reads s.names request := by
  rw [upcoming, htasks]

theorem reads_of_mem_upcoming {interpret : Interpreter ρ} {s : Session ρ} {c : Command ρ}
    (hc : c ∈ s.upcoming interpret) : ∃ request, c ∈ interpret.reads s.names request := by
  rw [upcoming] at hc
  split at hc
  · exact ⟨_, hc⟩
  · cases hc

/-- Whether a session comes about by requests and steps that begin the commands of a trace. -/
inductive Reaches : List (Command ρ) → Session ρ → Prop
  | empty : Reaches [] .empty
  | request {trace : List (Command ρ)} {s : Session ρ} (interpret : Interpreter ρ) (request : ρ)
      (h : Reaches trace s) (hproper : ∀ c ∈ interpret.reads s.names request, c.Proper s) :
      Reaches (interpret.reads s.names request ++ trace)
        ({ s with log := [] }.issueRequest interpret request).release
  | step {trace : List (Command ρ)} {s : Session ρ} (interpret : Interpreter ρ)
      (h : Reaches trace s) (hproper : ∀ c ∈ s.upcoming interpret, c.Proper s) :
      Reaches (s.upcoming interpret ++ trace) (s.step interpret)

namespace Reaches

variable {trace : List (Command ρ)} {s : Session ρ} {interpret : Interpreter ρ}

/-- A client may begin any command that makes sense. -/
theorem begun
    {c : Command ρ}
    (h : Reaches trace s)
    (request : ρ)
    (hproper : c.Proper s) :
    Reaches (c :: trace) (Session.request (fun _ _ => .ok c) 0 s request) := by
  refine h.request (fun _ _ => .ok c) request fun c' hc' => ?_
  obtain rfl := List.mem_singleton.mp hc'
  exact hproper

/-- A run leads from reachable sessions to reachable ones, and begins what its interpreter reads. -/
theorem run
    (hinterpret : ∀ trace s, Reaches trace s →
      ∀ request, ∀ c ∈ interpret.reads s.names request, c.Proper s)
    (fuel : Nat)
    (h : Reaches trace s) :
    ∃ later, (∀ c ∈ later, ∃ names request, c ∈ interpret.reads names request) ∧
      Reaches (later ++ trace) (s.run interpret fuel) := by
  induction fuel generalizing trace s with
  | zero => exact ⟨[], fun _ hc => absurd hc List.not_mem_nil, h⟩
  | succ fuel ih =>
      rw [Session.run]
      split
      · exact ⟨[], fun _ hc => absurd hc List.not_mem_nil, h⟩
      · have hproper : ∀ c ∈ s.upcoming interpret, c.Proper s := by
          intro c hc
          obtain ⟨request, hread⟩ := reads_of_mem_upcoming hc
          exact hinterpret trace s h request c hread
        obtain ⟨later, hlater, hrun⟩ := ih (h.step interpret hproper)
        refine ⟨later ++ s.upcoming interpret, fun c hc => ?_, by rwa [List.append_assoc]⟩
        rcases List.mem_append.mp hc with hc | hc
        · exact hlater c hc
        · exact ⟨s.names, reads_of_mem_upcoming hc⟩

/-- Carrying out a request from start to end leads from reachable sessions to reachable ones. -/
theorem carriesOut
    (hinterpret : ∀ trace s, Reaches trace s →
      ∀ request, ∀ c ∈ interpret.reads s.names request, c.Proper s)
    (fuel : Nat)
    (request : ρ)
    (h : Reaches trace s) :
    ∃ later, (∀ c ∈ later, ∃ names request, c ∈ interpret.reads names request) ∧
      Reaches (later ++ trace) (Session.request interpret fuel s request) := by
  obtain ⟨later, hlater, hrun⟩ :=
    (h.request interpret request (hinterpret trace s h request)).run hinterpret fuel
  refine ⟨later ++ interpret.reads s.names request, fun c hc => ?_, by rwa [List.append_assoc]⟩
  rcases List.mem_append.mp hc with hc | hc
  · exact hlater c hc
  · exact ⟨s.names, request, hc⟩

/-- Carrying out commands that always make sense leads from reachable sessions to reachable ones. -/
theorem carriesOutAll
    (fuel : Nat)
    (request : ρ)
    (commands : List (Command ρ))
    (h : Reaches trace s)
    (hproper : ∀ c ∈ commands, ∀ s : Session ρ, c.Proper s) :
    ∃ trace, Reaches trace
      (commands.foldl (fun s c => Session.request (fun _ _ => .ok c) fuel s request) s) := by
  induction commands generalizing trace s with
  | nil => exact ⟨trace, h⟩
  | cons c commands ih =>
      have hreads : ∀ (trace : List (Command ρ)) (s : Session ρ), Reaches trace s →
          ∀ request, ∀ c' ∈ Interpreter.reads (fun _ _ => .ok c) s.names request, c'.Proper s := by
        intro trace s _ request c' hc'
        obtain rfl : c' = c := List.mem_singleton.mp hc'
        exact hproper c' List.mem_cons_self s
      obtain ⟨later, -, hdone⟩ := h.carriesOut hreads fuel request
      exact ih hdone fun c' hc' => hproper c' (List.mem_cons_of_mem c hc')

end Reaches

end Session

end PatternGraph
