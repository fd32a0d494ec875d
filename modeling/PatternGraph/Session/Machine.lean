import PatternGraph.Session.Command

/-!
# Running a session

A session runs by steps: the topmost task is done, which may change the state and leave further
tasks on top, and then everything that nothing holds any more is let go.  `interpret` reads a
request as a command, given the names at that moment.  The number of steps that a command takes is
not known in advance, because scripts may issue requests that have further scripts run; `run` is
given a bound, and a session whose tasks are all done stays as it is.
-/

namespace PatternGraph

/-- A reader of requests as commands. -/
abbrev Interpreter (ρ : Type) := Names → ρ → Except Refusal (Command ρ)

namespace Session

variable {ρ : Type}

/-- Starts what a request asks for. -/
def issueRequest (interpret : Interpreter ρ) (s : Session ρ) (request : ρ) : Session ρ :=
  match interpret s.names request with
  | .error refusal => s.conclude (.refused refusal)
  | .ok command => s.begin command

/-- Has a script issue its requests once more, unless it has done so often enough. -/
def trigger (s : Session ρ) (id : ScriptId) (script : Script ρ) : Session ρ :=
  if script.steps.isEmpty || script.times ≤ script.ran then s
  else
    { s with scripts := s.scripts.insert id { script with ran := script.ran + 1 } }.push
      [.script script.label script.steps]

/-- Tells one subscriber about an event. -/
def tell (s : Session ρ) (graph : GraphId) (event : Event) : Handler → Session ρ
  | .query id => s.refresh graph event id
  | .script id on item =>
    match s.scripts[id]? with
    | none => s
    | some script =>
      let (nodes, edges) := s.size graph
      let s := s.write (.event script.label graph event nodes edges)
      if on.all (· == event.change) && item.all (· == event.item.text) then s.trigger id script
      else s

/-- Tells one listener about rows. -/
def inform (s : Session ρ) (change : Change) (rows : List Row) (id : ScriptId) : Session ρ :=
  match s.scripts[id]? with
  | none => s
  | some script => (s.write (.batch script.label change rows)).trigger id script

/-- Ends a command. -/
def finish (s : Session ρ) (ending : Ending) : Session ρ :=
  let s := s.conclude ending.outcome
  match ending.binding with
  | none => s
  | some (name, edge) => s.nameEdge name edge

/-- Does a part of a task, and leaves the rest of it on top of the tasks. -/
def perform (interpret : Interpreter ρ) (s : Session ρ) : Task ρ → Session ρ
  | .connect edge source target ending =>
    { s with store := s.store.rewire edge source target }.push
      [.attach ⟨ending.graph, [.edge edge], []⟩ ending]
  | .attach a ending =>
    match a.jobs with
    | [] => s.push [.dispatch a.graph a.events.reverse, .finish ending]
    | job :: jobs =>
      match { a with jobs := jobs }.perform s.store job with
      | .error fault =>
        s.push [.dispatch a.graph a.events.reverse, .finish (ending.failing fault)]
      | .ok (store, a, departure) =>
        let s := { s with store := store }.push [.attach a ending]
        match departure with
        | none => s
        | some departure => s.push [.dispatch departure.graph departure.events]
  | .dispatch _ [] => s
  | .dispatch graph (event :: events) =>
    s.push [.deliver graph event ((s.board graph).handlers.map Prod.snd), .dispatch graph events]
  | .deliver _ _ [] => s
  | .deliver graph event (handler :: handlers) =>
    (s.push [.deliver graph event handlers]).tell graph event handler
  | .announce a =>
    match a.rest with
    | [] => s
    | change :: rest =>
      let s := s.push [.announce { a with rest := rest }]
      let rows := a.difference.rows change
      if rows.isEmpty then s
      else s.push [.notify change rows (s.listeners a.observer change)]
  | .notify _ _ [] => s
  | .notify change rows (listener :: listeners) =>
    (s.push [.notify change rows listeners]).inform change rows listener
  | .script _ [] => s
  | .script label (request :: requests) =>
    (s.push [.record label, .script label requests]).issueRequest interpret request
  | .record label => s.write (.step label s.outcome)
  | .addNodes graph rest added =>
    if s.outcome.failed then s
    else
      match rest with
      | [] => s.answer (.items (added.reverse.map fun node => .node node.id))
      | node :: rest => (s.push [.addNodes graph rest (node :: added)]).addNode graph node
  | .removeNodes graph rest =>
    match rest with
    | [] => s.answer .done
    | node :: rest =>
      s.withStore (s.store.removeNode graph node) fun events s =>
        s.push [.dispatch graph events, .removeNodes graph rest]
  | .removeEdges graph rest named =>
    match rest with
    | [] => s.answer .done
    | edge :: rest =>
      s.withStore (s.store.removeEdge graph edge) fun events s =>
        s.push [.dispatch graph events, .removeEdges graph rest named]
  | .finish ending => s.finish ending

/-- Does the topmost task, or a part of it. -/
def step (interpret : Interpreter ρ) (s : Session ρ) : Session ρ :=
  match s.tasks with
  | [] => s
  | task :: tasks => ({ s with tasks := tasks }.perform interpret task).release

/-- Steps until all tasks are done, but not more often than the bound. -/
def run (interpret : Interpreter ρ) : Nat → Session ρ → Session ρ
  | 0, s => s
  | fuel + 1, s => if s.idle then s else run interpret fuel (s.step interpret)

/-- Carries out a request from start to end, with a log of its own. -/
def request (interpret : Interpreter ρ) (fuel : Nat) (s : Session ρ) (request : ρ) : Session ρ :=
  run interpret fuel ({ s with log := [] }.issueRequest interpret request).release

end Session

end PatternGraph
