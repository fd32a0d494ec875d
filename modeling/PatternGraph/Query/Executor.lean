import PatternGraph.Query.Stacks

/-!
# Matches by numbers

The two stacks can be kept without copies of parts of the plan: a search knows its component by number,
and a frame knows the number of its step and how many of its candidates have been tried.  Components,
steps and slots are then looked up as the machine goes on, and nothing says that they are there.  A
component that is missing is a fault.  Steps and bindings are taken to be there: a number that is out of
range for them is an outcome of a turn after which the machine does not go on.
-/

namespace PatternGraph

/-- Changes what is bound to a slot, if the slot is in range. -/
def Bindings.write? (row : Bindings) (slot : Nat) (value : Option Item) : Option Bindings :=
  if slot < row.size then some (row.setIfInBounds slot value) else none

namespace Step

/-- Sets the slot of a step to a candidate, if it has one. -/
def put? (step : Step) (row : Bindings) (candidate : Option Item) : Option Bindings :=
  match step.binds with
  | none => some row
  | some slot =>
    match candidate with
    | none => some row
    | some item => row.write? slot (some item)

/-- Clears the slot of a step. -/
def clear? (step : Step) (row : Bindings) : Option Bindings :=
  match step.binds with
  | none => some row
  | some slot => row.write? slot none

end Step

namespace Executor

/-- A step that has been entered. -/
structure Frame where
  step : Nat
  candidates : List (Option Item)
  /-- The number of candidates that have been tried. -/
  cursor : Nat

/-- A search through a component. -/
structure Search where
  component : Nat
  bindings : Bindings
  /-- The steps that have been entered, the innermost first. -/
  frames : List Frame
  started : Bool

namespace Search

/-- What a turn of a search through a component comes to. -/
inductive Turn where
  | going (search : Search)
  /-- The bindings are a match of the component. -/
  | found (search : Search)
  | failed (fault : Fault)
  | exhausted
  /-- The number of a step or of a slot is out of range. -/
  | outOfRange

/-- A search that has not started, from the bindings that have been found before. -/
def enter (component : Nat) (row : Bindings) : Search :=
  ⟨component, row, [], false⟩

/-- Looks up the candidates of a step, and puts them on the stack. -/
def expand (s : Slots) (index : Index) (search : Search) (number : Nat) (step : Step) : Turn :=
  match step.expand s index search.bindings with
  | .error fault => .failed fault
  | .ok found => .going { search with frames := ⟨number, found.candidates, 0⟩ :: search.frames }

/-- Enters the step after the given one, or ends with a match when there is none. -/
def advance (s : Slots) (index : Index) (steps : List Step) (search : Search) (number : Nat) : Turn :=
  match steps[number + 1]? with
  | none => .found search
  | some step => search.expand s index (number + 1) step

/-- Tries the next candidate of the innermost frame, or leaves the frame when all have been tried. -/
def work (s : Slots) (index : Index) (steps : List Step) (search : Search) (frame : Frame)
    (frames : List Frame) (step : Step) : Turn :=
  match frame.candidates[frame.cursor]? with
  | none =>
    match step.clear? search.bindings with
    | none => .outOfRange
    | some row => .going { search with bindings := row, frames := frames }
  | some candidate =>
    match step.put? search.bindings candidate with
    | none => .outOfRange
    | some row =>
      advance s index steps
        { search with
          bindings := row
          frames := { frame with cursor := frame.cursor + 1 } :: frames }
        frame.step

/-- Starts a search, or goes on at its innermost frame. -/
def turn (s : Slots) (index : Index) (steps : List Step) (search : Search) : Turn :=
  if search.started then
    match search.frames with
    | [] => .exhausted
    | frame :: frames =>
      match steps[frame.step]? with
      | none => .outOfRange
      | some step => work s index steps search frame frames step
  else
    match steps.head? with
    | none => .exhausted
    | some step => { search with started := true }.expand s index 0 step

end Search

end Executor

/-- The searches through the components of a plan. -/
structure Executor where
  slots : Slots
  plan : Plan
  /-- The components that have been entered, the innermost first. -/
  searches : List Executor.Search
  done : Bool

namespace Executor

/-- What a turn comes to: more to do, or what is given to whoever takes a match. -/
inductive Turn where
  | going (m : Executor)
  | gives (outcome : Except Fault (Option Bindings)) (m : Executor)
  | outOfRange

/-- The machine from which no match has been taken. -/
def start (plan : Plan) (s : Slots) : Executor :=
  if plan.isEmpty then ⟨s, plan, [], true⟩
  else ⟨s, plan, [.enter 0 (PatternGraph.Search.noBindings s)], false⟩

/--
Goes on after a turn of the innermost search, with the searches around it.  The number of the component
that is entered next is the number of searches that have been entered.
-/
def settle (m : Executor) (around : List Search) : Search.Turn → Turn
  | .going search => .going { m with searches := search :: around }
  | .found search =>
    let depth := around.length + 1
    if depth = m.plan.components.length then
      .gives (.ok (some search.bindings)) { m with searches := search :: around }
    else .going { m with searches := .enter depth search.bindings :: search :: around }
  | .failed fault => .gives (.error fault) { m with searches := [], done := true }
  | .exhausted => .going { m with searches := around }
  | .outOfRange => .outOfRange

/-- Has the innermost search do a turn; there is nothing left without one. -/
def turn (index : Index) (m : Executor) : Turn :=
  if m.done then .gives (.ok none) m
  else
    match m.searches with
    | [] => .gives (.ok none) { m with done := true }
    | search :: around =>
      match m.plan.components[search.component]? with
      | none => m.settle around (.failed (.componentMissing search.component))
      | some component => m.settle around (search.turn m.slots index component.steps)

/-- Takes a match in a bounded number of turns, none of which looks up a number out of range. -/
def pull (index : Index) : Nat → Executor → Option (Except Fault (Option Bindings) × Executor)
  | 0, _ => none
  | fuel + 1, m =>
    match m.turn index with
    | .going m => pull index fuel m
    | .gives outcome m => some (outcome, m)
    | .outOfRange => none

/-- Takes matches on one index after the other, each in a bounded number of turns. -/
def pulls (fuel : Nat) : List Index → Executor → Option (List (Except Fault (Option Bindings)))
  | [], _ => some []
  | index :: rest, m => do
    let (outcome, m) ← m.pull index fuel
    let outcomes ← pulls fuel rest m
    return outcome :: outcomes

end Executor

end PatternGraph
