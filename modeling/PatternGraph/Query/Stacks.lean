import PatternGraph.Query.Search

/-!
# Matches from two stacks

Matches can be taken one by one by a machine that goes back and forth in turns.  A component is searched
with a stack of frames, one for each step that has been entered, over bindings of its own which are set and
cleared in place; and the searches of the components are on a second stack, each starting from a copy of
the bindings that the one before has found.  Nothing is decided in advance: a turn tries one candidate, or
takes a frame or a search from its stack.
-/

namespace PatternGraph

/-- The candidates of a step in turn; a check that holds counts as one candidate without an item. -/
def Expansion.candidates : Expansion → List (Option Item)
  | .bind _ candidates => candidates.map some
  | .check true => [none]
  | .check false => []

/-- Sets the slot of a step to a candidate, if it has one. -/
def Step.put (step : Step) (row : Bindings) (candidate : Option Item) : Bindings :=
  match step.binds with
  | none => row
  | some slot =>
    match candidate with
    | none => row
    | some item => row.setIfInBounds slot (some item)

/-- Clears the slot of a step. -/
def Step.clear (step : Step) (row : Bindings) : Bindings :=
  match step.binds with
  | none => row
  | some slot => row.setIfInBounds slot none

/-- A step that has been entered. -/
structure Frame where
  step : Step
  /-- The steps of the component that come after it. -/
  below : List Step
  /-- The candidates that have not been tried yet. -/
  untried : List (Option Item)

/-- A search through a component. -/
structure ComponentSearch where
  steps : List Step
  /-- The components that come after it. -/
  later : List Component
  bindings : Bindings
  /-- The steps that have been entered, the innermost first. -/
  frames : List Frame
  started : Bool

namespace ComponentSearch

/-- What a turn of a search through a component comes to. -/
inductive Turn where
  | going (search : ComponentSearch)
  /-- The bindings are a match of the component. -/
  | found (search : ComponentSearch)
  | failed (fault : Fault)
  | exhausted

/-- A search through a component that has not started, from the bindings that have been found before. -/
def enter (c : Component) (later : List Component) (row : Bindings) : ComponentSearch :=
  ⟨c.steps, later, row, [], false⟩

/-- Looks up the candidates of a step, and puts them on the stack. -/
def expand (s : Slots) (index : Index) (search : ComponentSearch) (step : Step) (below : List Step) :
    Turn :=
  match step.expand s index search.bindings with
  | .error fault => .failed fault
  | .ok found => .going { search with frames := ⟨step, below, found.candidates⟩ :: search.frames }

/-- Starts a search, tries the next candidate of the innermost step, or leaves that step. -/
def turn (s : Slots) (index : Index) (search : ComponentSearch) : Turn :=
  if search.started then
    match search.frames with
    | [] => .exhausted
    | ⟨step, _, []⟩ :: frames =>
      .going { search with bindings := step.clear search.bindings, frames := frames }
    | ⟨step, below, candidate :: untried⟩ :: frames =>
      let search := { search with
        bindings := step.put search.bindings candidate
        frames := ⟨step, below, untried⟩ :: frames }
      match below with
      | [] => .found search
      | next :: below => search.expand s index next below
  else
    match search.steps with
    | [] => .exhausted
    | step :: below => { search with started := true }.expand s index step below

end ComponentSearch

/-- The searches through the components of a plan. -/
structure Stacks where
  slots : Slots
  /-- The components that have been entered, the innermost first. -/
  searches : List ComponentSearch
  done : Bool

namespace Stacks

/-- What a turn comes to: more to do, or what is given to whoever takes a match. -/
inductive Turn where
  | going (m : Stacks)
  | gives (outcome : Except Fault (Option Bindings)) (m : Stacks)

/-- The stacks from which no match has been taken. -/
def start (plan : Plan) (s : Slots) : Stacks :=
  match plan.components with
  | [] => ⟨s, [], true⟩
  | c :: later => ⟨s, [.enter c later (Search.noBindings s)], false⟩

/-- The stacks after a fault. -/
def stopped (s : Slots) : Stacks :=
  ⟨s, [], true⟩

/-- Goes on after a turn of the innermost search, with the searches around it. -/
def settle (s : Slots) (around : List ComponentSearch) : ComponentSearch.Turn → Turn
  | .going search => .going ⟨s, search :: around, false⟩
  | .found search =>
    match search.later with
    | [] => .gives (.ok (some search.bindings)) ⟨s, search :: around, false⟩
    | c :: later => .going ⟨s, .enter c later search.bindings :: search :: around, false⟩
  | .failed fault => .gives (.error fault) (stopped s)
  | .exhausted => .going ⟨s, around, false⟩

/-- Has the innermost search do a turn; there is nothing left without one. -/
def turn (index : Index) (m : Stacks) : Turn :=
  if m.done then .gives (.ok none) m
  else
    match m.searches with
    | [] => .gives (.ok none) (stopped m.slots)
    | search :: around => settle m.slots around (search.turn m.slots index)

/-- Takes a match in a bounded number of turns. -/
def pull (index : Index) : Nat → Stacks → Option (Except Fault (Option Bindings) × Stacks)
  | 0, _ => none
  | fuel + 1, m =>
    match m.turn index with
    | .going m => pull index fuel m
    | .gives outcome m => some (outcome, m)

/-- Takes a number of matches, each in a bounded number of turns. -/
def pulls (index : Index) (fuel : Nat) : Nat → Stacks → Option (List (Except Fault (Option Bindings)))
  | 0, _ => some []
  | n + 1, m => do
    let (outcome, m) ← m.pull index fuel
    let outcomes ← pulls index fuel n m
    return outcome :: outcomes

end Stacks

end PatternGraph
