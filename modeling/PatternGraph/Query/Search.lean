import PatternGraph.Query.Candidates

/-!
# Searching a plan

A search tries the candidates of each step in turn, depth first, and shows every complete set of
bindings to a visitor, which may let the search go on, stop it, or fail it.  A stopped search leaves
the marks of the choices that are still open, and is resumed from them; what a step finds is looked
up when the search comes to the step, so a resumed search sees later changes of the graph.

When the candidates of a step are used up, its slot is cleared.  When a component is used up, the
bindings from before the component are restored.
-/

namespace PatternGraph

/-- A move of a search. -/
inductive Move where
  /-- Enters the next component. -/
  | enter
  | step (s : Step)
  /-- Gives up, as there is nothing to bind. -/
  | stop
deriving DecidableEq, Repr

/-- The moves of a component; a component without steps has no match. -/
def Component.moves (c : Component) : List Move :=
  .enter :: (if c.steps.isEmpty then [.stop] else c.steps.map .step)

/-- The moves of a plan; a plan without components has no match. -/
def Plan.moves (plan : Plan) : List Move :=
  if plan.isEmpty then [.stop] else plan.components.flatMap Component.moves

/-- What a visitor makes of a match, with what it has gathered so far. -/
inductive Verdict (σ : Type) where
  | next (acc : σ)
  | halt (acc : σ)
  | fail (fault : Fault)

/-- A choice that an interrupted search has open, from the outermost to the innermost. -/
inductive Mark where
  /-- Of the candidates for a slot, `rest` are still to be tried, followed by the moves. -/
  | choice (slot : Nat) (candidates rest : List Item) (moves : List Move)
  /-- The bindings from before a component. -/
  | boundary (saved : Bindings)
deriving DecidableEq, Repr

/-- How far a search has come. -/
inductive Progress (σ : Type) where
  /-- The visitor has stopped the search. -/
  | halted (acc : σ) (row : Bindings) (marks : List Mark)
  /-- A step or the visitor has failed. -/
  | failed (acc : σ) (fault : Fault)
  /-- Every candidate has been tried. -/
  | exhausted (acc : σ) (row : Bindings)

namespace Progress

variable {σ : Type}

/-- Adds a mark around the marks of an interrupted search. -/
def within (mark : Mark) : Progress σ → Progress σ
  | .halted acc row marks => .halted acc row (mark :: marks)
  | progress => progress

/-- Restores the bindings from before a used-up component. -/
def restoring (saved : Bindings) : Progress σ → Progress σ
  | .exhausted acc _ => .exhausted acc saved
  | progress => progress.within (.boundary saved)

end Progress

namespace Search

variable {σ : Type}

/-- Tries the remaining candidates of a slot, each followed by the search `below`. -/
def tryEach (below : σ → Bindings → Progress σ) (slot : Nat) (candidates : List Item)
    (moves : List Move) : List Item → σ → Bindings → Progress σ
  | [], acc, row => .exhausted acc (row.setIfInBounds slot none)
  | item :: rest, acc, row =>
    match below acc (row.setIfInBounds slot (some item)) with
    | .exhausted acc row => tryEach below slot candidates moves rest acc row
    | progress => progress.within (.choice slot candidates rest moves)

/-- Searches through the moves that are left. -/
def descend (s : Slots) (index : Index) (visit : σ → Bindings → Verdict σ) :
    List Move → σ → Bindings → Progress σ
  | [], acc, row =>
    match visit acc row with
    | .next acc => .exhausted acc row
    | .halt acc => .halted acc row []
    | .fail fault => .failed acc fault
  | .enter :: moves, acc, row => (descend s index visit moves acc row).restoring row
  | .stop :: _, acc, row => .exhausted acc row
  | .step step :: moves, acc, row =>
    match step.expand s index row with
    | .error fault => .failed acc fault
    | .ok (.check true) => descend s index visit moves acc row
    | .ok (.check false) => .exhausted acc row
    | .ok (.bind slot candidates) =>
      tryEach (descend s index visit moves) slot candidates moves candidates acc row

/-- Resumes an interrupted search at its innermost mark. -/
def resume (s : Slots) (index : Index) (visit : σ → Bindings → Verdict σ) :
    List Mark → σ → Bindings → Progress σ
  | [], acc, row => .exhausted acc row
  | .boundary saved :: marks, acc, row => (resume s index visit marks acc row).restoring saved
  | .choice slot candidates rest moves :: marks, acc, row =>
    match resume s index visit marks acc row with
    | .exhausted acc row =>
      tryEach (descend s index visit moves) slot candidates moves rest acc row
    | progress => progress.within (.choice slot candidates rest moves)

/-- The bindings before a search starts. -/
def noBindings (s : Slots) : Bindings :=
  Array.replicate s.size none

/-- Searches a plan from the start. -/
def start (s : Slots) (plan : Plan) (index : Index) (visit : σ → Bindings → Verdict σ)
    (acc : σ) : Progress σ :=
  descend s index visit plan.moves acc (noBindings s)

end Search

/-- The matches of a search, and the fault that ended it early. -/
structure Matches where
  found : List Bindings
  fault : Option Fault
deriving Repr

namespace Matches

/-- Matches gathered by a visitor, the latest first, and the number of those still wanted. -/
structure Catch where
  found : List Bindings
  wanted : Nat

/-- Gathers matches, and stops when no more are wanted. -/
def gather (acc : Catch) (row : Bindings) : Verdict Catch :=
  if 1 < acc.wanted then .next ⟨row :: acc.found, acc.wanted - 1⟩
  else .halt ⟨row :: acc.found, 0⟩

/-- The matches that a finished or stopped search has gathered. -/
def ofProgress {σ : Type} (found : σ → List Bindings) : Progress σ → Matches
  | .halted acc _ _ | .exhausted acc _ => ⟨(found acc).reverse, none⟩
  | .failed acc fault => ⟨(found acc).reverse, some fault⟩

/-- The first matches of a plan, at most `limit` of them. -/
def first (limit : Nat) (s : Slots) (plan : Plan) (index : Index) : Matches :=
  if limit = 0 then ⟨[], none⟩
  else ofProgress Catch.found (Search.start s plan index gather ⟨[], limit⟩)

/-- All matches of a plan. -/
def all (s : Slots) (plan : Plan) (index : Index) : Matches :=
  ofProgress id (Search.start s plan index (fun found row => .next (row :: found)) [])

end Matches

end PatternGraph
