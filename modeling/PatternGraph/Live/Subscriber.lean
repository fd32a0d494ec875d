import PatternGraph.Store.Basic

/-!
# Subscribers

A graph tells its subscribers about every event, in order of subscription.  A subscriber is a script
that a client has written, or a live query that keeps its rows fresh.  The subscriptions of a graph
are numbered from one and no number is given twice.
-/

namespace PatternGraph

/-- The identity of a live query. -/
abbrev QueryId := Ident .query

/-- The identity of a script. -/
abbrev ScriptId := Ident .script

/-- Requests to be issued on a notification, up to a number of times. -/
structure Script (ρ : Type) where
  label : String
  times : Nat
  /-- How often the requests have been issued. -/
  ran : Nat
  steps : List ρ

/-- What a graph calls on every event. -/
inductive Handler where
  /-- A script that issues its requests on some of the events. -/
  | script (id : ScriptId) (on : Option Change) (item : Option String)
  /-- A live query that keeps its rows fresh. -/
  | query (id : QueryId)
deriving DecidableEq, Repr

/-- The subscribers of a graph in order of subscription, and the number of subscriptions so far. -/
structure Board where
  handlers : List (Nat × Handler)
  issued : Nat
deriving DecidableEq, Repr

namespace Board

/-- The board without subscribers. -/
def empty : Board := ⟨[], 0⟩

/-- Adds a subscriber and gives the number of its subscription. -/
def subscribe (board : Board) (handler : Handler) : Nat × Board :=
  (board.issued + 1, ⟨board.handlers ++ [(board.issued + 1, handler)], board.issued + 1⟩)

/-- Removes a subscription. -/
def unsubscribe (board : Board) (id : Nat) : Board :=
  { board with handlers := board.handlers.filter fun entry => entry.1 != id }

end Board

end PatternGraph
