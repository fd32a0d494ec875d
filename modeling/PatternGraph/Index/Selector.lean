import PatternGraph.Index.Basic

/-!
# Selecting edges by their ends

A `Selector` picks edges by source, by target, by both, or by one or two nodes in either role, and
narrows the choice by a type.  The choice is made from the neighbourhoods of the named nodes;
`Selector.accepts` says the same of one edge and its ends.
-/

namespace PatternGraph

/-- A choice of edges by their ends. -/
structure Selector where
  source : Option NodeId
  target : Option NodeId
  either : List NodeId
  type : Option EdgeType
deriving DecidableEq, Repr

namespace Selector

/-- Whether a selector names a source or a target. -/
def directed (s : Selector) : Bool :=
  s.source.isSome || s.target.isSome

/-- A selector is directed or names one or two nodes in either role. -/
def validate (s : Selector) : Except Fault Unit :=
  if s.directed ∧ s.either ≠ [] then .error .selectorMixed
  else if ¬ s.directed ∧ s.either = [] then .error .selectorEmpty
  else if 2 < s.either.length then .error .selectorCrowded
  else .ok ()

/-- The edges that the nodes of a selector have in common, of any type. -/
def candidates (s : Selector) (index : Index) : Std.ExtTreeSet EdgeId :=
  match s.source, s.target, s.either with
  | some a, some b, _ => (index.incidenceOf a).outgoing ∩ (index.incidenceOf b).incoming
  | some a, none, _ => (index.incidenceOf a).outgoing
  | none, some b, _ => (index.incidenceOf b).incoming
  | none, none, [a] => (index.incidenceOf a).all
  | none, none, [a, b] =>
    ((index.incidenceOf a).outgoing ∩ (index.incidenceOf b).incoming) ∪
      ((index.incidenceOf b).outgoing ∩ (index.incidenceOf a).incoming)
  | none, none, _ => ∅

/-- Whether an indexed edge has the type that a selector asks for. -/
def admits (s : Selector) (index : Index) (edge : EdgeId) : Bool :=
  match s.type with
  | none => true
  | some t => index.edges[edge]?.any fun e => e.type.isA t

/-- The edges that a selector picks, in order of creation. -/
def select (s : Selector) (index : Index) : Except Fault (List EdgeId) := do
  s.validate
  return (s.candidates index).toList.filter (s.admits index)

/-- Whether a selector picks an edge with the given ends. -/
def accepts (s : Selector) (edge : Edge) (ends : Ends) : Bool :=
  (match s.either with
    | [] => s.source.all (· == ends.source) && s.target.all (· == ends.target)
    | [a] => ends.source == a || ends.target == a
    | [a, b] => ends == ⟨a, b⟩ || ends == ⟨b, a⟩
    | _ => false) &&
  s.type.all edge.type.isA

end Selector

end PatternGraph
