import PatternGraph.Item
import PatternGraph.Query.Layout

/-!
# Query patterns

A pattern asks for a node or an edge: by type, as one exact item, by a name used elsewhere in the
query, or by a fragment, which adds exclusions and relations to further patterns.
-/

namespace PatternGraph

/-- How a related pattern is joined to a fragment. -/
inductive Relation where
  /-- By an edge in either direction, or as either end of an edge. -/
  | joinedWith
  /-- The fragment's node leads to it, or it is the target of the fragment's edge. -/
  | leadsTo
  /-- It leads to the fragment's node, or it is the source of the fragment's edge. -/
  | comesFrom
  /-- The same as `joinedWith`. -/
  | eitherEnd
deriving DecidableEq, Repr

/-- What a fragment is about: any item of a type, or one exact item. -/
inductive Base (τ ι : Type) where
  | any (type : τ)
  | exactly (item : ι)
deriving DecidableEq, Repr

/-- One element of a query. -/
inductive Pattern where
  | nodeType (type : NodeType)
  | edgeType (type : EdgeType)
  | node (n : Node)
  | edge (e : Edge)
  | reference (name : String)
  | nodeFragment (base : Base NodeType Node) (name : Option String)
      (excluding : List NodeType) (relations : List (Relation × Pattern))
  | edgeFragment (base : Base EdgeType Edge) (name : Option String)
      (excluding : List EdgeType) (relations : List (Relation × Pattern))

instance : Inhabited Pattern := ⟨.reference ""⟩

/-- Whether a pattern asks for an edge by its own form. -/
def Pattern.isEdge : Pattern → Bool
  | .edgeType _ | .edge _ | .edgeFragment .. => true
  | _ => false

/-- A query as it is asked. -/
abbrev Query := Layout Pattern

end PatternGraph
