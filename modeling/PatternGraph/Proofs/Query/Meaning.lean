import Mathlib.Data.List.Perm.Basic
import PatternGraph.Proofs.Query.Expansion
import PatternGraph.Query.Pattern

/-!
# What a query means

A query speaks about variables: its names, the exact items that it mentions without a name, and each
occurrence of an unnamed type or fragment.  It says of them a list of clauses, in the words of its
patterns and without regard to any plan.  A row of the query is what an assignment of members to the
variables that meets every clause gives to the patterns of the query.
-/

namespace PatternGraph

/-- The way to a pattern inside a query, from the inside out. -/
abbrev Path := List Nat

/-- A variable of a query. -/
inductive Var where
  | name (x : String)
  /-- An exact item that is mentioned without a name. -/
  | item (id : ItemId)
  /-- One occurrence of an unnamed type or fragment. -/
  | occurrence (path : Path)
deriving DecidableEq, Repr

/-- Something that a query says about its variables. -/
inductive Clause (ν : Type) where
  /-- The variable stands for a member of the graph of a kind. -/
  | member (x : ν) (kind : Kind)
  | same (x : ν) (item : Item)
  | isA (x : ν) (type : ItemType)
  | isNot (x : ν) (type : ItemType)
  /-- A node plays a role on an edge. -/
  | plays (node edge : ν) (role : Role)
  /-- The relation written at `path`: on some edge of the graph `a` plays a role and `b` the opposite. -/
  | joined (path : Path) (a b : ν) (role : Role)
deriving DecidableEq, Repr

namespace Diagram

/-- Whether one item is a node and plays a role on another one. -/
def ItemPlays (g : Diagram) (node edge : Item) (role : Role) : Prop :=
  ∃ n e, node = .node n ∧ edge = .edge e ∧ g.PlaysRole n.id e.id role

/-- Whether an item is an edge and its ends are two others, in either order. -/
def ItemJoins (g : Diagram) (edge a b : Item) : Prop :=
  ∃ e m n, edge = .edge e ∧ a = .node m ∧ b = .node n ∧ g.Joins e.id m.id n.id

/-- Whether a member edge leads from `a`, in its role, to `b`; two ends are exactly the two ends. -/
def Related (g : Diagram) (a b : Item) : Role → Prop
  | .source => ∃ e, g.Has (.edge e) ∧ g.ItemPlays a (.edge e) .source ∧ g.ItemPlays b (.edge e) .target
  | .target => ∃ e, g.Has (.edge e) ∧ g.ItemPlays a (.edge e) .target ∧ g.ItemPlays b (.edge e) .source
  | .endpoint => ∃ e, g.Has (.edge e) ∧ g.ItemJoins (.edge e) a b

end Diagram

namespace Clause

variable {ν : Type}

/-- Whether an assignment meets a clause. -/
def Holds (g : Diagram) (σ : ν → Item) : Clause ν → Prop
  | member x kind => g.Has (σ x) ∧ (σ x).kind = kind
  | same x item => (σ x).id = item.id
  | isA x type => (σ x).type.isA type = true
  | isNot x type => ¬(σ x).type.isA type = true
  | plays node edge role => g.ItemPlays (σ node) (σ edge) role
  | joined _ a b role => g.Related (σ a) (σ b) role

/-- The variables that play a role on an edge, in the order of the clauses that say so. -/
def players [DecidableEq ν] (edge : ν) (role : Role) (clauses : List (Clause ν)) : List ν :=
  clauses.filterMap fun
    | plays node edge' role' => if edge' = edge ∧ role' = role then some node else none
    | _ => none

end Clause

/--
Whether an assignment meets all clauses.  When an edge is said to have two ends, without a
direction, those are its two ends.
-/
structure Means {ν : Type} [DecidableEq ν] (g : Diagram) (clauses : List (Clause ν)) (σ : ν → Item) :
    Prop where
  each : ∀ clause ∈ clauses, clause.Holds g σ
  ends : ∀ edge a b, Clause.players edge .endpoint clauses = [a, b] →
    g.ItemJoins (σ edge) (σ a) (σ b)

namespace Relation

/-- The role that a node fragment's node plays. -/
def ofNode : Relation → Role
  | leadsTo => .source
  | comesFrom => .target
  | joinedWith | eitherEnd => .endpoint

/-- The role that the other item plays on an edge fragment's edge. -/
def ofEdge : Relation → Role
  | leadsTo => .target
  | comesFrom => .source
  | joinedWith | eitherEnd => .endpoint

end Relation

namespace Base

variable {τ ι : Type}

/-- The variable of a fragment. -/
def var (base : Base τ ι) (name : Option String) (path : Path) (id : ι → ItemId) : Var :=
  match name, base with
  | some x, _ => .name x
  | none, any _ => .occurrence path
  | none, exactly item => .item (id item)

end Base

namespace Pattern

/-- The variable that a pattern, written at some place of a query, speaks about. -/
def var (path : Path) : Pattern → Var
  | nodeType _ | edgeType _ => .occurrence path
  | node n => .item (.node n.id)
  | edge e => .item (.edge e.id)
  | reference name => .name name
  | nodeFragment base name _ _ => base.var name path fun n => .node n.id
  | edgeFragment base name _ _ => base.var name path fun e => .edge e.id

/-- What it says of a variable that it is any item of a type. -/
def typed (x : Var) (type : ItemType) : List (Clause Var) :=
  [.member x type.kind, .isA x type]

/-- What it says of a variable that it is an exact item. -/
def exact (x : Var) (item : Item) : List (Clause Var) :=
  [.member x item.kind, .same x item, .isA x item.type]

/-- What the base of a node fragment says. -/
def nodeBase (x : Var) : Base NodeType Node → List (Clause Var)
  | .any type => typed x (.node type)
  | .exactly n => exact x (.node n)

/-- What the base of an edge fragment says. -/
def edgeBase (x : Var) : Base EdgeType Edge → List (Clause Var)
  | .any type => typed x (.edge type)
  | .exactly e => exact x (.edge e)

/-- Whether a pattern speaks about an edge, given the names of edges. -/
def isEdgeLike (edgeNames : List String) : Pattern → Bool
  | reference name => edgeNames.contains name
  | p => p.isEdge

/--
What it says of a node that it is related to another variable: it plays the role on that edge, or
some edge leads from the one node to the other.
-/
def related (path : Path) (x y : Var) (role : Role) (edgeLike : Bool) : List (Clause Var) :=
  if edgeLike then [.plays x y role] else [.member y .node, .joined path x y role]

mutual

/-- The names that a pattern uses for edges. -/
def edgeNames : Pattern → List String
  | nodeFragment _ _ _ relations => relationEdgeNames relations
  | edgeFragment _ name _ relations => name.toList ++ relationEdgeNames relations
  | nodeType _ | edgeType _ | node _ | edge _ | reference _ => []
termination_by structural p => p

/-- The names that the relations of a fragment use for edges. -/
def relationEdgeNames : List (Relation × Pattern) → List String
  | [] => []
  | (_, p) :: rest => p.edgeNames ++ relationEdgeNames rest
termination_by structural relations => relations

end

mutual

/-- The clauses of a pattern that is written at some place of a query. -/
def clauses (names : List String) (path : Path) : Pattern → List (Clause Var)
  | nodeType type => typed (.occurrence path) (.node type)
  | edgeType type => typed (.occurrence path) (.edge type)
  | node n => exact (.item (.node n.id)) (.node n)
  | edge e => exact (.item (.edge e.id)) (.edge e)
  | reference _ => []
  | nodeFragment base name excluding relations =>
    let x := base.var name path fun n => .node n.id
    nodeBase x base ++ excluding.map (fun type => .isNot x (.node type)) ++
      nodeClauses names path x 0 relations
  | edgeFragment base name excluding relations =>
    let x := base.var name path fun e => .edge e.id
    edgeBase x base ++ excluding.map (fun type => .isNot x (.edge type)) ++
      edgeClauses names path x 0 relations
termination_by structural p => p

/-- The clauses of the relations of a node fragment, the first of which has the given position. -/
def nodeClauses (names : List String) (path : Path) (x : Var) (i : Nat) :
    List (Relation × Pattern) → List (Clause Var)
  | [] => []
  | (relation, p) :: rest =>
    related (i :: path) x (p.var (i :: path)) relation.ofNode (p.isEdgeLike names) ++
      p.clauses names (i :: path) ++ nodeClauses names path x (i + 1) rest
termination_by structural relations => relations

/-- The clauses of the relations of an edge fragment, the first of which has the given position. -/
def edgeClauses (names : List String) (path : Path) (x : Var) (i : Nat) :
    List (Relation × Pattern) → List (Clause Var)
  | [] => []
  | (relation, p) :: rest =>
    [.member (p.var (i :: path)) .node, .plays (p.var (i :: path)) x relation.ofEdge] ++
      p.clauses names (i :: path) ++ edgeClauses names path x (i + 1) rest
termination_by structural relations => relations

end

end Pattern

namespace Query

/-- The names that a query uses for edges. -/
def edgeNames (query : Query) : List String :=
  query.values.flatMap Pattern.edgeNames

/-- The clauses of a query. -/
def clauses (query : Query) : List (Clause Var) :=
  query.values.zipIdx.flatMap fun (p, i) => p.clauses query.edgeNames [i]

/-- The variables that the patterns of a query speak about, laid out like the query. -/
def vars (query : Query) : Layout Var :=
  ⟨query.shape, query.values.zipIdx.map fun (p, i) => p.var [i], by simp [query.fits]⟩

/-- Whether a layout of items is a row of the query on a graph. -/
def IsRow (query : Query) (g : Diagram) (row : Layout Item) : Prop :=
  ∃ σ, Means g query.clauses σ ∧ row = query.vars.map σ

end Query

end PatternGraph
