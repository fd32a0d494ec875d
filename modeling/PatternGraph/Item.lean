import PatternGraph.ItemType

/-!
# Nodes, edges and items

An item is known by an identity and a type, both fixed for good; everything about an item that can
change is kept by a store.  Identities of one sort are numbered from one in order of creation, and
sets of them are ordered by number, so that they list their members in order of creation.
-/

namespace PatternGraph

/-- The sorts of things that have an identity. -/
inductive Subject where
  | node
  | edge
  | graph
  | query
  | observer
  | script
  | cursor
deriving DecidableEq, Repr

/-- An identity of one sort. -/
structure Ident (subject : Subject) where
  number : Nat
deriving DecidableEq, Repr, Inhabited

namespace Ident

variable {subject : Subject}

theorem eq_of_number {a b : Ident subject} (h : a.number = b.number) : a = b := by
  cases a
  cases b
  simp_all

instance : Ord (Ident subject) := ⟨compareOn number⟩

instance : Std.TransOrd (Ident subject) := inferInstanceAs (Std.TransCmp (compareOn number))

instance : Std.LawfulEqOrd (Ident subject) where
  eq_of_compare h := eq_of_number (Std.LawfulEqOrd.eq_of_compare (α := Nat) h)

end Ident

/-- The identity of a node. -/
abbrev NodeId := Ident .node

/-- The identity of an edge. -/
abbrev EdgeId := Ident .edge

/-- The identity of a graph. -/
abbrev GraphId := Ident .graph

/-- A written node identity. -/
def NodeId.text (id : NodeId) : String := "n" ++ toString id.number

/-- A written edge identity. -/
def EdgeId.text (id : EdgeId) : String := "e" ++ toString id.number

/-- A written graph identity. -/
def GraphId.text (id : GraphId) : String := "g" ++ toString id.number

/-- A node: an identity and a type. -/
structure Node where
  id : NodeId
  type : NodeType
deriving DecidableEq, Repr, Inhabited

/-- An edge: an identity and a type. -/
structure Edge where
  id : EdgeId
  type : EdgeType
deriving DecidableEq, Repr, Inhabited

/-- The identity of a node or of an edge. -/
inductive ItemId where
  | node (id : NodeId)
  | edge (id : EdgeId)
deriving DecidableEq, Repr, Inhabited

namespace ItemId

/-- A written identity. -/
def text : ItemId → String
  | .node id => id.text
  | .edge id => id.text

/-- A position for every identity; nodes and edges alternate. -/
def rank : ItemId → Nat
  | .node id => 2 * id.number
  | .edge id => 2 * id.number + 1

theorem rank_injective {a b : ItemId} (h : a.rank = b.rank) : a = b := by
  rcases a with ⟨⟨a⟩⟩ | ⟨⟨a⟩⟩ <;> rcases b with ⟨⟨b⟩⟩ | ⟨⟨b⟩⟩ <;> simp_all [rank] <;> omega

instance : Ord ItemId := ⟨compareOn rank⟩

instance : Std.TransOrd ItemId := inferInstanceAs (Std.TransCmp (compareOn rank))

instance : Std.LawfulEqOrd ItemId where
  eq_of_compare h := rank_injective (Std.LawfulEqOrd.eq_of_compare (α := Nat) h)

end ItemId

/-- A node or an edge. -/
inductive Item where
  | node (n : Node)
  | edge (e : Edge)
deriving DecidableEq, Repr, Inhabited

namespace Item

/-- The kind of an item. -/
def kind : Item → Kind
  | .node _ => .node
  | .edge _ => .edge

/-- The type of an item. -/
def type : Item → ItemType
  | .node n => .node n.type
  | .edge e => .edge e.type

/-- The identity of an item. -/
def id : Item → ItemId
  | .node n => .node n.id
  | .edge e => .edge e.id

/-- The written identity of an item. -/
def text (item : Item) : String :=
  item.id.text

end Item

/-- A node as it is shown. -/
def Node.describe (n : Node) : String :=
  "Node(" ++ n.id.text ++ ": " ++ n.type.name ++ ")"

/-- An edge as it is shown. -/
def Edge.describe (e : Edge) : String :=
  "Edge(" ++ e.id.text ++ ": " ++ e.type.name ++ ")"

end PatternGraph
