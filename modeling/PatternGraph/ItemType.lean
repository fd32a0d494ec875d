import Std.Data.ExtTreeMap

/-!
# Node types and edge types

Types form two trees, one for nodes and one for edges, each below a root.  A type knows the chain
of its ancestors from itself to its root, and `Typ.isA` is membership in that chain.  A `Vocabulary`
hands out the numbers of types, of which both trees share one sequence; there are 2 ^ 32 of them.
-/

namespace PatternGraph

/-- The two kinds of items. -/
inductive Kind where
  | node
  | edge
deriving DecidableEq, Repr, Inhabited

namespace Kind

/-- The kind as a word in running text. -/
def word : Kind → String
  | .node => "node"
  | .edge => "edge"

/-- The kind as a name. -/
def name : Kind → String
  | .node => "Node"
  | .edge => "Edge"

end Kind

/-- The identity of a type: a number of 32 bits, of one sequence for the types of both kinds. -/
structure TypeId where
  word : UInt32
deriving DecidableEq, Repr, Inhabited

namespace TypeId

/-- The identity of the root of a kind; the two roots are the first types that are declared. -/
def root : Kind → TypeId
  | .node => ⟨0⟩
  | .edge => ⟨1⟩

/-- The number that a type is written with: zero for a root, and one for the first type after them. -/
def number (id : TypeId) : Nat :=
  id.word.toNat - 1

/-- A position for every type identity. -/
def rank (id : TypeId) : Nat :=
  id.word.toNat

theorem rank_injective {a b : TypeId} (h : a.rank = b.rank) : a = b := by
  cases a
  cases b
  exact congrArg mk (UInt32.toNat_inj.mp h)

instance : Ord TypeId := ⟨compareOn rank⟩

instance : Std.TransOrd TypeId := inferInstanceAs (Std.TransCmp (compareOn rank))

instance : Std.LawfulEqOrd TypeId where
  eq_of_compare h := rank_injective (Std.LawfulEqOrd.eq_of_compare (α := Nat) h)

end TypeId

/-- A type of items of one kind; `ancestors` starts with the type itself and ends with its root. -/
structure Typ (kind : Kind) where
  id : TypeId
  name : String
  ancestors : List TypeId
deriving DecidableEq, Repr

/-- A type of nodes. -/
abbrev NodeType := Typ .node

/-- A type of edges. -/
abbrev EdgeType := Typ .edge

namespace Typ

/-- The root of a kind's types. -/
def root (kind : Kind) : Typ kind :=
  ⟨.root kind, kind.name, [.root kind]⟩

instance {kind : Kind} : Inhabited (Typ kind) := ⟨root kind⟩

/-- Whether `t` is `u` or one of its descendants. -/
def isA {kind : Kind} (t u : Typ kind) : Bool :=
  t.ancestors.contains u.id

/-- The type with its kind and number. -/
def describe {kind : Kind} (t : Typ kind) : String :=
  kind.word ++ "(" ++ t.name ++ "#" ++ toString t.id.number ++ ")"

end Typ

/-- A type of either kind. -/
inductive ItemType where
  | node (t : NodeType)
  | edge (t : EdgeType)
deriving DecidableEq, Repr, Inhabited

namespace ItemType

/-- The kind of the items of a type. -/
def kind : ItemType → Kind
  | .node _ => .node
  | .edge _ => .edge

/-- The identity of a type. -/
def id : ItemType → TypeId
  | .node t => t.id
  | .edge t => t.id

/-- The name of a type. -/
def name : ItemType → String
  | .node t => t.name
  | .edge t => t.name

/-- The identities of a type and its ancestors, the root last. -/
def ancestors : ItemType → List TypeId
  | .node t => t.ancestors
  | .edge t => t.ancestors

/-- The root of a kind's types. -/
def root : Kind → ItemType
  | .node => .node (Typ.root .node)
  | .edge => .edge (Typ.root .edge)

/-- Whether `t` is `u` or one of its descendants; types of different kinds are unrelated. -/
def isA : ItemType → ItemType → Bool
  | .node t, .node u => t.isA u
  | .edge t, .edge u => t.isA u
  | _, _ => false

/-- The more specific of two related types. -/
def narrowest (t u : ItemType) : Option ItemType :=
  if t.isA u then some t else if u.isA t then some u else none

/-- The type with its kind and number. -/
def describe : ItemType → String
  | .node t => t.describe
  | .edge t => t.describe

end ItemType

/-- The number that the next type to be declared gets. -/
structure Vocabulary where
  next : UInt32
deriving DecidableEq, Repr, Inhabited

namespace Vocabulary

/-- Draws an identity for a type.  After the largest number the sequence begins again. -/
def draw (v : Vocabulary) : TypeId × Vocabulary :=
  (⟨v.next⟩, ⟨v.next + 1⟩)

/-- The vocabulary in which only the roots have been declared, that of nodes and then that of edges. -/
def roots : Vocabulary :=
  (Vocabulary.mk 0).draw.2.draw.2

/-- Declares a type below `parent`. -/
def declare {kind : Kind} (v : Vocabulary) (name : String) (parent : Typ kind) :
    Typ kind × Vocabulary :=
  let (id, v) := v.draw
  (⟨id, name, id :: parent.ancestors⟩, v)

end Vocabulary

end PatternGraph
