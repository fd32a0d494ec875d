import PatternGraph.Json.Form
import PatternGraph.Query.Plan

/-!
# Settings and written plain data

The settings of graphs and queries, and how these and the other plain records of the library are
read from JSON texts.
-/

namespace PatternGraph

/-- Room to set aside for the items of a graph; a hint that no result depends on. -/
structure GraphSettings where
  nodes : Option Nat
  edges : Option Nat
deriving DecidableEq, Repr, Inhabited

/-- How a live query works. -/
structure QueryOptions where
  /-- Whether the query holds its rows and keeps them fresh. -/
  cache : Bool
deriving DecidableEq, Repr, Inhabited

open Json

/-- A whole number that fits into 64 bits. -/
def Json.Form.word : Form Nat :=
  Form.natural (Nat.pow 2 64)

/-- A type number. -/
def TypeId.form : Form Nat :=
  Form.natural (Nat.pow 2 32)

/-- The identity of a thing, written as its number. -/
def Ident.form {subject : Subject} : Form (Ident subject) :=
  fun literal => (Form.word literal).map (⟨·⟩)

/-- A kind, written as its name. -/
def Kind.form : Form Kind :=
  Form.oneOf ([.node, .edge].map fun kind => (kind.name, kind))

/-- A slot kind, written as its name. -/
def SlotKind.form : Form SlotKind :=
  Form.oneOf ([.node, .edge, .unknown].map fun kind => (kind.name, kind))

/-- A role, written as its name. -/
def Role.form : Form Role :=
  Form.oneOf ([.source, .target, .endpoint].map fun role => (role.name, role))

/-- The names of the fields of graph settings. -/
def GraphSettings.fieldNames : List String :=
  ["reserve_node_capacity", "reserve_edge_capacity"]

/-- The settings of a graph; what is not mentioned is not set aside. -/
def GraphSettings.form : Form GraphSettings := fun literal => do
  match ← Form.fields fieldNames literal with
  | [nodes, edges] => return ⟨← Form.defaulted .word nodes, ← Form.defaulted .word edges⟩
  | _ => none

/-- The options of a query. -/
def QueryOptions.form : Form QueryOptions := fun literal => do
  match ← Form.fields ["cache"] literal with
  | [cache] => return ⟨← Form.required .bool cache⟩
  | _ => none

/-- A connection. -/
def Connection.form : Form Connection := fun literal => do
  match ← Form.fields ["node", "edge", "role"] literal with
  | [node, edge, role] =>
    return ⟨← Form.required .word node, ← Form.required .word edge, ← Form.required Role.form role⟩
  | _ => none

end PatternGraph
