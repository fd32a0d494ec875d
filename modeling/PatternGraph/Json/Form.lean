import PatternGraph.Json.Literal

/-!
# Typed readers of JSON literals

A `Form` reads a literal as a value of one type.  A record may be written with named members, where
members of other names are skipped and a known name may occur once, or as the list of exactly its
fields in order.
-/

namespace PatternGraph.Json

/-- A reader of literals as values of one type. -/
abbrev Form (α : Type) := Literal → Option α

namespace Form

/-- A whole number below a limit, written with digits only. -/
def natural (limit : Nat) : Form Nat
  | .number digits =>
    let cs := digits.toList
    let value := cs.foldl (fun n c => n * 10 + (c.toNat - '0'.toNat)) 0
    if cs.all Char.isDigit ∧ value < limit then some value else none
  | _ => none

/-- A truth value. -/
def bool : Form Bool
  | .bool b => some b
  | _ => none

/-- A value or null. -/
def orNull {α : Type} (form : Form α) : Form (Option α)
  | .null => some none
  | literal => (form literal).map some

/-- One of several named values, written as the name or as a record from the name to null. -/
def oneOf {α : Type} (names : List (String × α)) : Form α
  | .text glyphs => do names.lookup (← text? glyphs)
  | .record [(glyphs, .null)] => do names.lookup (← text? glyphs)
  | _ => none

/-- The literals of the named fields of a record, in the order of the names. -/
def fields (names : List String) : Form (List (Option Literal))
  | .list items => if items.length = names.length then some (items.map some) else none
  | .record members => do
    let members ← members.mapM fun (key, item) => (text? key).map fun key => (key, item)
    names.mapM fun name =>
      match members.filter fun member => member.1 == name with
      | [] => some none
      | [(_, item)] => some (some item)
      | _ => none
  | _ => none

/-- A field that has to be present. -/
def required {α : Type} (form : Form α) (field : Option Literal) : Option α :=
  field.bind form

/-- A field whose absence means null. -/
def defaulted {α : Type} (form : Form α) : Option Literal → Option (Option α)
  | none => some none
  | some literal => orNull form literal

end Form

end PatternGraph.Json
