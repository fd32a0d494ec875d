import PatternGraph.Json.Literal

/-!
# JSON values

A `Json` is what a literal means: whole numbers within 64 bits are integers, every other number is
a decimal kept by its digits, strings are decoded, and of repeated members the last one counts.
`Literal.value?` refuses a literal that is nested too deeply, holds half of a surrogate pair, or
holds a number beyond the range of double precision.
-/

namespace PatternGraph

/-- A JSON value. -/
inductive Json where
  | null
  | bool (b : Bool)
  | integer (value : Int)
  | decimal (digits : String)
  | text (s : String)
  | list (items : List Json)
  | record (members : List (String × Json))
deriving Repr, Inhabited

namespace Json

/-- The number of lists and records that may enclose a value. -/
def nestingLimit : Nat := 127

/-- The number that a run of decimal digits writes. -/
def digitsValue (digits : List Char) : Nat :=
  digits.foldl (fun n c => n * 10 + (c.toNat - '0'.toNat)) 0

/-- A written number, cut into its parts. -/
structure NumberParts where
  negative : Bool
  whole : List Char
  fraction : Option (List Char)
  exponent : Option Int

/-- Cuts the digits of a number literal into their parts. -/
def numberParts (digits : String) : NumberParts :=
  let cs := digits.toList
  let negative := cs.head? == some '-'
  let cs := if negative then cs.tail else cs
  let (whole, cs) := cs.span Char.isDigit
  let (fraction, cs) :=
    match cs with
    | '.' :: rest =>
      let (run, rest) := rest.span Char.isDigit
      (some run, rest)
    | cs => (none, cs)
  let exponent :=
    match cs with
    | 'e' :: '-' :: run => some (-(digitsValue run : Int))
    | 'e' :: run => some (digitsValue run : Int)
    | _ => none
  ⟨negative, whole, fraction, exponent⟩

/-- The least number that double precision rounds to infinity. -/
def doubleLimit : Nat := Nat.pow 2 1024 - Nat.pow 2 970

/--
Whether a number lies beyond double precision.  Only when the position of its leading digit leaves
the question open are its digits compared with the limit.
-/
def NumberParts.overflows (parts : NumberParts) : Bool :=
  let fraction := parts.fraction.getD []
  let significant := (parts.whole ++ fraction).dropWhile (· == '0')
  let shift := parts.exponent.getD 0 - fraction.length
  let magnitude := significant.length + shift
  if significant.isEmpty || magnitude < 309 then false
  else if 309 < magnitude then true
  else
    let value := digitsValue significant
    if 0 ≤ shift then doubleLimit ≤ value * Nat.pow 10 shift.toNat
    else doubleLimit * Nat.pow 10 (-shift).toNat ≤ value

/-- The value of a number literal. -/
def ofNumber? (digits : String) : Option Json :=
  let parts := numberParts digits
  match parts.fraction, parts.exponent with
  | none, none =>
    let n := digitsValue parts.whole
    if parts.negative then
      if n = 0 then some (.decimal "-0.0")
      else if n ≤ Nat.pow 2 63 then some (.integer (-n))
      else if parts.overflows then none
      else some (.decimal (digits ++ ".0"))
    else if n < Nat.pow 2 64 then some (.integer n)
    else if parts.overflows then none
    else some (.decimal (digits ++ ".0"))
  | _, _ => if parts.overflows then none else some (.decimal digits)

/-- Puts a member into a record, in the place of an earlier one of the same key. -/
def putMember (key : String) (item : Json) : List (String × Json) → List (String × Json)
  | [] => [(key, item)]
  | (k, v) :: rest => if k = key then (k, item) :: rest else (k, v) :: putMember key item rest

/-- The record of a list of members; the last of repeated members counts. -/
def ofMembers (members : List (String × Json)) : Json :=
  .record (members.foldl (fun record member => putMember member.1 member.2 record) [])

mutual

/-- The value of a literal; the first argument is the number of containers that may still open. -/
def ofLiteral? : Nat → Literal → Option Json
  | _, .null => some .null
  | _, .bool b => some (.bool b)
  | _, .number digits => ofNumber? digits
  | _, .text glyphs => (text? glyphs).map .text
  | 0, .list _ => none
  | depth + 1, .list items => (ofItems? depth items).map .list
  | 0, .record _ => none
  | depth + 1, .record members => (ofLiteralMembers? depth members).map ofMembers

/-- The values of the items of a list. -/
def ofItems? : Nat → List Literal → Option (List Json)
  | _, [] => some []
  | depth, item :: rest => do
    let item ← ofLiteral? depth item
    let rest ← ofItems? depth rest
    return item :: rest

/-- The decoded members of a record. -/
def ofLiteralMembers? : Nat → List (List Glyph × Literal) → Option (List (String × Json))
  | _, [] => some []
  | depth, (key, item) :: rest => do
    let key ← text? key
    let item ← ofLiteral? depth item
    let rest ← ofLiteralMembers? depth rest
    return (key, item) :: rest

end

/-- Reads a JSON text as a value. -/
def read? (text : String) : Option Json := do
  ofLiteral? nestingLimit (← Literal.read? text)

/-- The member of a record under a key. -/
def get? (key : String) : Json → Option Json
  | .record members => (members.find? fun member => member.1 == key).map Prod.snd
  | _ => none

/-- A string value. -/
def asText? : Json → Option String
  | .text s => some s
  | _ => none

/-- A truth value. -/
def asBool? : Json → Option Bool
  | .bool b => some b
  | _ => none

/-- A whole number that is not negative. -/
def asNat? : Json → Option Nat
  | .integer (.ofNat n) => some n
  | _ => none

/-- The items of a list. -/
def asList? : Json → Option (List Json)
  | .list items => some items
  | _ => none

/-- The members of a record. -/
def asRecord? : Json → Option (List (String × Json))
  | .record members => some members
  | _ => none

end Json

end PatternGraph
