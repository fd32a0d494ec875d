/-!
# JSON texts as they are written

A `Literal` is the tree of a JSON text before anything in it is interpreted: a number keeps its
digits, a string keeps the units it was written with, a record keeps repeated members in order.
`Literal.read?` accepts exactly the texts of the grammar.  What a reader makes of a literal, such
as a value or a typed record, is decided elsewhere, because parts that a reader skips need only be
well formed.
-/

namespace PatternGraph.Json

/-- One unit of a written string: a character, or a 16-bit unit given by its number. -/
inductive Glyph where
  | char (c : Char)
  | unit (code : Nat)
deriving DecidableEq, Repr

/-- A JSON text as a tree, with numbers and strings not yet interpreted. -/
inductive Literal where
  | null
  | bool (b : Bool)
  | number (digits : String)
  | text (glyphs : List Glyph)
  | list (items : List Literal)
  | record (members : List (List Glyph × Literal))
deriving Repr, Inhabited

/-- The four characters that may stand between tokens. -/
def isGap (c : Char) : Bool :=
  c == ' ' || c == '\t' || c == '\n' || c == '\r'

/-- Drops the characters between two tokens. -/
def skipGap (cs : List Char) : List Char :=
  cs.dropWhile isGap

/-- The value of one hexadecimal digit. -/
def hexDigit? (c : Char) : Option Nat :=
  if '0' ≤ c ∧ c ≤ '9' then some (c.toNat - '0'.toNat)
  else if 'a' ≤ c ∧ c ≤ 'f' then some (c.toNat - 'a'.toNat + 10)
  else if 'A' ≤ c ∧ c ≤ 'F' then some (c.toNat - 'A'.toNat + 10)
  else none

/-- The character that a one-letter escape stands for. -/
def shortEscape? : Char → Option Char
  | '"' => some '"'
  | '\\' => some '\\'
  | '/' => some '/'
  | 'b' => some '\x08'
  | 'f' => some '\x0c'
  | 'n' => some '\n'
  | 'r' => some '\r'
  | 't' => some '\t'
  | _ => none

/-- Reads a string up to its closing quote; control characters have to be escaped. -/
def readGlyphs : List Char → Option (List Glyph × List Char)
  | [] => none
  | '"' :: rest => some ([], rest)
  | '\\' :: 'u' :: a :: b :: c :: d :: rest => do
    let code := (← hexDigit? a) * 4096 + (← hexDigit? b) * 256 + (← hexDigit? c) * 16 +
      (← hexDigit? d)
    let (glyphs, rest) ← readGlyphs rest
    return (.unit code :: glyphs, rest)
  | '\\' :: e :: rest => do
    let c ← shortEscape? e
    let (glyphs, rest) ← readGlyphs rest
    return (.char c :: glyphs, rest)
  | c :: rest => do
    guard (' ' ≤ c ∧ c ≠ '\\')
    let (glyphs, rest) ← readGlyphs rest
    return (.char c :: glyphs, rest)

/-- Reads a run of at least one digit. -/
def readDigits (cs : List Char) : Option (List Char × List Char) :=
  match cs.span Char.isDigit with
  | ([], _) => none
  | run => some run

/-- Reads the part of a number after its whole digits: a point with digits, or nothing. -/
def readFraction : List Char → Option (List Char × List Char)
  | '.' :: rest => (readDigits rest).map fun (digits, rest) => ('.' :: digits, rest)
  | cs => some ([], cs)

/-- Reads the exponent of a number, or nothing. -/
def readExponent : List Char → Option (List Char × List Char)
  | 'e' :: rest | 'E' :: rest =>
    match rest with
    | '+' :: rest => (readDigits rest).map fun (digits, rest) => ('e' :: digits, rest)
    | '-' :: rest => (readDigits rest).map fun (digits, rest) => ('e' :: '-' :: digits, rest)
    | rest => (readDigits rest).map fun (digits, rest) => ('e' :: digits, rest)
  | cs => some ([], cs)

/-- Reads a number without a sign; a leading zero stands alone. -/
def readUnsigned (cs : List Char) : Option (List Char × List Char) := do
  let (whole, rest) ← readDigits cs
  guard (whole.head? ≠ some '0' ∨ whole.length = 1)
  let (fraction, rest) ← readFraction rest
  let (exponent, rest) ← readExponent rest
  return (whole ++ fraction ++ exponent, rest)

/-- Reads a number. -/
def readNumber : List Char → Option (Literal × List Char)
  | '-' :: rest => (readUnsigned rest).map fun (digits, rest) =>
    (.number (String.ofList ('-' :: digits)), rest)
  | cs => (readUnsigned cs).map fun (digits, rest) => (.number (String.ofList digits), rest)

mutual

/-- Reads one value; the first argument bounds the number of nested calls. -/
def readValue : Nat → List Char → Option (Literal × List Char)
  | 0, _ => none
  | fuel + 1, cs =>
    match skipGap cs with
    | 'n' :: 'u' :: 'l' :: 'l' :: rest => some (.null, rest)
    | 't' :: 'r' :: 'u' :: 'e' :: rest => some (.bool true, rest)
    | 'f' :: 'a' :: 'l' :: 's' :: 'e' :: rest => some (.bool false, rest)
    | '"' :: rest => (readGlyphs rest).map fun (glyphs, rest) => (.text glyphs, rest)
    | '[' :: rest =>
      match skipGap rest with
      | ']' :: rest => some (.list [], rest)
      | rest => (readItems fuel rest).map fun (items, rest) => (.list items, rest)
    | '\x7b' :: rest =>
      match skipGap rest with
      | '\x7d' :: rest => some (.record [], rest)
      | rest => (readMembers fuel rest).map fun (members, rest) => (.record members, rest)
    | rest => readNumber rest

/-- Reads the items of a list that has at least one, and its closing bracket. -/
def readItems : Nat → List Char → Option (List Literal × List Char)
  | 0, _ => none
  | fuel + 1, cs => do
    let (item, rest) ← readValue fuel cs
    match skipGap rest with
    | ',' :: rest =>
      let (items, rest) ← readItems fuel rest
      return (item :: items, rest)
    | ']' :: rest => return ([item], rest)
    | _ => none

/-- Reads the members of a record that has at least one, and its closing brace. -/
def readMembers : Nat → List Char → Option (List (List Glyph × Literal) × List Char)
  | 0, _ => none
  | fuel + 1, cs =>
    match skipGap cs with
    | '"' :: rest => do
      let (key, rest) ← readGlyphs rest
      match skipGap rest with
      | ':' :: rest =>
        let (item, rest) ← readValue fuel rest
        match skipGap rest with
        | ',' :: rest =>
          let (members, rest) ← readMembers fuel rest
          return ((key, item) :: members, rest)
        | '\x7d' :: rest => return ([(key, item)], rest)
        | _ => none
      | _ => none
    | _ => none

end

/-- Reads a whole text; every nested call consumes a character, so its length is bound enough. -/
def Literal.read? (text : String) : Option Literal := do
  let cs := text.toList
  let (value, rest) ← readValue (cs.length + 1) cs
  guard (skipGap rest = [])
  return value

/-- The text of a written string, unless a surrogate unit stands without its partner. -/
def decodeGlyphs? : List Glyph → Option (List Char)
  | [] => some []
  | .char c :: rest => (decodeGlyphs? rest).map (c :: ·)
  | .unit high :: .unit low :: rest =>
    if 0xD800 ≤ high ∧ high < 0xDC00 then
      if 0xDC00 ≤ low ∧ low < 0xE000 then
        (decodeGlyphs? rest).map
          (Char.ofNat (0x10000 + (high - 0xD800) * 1024 + (low - 0xDC00)) :: ·)
      else none
    else if 0xDC00 ≤ high ∧ high < 0xE000 then none
    else (decodeGlyphs? (.unit low :: rest)).map (Char.ofNat high :: ·)
  | .unit code :: rest =>
    if 0xD800 ≤ code ∧ code < 0xE000 then none
    else (decodeGlyphs? rest).map (Char.ofNat code :: ·)

/-- The string that a list of glyphs writes. -/
def text? (glyphs : List Glyph) : Option String :=
  (decodeGlyphs? glyphs).map String.ofList

end PatternGraph.Json
