import PatternGraph.Query.Rows

/-!
# The bytes of a row

Rows are compared by a digest of a sequence of bytes.  It begins with a version and with the sort of
the shape, which for a list and for a record is followed by the number of places.  Then comes every
place with its item: a number in a list is written in eight bytes, a key after its length, and an item
as its kind and its number.
-/

namespace PatternGraph

/-- The lowest bytes of a number, the lowest first. -/
def littleEndian : Nat → Nat → List UInt8
  | 0, _ => []
  | width + 1, n => UInt8.ofNat n :: littleEndian width (n / 256)

/-- A number in eight bytes. -/
def wordBytes (n : Nat) : List UInt8 :=
  littleEndian 8 n

/-- The bytes of a text. -/
def textBytes (text : String) : List UInt8 :=
  text.toByteArray.data.toList

/-- The kind of an item and its number. -/
def ItemId.bytes : ItemId → List UInt8
  | .node id => 0 :: wordBytes id.number
  | .edge id => 1 :: wordBytes id.number

/-- What tells one place from another one of the same shape. -/
def Position.bytes : Position → List UInt8
  | .root => []
  | .index i => wordBytes i
  | .key k => wordBytes k.utf8ByteSize ++ textBytes k

/-- The sort of a shape, and the number of places that it has. -/
def Shape.bytes : Shape → List UInt8
  | .single => [0]
  | .list length => 1 :: wordBytes length
  | .record keys _ => 2 :: wordBytes keys.length

/-- What is digested of what a row is compared by. -/
def RowKey.bytes (key : RowKey) : List UInt8 :=
  textBytes "livegraph.result.v1" ++ key.shape.bytes ++
    key.places.flatMap fun place => place.1.bytes ++ place.2.bytes

end PatternGraph
