import Std.Data.ExtTreeMap

/-!
# Layouts

A query is laid out as one pattern, as a list of patterns, or as a record of patterns under keys,
and each of its rows is laid out in the same way.  A `Layout` is such an arrangement: a shape, and
as many values as the shape has positions.  The keys of a record are distinct and ascend.
-/

namespace PatternGraph

/-- A place in a layout. -/
inductive Position where
  | root
  | index (i : Nat)
  | key (k : String)
deriving DecidableEq, Repr

/-- How values are arranged. -/
inductive Shape where
  | single
  | list (length : Nat)
  | record (keys : List String) (ascending : keys.Pairwise fun a b => compare a b = .lt)
deriving DecidableEq

namespace Shape

/-- The places of a shape in order. -/
def positions : Shape → List Position
  | .single => [.root]
  | .list length => (List.range length).map .index
  | .record keys _ => keys.map .key

/-- The number of places. -/
def size (shape : Shape) : Nat :=
  shape.positions.length

end Shape

/-- Values arranged in a shape, one for each of its places. -/
structure Layout (α : Type) where
  shape : Shape
  values : List α
  fits : values.length = shape.size
deriving DecidableEq

namespace Layout

variable {α β : Type}

/-- One value. -/
def single (a : α) : Layout α :=
  ⟨.single, [a], rfl⟩

/-- A list of values. -/
def list (values : List α) : Layout α :=
  ⟨.list values.length, values, by simp [Shape.size, Shape.positions]⟩

/-- Values under the keys of a map. -/
def ofMap (entries : Std.ExtTreeMap String α) : Layout α :=
  ⟨.record entries.keys Std.ExtTreeMap.ordered_keys, entries.toList.map Prod.snd, by
    simp [Shape.size, Shape.positions]⟩

/-- Values under keys; of several values under one key the last one counts. -/
def record (entries : List (String × α)) : Layout α :=
  ofMap (Std.ExtTreeMap.ofList entries)

/-- Replaces every value. -/
def map (f : α → β) (layout : Layout α) : Layout β :=
  ⟨layout.shape, layout.values.map f, by simp [layout.fits]⟩

/-- Every value with its place. -/
def places (layout : Layout α) : List (Position × α) :=
  layout.shape.positions.zip layout.values

/-- The places that hold a value. -/
def positionsOf [BEq α] (layout : Layout α) (a : α) : List Position :=
  (layout.places.filter fun place => place.2 == a).map Prod.fst

end Layout

end PatternGraph
