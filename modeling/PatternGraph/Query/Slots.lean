import PatternGraph.Item
import PatternGraph.Query.Layout

/-!
# Slots

A lowered query is a list of slots, each to be bound to one node or one edge.  A slot constrains the
item on its own by kind, instance, type and exclusions, and names the slots that it is linked with.
It also says in which places of a row its item is shown.
-/

namespace PatternGraph

/-- The part that a node plays on an edge. -/
inductive Role where
  | source
  | target
  /-- Either end. -/
  | endpoint
deriving DecidableEq, Repr, Inhabited

namespace Role

/-- The part that the node at the other end plays. -/
def opposite : Role → Role
  | .source => .target
  | .target => .source
  | .endpoint => .endpoint

/-- The role as a name. -/
def name : Role → String
  | .source => "Source"
  | .target => "Target"
  | .endpoint => "Endpoint"

end Role

/-- What is known about the kind of a slot's item. -/
inductive SlotKind where
  | node
  | edge
  /-- A name that has not yet been used where its kind shows. -/
  | unknown
deriving DecidableEq, Repr, Inhabited

namespace SlotKind

/-- The kind of item, once it is known. -/
def itemKind : SlotKind → Option Kind
  | .node => some .node
  | .edge => some .edge
  | .unknown => none

/-- The slot kind of a kind of item. -/
def ofKind : Kind → SlotKind
  | .node => .node
  | .edge => .edge

/-- The slot kind that an optional kind of item stands for. -/
def ofKind? : Option Kind → SlotKind
  | some kind => ofKind kind
  | none => .unknown

/-- The slot kind as a name. -/
def name : SlotKind → String
  | .node => "Node"
  | .edge => "Edge"
  | .unknown => "Unknown"

end SlotKind

/--
One variable of a query.  On an edge slot, `sources`, `targets` and `ends` list the node slots that
are its source, its target or either; on a node slot they list the edge slots that reach the node,
that leave it, or that have it at either end.
-/
structure Slot where
  name : String
  kind : SlotKind
  /-- Whether the name was synthesized. -/
  anonymous : Bool
  pinned : Option Item
  type : Option ItemType
  excluded : List ItemType
  sources : List Nat
  targets : List Nat
  ends : List Nat
  /-- The places of a row in which the item is shown. -/
  outputs : List Position
deriving DecidableEq, Repr, Inhabited

namespace Slot

/-- A slot without constraints. -/
def fresh (name : String) (kind : SlotKind) (anonymous : Bool) : Slot :=
  ⟨name, kind, anonymous, none, none, [], [], [], [], []⟩

/-- The type whose items are candidates: the declared one, or else the root of the slot's kind. -/
def scanType (slot : Slot) : Option ItemType :=
  match slot.type with
  | some t => some t
  | none => slot.kind.itemKind.map ItemType.root

/-- Whether items of a type satisfy the slot's type and exclusions. -/
def admits (slot : Slot) (t : ItemType) : Bool :=
  slot.scanType.any fun required => t.isA required && !slot.excluded.any t.isA

/-- Whether an item satisfies every constraint that the slot puts on it alone. -/
def accepts (slot : Slot) (item : Item) : Bool :=
  slot.kind.itemKind == some item.kind && slot.pinned.all (·.id == item.id) && slot.admits item.type

end Slot

/-- The slots of a query, and the shape of its rows. -/
structure Slots where
  slots : Array Slot
  shape : Shape
deriving DecidableEq

namespace Slots

/-- The number of slots. -/
def size (s : Slots) : Nat :=
  s.slots.size

/-- The slot with a given name. -/
def indexOf? (s : Slots) (name : String) : Option Nat :=
  s.slots.findIdx? (·.name == name)

/--
The slot that a client means by a name.  The slot of an exact item that was given no name of its own
is known by that item and not by a name.
-/
def find? (s : Slots) (name : String) : Option Nat := do
  let index ← s.indexOf? name
  let slot ← s.slots[index]?
  guard ¬(slot.anonymous ∧ slot.pinned.isSome)
  return index

/-- The name of a slot, a question mark if there is no such slot. -/
def nameOf (s : Slots) (slot : Nat) : String :=
  match s.slots[slot]? with
  | some slot => slot.name
  | none => "?"

/-- The slots of a kind. -/
def ofKind (s : Slots) (kind : SlotKind) : List Slot :=
  s.slots.toList.filter (·.kind == kind)

/-- Whether adding or removing an item could change the rows of the query. -/
def isRelevant (s : Slots) (item : Item) : Bool :=
  s.slots.any fun slot => slot.kind.itemKind == some item.kind && slot.admits item.type

/-- For each place of a row the slot that is shown there, the first one if several are. -/
def outputs (s : Slots) : Layout Nat :=
  ⟨s.shape,
    s.shape.positions.map fun position => s.slots.toList.findIdx (·.outputs.contains position),
    by simp [Shape.size]⟩

/-- The items that the query names. -/
def pinnedItems (s : Slots) : List Item :=
  s.slots.toList.filterMap (·.pinned)

end Slots

end PatternGraph
