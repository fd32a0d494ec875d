import PatternGraph.Fault
import PatternGraph.Query.Pattern
import PatternGraph.Query.Slots
import PatternGraph.Text.Blank

/-!
# Lowering patterns to slots

`Query.lower` walks the patterns of a query in order and gives every name, every exact item and
every unnamed pattern its slot.  A node pattern related to another node pattern gets a companion
edge slot between the two.  A relation to a name whose kind is not known yet is put off to the end,
when the rest of the query has had the chance to tell; a name that is still untyped then is a node.
-/

namespace PatternGraph

/-- The most ends in either role that an edge slot may have. -/
def maxEdgeEnds : Nat := 2

/-- A lowering in progress. -/
structure Draft where
  slots : Array Slot
  /-- The number of unnamed slots so far. -/
  unnamed : Nat
  /-- The relations put off: a node slot, the slot of a name, and the role of the node. -/
  deferred : List (Nat × Nat × Role)
deriving Repr

/-- A step of a lowering. -/
abbrev Lowering := StateT Draft (Except Fault)

namespace Draft

/-- The lowering of nothing. -/
def empty : Draft := ⟨#[], 0, []⟩

/-- The slot with a given name. -/
def indexOf? (draft : Draft) (name : String) : Option Nat :=
  draft.slots.findIdx? (·.name == name)

end Draft

namespace Lowering

/-- Refuses names that are blank or that look synthesized. -/
def checkName (name : String) : Lowering Unit :=
  if Text.isBlank name then throw .blankName
  else if name.toList.head? = some '#' ∨ name.toList.head? = some '@' then
    throw (.reservedName name)
  else pure ()

/-- Refuses a pattern of a kind other than the expected one. -/
def checkKind (expected : Option Kind) (found : Kind) (what : String) : Lowering Unit :=
  match expected with
  | none => pure ()
  | some expected =>
    if expected = found then pure () else throw (.wrongKind expected found what)

/-- The slot at an index. -/
def slotAt (slot : Nat) : Lowering Slot := do
  return (← get).slots.getD slot default

/-- Changes the slot at an index. -/
def update (slot : Nat) (change : Slot → Slot) : Lowering Unit :=
  modify fun draft => { draft with slots := draft.slots.modify slot change }

/-- Adds a slot and gives its index. -/
def push (slot : Slot) : Lowering Nat :=
  modifyGet fun draft => (draft.slots.size, { draft with slots := draft.slots.push slot })

/-- Adds an unnamed slot. -/
def pushUnnamed (kind : Kind) : Lowering Nat := do
  let k ← modifyGet fun draft => (draft.unnamed, { draft with unnamed := draft.unnamed + 1 })
  push (.fresh ("#" ++ toString k) (.ofKind kind) true)

/-- Settles the kind of a slot, or checks it against the kind settled before. -/
def requireKind (slot : Nat) (kind : Kind) : Lowering Unit := do
  let current ← slotAt slot
  match current.kind.itemKind with
  | none => update slot fun slot => { slot with kind := .ofKind kind }
  | some known =>
    if known = kind then pure () else throw (.mixedKinds current.name known kind)

/-- The slot of a user's name, which is opened at the first mention. -/
def named (name : String) (kind : Option Kind) : Lowering Nat := do
  checkName name
  match (← get).indexOf? name with
  | none => push (.fresh name (.ofKind? kind) false)
  | some slot =>
    match kind with
    | none => pure ()
    | some kind => requireKind slot kind
    return slot

/-- Narrows the type of a slot. -/
def narrow (slot : Nat) (type : ItemType) : Lowering Unit := do
  requireKind slot type.kind
  let current ← slotAt slot
  match current.type with
  | none => update slot fun slot => { slot with type := some type }
  | some existing =>
    match existing.narrowest type with
    | none => throw (.unrelatedTypes current.name existing.name type.name)
    | some narrowed => update slot fun slot => { slot with type := some narrowed }

/-- Excludes a type from a slot. -/
def exclude (slot : Nat) (type : ItemType) : Lowering Unit := do
  requireKind slot type.kind
  update slot fun slot =>
    if slot.excluded.contains type then slot
    else { slot with excluded := slot.excluded ++ [type] }

/-- Binds a slot to one exact item. -/
def pin (slot : Nat) (item : Item) : Lowering Unit := do
  let current ← slotAt slot
  match current.pinned with
  | some existing =>
    if existing.id = item.id then pure () else throw (.twoInstances current.name)
  | none => pure ()
  update slot fun slot => { slot with pinned := some item }
  narrow slot item.type

/-- The slot of an exact item, under the given name or else one of its own. -/
def pinned (item : Item) (name : Option String) : Lowering Nat := do
  let slot ←
    match name with
    | some name => named name (some item.kind)
    | none =>
      let key := "@" ++ item.text
      match (← get).indexOf? key with
      | some slot => pure slot
      | none => push (.fresh key (.ofKind item.kind) true)
  pin slot item
  return slot

/-- The slot of any item of a type, under the given name if there is one. -/
def typed (type : ItemType) (name : Option String) : Lowering Nat := do
  let slot ←
    match name with
    | some name => named name (some type.kind)
    | none => pushUnnamed type.kind
  narrow slot type
  return slot

/-- Adds an edge slot for an edge that the query implies but does not mention. -/
def companion : Lowering Nat :=
  typed (.root .edge) none

/-- Links a node slot with an edge slot, on which the node plays a role. -/
def link (node edge : Nat) (role : Role) : Lowering Unit := do
  match role with
  | .source =>
    update node fun slot => { slot with targets := slot.targets ++ [edge] }
    update edge fun slot => { slot with sources := slot.sources ++ [node] }
  | .target =>
    update node fun slot => { slot with sources := slot.sources ++ [edge] }
    update edge fun slot => { slot with targets := slot.targets ++ [node] }
  | .endpoint =>
    update node fun slot => { slot with ends := slot.ends ++ [edge] }
    update edge fun slot => { slot with ends := slot.ends ++ [node] }
    let edge ← slotAt edge
    if maxEdgeEnds < edge.ends.length then throw (.crowdedEdge edge.name)

/-- Links a node slot with a slot of known or still unknown kind; an unknown one becomes a node. -/
def connect (node other : Nat) (role : Role) : Lowering Unit := do
  if (← slotAt other).kind = .edge then link node other role
  else
    requireKind other .node
    let edge ← companion
    link node edge role
    link other edge role.opposite

/-- Relates a node slot to a name. -/
def relateToName (node : Nat) (name : String) (role : Role) : Lowering Unit := do
  let other ← named name none
  if (← slotAt other).kind = .unknown then
    modify fun draft => { draft with deferred := draft.deferred ++ [(node, other, role)] }
  else connect node other role

/-- The role that a node fragment's node plays on the connecting edge. -/
def nodeRole : Relation → Role
  | .leadsTo => .source
  | .comesFrom => .target
  | .joinedWith | .eitherEnd => .endpoint

/-- The role that a related node plays on an edge fragment's edge. -/
def edgeRole : Relation → Role
  | .leadsTo => .target
  | .comesFrom => .source
  | .joinedWith | .eitherEnd => .endpoint

/-- Opens the slot of a node fragment. -/
def nodeBase (base : Base NodeType Node) (name : Option String) : Lowering Nat :=
  match base with
  | .any type => typed (.node type) name
  | .exactly n => pinned (.node n) name

/-- Opens the slot of an edge fragment. -/
def edgeBase (base : Base EdgeType Edge) (name : Option String) : Lowering Nat :=
  match base with
  | .any type => typed (.edge type) name
  | .exactly e => pinned (.edge e) name

/-- Excludes several types from a slot. -/
def excludeAll (slot : Nat) : List ItemType → Lowering Unit
  | [] => pure ()
  | type :: rest => do
    exclude slot type
    excludeAll slot rest

/--
Relates a node slot, which plays the given role, to a pattern that `lower` lowers: directly to an
edge, and through a companion edge to a node.
-/
def relateNode (node : Nat) (role : Role) (item : Pattern)
    (lower : Option Kind → Lowering Nat) : Lowering Unit :=
  match item with
  | .reference name => relateToName node name role
  | item =>
    if item.isEdge then do
      let edge ← lower (some .edge)
      link node edge role
    else do
      let edge ← companion
      link node edge role
      let other ← lower (some .node)
      link other edge role.opposite

mutual

/-- Lowers a pattern where items of a kind, or of any kind, are expected, and gives its slot. -/
def pattern (expected : Option Kind) : Pattern → Lowering Nat
  | .nodeType type => do
    checkKind expected .node type.name
    typed (.node type) none
  | .edgeType type => do
    checkKind expected .edge type.name
    typed (.edge type) none
  | .node n => do
    checkKind expected .node "instance"
    pinned (.node n) none
  | .edge e => do
    checkKind expected .edge "instance"
    pinned (.edge e) none
  | .reference name => named name expected
  | .nodeFragment base name excluding relations => do
    checkKind expected .node "fragment"
    let slot ← nodeBase base name
    excludeAll slot (excluding.map .node)
    nodeRelations slot relations
    return slot
  | .edgeFragment base name excluding relations => do
    checkKind expected .edge "fragment"
    let slot ← edgeBase base name
    excludeAll slot (excluding.map .edge)
    edgeRelations slot relations
    return slot
termination_by structural item => item

/-- Lowers the relations of a node fragment. -/
def nodeRelations (node : Nat) : List (Relation × Pattern) → Lowering Unit
  | [] => pure ()
  | (relation, item) :: rest => do
    relateNode node (nodeRole relation) item fun expected => pattern expected item
    nodeRelations node rest
termination_by structural relations => relations

/-- Lowers the relations of an edge fragment. -/
def edgeRelations (edge : Nat) : List (Relation × Pattern) → Lowering Unit
  | [] => pure ()
  | (relation, item) :: rest => do
    let node ← pattern (some .node) item
    link node edge (edgeRole relation)
    edgeRelations edge rest
termination_by structural relations => relations

end

/-- Shows the item of a slot in a further place. -/
def showIn (slot : Nat) (position : Position) : Lowering Unit :=
  update slot fun slot => { slot with outputs := slot.outputs ++ [position] }

/-- Lowers the patterns of a query in order, each to one slot, which is shown in the pattern's place. -/
def patterns : List (Position × Pattern) → Lowering Unit
  | [] => pure ()
  | (position, item) :: rest => do
    let slot ← pattern none item
    showIn slot position
    patterns rest

/-- Lowers the relations that were put off. -/
def resolve : List (Nat × Nat × Role) → Lowering Unit
  | [] => pure ()
  | (node, other, role) :: rest => do
    connect node other role
    resolve rest

/-- Refuses slots whose kind nothing has told. -/
def checkSettled : Lowering Unit := do
  match (← get).slots.find? (·.kind == .unknown) with
  | some slot => throw (.untypedReference slot.name)
  | none => pure ()

/-- Lowers all patterns of a query. -/
def all (items : List (Position × Pattern)) : Lowering Unit := do
  patterns items
  resolve (← get).deferred
  checkSettled

end Lowering

end PatternGraph
