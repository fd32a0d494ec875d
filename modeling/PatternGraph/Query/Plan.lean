import PatternGraph.DisjointSet
import PatternGraph.Fault
import PatternGraph.Query.Slots

/-!
# Plans

The links between slots fall into connected components, and a `Plan` has one list of steps for each.
The first step of a component scans the candidates of its first slot.  The others follow the links
breadth first: a link to an unbound slot binds it, and a link between bound slots is checked.  At
the end, each edge slot with two ends in either role is checked to join exactly those two.

Planning fails when a linked slot is not found under its name, or when a component has a slot that
its first slot does not lead to.
-/

namespace PatternGraph

/-- A node slot that plays a role on an edge slot. -/
structure Connection where
  node : Nat
  edge : Nat
  role : Role
deriving DecidableEq, Repr, Inhabited

namespace Connection

/-- Whether a slot is one of the two linked ones. -/
def involves (c : Connection) (slot : Nat) : Bool :=
  c.node == slot || c.edge == slot

/-- The slot linked with the given one. -/
def other (c : Connection) (slot : Nat) : Nat :=
  if c.node = slot then c.edge else c.node

end Connection

/-- A step of a plan. -/
inductive Step where
  /-- Binds a slot to each node of a type in turn. -/
  | scanNodes (slot : Nat) (type : ItemType)
  /-- Binds a slot to each edge of a type in turn. -/
  | scanEdges (slot : Nat) (type : ItemType)
  /-- Binds `target` to each item that the connection joins with the bound slot `origin`. -/
  | traverse (origin target : Nat) (via : Connection)
  /-- Checks a connection between two bound slots. -/
  | check (c : Connection)
  /-- Checks that a bound edge joins two bound nodes, in either direction. -/
  | checkPair (edge a b : Nat)
deriving DecidableEq, Repr, Inhabited

/-- The slot that a step binds. -/
def Step.binds : Step → Option Nat
  | .scanNodes slot _ | .scanEdges slot _ => some slot
  | .traverse _ target _ => some target
  | .check _ | .checkPair .. => none

/-- The slots of one component in ascending order, and the steps that bind them. -/
structure Component where
  slots : List Nat
  steps : List Step
deriving DecidableEq, Repr

/-- The components of a plan. -/
structure Plan where
  components : List Component
deriving DecidableEq, Repr

namespace Plan

/-- Whether a plan has no components. -/
def isEmpty (plan : Plan) : Bool :=
  plan.components.isEmpty

/-- The number of steps in all components. -/
def stepCount (plan : Plan) : Nat :=
  plan.components.foldl (fun n c => n + c.steps.length) 0

end Plan

namespace Slots

/-- The connections that an edge slot lists, by role. -/
def connectionsOf (edge : Nat) (slot : Slot) : List Connection :=
  if slot.kind = .edge then
    slot.sources.map (⟨·, edge, .source⟩) ++ slot.targets.map (⟨·, edge, .target⟩) ++
      slot.ends.map (⟨·, edge, .endpoint⟩)
  else []

/-- Drops later repetitions. -/
def firsts (connections : List Connection) : List Connection :=
  connections.foldl (fun seen c => if seen.contains c then seen else seen ++ [c]) []

/-- The distinct connections of a query, in the order of its edge slots. -/
def connections (s : Slots) : List Connection :=
  firsts (s.slots.toList.zipIdx.flatMap fun (slot, edge) => connectionsOf edge slot)

/-- The step that scans the candidates of a slot. -/
def scan? (s : Slots) (slot : Nat) : Option Step := do
  let found ← s.slots[slot]?
  let type ← found.scanType
  return if found.kind = .node then .scanNodes slot type else .scanEdges slot type

/-- The steps that check edge slots with two ends in either role. -/
def pairChecks (s : Slots) (members : List Nat) : List Step :=
  members.filterMap fun edge => do
    let slot ← s.slots[edge]?
    guard (slot.kind = .edge)
    match slot.ends with
    | [a, b] => some (.checkPair edge a b)
    | _ => none

end Slots

/-- A breadth-first walk in progress. -/
structure Walk where
  /-- The slots bound so far. -/
  bound : List Nat
  /-- The bound slots whose connections are still to be followed. -/
  queue : List Nat
  /-- The connections not yet followed. -/
  pending : List Connection
  /-- The steps so far, the latest first. -/
  steps : List Step
deriving Repr

namespace Walk

/-- Follows the connections of a bound slot; the list holds those not yet looked at. -/
def follow (current : Nat) : List Connection → Walk → Walk
  | [], walk => walk
  | c :: rest, walk =>
    if c.involves current then
      let other := c.other current
      if walk.bound.contains other then
        follow current rest { walk with steps := .check c :: walk.steps }
      else
        follow current rest
          { walk with
            bound := other :: walk.bound
            queue := walk.queue ++ [other]
            steps := .traverse current other c :: walk.steps }
    else follow current rest { walk with pending := walk.pending ++ [c] }

/-- Follows the connections of the queued slots; every slot of a component is queued once. -/
def run : Nat → Walk → Walk
  | 0, walk => walk
  | fuel + 1, walk =>
    match walk.queue with
    | [] => walk
    | current :: queue =>
      run fuel (follow current walk.pending { walk with queue := queue, pending := [] })

end Walk

namespace Plan

/-- The plan of the component with the given slots. -/
def component (s : Slots) (connections : List Connection) (members : List Nat) : Component :=
  let origin := members.headD 0
  let pending := connections.filter fun c => members.contains c.node
  let walk := Walk.run members.length ⟨[origin], [origin], pending, []⟩
  ⟨members, (s.scan? origin).toList ++ walk.steps.reverse ++ s.pairChecks members⟩

/-- The plan of a query. -/
def ofSlots (s : Slots) : Plan :=
  let connections := s.connections
  let sets := connections.foldl (fun sets c => (sets.union c.node c.edge).2)
    (DisjointSet.singletons s.size)
  ⟨sets.groups.1.map (component s connections)⟩

end Plan

namespace Slots

/-- Whether a slot is the one that is found under its name. -/
def isFound (s : Slots) (slot : Nat) : Bool :=
  s.indexOf? (s.nameOf slot) == some slot

/-- What is wrong with the slots that an edge slot lists. -/
def linkFault? (s : Slots) (edge : Slot) : Option Fault :=
  if edge.kind = .edge then
    ((edge.sources ++ edge.targets ++ edge.ends).find? fun linked => !s.isFound linked).map
      fun linked => .unknownLink edge.name (s.nameOf linked)
  else none

/-- What is wrong with the pair of ends of an edge slot that is to be checked. -/
def pairFault? (s : Slots) (edge : Nat) : Option Fault := do
  let slot ← s.slots[edge]?
  guard (slot.kind = .edge ∧ slot.ends.length = 2)
  let missing ← slot.ends.find? fun linked => !s.isFound linked
  return .unknownEnd (s.nameOf missing)

end Slots

namespace Component

/-- Whether a step of a component binds a slot. -/
def reaches (c : Component) (slot : Nat) : Bool :=
  c.steps.any (·.binds == some slot)

/-- What keeps a component from being planned. -/
def fault? (s : Slots) (c : Component) : Option Fault :=
  match c.slots with
  | [] => some .emptyComponent
  | origin :: _ =>
    match s.slots[origin]? with
    | none => some (.slotOutOfRange origin)
    | some found =>
      if found.scanType.isNone then some (.slotWithoutKind found.name)
      else
        match c.slots.find? fun slot => !c.reaches slot with
        | some slot => some (.slotUnreachable slot origin)
        | none => c.slots.findSome? s.pairFault?

end Component

namespace Plan

/-- What keeps a query from being planned: its links are looked up before its components. -/
def fault? (s : Slots) (plan : Plan) : Option Fault :=
  (s.slots.toList.findSome? s.linkFault?).or (plan.components.findSome? (Component.fault? s))

/-- The plan of a query, unless something keeps the query from being planned. -/
def make (s : Slots) : Except Fault Plan :=
  match (ofSlots s).fault? s with
  | some fault => .error fault
  | none => .ok (ofSlots s)

end Plan

end PatternGraph
