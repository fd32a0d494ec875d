import PatternGraph.Item

/-!
# Faults

Every way in which an operation can fail, by its cause.  `Fault.category` sorts the causes and
`Fault.message` words them.
-/

namespace PatternGraph

/-- The sorts of faults. -/
inductive Fault.Category where
  | referenceMismatch
  | structuralIntegrity
  | internalConsistency
  | notFound
  | invalidInput
deriving DecidableEq, Repr

/-- The cause of a failed operation. -/
inductive Fault where
  /-- A pattern of the wrong kind, described by `what`, stands where `expected` is required. -/
  | wrongKind (expected found : Kind) (what : String)
  /-- One name is bound to two instances. -/
  | twoInstances (name : String)
  /-- One name is used for a node and for an edge. -/
  | mixedKinds (name : String) (current required : Kind)
  /-- One name is given two types neither of which descends from the other. -/
  | unrelatedTypes (name existing added : String)
  /-- Nothing says whether a name stands for a node or an edge. -/
  | untypedReference (name : String)
  /-- A detached node that would be attached has an edge that lacks an end. -/
  | danglingEdge (edge : EdgeId) (node : NodeId)
  /-- An edge that would be attached lacks an end. -/
  | halfWired (edge : EdgeId)
  /-- An edge pattern has more than two ends in either role. -/
  | crowdedEdge (name : String)
  /-- An edge is indexed before one of its ends. -/
  | endsNotIndexed (edge : EdgeId) (source target : NodeId)
  /-- A search is through a component that its plan does not have. -/
  | componentMissing (component : Nat)
  /-- A plan names a slot that does not exist. -/
  | slotOutOfRange (slot : Nat)
  /-- A plan uses a slot before it is bound. -/
  | slotUnbound (name : String)
  /-- A plan uses a slot as a node although an edge is bound to it. -/
  | slotNotNode (name : String)
  /-- A plan uses a slot as an edge although a node is bound to it. -/
  | slotNotEdge (name : String)
  /-- A match leaves a slot of the output unbound. -/
  | outputUnbound (name : String)
  /-- A slot is shown at an index that the list of the output does not have. -/
  | outputOutOfRange (index : Nat)
  /-- No slot is shown in the one place of the output. -/
  | rootEmpty
  /-- No slot is shown at an index of the output. -/
  | indexEmpty (index : Nat)
  /-- No slot is shown under a key of the output. -/
  | keyEmpty (key : String)
  /-- An edge slot lists a name that no slot goes by. -/
  | unknownLink (edge linked : String)
  /-- An edge slot has an end whose name no slot goes by. -/
  | unknownEnd (name : String)
  /-- A component has no slot to start from. -/
  | emptyComponent
  /-- Nothing tells what to scan for the slot that a component starts from. -/
  | slotWithoutKind (name : String)
  /-- No connection leads from the slot that a component starts from to another of its slots. -/
  | slotUnreachable (slot origin : Nat)
  /-- The node is not in the graph. -/
  | noSuchNode (node : NodeId)
  /-- The edge is not in the graph. -/
  | noSuchEdge (edge : EdgeId)
  /-- An attached edge cannot be wired anew. -/
  | edgeAttached (edge : EdgeId)
  /-- A selector has both directed and undirected nodes. -/
  | selectorMixed
  /-- A selector names no node. -/
  | selectorEmpty
  /-- A selector has more than two undirected nodes. -/
  | selectorCrowded
  /-- A name is blank. -/
  | blankName
  /-- A name starts with a character kept for synthesized names. -/
  | reservedName (name : String)
deriving DecidableEq, Repr, Inhabited

namespace Fault

/-- The sort of a fault. -/
def category : Fault → Category
  | .wrongKind .. | .twoInstances .. | .mixedKinds .. | .unrelatedTypes ..
  | .untypedReference .. => .referenceMismatch
  | .danglingEdge .. | .halfWired .. | .crowdedEdge .. => .structuralIntegrity
  | .endsNotIndexed .. | .componentMissing .. | .slotOutOfRange .. | .slotUnbound ..
  | .slotNotNode .. | .slotNotEdge .. | .outputUnbound .. | .outputOutOfRange .. | .rootEmpty
  | .indexEmpty .. | .keyEmpty .. | .unknownLink .. | .unknownEnd .. | .emptyComponent
  | .slotWithoutKind .. | .slotUnreachable .. => .internalConsistency
  | .noSuchNode .. | .noSuchEdge .. => .notFound
  | .edgeAttached .. | .selectorMixed | .selectorEmpty | .selectorCrowded | .blankName
  | .reservedName .. => .invalidInput

/-- The words that open the message of a sort of faults. -/
def Category.heading : Category → String
  | .referenceMismatch => "reference mismatch: "
  | .structuralIntegrity => "structural integrity violation: "
  | .internalConsistency => "internal consistency violation: "
  | .notFound => "not found: "
  | .invalidInput => "invalid input: "

/-- A name between marks. -/
def quote (name : String) : String :=
  "\x60" ++ name ++ "\x60"

/-- The cause of a fault in words. -/
def detail : Fault → String
  | .wrongKind expected found what =>
    "expected " ++ expected.name ++ " item, found " ++ found.word ++ " " ++ what
  | .twoInstances name => quote name ++ " bound to two different instances"
  | .mixedKinds name current required =>
    quote name ++ " used both as " ++ current.name ++ " and as " ++ required.name
  | .unrelatedTypes name existing added =>
    quote name ++ " constrained to unrelated types " ++ existing ++ " and " ++ added
  | .untypedReference name => "reference " ++ quote name ++ " is never used as a node or an edge"
  | .danglingEdge edge node =>
    "edge " ++ edge.text ++ " incident to node " ++ node.text ++ " is missing an endpoint"
  | .halfWired edge => "edge " ++ edge.text ++ " is missing an endpoint"
  | .crowdedEdge name => "edge " ++ quote name ++ " has more than 2 from_or_to endpoints"
  | .endsNotIndexed edge source target =>
    "edge " ++ edge.text ++ " endpoints " ++ source.text ++ "/" ++ target.text ++
      " are not indexed"
  | .componentMissing component => "component " ++ toString component ++ " missing"
  | .slotOutOfRange slot => "slot " ++ toString slot ++ " out of range"
  | .slotUnbound name => "slot " ++ quote name ++ " used before it was bound"
  | .slotNotNode name => "slot " ++ quote name ++ " expected a node binding"
  | .slotNotEdge name => "slot " ++ quote name ++ " expected an edge binding"
  | .outputUnbound name => "output slot " ++ quote name ++ " left unbound"
  | .outputOutOfRange index => "output index " ++ toString index ++ " out of range"
  | .rootEmpty => "root output position left empty"
  | .indexEmpty index => "output index " ++ toString index ++ " left empty"
  | .keyEmpty key => "output key " ++ quote key ++ " left empty"
  | .unknownLink edge linked => "edge slot " ++ quote edge ++ " links unknown " ++ quote linked
  | .unknownEnd name => "unknown endpoint " ++ quote name
  | .emptyComponent => "empty query component"
  | .slotWithoutKind name => "slot " ++ quote name ++ " has no kind"
  | .slotUnreachable slot origin =>
    "slot " ++ toString slot ++ " unreachable from component origin " ++ toString origin
  | .noSuchNode node => "node " ++ node.text
  | .noSuchEdge edge => "edge " ++ edge.text
  | .edgeAttached edge => "edge " ++ edge.text ++ " is attached; rewire it through its graph"
  | .selectorMixed => "edge selector mixes from/to with from_or_to"
  | .selectorEmpty => "edge selector names no node"
  | .selectorCrowded => "edge selector accepts at most two from_or_to nodes"
  | .blankName => "reference name must be set"
  | .reservedName name => "reference name " ++ quote name ++ " uses a reserved prefix"

/-- The full message of a fault. -/
def message (fault : Fault) : String :=
  fault.category.heading ++ fault.detail

end Fault

end PatternGraph
