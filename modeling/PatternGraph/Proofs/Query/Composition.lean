import PatternGraph.Query.Lowering

/-!
# What lowerings are composed of

A lowering is composed of a few basic steps, along the patterns of a query and what is inside them.  A
property that the basic steps have, and that a composition inherits from its parts, is one of every
lowering of a pattern and of every relation that is taken up in the end.  The induction on patterns is
made here, once for all such properties.
-/

namespace PatternGraph.Lowering

/-- Whether a property belongs to the basic steps of a lowering and to what is composed of steps that have it. -/
structure Compositional (P : ∀ {α : Type}, Lowering α → Prop) : Prop where
  pure : ∀ {α : Type} (a : α), P (pure a : Lowering α)
  bind : ∀ {α β : Type} {m : Lowering α} {f : α → Lowering β}, P m → (∀ a, P (f a)) → P (m >>= f)
  slotAt : ∀ i, P (slotAt i)
  checkKind : ∀ expected found what, P (checkKind expected found what)
  requireKind : ∀ i kind, P (requireKind i kind)
  exclude : ∀ i type, P (exclude i type)
  named : ∀ name kind, P (named name kind)
  typed : ∀ type name, P (typed type name)
  pinned : ∀ item name, P (pinned item name)
  link : ∀ node edge role, P (link node edge role)
  putOff : ∀ entry, P (modify fun draft => { draft with deferred := draft.deferred ++ [entry] })

namespace Compositional

variable {P : ∀ {α : Type}, Lowering α → Prop}

theorem excludeAll (h : Compositional P) (i : Nat) (types : List ItemType) :
    P (excludeAll i types) := by
  induction types with
  | nil => exact h.pure ()
  | cons type types ih => exact h.bind (h.exclude i type) fun _ => ih

theorem connect (h : Compositional P) (node other : Nat) (role : Role) :
    P (connect node other role) := by
  refine h.bind (h.slotAt other) fun slot => ?_
  split
  · exact h.link node other role
  · exact h.bind (h.requireKind other .node) fun _ => h.bind (h.typed _ none) fun edge =>
      h.bind (h.link node edge role) fun _ => h.link other edge role.opposite

theorem relateToName (h : Compositional P) (node : Nat) (name : String) (role : Role) :
    P (relateToName node name role) := by
  refine h.bind (h.named name none) fun other => h.bind (h.slotAt other) fun slot => ?_
  split
  · exact h.putOff (node, other, role)
  · exact h.connect node other role

theorem nodeBase (h : Compositional P) (base : Base NodeType Node) (name : Option String) :
    P (nodeBase base name) := by
  cases base with
  | any type => exact h.typed _ name
  | exactly n => exact h.pinned _ name

theorem edgeBase (h : Compositional P) (base : Base EdgeType Edge) (name : Option String) :
    P (edgeBase base name) := by
  cases base with
  | any type => exact h.typed _ name
  | exactly e => exact h.pinned _ name

/-- Relating a node to a pattern, however the pattern is lowered. -/
theorem relateNode
    {lower : Option Kind → Lowering Nat}
    (h : Compositional P)
    (node : Nat)
    (role : Role)
    (item : Pattern)
    (hlower : ∀ kind, P (lower kind)) :
    P (relateNode node role item lower) := by
  have hitem : P (if item.isEdge then do
        let edge ← lower (some .edge)
        Lowering.link node edge role
      else do
        let edge ← companion
        Lowering.link node edge role
        let other ← lower (some .node)
        Lowering.link other edge role.opposite) := by
    split
    · exact h.bind (hlower _) fun edge => h.link node edge role
    · exact h.bind (h.typed _ none) fun edge => h.bind (h.link node edge role) fun _ =>
        h.bind (hlower _) fun other => h.link other edge role.opposite
  cases item with
  | reference name => exact h.relateToName node name role
  | nodeType type => exact hitem
  | edgeType type => exact hitem
  | node n => exact hitem
  | edge e => exact hitem
  | nodeFragment base name excluding relations => exact hitem
  | edgeFragment base name excluding relations => exact hitem

mutual

theorem pattern (h : Compositional P) (expected : Option Kind) :
    (p : Pattern) → P (pattern expected p)
  | .nodeType type => by
      rw [Lowering.pattern]
      exact h.bind (h.checkKind _ _ _) fun _ => h.typed _ none
  | .edgeType type => by
      rw [Lowering.pattern]
      exact h.bind (h.checkKind _ _ _) fun _ => h.typed _ none
  | .node n => by
      rw [Lowering.pattern]
      exact h.bind (h.checkKind _ _ _) fun _ => h.pinned _ none
  | .edge e => by
      rw [Lowering.pattern]
      exact h.bind (h.checkKind _ _ _) fun _ => h.pinned _ none
  | .reference name => by
      rw [Lowering.pattern]
      exact h.named name expected
  | .nodeFragment base name excluding relations => by
      rw [Lowering.pattern]
      exact h.bind (h.checkKind _ _ _) fun _ => h.bind (h.nodeBase base name) fun i =>
        h.bind (h.excludeAll i _) fun _ => h.bind (h.nodeRelations i relations) fun _ => h.pure i
  | .edgeFragment base name excluding relations => by
      rw [Lowering.pattern]
      exact h.bind (h.checkKind _ _ _) fun _ => h.bind (h.edgeBase base name) fun i =>
        h.bind (h.excludeAll i _) fun _ => h.bind (h.edgeRelations i relations) fun _ => h.pure i

theorem nodeRelations (h : Compositional P) (node : Nat) :
    (relations : List (Relation × Pattern)) → P (nodeRelations node relations)
  | [] => by
      rw [Lowering.nodeRelations]
      exact h.pure ()
  | (relation, item) :: rest => by
      rw [Lowering.nodeRelations]
      exact h.bind (h.relateNode node _ item fun kind => h.pattern kind item) fun _ =>
        h.nodeRelations node rest

theorem edgeRelations (h : Compositional P) (edge : Nat) :
    (relations : List (Relation × Pattern)) → P (edgeRelations edge relations)
  | [] => by
      rw [Lowering.edgeRelations]
      exact h.pure ()
  | (relation, item) :: rest => by
      rw [Lowering.edgeRelations]
      exact h.bind (h.pattern (some .node) item) fun node =>
        h.bind (h.link node edge _) fun _ => h.edgeRelations edge rest

end

theorem resolve (h : Compositional P) (entries : List (Nat × Nat × Role)) : P (resolve entries) := by
  induction entries with
  | nil => exact h.pure ()
  | cons entry rest ih => exact h.bind (h.connect _ _ _) fun _ => ih

end Compositional

end PatternGraph.Lowering
