import PatternGraph.Proofs.Index.Refinement
import PatternGraph.Proofs.Query.Coverage
import PatternGraph.Query.Candidates

/-!
# What a step finds on a diagram

On an index that shows a diagram, a step that is ready finds exactly the members that its slot
accepts and that its connection allows, each once, and a check tells whether its condition holds.
A step never fails when the slots bound so far hold items that they accept, be they members or not.
-/

namespace PatternGraph

namespace Diagram

/-- Whether an item is a member of a diagram. -/
def Has (g : Diagram) : Item → Prop
  | .node n => g.nodes[n.id]? = some n
  | .edge e => ∃ w, g.wires[e.id]? = some w ∧ w.edge = e

/-- Whether a node plays a role on an edge of a diagram. -/
def PlaysRole (g : Diagram) (node : NodeId) (edge : EdgeId) (role : Role) : Prop :=
  ∃ w, g.wires[edge]? = some w ∧
    match role with
    | .source => w.ends.source = node
    | .target => w.ends.target = node
    | .endpoint => w.ends.source = node ∨ w.ends.target = node

/-- Whether an edge of a diagram joins two nodes, in either direction. -/
def Joins (g : Diagram) (edge : EdgeId) (a b : NodeId) : Prop :=
  ∃ w, g.wires[edge]? = some w ∧ (w.ends = ⟨a, b⟩ ∨ w.ends = ⟨b, a⟩)

theorem mem_nodeList (g : Diagram) (n : Node) : n ∈ g.nodeList ↔ g.Has (.node n) := by
  rw [nodeList, List.mem_map, Has]
  constructor
  · rintro ⟨⟨id, m⟩, hm, rfl⟩
    rw [Std.ExtTreeMap.mem_toList_iff_getElem?_eq_some] at hm
    obtain rfl := g.node_id id m hm
    exact hm
  · intro hn
    exact ⟨(n.id, n), Std.ExtTreeMap.mem_toList_iff_getElem?_eq_some.mpr hn, rfl⟩

theorem mem_edgeList (g : Diagram) (e : Edge) : e ∈ g.edgeList ↔ g.Has (.edge e) := by
  rw [edgeList, List.mem_map, Has]
  constructor
  · rintro ⟨⟨id, w⟩, hw, rfl⟩
    rw [Std.ExtTreeMap.mem_toList_iff_getElem?_eq_some] at hw
    obtain rfl := g.edge_id id w hw
    exact ⟨w, hw, rfl⟩
  · rintro ⟨w, hw, rfl⟩
    exact ⟨(w.edge.id, w), Std.ExtTreeMap.mem_toList_iff_getElem?_eq_some.mpr hw, rfl⟩

end Diagram

namespace Index.Represents

variable {index : Index} {g : Diagram}

theorem playsRole_iff (h : index.Represents g) (node : NodeId) (edge : EdgeId) (role : Role) :
    index.playsRole node edge role = true ↔ g.PlaysRole node edge role := by
  rw [Index.playsRole, h.ends, Diagram.PlaysRole]
  cases g.wires[edge]? <;> cases role <;> simp

theorem joins_iff (h : index.Represents g) (edge : EdgeId) (a b : NodeId) :
    index.joins edge a b = true ↔ g.Joins edge a b := by
  rw [Index.joins, h.ends, Diagram.Joins]
  cases g.wires[edge]? <;> simp

theorem mem_edgesOf (h : index.Represents g) (ids : Std.ExtTreeSet EdgeId) (e : Edge) :
    e ∈ index.edgesOf ids ↔ e.id ∈ ids ∧ g.Has (.edge e) := by
  simp only [Index.edgesOf, List.mem_filterMap, Std.ExtTreeSet.mem_toList, h.edges,
    Option.map_eq_some_iff]
  constructor
  · rintro ⟨id, hid, w, hw, rfl⟩
    have hedge := g.edge_id id w hw
    exact ⟨hedge ▸ hid, w, hedge ▸ hw, rfl⟩
  · rintro ⟨hid, w, hw, rfl⟩
    exact ⟨w.edge.id, hid, w, hw, rfl⟩

theorem nodup_edgesOf (h : index.Represents g) (ids : Std.ExtTreeSet EdgeId) :
    (index.edgesOf ids).Nodup := by
  apply List.Nodup.filterMap
  · intro i j e hi hj
    rw [Option.mem_def, h.edges, Option.map_eq_some_iff] at hi hj
    obtain ⟨v, hv, rfl⟩ := hi
    obtain ⟨w, hw, hsame⟩ := hj
    rw [← g.edge_id i v hv, ← g.edge_id j w hw, hsame]
  · exact ids.distinct_toList.imp fun hne => by simpa using hne

/-- The edges on which a node plays a role are listed once each. -/
theorem edgesInRole_spec (h : index.Represents g) (node : NodeId) (role : Role) :
    (index.edgesInRole node role).Nodup ∧ ∀ e, e ∈ index.edgesInRole node role ↔
      g.Has (.edge e) ∧ g.PlaysRole node e.id role := by
  cases role with
  | source =>
      refine ⟨h.nodup_edgesOf _, fun e => ?_⟩
      rw [Index.edgesInRole, h.mem_edgesOf, (h.mem_incidenceOf node e.id).1, and_comm]
      rfl
  | target =>
      refine ⟨h.nodup_edgesOf _, fun e => ?_⟩
      rw [Index.edgesInRole, h.mem_edgesOf, (h.mem_incidenceOf node e.id).2, and_comm]
      rfl
  | endpoint =>
      refine ⟨h.nodup_edgesOf _, fun e => ?_⟩
      rw [Index.edgesInRole, h.mem_edgesOf, h.mem_all_incidenceOf, and_comm]
      simp [Diagram.PlaysRole, Ends.touch]

/-- The nodes that play a role on an edge are listed once each, also those of a loop. -/
theorem nodesInRole_spec (h : index.Represents g) (edge : EdgeId) (role : Role) :
    (index.nodesInRole edge role).Nodup ∧ ∀ n, n ∈ index.nodesInRole edge role ↔
      g.Has (.node n) ∧ g.PlaysRole n.id edge role := by
  have hvalues : ∀ ids : List NodeId, ids.Nodup →
      (ids.filterMap fun id => index.nodes[id]?).Nodup ∧
        ∀ n, n ∈ ids.filterMap (fun id => index.nodes[id]?) ↔
          g.Has (.node n) ∧ n.id ∈ ids := by
    intro ids hids
    rw [h.nodes]
    constructor
    · apply List.Nodup.filterMap _ hids
      intro i j n hi hj
      rw [← g.node_id i n hi, ← g.node_id j n hj]
    · intro n
      rw [List.mem_filterMap]
      constructor
      · rintro ⟨id, hid, hn⟩
        obtain rfl := g.node_id id n hn
        exact ⟨hn, hid⟩
      · rintro ⟨hn, hid⟩
        exact ⟨n.id, hid, hn⟩
  rw [Index.nodesInRole, h.ends]
  cases hw : g.wires[edge]? with
  | none => simp [Diagram.PlaysRole, hw]
  | some w =>
      simp only [Option.map_some]
      cases role with
      | source =>
          obtain ⟨hnodup, hmem⟩ := hvalues [w.ends.source] (by simp)
          refine ⟨hnodup, fun n => ?_⟩
          rw [hmem n]
          simp [Diagram.PlaysRole, hw, eq_comm]
      | target =>
          obtain ⟨hnodup, hmem⟩ := hvalues [w.ends.target] (by simp)
          refine ⟨hnodup, fun n => ?_⟩
          rw [hmem n]
          simp [Diagram.PlaysRole, hw, eq_comm]
      | endpoint =>
          by_cases hloop : w.ends.source = w.ends.target
          · obtain ⟨hnodup, hmem⟩ := hvalues [w.ends.source] (by simp)
            simp only [hloop, if_true] at hnodup hmem ⊢
            refine ⟨hnodup, fun n => ?_⟩
            rw [hmem n]
            simp [Diagram.PlaysRole, hw, hloop, eq_comm]
          · obtain ⟨hnodup, hmem⟩ := hvalues [w.ends.source, w.ends.target] (by simpa using hloop)
            rw [if_neg hloop]
            refine ⟨hnodup, fun n => ?_⟩
            rw [hmem n]
            simp [Diagram.PlaysRole, hw, eq_comm]

end Index.Represents

theorem ItemType.mem_ancestors_of_isA {t u : ItemType} (h : t.isA u = true) :
    t.ancestors.contains u.id = true := by
  cases t <;> cases u <;> first | exact h | cases h

namespace Slot

variable {slot : Slot} {item : Item}

theorem accepts_iff (slot : Slot) (item : Item) :
    slot.accepts item = true ↔
      slot.kind.itemKind = some item.kind ∧ (∀ p, slot.pinned = some p → p.id = item.id) ∧
        slot.admits item.type = true := by
  rw [accepts, Bool.and_eq_true, Bool.and_eq_true, beq_iff_eq, and_assoc]
  cases slot.pinned <;> simp

theorem exists_node_of_accepts (hkind : slot.kind = .node) (h : slot.accepts item = true) :
    ∃ n, item = .node n := by
  obtain ⟨hsame, -⟩ := (slot.accepts_iff item).mp h
  rw [hkind] at hsame
  cases item with
  | node n => exact ⟨n, rfl⟩
  | edge e => cases hsame

theorem exists_edge_of_accepts (hkind : slot.kind = .edge) (h : slot.accepts item = true) :
    ∃ e, item = .edge e := by
  obtain ⟨hsame, -⟩ := (slot.accepts_iff item).mp h
  rw [hkind] at hsame
  cases item with
  | node n => cases hsame
  | edge e => exact ⟨e, rfl⟩

/-- An accepted item is filed under the type that is scanned. -/
theorem mem_ancestors_of_accepts
    {type : ItemType}
    (htype : slot.scanType = some type)
    (h : slot.accepts item = true) :
    item.type.ancestors.contains type.id = true := by
  obtain ⟨-, -, hadmits⟩ := (slot.accepts_iff item).mp h
  rw [admits, htype] at hadmits
  simp only [Option.any_some, Bool.and_eq_true] at hadmits
  exact ItemType.mem_ancestors_of_isA hadmits.1

end Slot

namespace Index.Represents

variable {index : Index} {g : Diagram} {slot : Slot} {type : ItemType}

/-- A scan of a node slot finds exactly the accepted nodes, each once. -/
theorem nodeCandidates_spec
    (h : index.Represents g)
    (hkind : slot.kind = .node)
    (htype : slot.scanType = some type) :
    ((slot.nodeCandidates index type).filter slot.accepts).Nodup ∧
      ∀ item, item ∈ (slot.nodeCandidates index type).filter slot.accepts ↔
        slot.accepts item = true ∧ g.Has item := by
  have hspec : (slot.nodeCandidates index type).Nodup ∧
      ∀ item, slot.accepts item = true →
        (item ∈ slot.nodeCandidates index type ↔ g.Has item) := by
    unfold Slot.nodeCandidates
    cases hpinned : slot.pinned with
    | none =>
        rw [h.nodesOfType_eq]
        constructor
        · refine List.Nodup.map (fun m n hmn => by simpa using hmn) (List.Nodup.filter _ ?_)
          exact g.ordered_nodeList.imp fun {m n} hlt heq => by simp [heq] at hlt
        · intro item hitem
          obtain ⟨n, rfl⟩ := Slot.exists_node_of_accepts hkind hitem
          have hfiled := Slot.mem_ancestors_of_accepts htype hitem
          simp only [List.mem_map, Item.node.injEq, exists_eq_right, List.mem_filter]
          rw [g.mem_nodeList]
          exact and_iff_left hfiled
    | some p =>
        cases p with
        | edge e =>
            refine ⟨List.nodup_nil, fun item hitem => ?_⟩
            obtain ⟨n, rfl⟩ := Slot.exists_node_of_accepts hkind hitem
            have hid := ((slot.accepts_iff _).mp hitem).2.1 _ hpinned
            cases hid
        | node p =>
            simp only
            constructor
            · generalize index.nodes[p.id]? = found
              cases found <;> simp
            · intro item hitem
              obtain ⟨n, rfl⟩ := Slot.exists_node_of_accepts hkind hitem
              have hid := ((slot.accepts_iff _).mp hitem).2.1 _ hpinned
              have hid : p.id = n.id := by simpa [Item.id] using hid
              rw [hid, h.nodes]
              simp [Diagram.Has, eq_comm]
  refine ⟨hspec.1.filter _, fun item => ?_⟩
  rw [List.mem_filter, and_comm]
  exact and_congr_right fun hitem => hspec.2 item hitem

/-- A scan of an edge slot finds exactly the accepted edges, each once. -/
theorem edgeCandidates_spec
    (h : index.Represents g)
    (hkind : slot.kind = .edge)
    (htype : slot.scanType = some type) :
    ((slot.edgeCandidates index type).filter slot.accepts).Nodup ∧
      ∀ item, item ∈ (slot.edgeCandidates index type).filter slot.accepts ↔
        slot.accepts item = true ∧ g.Has item := by
  have hspec : (slot.edgeCandidates index type).Nodup ∧
      ∀ item, slot.accepts item = true →
        (item ∈ slot.edgeCandidates index type ↔ g.Has item) := by
    unfold Slot.edgeCandidates
    cases hpinned : slot.pinned with
    | none =>
        rw [h.edgesOfType_eq]
        constructor
        · refine List.Nodup.map (fun m n hmn => by simpa using hmn) (List.Nodup.filter _ ?_)
          exact g.ordered_edgeList.imp fun {m n} hlt heq => by simp [heq] at hlt
        · intro item hitem
          obtain ⟨e, rfl⟩ := Slot.exists_edge_of_accepts hkind hitem
          have hfiled := Slot.mem_ancestors_of_accepts htype hitem
          simp only [List.mem_map, Item.edge.injEq, exists_eq_right, List.mem_filter]
          rw [g.mem_edgeList]
          exact and_iff_left hfiled
    | some p =>
        cases p with
        | node n =>
            refine ⟨List.nodup_nil, fun item hitem => ?_⟩
            obtain ⟨e, rfl⟩ := Slot.exists_edge_of_accepts hkind hitem
            have hid := ((slot.accepts_iff _).mp hitem).2.1 _ hpinned
            cases hid
        | edge p =>
            simp only
            constructor
            · generalize index.edges[p.id]? = found
              cases found <;> simp
            · intro item hitem
              obtain ⟨e, rfl⟩ := Slot.exists_edge_of_accepts hkind hitem
              have hid := ((slot.accepts_iff _).mp hitem).2.1 _ hpinned
              have hid : p.id = e.id := by simpa [Item.id] using hid
              rw [hid, h.edges]
              simp [Diagram.Has, eq_comm]
  refine ⟨hspec.1.filter _, fun item => ?_⟩
  rw [List.mem_filter, and_comm]
  exact and_congr_right fun hitem => hspec.2 item hitem

end Index.Represents

namespace Diagram

/-- Whether a row binds a connection to a node and an edge on which the node plays the role. -/
def Linked (g : Diagram) (row : Bindings) (c : Connection) : Prop :=
  ∃ n e, row[c.node]? = some (some (.node n)) ∧ row[c.edge]? = some (some (.edge e)) ∧
    g.PlaysRole n.id e.id c.role

/-- Whether a row binds three slots to an edge and the two nodes that it joins. -/
def Paired (g : Diagram) (row : Bindings) (edge a b : Nat) : Prop :=
  ∃ e m n, row[edge]? = some (some (.edge e)) ∧ row[a]? = some (some (.node m)) ∧
    row[b]? = some (some (.node n)) ∧ g.Joins e.id m.id n.id

end Diagram

/-- Whether a row meets the condition of a step. -/
def Step.Holds (g : Diagram) (row : Bindings) : Step → Prop
  | .scanNodes .. | .scanEdges .. => True
  | .traverse _ _ c | .check c => g.Linked row c
  | .checkPair edge a b => g.Paired row edge a b

/-- Whether a row binds exactly the given slots, each to an item that the slot accepts. -/
structure Slots.Suits (s : Slots) (bound : Set Nat) (row : Bindings) : Prop where
  size : row.size = s.size
  item : ∀ i ∈ bound, ∃ slot item, s.slots[i]? = some slot ∧ row[i]? = some (some item) ∧
    slot.accepts item = true
  free : ∀ i < s.size, i ∉ bound → row[i]? = some none

namespace Slots.Suits

variable {s : Slots} {bound : Set Nat} {row : Bindings} {i : Nat}

theorem node (hrow : s.Suits bound row) (hi : i ∈ bound) (hnode : s.IsNode i) :
    ∃ n, row[i]? = some (some (.node n)) ∧ s.boundNode row i = .ok n.id := by
  obtain ⟨slot, item, hslot, hitem, haccepts⟩ := hrow.item i hi
  obtain ⟨slot', hslot', hkind⟩ := hnode
  obtain rfl : slot = slot' := by simpa [hslot] using hslot'
  obtain ⟨n, rfl⟩ := Slot.exists_node_of_accepts hkind haccepts
  refine ⟨n, hitem, ?_⟩
  simp [Slots.boundNode, Slots.bound, hitem, Except.bind, bind, pure, Except.pure]

theorem edge (hrow : s.Suits bound row) (hi : i ∈ bound) (hedge : s.IsEdge i) :
    ∃ e, row[i]? = some (some (.edge e)) ∧ s.boundEdge row i = .ok e.id := by
  obtain ⟨slot, item, hslot, hitem, haccepts⟩ := hrow.item i hi
  obtain ⟨slot', hslot', hkind⟩ := hedge
  obtain rfl : slot = slot' := by simpa [hslot] using hslot'
  obtain ⟨e, rfl⟩ := Slot.exists_edge_of_accepts hkind haccepts
  refine ⟨e, hitem, ?_⟩
  simp [Slots.boundEdge, Slots.bound, hitem, Except.bind, bind, pure, Except.pure]

/-- Binding a free slot to an item that it accepts. -/
theorem set
    {x : Nat}
    {slot : Slot}
    {item : Item}
    (hrow : s.Suits bound row)
    (hslot : s.slots[x]? = some slot)
    (haccepts : slot.accepts item = true) :
    s.Suits (bound ∪ {x}) (row.setIfInBounds x (some item)) := by
  have hx : x < row.size := by
    rw [hrow.size]
    exact (Array.getElem?_eq_some_iff.mp hslot).1
  constructor
  · simpa using hrow.size
  · intro i hi
    by_cases hix : i = x
    · subst hix
      exact ⟨slot, item, hslot, by simp [hx], haccepts⟩
    · obtain ⟨slot', item', hslot', hitem', hrest⟩ := hrow.item i (hi.resolve_right hix)
      refine ⟨slot', item', hslot', ?_, hrest⟩
      rw [Array.getElem?_setIfInBounds_ne (Ne.symm hix)]
      exact hitem'
  · intro i hi hfree
    have hix : x ≠ i := by
      rintro rfl
      exact hfree (Or.inr rfl)
    rw [Array.getElem?_setIfInBounds_ne hix]
    exact hrow.free i hi fun h => hfree (Or.inl h)

end Slots.Suits

/-- Whether a row binds exactly the given slots, each to a member that the slot accepts. -/
structure Slots.Fills (s : Slots) (g : Diagram) (bound : Set Nat) (row : Bindings) : Prop where
  size : row.size = s.size
  item : ∀ i ∈ bound, ∃ slot item, s.slots[i]? = some slot ∧ row[i]? = some (some item) ∧
    slot.accepts item = true ∧ g.Has item
  free : ∀ i < s.size, i ∉ bound → row[i]? = some none

namespace Slots.Fills

variable {s : Slots} {g : Diagram} {bound : Set Nat} {row : Bindings} {i : Nat}

theorem suits (hrow : s.Fills g bound row) : s.Suits bound row := by
  refine ⟨hrow.size, fun i hi => ?_, hrow.free⟩
  obtain ⟨slot, item, hslot, hitem, haccepts, -⟩ := hrow.item i hi
  exact ⟨slot, item, hslot, hitem, haccepts⟩

theorem has
    {item : Item}
    (hrow : s.Fills g bound row)
    (hi : i ∈ bound)
    (hitem : row[i]? = some (some item)) :
    g.Has item := by
  obtain ⟨slot, item', -, hitem', -, hhas⟩ := hrow.item i hi
  rw [hitem, Option.some.injEq, Option.some.injEq] at hitem'
  exact hitem' ▸ hhas

/-- Binding a free slot to a member that it accepts. -/
theorem set
    {x : Nat}
    {slot : Slot}
    {item : Item}
    (hrow : s.Fills g bound row)
    (hslot : s.slots[x]? = some slot)
    (haccepts : slot.accepts item = true)
    (hhas : g.Has item) :
    s.Fills g (bound ∪ {x}) (row.setIfInBounds x (some item)) := by
  have hsuits := hrow.suits.set hslot haccepts
  refine ⟨hsuits.size, fun i hi => ?_, hsuits.free⟩
  obtain ⟨slot', item', hslot', hitem', haccepts'⟩ := hsuits.item i hi
  refine ⟨slot', item', hslot', hitem', haccepts', ?_⟩
  by_cases hix : i = x
  · rw [hix, Array.getElem?_setIfInBounds_self] at hitem'
    split at hitem'
    · obtain rfl : item = item' := by simpa using hitem'
      exact hhas
    · cases hitem'
  · rw [Array.getElem?_setIfInBounds_ne (Ne.symm hix)] at hitem'
    exact hrow.has (hi.resolve_right hix) hitem'

end Slots.Fills

namespace Step.Ready

variable {s : Slots} {index : Index} {g : Diagram} {bound : Set Nat} {row other : Bindings}
  {step : Step}

/-- The condition of a step is about slots that are bound before the step or by it. -/
theorem holds_congr
    (hready : step.Ready s bound)
    (hsame : ∀ i ∈ bound ∪ boundBy [step], other[i]? = row[i]?) :
    step.Holds g other ↔ step.Holds g row := by
  cases step with
  | scanNodes slot type => exact Iff.rfl
  | scanEdges slot type => exact Iff.rfl
  | traverse x y c =>
      have hx := hsame x (Or.inl hready.1)
      have hy := hsame y (Or.inr (by simp [binds]))
      simp only [Holds, Diagram.Linked]
      rcases hready.2.2.2.2 with ⟨rfl, rfl⟩ | ⟨rfl, rfl⟩
      · rw [hx, hy]
      · rw [hx, hy]
  | check c =>
      simp only [Holds, Diagram.Linked]
      rw [hsame _ (Or.inl hready.1), hsame _ (Or.inl hready.2.1)]
  | checkPair edge a b =>
      simp only [Holds, Diagram.Paired]
      rw [hsame _ (Or.inl hready.1), hsame _ (Or.inl hready.2.1), hsame _ (Or.inl hready.2.2.1)]

/-- A step that binds nothing tells whether its condition holds. -/
theorem expand_check
    (h : index.Represents g)
    (hrow : s.Suits bound row)
    (hready : step.Ready s bound)
    (hbinds : step.binds = none) :
    ∃ holds, step.expand s index row = .ok (.check holds) ∧
      (holds = true ↔ step.Holds g row) := by
  cases step with
  | scanNodes slot type => cases hbinds
  | scanEdges slot type => cases hbinds
  | traverse x y c => cases hbinds
  | check c =>
      obtain ⟨n, hn, hnode⟩ := hrow.node hready.1 hready.2.2.1
      obtain ⟨e, he, hedge⟩ := hrow.edge hready.2.1 hready.2.2.2
      refine ⟨index.playsRole n.id e.id c.role, ?_, ?_⟩
      · simp [expand, hnode, hedge, Except.bind, bind, pure, Except.pure]
      · rw [h.playsRole_iff]
        simp [Holds, Diagram.Linked, hn, he]
  | checkPair edge a b =>
      obtain ⟨hedgeIn, haIn, hbIn, hisEdge, haNode, hbNode⟩ := hready
      obtain ⟨e, he, hedge⟩ := hrow.edge hedgeIn hisEdge
      obtain ⟨m, hm, ha⟩ := hrow.node haIn haNode
      obtain ⟨n, hn, hb⟩ := hrow.node hbIn hbNode
      refine ⟨index.joins e.id m.id n.id, ?_, ?_⟩
      · simp [expand, hedge, ha, hb, Except.bind, bind, pure, Except.pure]
      · rw [h.joins_iff]
        simp [Holds, Diagram.Paired, he, hm, hn]

/--
A step that binds a slot finds, each once, the members that the slot accepts and with which the
condition of the step holds.
-/
theorem expand_bind
    {x : Nat}
    (h : index.Represents g)
    (hrow : s.Suits bound row)
    (hready : step.Ready s bound)
    (hbinds : step.binds = some x) :
    ∃ slot candidates, s.slots[x]? = some slot ∧ x ∉ bound ∧
      step.expand s index row = .ok (.bind x candidates) ∧ candidates.Nodup ∧
        ∀ item, item ∈ candidates ↔ slot.accepts item = true ∧ g.Has item ∧
          step.Holds g (row.setIfInBounds x (some item)) := by
  cases step with
  | check c => cases hbinds
  | checkPair edge a b => cases hbinds
  | scanNodes y type =>
      obtain rfl : y = x := Option.some.inj hbinds
      obtain ⟨hfree, slot, hslot, hkind, htype⟩ := hready
      obtain ⟨hnodup, hmem⟩ := h.nodeCandidates_spec hkind htype
      refine ⟨slot, _, hslot, hfree, ?_, hnodup, fun item => ?_⟩
      · simp [expand, Slots.slotAt, hslot, Except.bind, bind, pure, Except.pure]
      · simp [hmem item, Holds]
  | scanEdges y type =>
      obtain rfl : y = x := Option.some.inj hbinds
      obtain ⟨hfree, slot, hslot, hkind, htype⟩ := hready
      obtain ⟨hnodup, hmem⟩ := h.edgeCandidates_spec hkind htype
      refine ⟨slot, _, hslot, hfree, ?_, hnodup, fun item => ?_⟩
      · simp [expand, Slots.slotAt, hslot, Except.bind, bind, pure, Except.pure]
      · simp [hmem item, Holds]
  | traverse origin y c =>
      obtain rfl : y = x := Option.some.inj hbinds
      obtain ⟨horigin, hfree, hisNode, hisEdge, hends⟩ := hready
      have hne : origin ≠ y := fun h => hfree (h ▸ horigin)
      rcases hends with ⟨rfl, rfl⟩ | ⟨rfl, rfl⟩
      · obtain ⟨n, hn, hnode⟩ := hrow.node horigin hisNode
        obtain ⟨slot, hslot, hkind⟩ := hisEdge
        have hsize : c.edge < row.size := by
          rw [hrow.size]
          exact (Array.getElem?_eq_some_iff.mp hslot).1
        obtain ⟨hnodup, hmem⟩ := h.edgesInRole_spec n.id c.role
        refine ⟨slot, ((index.edgesInRole n.id c.role).map .edge).filter slot.accepts, hslot, hfree,
          ?_, ?_, fun item => ?_⟩
        · simp [expand, Slots.slotAt, hslot, hnode, Except.bind, bind, pure, Except.pure]
        · exact (hnodup.map fun d e hde => by simpa using hde).filter _
        · rw [List.mem_filter, and_comm]
          refine and_congr_right fun haccepts => ?_
          obtain ⟨e, rfl⟩ := Slot.exists_edge_of_accepts hkind haccepts
          simp [hmem, Holds, Diagram.Linked, hn, hsize, Array.getElem?_setIfInBounds_ne hne.symm]
      · obtain ⟨e, he, hedge⟩ := hrow.edge horigin hisEdge
        have hswap : c.edge ≠ c.node := hne
        obtain ⟨slot, hslot, hkind⟩ := hisNode
        have hsize : c.node < row.size := by
          rw [hrow.size]
          exact (Array.getElem?_eq_some_iff.mp hslot).1
        obtain ⟨hnodup, hmem⟩ := h.nodesInRole_spec e.id c.role
        refine ⟨slot, ((index.nodesInRole e.id c.role).map .node).filter slot.accepts, hslot, hfree,
          ?_, ?_, fun item => ?_⟩
        · simp [expand, Slots.slotAt, hslot, hedge, hswap, Except.bind, bind, pure, Except.pure]
        · exact (hnodup.map fun m n hmn => by simpa using hmn).filter _
        · rw [List.mem_filter, and_comm]
          refine and_congr_right fun haccepts => ?_
          obtain ⟨n, rfl⟩ := Slot.exists_node_of_accepts hkind haccepts
          simp [hmem, Holds, Diagram.Linked, he, hsize, Array.getElem?_setIfInBounds_ne hne.symm]

end Step.Ready

end PatternGraph
