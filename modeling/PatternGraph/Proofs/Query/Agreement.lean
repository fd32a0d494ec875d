import PatternGraph.Proofs.Query.Answers

/-!
# Rows depend on relevant items only

Two diagrams agree on some items when they have the same of these items, the edges with the same
ends.  A query whose relevant items two graphs agree on has the same rows on both, in the same order:
every step of its plan finds the same candidates, because a candidate has to be accepted by a slot
and is then relevant.
-/

namespace PatternGraph

/-- Whether two diagrams have the same of the items with a property. -/
structure Diagram.AgreeOn (P : Item → Prop) (g g' : Diagram) : Prop where
  nodes : ∀ (id : NodeId) (n : Node), P (.node n) → (g.nodes[id]? = some n ↔ g'.nodes[id]? = some n)
  wires : ∀ (id : EdgeId) (w : Wire), P (.edge w.edge) →
    (g.wires[id]? = some w ↔ g'.wires[id]? = some w)

theorem filter_option_congr
    {α : Type}
    {a b : Option α}
    {q : α → Bool}
    (h : ∀ v, q v = true → (a = some v ↔ b = some v)) :
    a.filter q = b.filter q := by
  apply Option.ext
  intro v
  rw [Option.filter_eq_some_iff, Option.filter_eq_some_iff]
  constructor
  · rintro ⟨ha, hv⟩
    exact ⟨(h v hv).mp ha, hv⟩
  · rintro ⟨hb, hv⟩
    exact ⟨(h v hv).mpr hb, hv⟩

/-- Entries that two maps have in common are listed in the same order. -/
theorem filter_toList_congr
    {subject : Subject}
    {β : Type}
    {m m' : Std.ExtTreeMap (Ident subject) β}
    {q : β → Bool}
    (h : ∀ (k : Ident subject) (v : β), q v = true → (m[k]? = some v ↔ m'[k]? = some v)) :
    m.toList.filter (fun entry => q entry.2) = m'.toList.filter fun entry => q entry.2 := by
  have hordered : ∀ m : Std.ExtTreeMap (Ident subject) β,
      (m.toList.filter fun entry => q entry.2).Pairwise fun a b => compare a.1 b.1 = .lt :=
    fun m => m.ordered_keys_toList.sublist List.filter_sublist
  have hnodup : ∀ m : Std.ExtTreeMap (Ident subject) β,
      (m.toList.filter fun entry => q entry.2).Nodup := by
    intro m
    refine (hordered m).imp ?_
    rintro a b hab rfl
    simp at hab
  refine List.Perm.eq_of_pairwise ?_ (hordered m) (hordered m')
    ((List.perm_ext_iff_of_nodup (hnodup m) (hnodup m')).mpr ?_)
  · intro a b _ _ hab hba
    exact absurd hba (Std.OrientedCmp.not_lt_of_lt hab)
  · rintro ⟨k, v⟩
    rw [List.mem_filter, List.mem_filter, Std.ExtTreeMap.mem_toList_iff_getElem?_eq_some,
      Std.ExtTreeMap.mem_toList_iff_getElem?_eq_some]
    exact and_congr_left fun hv => h k v hv

namespace Diagram.AgreeOn

variable {P Q : Item → Prop} {g g' g'' : Diagram}

theorem refl (g : Diagram) : AgreeOn P g g :=
  ⟨fun _ _ _ => Iff.rfl, fun _ _ _ => Iff.rfl⟩

theorem trans (h : AgreeOn P g g') (h' : AgreeOn P g' g'') : AgreeOn P g g'' :=
  ⟨fun id n hn => (h.nodes id n hn).trans (h'.nodes id n hn),
    fun id w hw => (h.wires id w hw).trans (h'.wires id w hw)⟩

theorem mono (h : AgreeOn Q g g') (hpq : ∀ item, P item → Q item) : AgreeOn P g g' :=
  ⟨fun id n hn => h.nodes id n (hpq _ hn), fun id w hw => h.wires id w (hpq _ hw)⟩

theorem nodeList_eq {q : Node → Bool} (h : AgreeOn P g g') (hq : ∀ n, q n = true → P (.node n)) :
    g.nodeList.filter q = g'.nodeList.filter q := by
  rw [nodeList, nodeList, List.filter_map, List.filter_map]
  exact congrArg _ (filter_toList_congr fun id n hn => h.nodes id n (hq n hn))

theorem wires_eq {q : Wire → Bool} (h : AgreeOn P g g') (hq : ∀ w, q w = true → P (.edge w.edge)) :
    g.wires.toList.filter (fun entry => q entry.2) = g'.wires.toList.filter fun entry => q entry.2 :=
  filter_toList_congr fun id w hw => h.wires id w (hq w hw)

end Diagram.AgreeOn

/-- What a slot accepts is relevant to the query. -/
theorem Slots.isRelevant_of_accepts
    {s : Slots}
    {i : Nat}
    {slot : Slot}
    {item : Item}
    (hslot : s.slots[i]? = some slot)
    (haccepts : slot.accepts item = true) :
    s.isRelevant item = true := by
  obtain ⟨hkind, -, hadmits⟩ := (slot.accepts_iff item).mp haccepts
  rw [isRelevant, Array.any_eq_true']
  exact ⟨slot, Array.mem_of_getElem? hslot, by simp [hkind, hadmits]⟩

namespace Index.Represents

variable {index index' : Index} {g g' : Diagram} {P : Item → Prop} {slot : Slot}

/-- The edges on which a node plays a role, as wires of the diagram. -/
theorem edgesInRole_eq (h : index.Represents g) (node : NodeId) (role : Role) :
    index.edgesInRole node role = (g.wires.toList.filter fun entry =>
      match role with
      | .source => entry.2.ends.source == node
      | .target => entry.2.ends.target == node
      | .endpoint => entry.2.ends.touch node).map fun entry => entry.2.edge := by
  have hlist : ∀ (ids : Std.ExtTreeSet EdgeId) (p : Wire → Bool),
      (∀ e, e ∈ ids ↔ ∃ w, g.wires[e]? = some w ∧ p w = true) →
      index.edgesOf ids = (g.wires.toList.filter fun entry => p entry.2).map
        fun entry => entry.2.edge := by
    intro ids p hids
    rw [← filterMap_wires_eq g ids p hids, Index.edgesOf]
    simp only [h.edges]
  cases role with
  | source =>
      exact hlist _ (fun w => w.ends.source == node) fun e => by
        simpa using (h.mem_incidenceOf node e).1
  | target =>
      exact hlist _ (fun w => w.ends.target == node) fun e => by
        simpa using (h.mem_incidenceOf node e).2
  | endpoint => exact hlist _ (fun w => w.ends.touch node) (h.mem_all_incidenceOf node)

/-- Scanning for nodes that a slot accepts depends on these nodes only. -/
theorem nodeCandidates_congr
    (h : index.Represents g)
    (h' : index'.Represents g')
    (hagree : g.AgreeOn P g')
    (haccepts : ∀ item, slot.accepts item = true → P item)
    (type : ItemType) :
    (slot.nodeCandidates index type).filter slot.accepts =
      (slot.nodeCandidates index' type).filter slot.accepts := by
  unfold Slot.nodeCandidates
  cases slot.pinned with
  | none =>
      rw [h.nodesOfType_eq, h'.nodesOfType_eq, List.filter_map, List.filter_map, List.filter_filter,
        List.filter_filter]
      congr 1
      apply hagree.nodeList_eq
      intro n hn
      rw [Bool.and_eq_true] at hn
      exact haccepts _ hn.1
  | some p =>
      cases p with
      | edge e => rfl
      | node n =>
          simp only
          have hsame : (g.nodes[n.id]?).filter (slot.accepts ∘ .node) =
              (g'.nodes[n.id]?).filter (slot.accepts ∘ .node) :=
            filter_option_congr fun m hm => hagree.nodes n.id m (haccepts _ hm)
          rw [h.nodes, h'.nodes, List.filter_map, List.filter_map, ← Option.toList_filter,
            ← Option.toList_filter, hsame]

/-- Scanning for edges that a slot accepts depends on these edges only. -/
theorem edgeCandidates_congr
    (h : index.Represents g)
    (h' : index'.Represents g')
    (hagree : g.AgreeOn P g')
    (haccepts : ∀ item, slot.accepts item = true → P item)
    (type : ItemType) :
    (slot.edgeCandidates index type).filter slot.accepts =
      (slot.edgeCandidates index' type).filter slot.accepts := by
  unfold Slot.edgeCandidates
  cases slot.pinned with
  | none =>
      rw [h.edgesOfType_eq, h'.edgesOfType_eq, Diagram.edgeList, Diagram.edgeList]
      simp only [List.filter_map, List.filter_filter, List.map_map]
      congr 1
      refine hagree.wires_eq (q := fun w => slot.accepts (.edge w.edge) &&
        w.edge.type.ancestors.contains type.id) fun w hw => ?_
      rw [Bool.and_eq_true] at hw
      exact haccepts _ hw.1
  | some p =>
      cases p with
      | node n => rfl
      | edge e =>
          simp only
          have hsame : (g.wires[e.id]?).filter (slot.accepts ∘ .edge ∘ Wire.edge) =
              (g'.wires[e.id]?).filter (slot.accepts ∘ .edge ∘ Wire.edge) :=
            filter_option_congr fun w hw => hagree.wires e.id w (haccepts _ hw)
          rw [h.edges, h'.edges, List.filter_map, List.filter_map, ← Option.toList_filter,
            ← Option.toList_filter, Option.filter_map, Option.filter_map, Function.comp_assoc, hsame]

/-- The accepted edges at a node depend on these edges and their ends only. -/
theorem edgesInRole_congr
    (h : index.Represents g)
    (h' : index'.Represents g')
    (hagree : g.AgreeOn P g')
    (haccepts : ∀ item, slot.accepts item = true → P item)
    (node : NodeId)
    (role : Role) :
    ((index.edgesInRole node role).map .edge).filter slot.accepts =
      ((index'.edgesInRole node role).map .edge).filter slot.accepts := by
  let plays (w : Wire) : Bool :=
    match role with
    | .source => w.ends.source == node
    | .target => w.ends.target == node
    | .endpoint => w.ends.touch node
  rw [h.edgesInRole_eq, h'.edgesInRole_eq]
  simp only [List.filter_map, List.filter_filter, List.map_map]
  congr 1
  refine hagree.wires_eq (q := fun w => slot.accepts (.edge w.edge) && plays w) fun w hw => ?_
  rw [Bool.and_eq_true] at hw
  exact haccepts _ hw.1

/-- The accepted ends of an edge depend on these nodes only. -/
theorem nodesInRole_congr
    {edge : EdgeId}
    (h : index.Represents g)
    (h' : index'.Represents g')
    (hagree : g.AgreeOn P g')
    (haccepts : ∀ item, slot.accepts item = true → P item)
    (hends : index.ends[edge]? = index'.ends[edge]?)
    (role : Role) :
    ((index.nodesInRole edge role).map .node).filter slot.accepts =
      ((index'.nodesInRole edge role).map .node).filter slot.accepts := by
  have hids : ∀ ids : List NodeId,
      ((ids.filterMap fun id => index.nodes[id]?).map .node).filter slot.accepts =
        ((ids.filterMap fun id => index'.nodes[id]?).map .node).filter slot.accepts := by
    intro ids
    rw [List.filter_map, List.filter_map, List.filter_filterMap, List.filter_filterMap, h.nodes,
      h'.nodes]
    congr 2
    funext id
    exact filter_option_congr fun n hn => hagree.nodes id n (haccepts _ hn)
  rw [Index.nodesInRole, Index.nodesInRole, hends]
  cases index'.ends[edge]? with
  | none => rfl
  | some ends => exact hids _

end Index.Represents

namespace Step.Ready

variable {s : Slots} {index index' : Index} {g g' : Diagram} {bound : Set Nat} {row : Bindings}
  {step : Step}

/-- An edge that is bound to a slot has the same ends in both diagrams. -/
theorem ends_eq
    {i : Nat}
    (h : index.Represents g)
    (h' : index'.Represents g')
    (hagree : g.AgreeOn (fun item => s.isRelevant item = true) g')
    (hrow : s.Fills g bound row)
    (hi : i ∈ bound)
    (hedge : s.IsEdge i) :
    ∃ e, s.boundEdge row i = .ok e ∧ index.ends[e]? = index'.ends[e]? := by
  obtain ⟨e, he, hbound⟩ := hrow.suits.edge hi hedge
  refine ⟨e.id, hbound, ?_⟩
  obtain ⟨slot, item, hslot, hitem, haccepts, hhas⟩ := hrow.item i hi
  obtain rfl : item = .edge e := by simpa [he] using hitem.symm
  obtain ⟨w, hw, rfl⟩ := hhas
  have hw' := (hagree.wires _ w (Slots.isRelevant_of_accepts hslot haccepts)).mp hw
  rw [h.ends, h'.ends, hw, hw']

/-- A step finds the same in graphs that agree on what is relevant to the query. -/
theorem expand_congr
    (h : index.Represents g)
    (h' : index'.Represents g')
    (hagree : g.AgreeOn (fun item => s.isRelevant item = true) g')
    (hrow : s.Fills g bound row)
    (hready : step.Ready s bound) :
    step.expand s index row = step.expand s index' row := by
  cases step with
  | scanNodes x type =>
      obtain ⟨-, slot, hslot, -, -⟩ := hready
      have hsame := h.nodeCandidates_congr h' hagree
        (fun item => Slots.isRelevant_of_accepts hslot) type
      simp [expand, Slots.slotAt, hslot, hsame, Except.bind, bind]
  | scanEdges x type =>
      obtain ⟨-, slot, hslot, -, -⟩ := hready
      have hsame := h.edgeCandidates_congr h' hagree
        (fun item => Slots.isRelevant_of_accepts hslot) type
      simp [expand, Slots.slotAt, hslot, hsame, Except.bind, bind]
  | traverse origin x c =>
      obtain ⟨horigin, hfree, hisNode, hisEdge, hends⟩ := hready
      have hne : origin ≠ x := fun heq => hfree (heq ▸ horigin)
      rcases hends with ⟨rfl, rfl⟩ | ⟨rfl, rfl⟩
      · obtain ⟨n, -, hnode⟩ := hrow.suits.node horigin hisNode
        obtain ⟨slot, hslot, -⟩ := hisEdge
        have hsame := h.edgesInRole_congr h' hagree
          (fun item => Slots.isRelevant_of_accepts hslot) n.id c.role
        simp [expand, Slots.slotAt, hslot, hnode, hsame, Except.bind, bind]
      · obtain ⟨e, hedge, hends⟩ := ends_eq h h' hagree hrow horigin hisEdge
        obtain ⟨slot, hslot, -⟩ := hisNode
        have hsame := h.nodesInRole_congr h' hagree
          (fun item => Slots.isRelevant_of_accepts hslot) hends c.role
        simp [expand, Slots.slotAt, hslot, hedge, hne, hsame, Except.bind, bind]
  | check c =>
      obtain ⟨n, -, hnode⟩ := hrow.suits.node hready.1 hready.2.2.1
      obtain ⟨e, hedge, hends⟩ := ends_eq h h' hagree hrow hready.2.1 hready.2.2.2
      simp [expand, hnode, hedge, Index.playsRole, hends, Except.bind, bind]
  | checkPair edge a b =>
      obtain ⟨hedgeIn, haIn, hbIn, hisEdge, haNode, hbNode⟩ := hready
      obtain ⟨e, hedge, hends⟩ := ends_eq h h' hagree hrow hedgeIn hisEdge
      obtain ⟨m, -, ha⟩ := hrow.suits.node haIn haNode
      obtain ⟨n, -, hb⟩ := hrow.suits.node hbIn hbNode
      simp [expand, hedge, ha, hb, Index.joins, hends, Except.bind, bind]

end Step.Ready

theorem Matches.inTurn_congr
    {α : Type}
    {below below' : α → Matches}
    {values : List α}
    (h : ∀ a ∈ values, below a = below' a) :
    inTurn below values = inTurn below' values := by
  induction values with
  | nil => rfl
  | cons a values ih =>
      rw [inTurn, inTurn, h a List.mem_cons_self, ih fun b hb => h b (List.mem_cons_of_mem a hb)]

/-- Loops over steps that run find the same in graphs that agree on what is relevant. -/
theorem Search.loops_congr
    {s : Slots}
    {index index' : Index}
    {g g' : Diagram}
    {bound : Set Nat}
    {row : Bindings}
    {steps : List Step}
    (h : index.Represents g)
    (h' : index'.Represents g')
    (hagree : g.AgreeOn (fun item => s.isRelevant item = true) g')
    (hruns : s.Runs bound steps)
    (hrow : s.Fills g bound row) :
    loops s index (steps.map .step) row = loops s index' (steps.map .step) row := by
  induction steps generalizing bound row with
  | nil => rfl
  | cons step steps ih =>
      obtain ⟨hready, hrest⟩ := hruns
      have hsame := hready.expand_congr h h' hagree hrow
      rw [List.map_cons, loops, loops, ← hsame]
      cases hbinds : step.binds with
      | none =>
          have hbound : bound ∪ Step.boundBy [step] = bound := by
            ext x
            simp [hbinds]
          rw [hbound] at hrest
          obtain ⟨holds, hexpand, -⟩ := hready.expand_check h hrow.suits hbinds
          rw [hexpand]
          cases holds with
          | true => exact ih hrest hrow
          | false => rfl
      | some x =>
          have hbound : bound ∪ Step.boundBy [step] = bound ∪ {x} := by
            ext y
            simp [hbinds, eq_comm, or_comm]
          rw [hbound] at hrest
          obtain ⟨slot, candidates, hslot, -, hexpand, -, hcandidates⟩ :=
            hready.expand_bind h hrow.suits hbinds
          rw [hexpand]
          refine Matches.inTurn_congr fun item hitem => ?_
          obtain ⟨haccepts, hhas, -⟩ := (hcandidates item).mp hitem
          exact ih hrest (hrow.set hslot haccepts hhas)

namespace CompiledQuery

variable {c : CompiledQuery} {index index' : Index} {g g' : Diagram}

/-- Collecting the rows of a compiled query does not fail. -/
theorem exists_collect (hc : ∃ query : Query, query.compile = .ok c) (h : index.Represents g) :
    ∃ rows, c.collect index = .ok rows := by
  obtain ⟨query, hcompile⟩ := hc
  have hroot : (ItemType.root .edge).Mediates [] := nofun
  obtain ⟨hlower, hplan⟩ := Query.of_compile hcompile
  obtain ⟨tags, htags⟩ := Query.lower_lowersTo hroot (fun _ _ _ => nofun) hlower
  obtain ⟨s, plan⟩ := c
  obtain rfl : plan = Plan.ofSlots s := hplan
  rcases Nat.eq_zero_or_pos s.size with hsize | hsize
  · exact ⟨[], Query.collect_of_empty s (Array.size_eq_zero_iff.mp hsize) index⟩
  · obtain ⟨rows, hcollect, -⟩ := htags.collect_of_matches h hsize
    exact ⟨rows, hcollect⟩

/-- The loops of a compiled query find the same in graphs that agree on what is relevant to it. -/
theorem loops_congr
    (hc : ∃ query : Query, query.compile = .ok c)
    (h : index.Represents g)
    (h' : index'.Represents g')
    (hagree : g.AgreeOn (fun item => c.slots.isRelevant item = true) g') :
    Search.loops c.slots index c.plan.moves (Search.noBindings c.slots) =
      Search.loops c.slots index' c.plan.moves (Search.noBindings c.slots) := by
  obtain ⟨query, hcompile⟩ := hc
  have hs := Query.wellFormed_of_compile hcompile
  obtain ⟨s, plan⟩ := c
  obtain rfl : plan = Plan.ofSlots s := (Query.of_compile hcompile).2
  rcases Nat.eq_zero_or_pos s.size with hsize | hsize
  · rw [Query.moves_of_empty s (Array.size_eq_zero_iff.mp hsize), Search.loops, Search.loops]
  · rw [hs.loops_moves hsize, hs.loops_moves hsize]
    exact Search.loops_congr h h' hagree hs.covered.runs (Slots.Fills.noBindings s g)

/-- The plan of a compiled query binds no slot twice. -/
theorem nodup_binds (hc : ∃ query : Query, query.compile = .ok c) :
    (c.plan.steps.filterMap Step.binds).Nodup := by
  obtain ⟨query, hcompile⟩ := hc
  rw [(Query.of_compile hcompile).2]
  exact (Query.wellFormed_of_compile hcompile).covered.runs.nodup_binds.1

/-- How a search for a compiled query ends depends on what its loops find. -/
theorem conclusion_congr
    {σ : Type}
    (hc : ∃ query : Query, query.compile = .ok c)
    (hloops : Search.loops c.slots index c.plan.moves (Search.noBindings c.slots) =
      Search.loops c.slots index' c.plan.moves (Search.noBindings c.slots))
    (visit : σ → Bindings → Verdict σ)
    (acc : σ) :
    (Search.start c.slots c.plan index visit acc).conclusion =
      (Search.start c.slots c.plan index' visit acc).conclusion := by
  have hfresh := c.plan.fresh_moves c.slots (nodup_binds hc)
  rw [Search.start, Search.start, (Search.descend_spec _ _ _ _ hfresh).1, hloops,
    ← (Search.descend_spec _ _ _ _ hfresh).1]

/-- A compiled query has the same rows on graphs that agree on what is relevant to it. -/
theorem collect_congr
    (hc : ∃ query : Query, query.compile = .ok c)
    (h : index.Represents g)
    (h' : index'.Represents g')
    (hagree : g.AgreeOn (fun item => c.slots.isRelevant item = true) g') :
    c.collect index = c.collect index' := by
  rw [collect_eq, collect_eq, conclusion_congr hc (loops_congr hc h h' hagree)]

end CompiledQuery

end PatternGraph
