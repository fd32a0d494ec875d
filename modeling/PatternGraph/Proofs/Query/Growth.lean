import Mathlib.Data.List.Flatten
import PatternGraph.Proofs.Query.Agreement
import PatternGraph.Proofs.Query.Stacks

/-!
# Growing graphs

When a graph gains items and loses none, and its edges keep their ends, a query finds in it all that it
has found before, in the same order, and possibly more in between.  Every list of candidates has only
gained entries, as candidates come in order of creation, and no check that has held fails.  So no row
is lost; a row may come earlier than before, as a new match may show it first.
-/

namespace PatternGraph

/-- Whether a diagram is within another one, which has its nodes, and its edges with the same ends. -/
structure Diagram.Within (g g' : Diagram) : Prop where
  nodes : ∀ (id : NodeId) (n : Node), g.nodes[id]? = some n → g'.nodes[id]? = some n
  wires : ∀ (id : EdgeId) (w : Wire), g.wires[id]? = some w → g'.wires[id]? = some w

/-- A map that only gains entries lists them in the same order. -/
theorem toList_sublist
    {subject : Subject}
    {β : Type}
    {m m' : Std.ExtTreeMap (Ident subject) β}
    (h : ∀ (k : Ident subject) (v : β), m[k]? = some v → m'[k]? = some v) :
    m.toList.Sublist m'.toList := by
  have hnodup : m.toList.Nodup := by
    refine m.ordered_keys_toList.imp ?_
    rintro a b hab rfl
    simp at hab
  have hsubset : m.toList ⊆ m'.toList := by
    rintro ⟨k, v⟩ hentry
    rw [Std.ExtTreeMap.mem_toList_iff_getElem?_eq_some] at hentry ⊢
    exact h k v hentry
  obtain ⟨list, hperm, hsublist⟩ := hnodup.subperm hsubset
  have hsame : list = m.toList := by
    refine List.Perm.eq_of_pairwise (fun a b _ _ hab hba => ?_)
      (m'.ordered_keys_toList.sublist hsublist) m.ordered_keys_toList hperm
    exact absurd hba (Std.OrientedCmp.not_lt_of_lt hab)
  rwa [← hsame]

theorem filterMap_sublist
    {α β : Type}
    {f f' : α → Option β}
    (h : ∀ a b, f a = some b → f' a = some b)
    (list : List α) :
    (list.filterMap f).Sublist (list.filterMap f') := by
  induction list with
  | nil => exact .slnil
  | cons a list ih =>
      cases hf : f a with
      | none =>
          rw [List.filterMap_cons_none hf]
          exact ih.trans ((List.sublist_cons_self a list).filterMap f')
      | some b =>
          rw [List.filterMap_cons_some hf, List.filterMap_cons_some (h a b hf)]
          exact ih.cons_cons b

theorem toList_sublist_of_imp
    {α : Type}
    {a b : Option α}
    (h : ∀ v, a = some v → b = some v) :
    a.toList.Sublist b.toList := by
  cases a with
  | none => exact List.nil_sublist _
  | some v => rw [h v rfl]

namespace Diagram

variable {g g' : Diagram}

namespace Within

theorem has {item : Item} (h : g.Within g') (hitem : g.Has item) : g'.Has item := by
  cases item with
  | node n => exact h.nodes _ _ hitem
  | edge e =>
      obtain ⟨w, hw, hedge⟩ := hitem
      exact ⟨w, h.wires _ _ hw, hedge⟩

theorem nodeList_sublist (h : g.Within g') : g.nodeList.Sublist g'.nodeList :=
  (toList_sublist h.nodes).map Prod.snd

theorem wires_sublist (h : g.Within g') : g.wires.toList.Sublist g'.wires.toList :=
  toList_sublist h.wires

theorem playsRole
    {node : NodeId}
    {edge : EdgeId}
    {role : Role}
    (h : g.Within g')
    (hplays : g.PlaysRole node edge role) :
    g'.PlaysRole node edge role := by
  obtain ⟨w, hw, hrole⟩ := hplays
  exact ⟨w, h.wires _ _ hw, hrole⟩

theorem linked
    {row : Bindings}
    {c : Connection}
    (h : g.Within g')
    (hlinked : g.Linked row c) :
    g'.Linked row c := by
  obtain ⟨n, e, hn, he, hplays⟩ := hlinked
  exact ⟨n, e, hn, he, h.playsRole hplays⟩

theorem paired
    {row : Bindings}
    {edge a b : Nat}
    (h : g.Within g')
    (hpaired : g.Paired row edge a b) :
    g'.Paired row edge a b := by
  obtain ⟨e, m, n, he, hm, hn, w, hw, hends⟩ := hpaired
  exact ⟨e, m, n, he, hm, hn, w, h.wires _ _ hw, hends⟩

end Within

end Diagram

/-- A row that meets the condition of a step still meets it. -/
theorem Step.Holds.mono
    {g g' : Diagram}
    {row : Bindings}
    {step : Step}
    (hwithin : g.Within g')
    (h : step.Holds g row) :
    step.Holds g' row := by
  cases step with
  | scanNodes slot type => trivial
  | scanEdges slot type => trivial
  | traverse origin target c => exact hwithin.linked h
  | check c => exact hwithin.linked h
  | checkPair edge a b => exact hwithin.paired h

namespace Slots

variable {s : Slots} {g g' : Diagram} {row : Bindings}

theorem Fills.mono
    {bound : Set Nat}
    (hwithin : g.Within g')
    (h : s.Fills g bound row) :
    s.Fills g' bound row := by
  refine ⟨h.size, fun i hi => ?_, h.free⟩
  obtain ⟨slot, item, hslot, hitem, haccepts, hhas⟩ := h.item i hi
  exact ⟨slot, item, hslot, hitem, haccepts, hwithin.has hhas⟩

/-- A match of a graph is a match of a graph that it is within. -/
theorem Satisfies.mono (hwithin : g.Within g') (h : s.Satisfies g row) : s.Satisfies g' row := by
  refine ⟨h.total, fun i slot hslot => ?_, fun c hc => hwithin.linked (h.links c hc),
    fun edge slot a b hslot hkind hends => hwithin.paired (h.pairs edge slot a b hslot hkind hends)⟩
  obtain ⟨item, hitem, hhas, haccepts⟩ := h.items i slot hslot
  exact ⟨item, hitem, hwithin.has hhas, haccepts⟩

end Slots

namespace Index.Represents

variable {index index' : Index} {g g' : Diagram}

theorem nodeCandidates_sublist
    (h : index.Represents g)
    (h' : index'.Represents g')
    (hwithin : g.Within g')
    (slot : Slot)
    (type : ItemType) :
    (slot.nodeCandidates index type).Sublist (slot.nodeCandidates index' type) := by
  unfold Slot.nodeCandidates
  cases slot.pinned with
  | none =>
      rw [h.nodesOfType_eq, h'.nodesOfType_eq]
      exact (hwithin.nodeList_sublist.filter _).map _
  | some p =>
      cases p with
      | edge e => exact List.nil_sublist _
      | node n =>
          dsimp only
          rw [h.nodes, h'.nodes]
          exact (toList_sublist_of_imp (hwithin.nodes n.id)).map _

theorem edgeCandidates_sublist
    (h : index.Represents g)
    (h' : index'.Represents g')
    (hwithin : g.Within g')
    (slot : Slot)
    (type : ItemType) :
    (slot.edgeCandidates index type).Sublist (slot.edgeCandidates index' type) := by
  unfold Slot.edgeCandidates
  cases slot.pinned with
  | none =>
      rw [h.edgesOfType_eq, h'.edgesOfType_eq]
      exact ((hwithin.wires_sublist.map _).filter _).map _
  | some p =>
      cases p with
      | node n => exact List.nil_sublist _
      | edge e =>
          dsimp only
          rw [h.edges, h'.edges]
          refine (toList_sublist_of_imp fun found hfound => ?_).map _
          obtain ⟨w, hw, rfl⟩ := Option.map_eq_some_iff.mp hfound
          rw [hwithin.wires e.id w hw]
          rfl

theorem edgesInRole_sublist
    (h : index.Represents g)
    (h' : index'.Represents g')
    (hwithin : g.Within g')
    (node : NodeId)
    (role : Role) :
    (index.edgesInRole node role).Sublist (index'.edgesInRole node role) := by
  rw [h.edgesInRole_eq, h'.edgesInRole_eq]
  exact (hwithin.wires_sublist.filter _).map _

theorem nodesInRole_sublist
    (h : index.Represents g)
    (h' : index'.Represents g')
    (hwithin : g.Within g')
    (edge : EdgeId)
    (role : Role) :
    (index.nodesInRole edge role).Sublist (index'.nodesInRole edge role) := by
  rw [Index.nodesInRole, Index.nodesInRole, h.ends, h'.ends]
  cases hwire : g.wires[edge]? with
  | none => exact List.nil_sublist _
  | some w =>
      rw [hwithin.wires edge w hwire]
      dsimp only [Option.map_some]
      refine filterMap_sublist (fun id n hn => ?_) _
      rw [h.nodes] at hn
      rw [h'.nodes]
      exact hwithin.nodes id n hn

end Index.Represents

section Loops

variable {s : Slots} {index index' : Index} {g g' : Diagram} {bound : Set Nat} {row : Bindings}

/-- A step that binds a slot finds in a graph what it finds in a graph within it, in the same order. -/
theorem Step.Ready.expand_sublist
    {step : Step}
    {x : Nat}
    (h : index.Represents g)
    (h' : index'.Represents g')
    (hwithin : g.Within g')
    (hrow : s.Suits bound row)
    (hready : step.Ready s bound)
    (hbinds : step.binds = some x) :
    ∃ candidates candidates', step.expand s index row = .ok (.bind x candidates) ∧
      step.expand s index' row = .ok (.bind x candidates') ∧ candidates.Sublist candidates' := by
  cases step with
  | check c => cases hbinds
  | checkPair edge a b => cases hbinds
  | scanNodes y type =>
      obtain rfl : y = x := Option.some.inj hbinds
      obtain ⟨-, slot, hslot, -⟩ := hready
      refine ⟨(slot.nodeCandidates index type).filter slot.accepts,
        (slot.nodeCandidates index' type).filter slot.accepts, ?_, ?_,
        (h.nodeCandidates_sublist h' hwithin slot type).filter _⟩
      · simp [expand, Slots.slotAt, hslot, Except.bind, bind, pure, Except.pure]
      · simp [expand, Slots.slotAt, hslot, Except.bind, bind, pure, Except.pure]
  | scanEdges y type =>
      obtain rfl : y = x := Option.some.inj hbinds
      obtain ⟨-, slot, hslot, -⟩ := hready
      refine ⟨(slot.edgeCandidates index type).filter slot.accepts,
        (slot.edgeCandidates index' type).filter slot.accepts, ?_, ?_,
        (h.edgeCandidates_sublist h' hwithin slot type).filter _⟩
      · simp [expand, Slots.slotAt, hslot, Except.bind, bind, pure, Except.pure]
      · simp [expand, Slots.slotAt, hslot, Except.bind, bind, pure, Except.pure]
  | traverse origin y c =>
      obtain rfl : y = x := Option.some.inj hbinds
      obtain ⟨horigin, hfree, hisNode, hisEdge, hends⟩ := hready
      have hne : origin ≠ y := fun heq => hfree (heq ▸ horigin)
      rcases hends with ⟨rfl, rfl⟩ | ⟨rfl, rfl⟩
      · obtain ⟨n, -, hnode⟩ := hrow.node horigin hisNode
        obtain ⟨slot, hslot, -⟩ := hisEdge
        refine ⟨((index.edgesInRole n.id c.role).map .edge).filter slot.accepts,
          ((index'.edgesInRole n.id c.role).map .edge).filter slot.accepts, ?_, ?_,
          ((h.edgesInRole_sublist h' hwithin n.id c.role).map _).filter _⟩
        · simp [expand, Slots.slotAt, hslot, hnode, Except.bind, bind, pure, Except.pure]
        · simp [expand, Slots.slotAt, hslot, hnode, Except.bind, bind, pure, Except.pure]
      · obtain ⟨e, -, hedge⟩ := hrow.edge horigin hisEdge
        obtain ⟨slot, hslot, -⟩ := hisNode
        refine ⟨((index.nodesInRole e.id c.role).map .node).filter slot.accepts,
          ((index'.nodesInRole e.id c.role).map .node).filter slot.accepts, ?_, ?_,
          ((h.nodesInRole_sublist h' hwithin e.id c.role).map _).filter _⟩
        · simp [expand, Slots.slotAt, hslot, hedge, hne, Except.bind, bind, pure, Except.pure]
        · simp [expand, Slots.slotAt, hslot, hedge, hne, Except.bind, bind, pure, Except.pure]

/-- Loops find in a graph what they find in a graph within it, in the same order. -/
theorem Search.loops_sublist
    {steps : List Step}
    (h : index.Represents g)
    (h' : index'.Represents g')
    (hwithin : g.Within g')
    (hruns : s.Runs bound steps)
    (hrow : s.Fills g bound row) :
    (loops s index (steps.map .step) row).found.Sublist
      (loops s index' (steps.map .step) row).found := by
  induction steps generalizing bound row with
  | nil => exact List.Sublist.refl _
  | cons step steps ih =>
      obtain ⟨hready, hrest⟩ := hruns
      rw [List.map_cons, loops, loops]
      cases hbinds : step.binds with
      | none =>
          have hbound : bound ∪ Step.boundBy [step] = bound := by
            ext x
            simp [hbinds]
          rw [hbound] at hrest
          obtain ⟨holds, hexpand, hiff⟩ := hready.expand_check h hrow.suits hbinds
          obtain ⟨holds', hexpand', hiff'⟩ := hready.expand_check h' hrow.suits hbinds
          rw [hexpand]
          cases holds with
          | false => exact List.nil_sublist _
          | true =>
              obtain rfl : holds' = true := hiff'.mpr ((hiff.mp rfl).mono hwithin)
              rw [hexpand']
              exact ih hrest hrow
      | some x =>
          have hbound : bound ∪ Step.boundBy [step] = bound ∪ {x} := by
            ext y
            simp [hbinds, eq_comm, or_comm]
          rw [hbound] at hrest
          obtain ⟨slot, found, hslot, -, hfound, -, hmem⟩ :=
            hready.expand_bind h hrow.suits hbinds
          obtain ⟨slot', found', hslot', -, hfound', -, hmem'⟩ :=
            hready.expand_bind h' hrow.suits hbinds
          obtain ⟨candidates, candidates', hexpand, hexpand', hsublist⟩ :=
            hready.expand_sublist h h' hwithin hrow.suits hbinds
          obtain rfl : candidates = found := by simpa [hexpand] using hfound
          obtain rfl : candidates' = found' := by simpa [hexpand'] using hfound'
          have hset : ∀ item ∈ candidates,
              s.Fills g (bound ∪ {x}) (row.setIfInBounds x (some item)) := fun item hitem =>
            hrow.set hslot ((hmem item).mp hitem).1 ((hmem item).mp hitem).2.1
          have hset' : ∀ item ∈ candidates',
              s.Fills g' (bound ∪ {x}) (row.setIfInBounds x (some item)) := fun item hitem =>
            (hrow.mono hwithin).set hslot' ((hmem' item).mp hitem).1 ((hmem' item).mp hitem).2.1
          rw [hexpand, hexpand']
          dsimp only
          rw [Matches.inTurn_spec fun item hitem =>
              (loops_completes h hrest (hset item hitem)).faultless,
            Matches.inTurn_spec fun item hitem =>
              (loops_completes h' hrest (hset' item hitem)).faultless]
          have hbelow := List.Sublist.flatMap_right candidates fun item hitem =>
            ih hrest (hset item hitem)
          exact hbelow.trans (hsublist.flatMap _)

end Loops

namespace CompiledQuery

variable {query : Query} {c : CompiledQuery} {index index' : Index} {g g' : Diagram}

/-- The loops of a compiled query find what they find in a graph within another one, in this order. -/
theorem loops_grow
    (hcompile : query.compile = .ok c)
    (h : index.Represents g)
    (h' : index'.Represents g')
    (hwithin : g.Within g') :
    ∃ found found', c.plan.loops c.slots index = ⟨found, none⟩ ∧
      c.plan.loops c.slots index' = ⟨found', none⟩ ∧ found.Sublist found' := by
  have hs := Query.wellFormed_of_compile hcompile
  obtain ⟨s, plan⟩ := c
  obtain rfl : plan = Plan.ofSlots s := (Query.of_compile hcompile).2
  simp only [← Search.loops_plan]
  rcases Nat.eq_zero_or_pos s.size with hsize | hsize
  · rw [Query.moves_of_empty s (Array.size_eq_zero_iff.mp hsize)]
    exact ⟨[], [], rfl, rfl, .slnil⟩
  · obtain ⟨found, hfound, -⟩ := hs.loops_spec hsize h
    obtain ⟨found', hfound', -⟩ := hs.loops_spec hsize h'
    have hsublist := Search.loops_sublist h h' hwithin hs.covered.runs (Slots.Fills.noBindings s g)
    rw [← hs.loops_moves hsize, ← hs.loops_moves hsize, hfound, hfound'] at hsublist
    exact ⟨found, found', hfound, hfound', hsublist⟩

/-- The rows of a compiled query on a graph are rows on every graph that it is within. -/
theorem collect_grows
    (hcompile : query.compile = .ok c)
    (h : index.Represents g)
    (h' : index'.Represents g')
    (hwithin : g.Within g') :
    ∃ rows rows', c.collect index = .ok rows ∧ c.collect index' = .ok rows' ∧
      ∀ row ∈ rows, row ∈ rows' := by
  obtain ⟨hlower, hplan⟩ := Query.of_compile hcompile
  obtain ⟨tags, htags⟩ := Query.exists_lowersTo hlower
  obtain ⟨s, plan⟩ := c
  obtain rfl : plan = Plan.ofSlots s := hplan
  rcases Nat.eq_zero_or_pos s.size with hsize | hsize
  · have hempty := Array.size_eq_zero_iff.mp hsize
    exact ⟨[], [], Query.collect_of_empty s hempty index, Query.collect_of_empty s hempty index',
      fun _ hr => hr⟩
  · obtain ⟨rows, hcollect, -, hsound, -⟩ := htags.collect_of_matches h hsize
    obtain ⟨rows', hcollect', -, hsound', hcomplete'⟩ := htags.collect_of_matches h' hsize
    refine ⟨rows, rows', hcollect, hcollect', fun r hr => ?_⟩
    obtain ⟨row, hrow, hproject⟩ := hsound r hr
    obtain ⟨r', hr', hids⟩ := hcomplete' row r (hrow.mono hwithin) hproject
    obtain ⟨row', hrow', hproject'⟩ := hsound' r' hr'
    rwa [htags.eq_of_project (hrow.mono hwithin) hrow' hproject hproject' hids.symm]

/--
On a graph content that is within another one, a compiled query has a subsequence of the matches that
it has on the other one, however they are taken, and no row that is not a row on the other one.
-/
theorem finds_more
    (hcompile : query.compile = .ok c)
    (h : index.Represents g)
    (h' : index'.Represents g')
    (hwithin : g.Within g') :
    (∃ found found', c.plan.Gives c.slots index found ∧ c.plan.Gives c.slots index' found' ∧
      found.Sublist found') ∧
    ∃ rows rows', c.collect index = .ok rows ∧ c.collect index' = .ok rows' ∧
      ∀ row ∈ rows, row ∈ rows' := by
  have honce := nodup_binds ⟨query, hcompile⟩
  obtain ⟨found, found', hfound, hfound', hsublist⟩ := loops_grow hcompile h h' hwithin
  exact ⟨⟨found, found', Plan.gives_of_loops hfound honce, Plan.gives_of_loops hfound' honce,
    hsublist⟩, collect_grows hcompile h h' hwithin⟩

/--
Which nodes are joined by an edge, asked of a graph of two nodes and an edge, and of one that has a node
and an edge more, entered before them.
-/
theorem finds_more_joined :
    let n (id : Nat) : Node := ⟨⟨id⟩, .root .node⟩
    let e (id : Nat) : Edge := ⟨⟨id⟩, .root .edge⟩
    let ops : List Index.Operation :=
      [.insertNode (n 1), .insertNode (n 3), .insertEdge (e 2) ⟨⟨1⟩, ⟨3⟩⟩]
    let more : List Index.Operation :=
      [.insertNode (n 2), .insertNode (n 1), .insertEdge (e 1) ⟨⟨2⟩, ⟨1⟩⟩, .insertNode (n 3),
        .insertEdge (e 2) ⟨⟨1⟩, ⟨3⟩⟩]
    ∃ c, Query.compile (.list [.nodeFragment (.any (.root .node)) (some "a") []
        [(.joinedWith, .nodeType (.root .node))]]) = .ok c ∧
      (Matches.all c.slots c.plan (Index.after ops)).found.length = 2 ∧
      (Matches.all c.slots c.plan (Index.after more)).found.length = 4 ∧
      (∃ found found', c.plan.Gives c.slots (Index.after ops) found ∧
        c.plan.Gives c.slots (Index.after more) found' ∧ found.Sublist found') ∧
      ∃ rows rows', c.collect (Index.after ops) = .ok rows ∧
        c.collect (Index.after more) = .ok rows' ∧ ∀ row ∈ rows, row ∈ rows' := by
  intro n e ops more
  obtain ⟨c, hcompile, hcheck⟩ := Query.exists_of_compiles
    (.list [.nodeFragment (.any (.root .node)) (some "a") []
      [(.joinedWith, .nodeType (.root .node))]])
    (fun c => decide ((Matches.all c.slots c.plan (Index.after ops)).found.length = 2 ∧
      (Matches.all c.slots c.plan (Index.after more)).found.length = 4)) (by decide +kernel)
  obtain ⟨hfound, hfound'⟩ := of_decide_eq_true hcheck
  have hnodes : ∀ entry ∈ (Diagram.after ops).nodes.toList,
      entry ∈ (Diagram.after more).nodes.toList := by
    decide +kernel
  have hwires : ∀ entry ∈ (Diagram.after ops).wires.toList,
      entry ∈ (Diagram.after more).wires.toList := by
    decide +kernel
  have hwithin : (Diagram.after ops).Within (Diagram.after more) := by
    refine ⟨fun id m hm => ?_, fun id w hw => ?_⟩
    · rw [← Std.ExtTreeMap.mem_toList_iff_getElem?_eq_some] at hm ⊢
      exact hnodes (id, m) hm
    · rw [← Std.ExtTreeMap.mem_toList_iff_getElem?_eq_some] at hw ⊢
      exact hwires (id, w) hw
  exact ⟨c, hcompile, hfound, hfound', finds_more hcompile (Index.after_represents ops)
    (Index.after_represents more) hwithin⟩

end CompiledQuery

end PatternGraph
