import PatternGraph.Proofs.Query.Interpretation

/-!
# The answers to a query

Collecting the rows of a compiled query gives exactly the rows that the query means, each once.  The
search without a plan for any slot finds nothing, so a query without patterns has no rows, not even
the empty one.
-/

namespace PatternGraph

namespace Harvest

variable {s : Slots} {harvest : Harvest} {rows : Set Row}

/-- Whether a harvest without a limit holds the rows of a set, one for each list of identities. -/
structure Holds (harvest : Harvest) (rows : Set Row) : Prop where
  seen : ∀ ids, ids ∈ harvest.seen ↔ ∃ row ∈ harvest.rows, row.ids = ids
  distinct : harvest.rows.Pairwise fun a b => a.ids ≠ b.ids
  sound : ∀ row ∈ harvest.rows, row ∈ rows
  complete : ∀ row ∈ rows, ∃ row' ∈ harvest.rows, row'.ids = row.ids
  unlimited : harvest.wanted = none

theorem holds_empty : Holds ⟨∅, [], none⟩ ∅ :=
  ⟨by simp, List.Pairwise.nil, by simp, by simp, rfl⟩

/-- Gathering a match adds its row to what a harvest holds. -/
theorem Holds.gather
    {row : Bindings}
    {r : Row}
    (h : harvest.Holds rows)
    (hproject : s.project row = .ok r) :
    ∃ harvest', gather s harvest row = .next harvest' ∧ harvest'.Holds (rows ∪ {r}) := by
  rw [Harvest.gather, hproject]
  by_cases hseen : harvest.seen.contains r.ids = true
  · simp only [hseen, if_true]
    refine ⟨harvest, rfl, h.seen, h.distinct, fun r' hr' => Or.inl (h.sound r' hr'), ?_, h.unlimited⟩
    rintro r' (hr' | rfl)
    · exact h.complete r' hr'
    · exact (h.seen _).mp hseen
  · simp only [hseen, Bool.false_eq_true, if_false, add, h.unlimited]
    have hnew : ∀ r' ∈ harvest.rows, r'.ids ≠ r.ids :=
      fun r' hr' hids => hseen ((h.seen _).mpr ⟨r', hr', hids⟩)
    refine ⟨_, rfl, fun ids => ?_, ?_, ?_, ?_, rfl⟩
    · rw [Std.ExtTreeSet.mem_insert, Std.LawfulEqCmp.compare_eq_iff_eq, h.seen]
      simp
    · exact List.pairwise_cons.mpr ⟨fun r' hr' hids => hnew r' hr' hids.symm, h.distinct⟩
    · intro r' hr'
      rcases List.mem_cons.mp hr' with rfl | hr'
      · exact Or.inr rfl
      · exact Or.inl (h.sound r' hr')
    · rintro r' (hr' | rfl)
      · obtain ⟨r'', hr'', hids⟩ := h.complete r' hr'
        exact ⟨r'', List.mem_cons_of_mem _ hr'', hids⟩
      · exact ⟨_, List.mem_cons_self, rfl⟩

/-- Gathering matches adds their rows to what a harvest holds. -/
theorem Holds.feed
    {found : List Bindings}
    (h : harvest.Holds rows)
    (hproject : ∀ row ∈ found, ∃ r, s.project row = .ok r) :
    ∃ harvest', Matches.feed (Harvest.gather s) none found harvest = .done harvest' ∧
      harvest'.Holds (rows ∪ {r | ∃ row ∈ found, s.project row = .ok r}) := by
  induction found generalizing harvest rows with
  | nil => exact ⟨harvest, rfl, by simpa using h⟩
  | cons row found ih =>
      obtain ⟨r, hr⟩ := hproject row List.mem_cons_self
      obtain ⟨between, hgather, hbetween⟩ := h.gather hr
      obtain ⟨harvest', hfeed, hholds⟩ :=
        ih hbetween fun row' hrow' => hproject row' (List.mem_cons_of_mem _ hrow')
      refine ⟨harvest', ?_, ?_⟩
      · rw [Matches.feed, hgather]
        exact hfeed
      · convert hholds using 1
        ext r'
        simp [hr, eq_comm, or_left_comm, or_assoc]

end Harvest

/-- A member is known by its identity. -/
theorem Diagram.Has.eq_of_id
    {g : Diagram}
    {a b : Item}
    (ha : g.Has a)
    (hb : g.Has b)
    (hid : a.id = b.id) :
    a = b := by
  cases a with
  | node m =>
      cases b with
      | edge e => cases hid
      | node n =>
          rw [Item.id, Item.id, ItemId.node.injEq] at hid
          rw [Has, hid, hb, Option.some.injEq] at ha
          rw [ha]
  | edge d =>
      cases b with
      | node n => cases hid
      | edge e =>
          obtain ⟨v, hv, rfl⟩ := ha
          obtain ⟨w, hw, rfl⟩ := hb
          rw [Item.id, Item.id, ItemId.edge.injEq] at hid
          rw [hid, hw, Option.some.injEq] at hv
          rw [hv]

/-- Collecting depends on how the search ends, and not on the bindings that it leaves. -/
theorem CompiledQuery.collect_eq (c : CompiledQuery) (index : Index) :
    c.collect index =
      match (Search.start c.slots c.plan index (Harvest.gather c.slots) ⟨∅, [], none⟩).conclusion with
      | .done harvest | .halted harvest => .ok harvest.rows.reverse
      | .failed _ fault => .error fault := by
  rw [collect]
  cases Search.start c.slots c.plan index (Harvest.gather c.slots) ⟨∅, [], none⟩ <;> rfl

namespace Query

variable {types : List ItemType} {query : Query} {s : Slots} {tags : List Place} {g : Diagram}
  {index : Index}

/-- What is written in a place of a query has a slot. -/
theorem LowersTo.exists_slot_of_var
    {v : Var}
    (h : query.LowersTo types s tags)
    (hv : v ∈ query.vars.values) :
    ∃ i < s.size, tags[i]? = some (.var v) := by
  have hmem : some (.var v) ∈ query.vars.values.map fun v => some (Place.var v) :=
    List.mem_map_of_mem hv
  rw [← h.outputs] at hmem
  obtain ⟨i, -, htag⟩ := List.mem_map.mp hmem
  refine ⟨i, ?_, htag⟩
  rw [Slots.size, ← h.length]
  exact (List.getElem?_eq_some_iff.mp htag).1

/-- The items of a row are members. -/
theorem LowersTo.has_of_isRow
    {σ : Var → Item}
    {v : Var}
    (h : query.LowersTo types s tags)
    (hσ : Means g query.clauses σ)
    (hv : v ∈ query.vars.values) :
    g.Has (σ v) := by
  obtain ⟨i, -, htag⟩ := h.exists_slot_of_var hv
  obtain ⟨kind, hmember⟩ := h.member_of_mem (List.mem_of_getElem? htag)
  exact (hσ.each _ (mem_expand_member.mp hmember)).1

/-- Assignments of members give one row when they give rows with the same identities. -/
theorem row_eq_of_has
    {σ σ' : Var → Item}
    (hσ : ∀ v ∈ query.vars.values, g.Has (σ v))
    (hσ' : ∀ v ∈ query.vars.values, g.Has (σ' v))
    (hids : Row.ids (query.vars.map σ) = Row.ids (query.vars.map σ')) :
    query.vars.map σ = query.vars.map σ' := by
  rw [Row.ids, Row.ids, Layout.map, Layout.map, List.map_map, List.map_map, List.map_inj_left] at hids
  refine Layout.eq_of_values rfl (List.map_congr_left fun v hv => ?_)
  exact (hσ v hv).eq_of_id (hσ' v hv) (hids v hv)

/-- The items of the row of a match are members. -/
theorem LowersTo.has_of_shown
    {row : Bindings}
    {τ : Place → Item}
    {v : Var}
    (h : query.LowersTo types s tags)
    (hrow : LowersTo.Shows tags row τ)
    (hsatisfies : s.Satisfies g row)
    (hv : v ∈ query.vars.values) :
    g.Has (τ (.var v)) := by
  obtain ⟨i, hi, htag⟩ := h.exists_slot_of_var hv
  obtain ⟨item, hitem, hhas, -⟩ := hsatisfies.items i _ (Array.getElem?_eq_getElem hi)
  rw [hrow.item i _ htag, Option.some.injEq, Option.some.injEq] at hitem
  rwa [hitem]

/-- Matches whose rows have the same identities have the same row. -/
theorem LowersTo.eq_of_project
    {row row' : Bindings}
    {r r' : Row}
    (h : query.LowersTo types s tags)
    (hrow : s.Satisfies g row)
    (hrow' : s.Satisfies g row')
    (hr : s.project row = .ok r)
    (hr' : s.project row' = .ok r')
    (hids : r.ids = r'.ids) :
    r = r' := by
  obtain ⟨τ, hτ⟩ := h.exists_shown hrow
  obtain ⟨τ', hτ'⟩ := h.exists_shown hrow'
  rw [h.project_eq hτ, Except.ok.injEq] at hr
  rw [h.project_eq hτ', Except.ok.injEq] at hr'
  subst hr hr'
  exact row_eq_of_has (fun v => h.has_of_shown hτ hrow) (fun v => h.has_of_shown hτ' hrow') hids

/-- Rows of a query are known by the identities of their items. -/
theorem LowersTo.row_eq_of_ids
    {r r' : Row}
    (h : query.LowersTo types s tags)
    (hr : query.IsRow g r)
    (hr' : query.IsRow g r')
    (hids : r.ids = r'.ids) :
    r = r' := by
  obtain ⟨σ, hσ, rfl⟩ := hr
  obtain ⟨σ', hσ', rfl⟩ := hr'
  exact row_eq_of_has (fun v => h.has_of_isRow hσ) (fun v => h.has_of_isRow hσ') hids

/-- Collecting from slots that a query is lowered to gives the rows of the matches, each once. -/
theorem LowersTo.collect_of_matches
    (h : query.LowersTo types s tags)
    (hindex : index.Represents g)
    (hsize : 0 < s.size) :
    ∃ rows, CompiledQuery.collect ⟨s, Plan.ofSlots s⟩ index = .ok rows ∧
      rows.Pairwise (fun a b => a.ids ≠ b.ids) ∧
      (∀ r ∈ rows, ∃ row, s.Satisfies g row ∧ s.project row = .ok r) ∧
      ∀ row r, s.Satisfies g row → s.project row = .ok r → ∃ r' ∈ rows, r'.ids = r.ids := by
  obtain ⟨found, hloops, -, hfound⟩ := h.wellFormed.loops_spec hsize hindex
  have hproject : ∀ row ∈ found, ∃ r, s.project row = .ok r := by
    intro row hrow
    obtain ⟨τ, hτ⟩ := h.exists_shown ((hfound row).mp hrow)
    exact ⟨_, h.project_eq hτ⟩
  obtain ⟨harvest, hfeed, hholds⟩ := Harvest.holds_empty.feed hproject
  have hsearch : (Search.start s (Plan.ofSlots s) index (Harvest.gather s) ⟨∅, [], none⟩).conclusion =
      .done harvest := by
    rw [Search.start, (Search.descend_spec _ _ _ _ h.wellFormed.fresh_moves).1, hloops]
    exact hfeed
  refine ⟨harvest.rows.reverse, ?_, ?_, fun r hr => ?_, fun row r hrow hr => ?_⟩
  · rw [CompiledQuery.collect_eq, hsearch]
  · rw [List.pairwise_reverse]
    exact hholds.distinct.imp Ne.symm
  · rcases hholds.sound r (List.mem_reverse.mp hr) with hr | ⟨row, hrow, hr⟩
    · exact absurd hr (Set.notMem_empty r)
    · exact ⟨row, (hfound row).mp hrow, hr⟩
  · obtain ⟨r', hr', hids⟩ := hholds.complete r (Or.inr ⟨row, (hfound row).mpr hrow, hr⟩)
    exact ⟨r', List.mem_reverse.mpr hr', hids⟩

/-- Collecting from slots that a query is lowered to gives the rows of the query. -/
theorem LowersTo.collect_spec
    (h : query.LowersTo types s tags)
    (hitems : ∀ item, g.Has item → item.type ∈ types)
    (hroots : ∀ item, g.Has item → item.type.isA (.root item.kind) = true)
    (hindex : index.Represents g)
    (hsize : 0 < s.size) :
    ∃ rows, CompiledQuery.collect ⟨s, Plan.ofSlots s⟩ index = .ok rows ∧ rows.Nodup ∧
      ∀ r, r ∈ rows ↔ query.IsRow g r := by
  obtain ⟨rows, hcollect, hdistinct, hsound, hcomplete⟩ := h.collect_of_matches hindex hsize
  have hrows : ∀ r, query.IsRow g r ↔ ∃ row, s.Satisfies g row ∧ s.project row = .ok r :=
    h.isRow_iff hitems hroots
  refine ⟨rows, hcollect, hdistinct.imp fun hids heq => hids (by rw [heq]), fun r => ?_⟩
  constructor
  · intro hr
    exact (hrows r).mpr (hsound r hr)
  · intro hr
    obtain ⟨row, hrow, hproject⟩ := (hrows r).mp hr
    obtain ⟨r', hr', hids⟩ := hcomplete row r hrow hproject
    rwa [← h.row_eq_of_ids ((hrows r').mpr (hsound r' hr')) hr hids]

theorem LowersTo.size_pos (h : query.LowersTo types s tags) (hvalues : query.values ≠ []) :
    0 < s.size := by
  obtain ⟨p, rest, hcons⟩ := List.exists_cons_of_ne_nil hvalues
  have hmem : p.var [0] ∈ query.vars.values := by
    simp [vars, hcons, List.zipIdx_cons]
  obtain ⟨i, hi, -⟩ := h.exists_slot_of_var hmem
  exact Nat.zero_lt_of_lt hi

/-- A query without patterns has no slots. -/
theorem LowersTo.slots_eq_empty (h : query.LowersTo types s tags) (hvalues : query.values = []) :
    s.slots = #[] := by
  have hclauses : query.clauses = [] := by simp [clauses, hvalues]
  have htags : tags = [] := by
    rw [List.eq_nil_iff_forall_not_mem]
    intro place hplace
    obtain ⟨kind, hmember⟩ := h.member_of_mem hplace
    rw [hclauses] at hmember
    cases hmember
  rw [← Array.size_eq_zero_iff, ← h.length, htags]
  rfl

/-- The plan of no slots has nothing to bind. -/
theorem moves_of_empty (s : Slots) (h : s.slots = #[]) : (Plan.ofSlots s).moves = [.stop] := by
  have hplan : Plan.ofSlots s = ⟨[]⟩ := by
    simp only [Plan.ofSlots, Slots.connections, Slots.size, h]
    rfl
  rw [hplan]
  rfl

theorem collect_of_empty (s : Slots) (h : s.slots = #[]) (index : Index) :
    CompiledQuery.collect ⟨s, Plan.ofSlots s⟩ index = .ok [] := by
  rw [CompiledQuery.collect, Search.start, moves_of_empty s h]
  rfl

/-- A query without patterns has no rows. -/
theorem collect_of_compile_empty {c : CompiledQuery} (h : query.compile = .ok c)
    (hvalues : query.values = []) (index : Index) : c.collect index = .ok [] := by
  obtain ⟨hlower, hplan⟩ := of_compile h
  obtain ⟨tags, htags⟩ := exists_lowersTo hlower
  obtain ⟨s, plan⟩ := c
  obtain rfl : plan = Plan.ofSlots s := hplan
  exact collect_of_empty s (htags.slots_eq_empty hvalues) index

/-- A query with patterns has the rows that it means. -/
theorem collect_of_compile
    {v : Vocabulary}
    {c : CompiledQuery}
    (hv : v.Holds types)
    (hmentioned : ∀ x t, .isA x t ∈ query.clauses → t ∈ types)
    (h : query.compile = .ok c)
    (hvalues : query.values ≠ [])
    (hindex : index.Represents g)
    (hmembers : ∀ item, g.Has item → item.type ∈ types) :
    ∃ rows, c.collect index = .ok rows ∧ rows.Nodup ∧ ∀ r, r ∈ rows ↔ query.IsRow g r := by
  obtain ⟨hlower, hplan⟩ := of_compile h
  obtain ⟨tags, htags⟩ := lower_lowersTo (hv.mediates (hv.root_mem .edge))
    (fun x t ht => hv.mediates (hmentioned x t ht)) hlower
  obtain ⟨s, plan⟩ := c
  obtain rfl : plan = Plan.ofSlots s := hplan
  have hroots : ∀ item, g.Has item → item.type.isA (.root item.kind) = true := by
    intro item hitem
    have hkind : item.type.kind = item.kind := by cases item <;> rfl
    rw [← hkind]
    exact hv.isA_root (hmembers item hitem)
  exact htags.collect_spec hmembers hroots hindex (htags.size_pos hvalues)

/-- A graph of nodes and edges of the root types has members of these types only. -/
theorem types_of_roots {g : Diagram} (hnodes : ∀ n ∈ g.nodeList, n.type = .root .node)
    (hedges : ∀ e ∈ g.edgeList, e.type = .root .edge) :
    ∀ item, g.Has item → item.type ∈ [ItemType.root .node, .root .edge] := by
  rintro (n | e) hitem
  · simp [Item.type, hnodes n ((Diagram.mem_nodeList _ _).mpr hitem), ItemType.root]
  · simp [Item.type, hedges e ((Diagram.mem_edgeList _ _).mpr hitem), ItemType.root]

end Query

end PatternGraph
