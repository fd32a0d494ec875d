import PatternGraph.Proofs.Query.Agreement
import PatternGraph.Proofs.Query.RowStream

/-!
# Rows that mirror a query

A match that binds every slot is projected to a row with the shape of the query, and in every place is
the item bound to the slot of what is written there.  Two rows of one graph are the same if and only if
what is digested of them is, so the rows that are collected, and those that are taken a few at a time, are
the rows of the matches without those that repeat an earlier one.
-/

namespace PatternGraph

theorem Row.key_eq_key_iff {a b : Row} : a.key = b.key ↔ a.shape = b.shape ∧ a.ids = b.ids := by
  constructor
  · intro h
    have hshape : a.key.shape = b.key.shape := by rw [h]
    have hids : a.key.values = b.key.values := by rw [h]
    exact ⟨hshape, hids⟩
  · rintro ⟨hshape, hids⟩
    exact Layout.eq_of_values hshape hids

/-- Whether a digest tells apart what is digested of certain rows. -/
def CollisionFree {δ : Type} (digest : List UInt8 → δ) (rows : List Row) : Prop :=
  ∀ a ∈ rows, ∀ b ∈ rows, digest a.key.bytes = digest b.key.bytes → a.key.bytes = b.key.bytes

namespace Query

variable {types : List ItemType} {query : Query} {s : Slots} {tags : List Place} {bindings : Bindings}

/--
Whether a row is laid out like a query, and holds in every place what is bound to the slot of what is
written there.
-/
structure Mirrors (query : Query) (tags : List Place) (bindings : Bindings) (row : Row) : Prop where
  shape : row.shape = query.shape
  bound : ∀ (i : Nat) (place : Position) (p : Pattern), (Layout.places query)[i]? = some (place, p) →
    ∃ (j : Nat) (item : Item), tags[j]? = some (.var (p.var [i])) ∧ bindings[j]? = some (some item) ∧
      row.places[i]? = some (place, item)
  /-- Patterns with one name, or for one exact item, have one value. -/
  shared : ∀ (i j : Nat) (place place' : Position) (p q : Pattern),
    (Layout.places query)[i]? = some (place, p) → (Layout.places query)[j]? = some (place', q) →
      p.var [i] = q.var [j] → row.values[i]? = row.values[j]?

/-- The variable that is spoken about in a place. -/
theorem getElem?_vars {i : Nat} {place : Position} {p : Pattern}
    (h : (Layout.places query)[i]? = some (place, p)) :
    query.shape.positions[i]? = some place ∧ query.vars.values[i]? = some (p.var [i]) := by
  obtain ⟨hposition, hvalue⟩ := List.getElem?_zip_eq_some.mp h
  refine ⟨hposition, ?_⟩
  rw [vars, List.getElem?_map, List.getElem?_zipIdx, hvalue]
  simp

namespace LowersTo

/-- Every match that binds all slots is projected to a row that mirrors the query. -/
theorem exists_mirrors (h : query.LowersTo types s tags) (hbindings : s.Complete bindings) :
    ∃ row, s.project bindings = .ok row ∧ query.Mirrors tags bindings row := by
  obtain ⟨τ, hτ⟩ := h.exists_shown_of_complete hbindings
  refine ⟨_, h.project_eq hτ, rfl, fun i place p hp => ?_, fun i j place place' p q hp hq hvar => ?_⟩
  · obtain ⟨hposition, hvalue⟩ := getElem?_vars hp
    obtain ⟨j, -, hj⟩ := h.exists_slot_of_var (List.mem_of_getElem? hvalue)
    refine ⟨j, _, hj, hτ.item j _ hj, List.getElem?_zip_eq_some.mpr ⟨hposition, ?_⟩⟩
    rw [Layout.map, List.getElem?_map, hvalue]
    rfl
  · rw [Layout.map, List.getElem?_map, List.getElem?_map, (getElem?_vars hp).2, (getElem?_vars hq).2,
      hvar]

end LowersTo

end Query

/-- What the rows of a query on an index have to do with its matches. -/
structure CompiledQuery.GivesRows (c : CompiledQuery) (index : Index) (found : List Bindings)
    (rows : List Row) : Prop where
  all : Matches.all c.slots c.plan index = ⟨found, none⟩
  complete : ∀ bindings ∈ found, c.slots.Complete bindings
  project : found.map c.slots.project = rows.map .ok
  collect : c.collect index = .ok rows.eraseDups
  takes : ∀ limits : List Nat,
    (Stream.ofQuery c).takes (limits.map fun limit => (limit, index)) =
      (limits.splitLengths rows.eraseDups).map .ok
  /-- Rows have one digest if and only if they have one shape and the same items. -/
  digest : ∀ {δ : Type} (digest : List UInt8 → δ), CollisionFree digest rows →
    (∀ row ∈ rows, row.key.Fits) → ∀ a ∈ rows, ∀ b ∈ rows,
      (digest a.key.bytes = digest b.key.bytes ↔ a.shape = b.shape ∧ a.values = b.values)
  digested : ∀ {δ : Type} [DecidableEq δ] (digest : List UInt8 → δ), CollisionFree digest rows →
    (∀ row ∈ rows, row.key.Fits) →
      rows.eraseDupsBy (fun a b => digest a.key.bytes == digest b.key.bytes) = rows.eraseDups

namespace Query

variable {query : Query} {c : CompiledQuery} {index : Index} {g : Diagram}

/-- The loops of a query that compiles find matches of it, and meet no fault. -/
theorem exists_loops (h : query.compile = .ok c) (hindex : index.Represents g) :
    ∃ found, c.plan.loops c.slots index = ⟨found, none⟩ ∧
      ∀ bindings ∈ found, c.slots.Satisfies g bindings := by
  obtain ⟨hlower, hplan⟩ := of_compile h
  obtain ⟨tags, htags⟩ := exists_lowersTo hlower
  rw [← Search.loops_plan, hplan]
  rcases Nat.eq_zero_or_pos c.slots.size with hsize | hsize
  · rw [moves_of_empty c.slots (Array.size_eq_zero_iff.mp hsize), Search.loops]
    exact ⟨[], rfl, fun _ hmem => absurd hmem List.not_mem_nil⟩
  · obtain ⟨found, hloops, -, hfound⟩ := htags.wellFormed.loops_spec hsize hindex
    exact ⟨found, hloops, fun bindings hmem => (hfound bindings).mp hmem⟩

/-- All matches of a query can be shown, and rows of them with the same items are the same. -/
theorem exists_rows (h : query.compile = .ok c) (hindex : index.Represents g) :
    ∃ (found : List Bindings) (rows : List Row), c.plan.loops c.slots index = ⟨found, none⟩ ∧
      (∀ bindings ∈ found, c.slots.Complete bindings) ∧
        found.map c.slots.project = rows.map .ok ∧
          ∀ a ∈ rows, ∀ b ∈ rows, a.ids = b.ids → a = b := by
  obtain ⟨tags, htags⟩ := exists_lowersTo (of_compile h).1
  obtain ⟨found, hloops, hfound⟩ := exists_loops h hindex
  have hproject : ∀ bindings ∈ found, ∃ row, c.slots.project bindings = .ok row := by
    intro bindings hmem
    obtain ⟨row, hrow, -⟩ := htags.exists_mirrors (hfound bindings hmem).complete
    exact ⟨row, hrow⟩
  choose row hrow using hproject
  have hrows : found.map c.slots.project = (found.pmap row fun _ hmem => hmem).map .ok := by
    rw [List.map_pmap, ← List.pmap_eq_map fun _ hmem => hmem]
    exact List.pmap_congr_left found fun bindings hmem _ _ => hrow bindings hmem
  refine ⟨found, _, hloops, fun bindings hmem => (hfound bindings hmem).complete, hrows,
    fun a ha b hb => ?_⟩
  obtain ⟨bindings, hbindings, rfl⟩ := List.mem_pmap.mp ha
  obtain ⟨bindings', hbindings', rfl⟩ := List.mem_pmap.mp hb
  exact htags.eq_of_project (hfound _ hbindings) (hfound _ hbindings')
    (hrow _ hbindings) (hrow _ hbindings')

/-- The rows of a query are those of its matches, without those that repeat an earlier one. -/
theorem exists_givesRows (h : query.compile = .ok c) (hindex : index.Represents g) :
    ∃ found rows, c.GivesRows index found rows := by
  obtain ⟨found, rows, hloops, hcomplete, hrows, hids⟩ := exists_rows h hindex
  have honce := CompiledQuery.nodup_binds ⟨query, h⟩
  have hfresh := c.plan.fresh_moves c.slots honce
  have hunseen : Harvest.unseen ∅ rows = rows.eraseDups := by
    rw [← Harvest.eraseDupsBy_eq_unseen]
    refine eraseDupsBy_congr fun a ha b hb => ?_
    rw [Bool.eq_iff_iff, beq_iff_eq, beq_iff_eq]
    exact ⟨hids a ha b hb, congrArg Row.ids⟩
  have howes : (Stream.ofQuery c).Owes index rows.eraseDups :=
    ⟨rows, ⟨found, hloops.symm, hrows⟩, hunseen⟩
  have hdigest : ∀ {δ : Type} (digest : List UInt8 → δ), CollisionFree digest rows →
      (∀ row ∈ rows, row.key.Fits) → ∀ a ∈ rows, ∀ b ∈ rows,
        (digest a.key.bytes = digest b.key.bytes ↔ a = b) := by
    intro δ digest hfree hfits a ha b hb
    refine ⟨fun hsame => ?_, fun hsame => by rw [hsame]⟩
    have hkey := (RowKey.bytes_inj (hfits a ha) (hfits b hb)).mp (hfree a ha b hb hsame)
    exact hids a ha b hb (Row.key_eq_key_iff.mp hkey).2
  refine ⟨found, rows, ?_, hcomplete, hrows, CompiledQuery.collect_of_owes howes hfresh,
    Stream.takes_of_owes _ howes hfresh, ?_, ?_⟩
  · rw [Matches.all_eq_loops c.slots c.plan index honce, hloops]
  · intro δ digest hfree hfits a ha b hb
    rw [hdigest digest hfree hfits a ha b hb]
    exact ⟨fun hsame => ⟨congrArg _ hsame, congrArg _ hsame⟩,
      fun hsame => Layout.eq_of_values hsame.1 hsame.2⟩
  · intro δ _ digest hfree hfits
    refine eraseDupsBy_congr fun a ha b hb => ?_
    rw [Bool.eq_iff_iff, beq_iff_eq, beq_iff_eq]
    exact hdigest digest hfree hfits a ha b hb

/--
Every match of a query that binds all slots is shown in the shape of the query, with the items bound to the
slots of what is written in each place.  What is digested of two rows is the same only if they have one shape
and the same items.  On a graph that does not change, the rows of the query are those of its matches, in the
order in which they are found, without those that repeat an earlier one; they are the same rows when they
are taken a few at a time.
-/
theorem rows_mirror_query (h : query.compile = .ok c) :
    (∀ types, (ItemType.root .edge).Mediates types →
      (∀ x t, .isA x t ∈ query.clauses → t.Mediates types) →
        ∃ tags, query.LowersTo types c.slots tags ∧
          (∀ (i : Nat) (slot : Slot) (place : Place), c.slots.slots[i]? = some slot →
            tags[i]? = some place → slot.Bears place) ∧
          ∀ bindings, c.slots.Complete bindings →
            ∃ row, c.slots.project bindings = .ok row ∧ query.Mirrors tags bindings row) ∧
      (∀ a b : Row, a.key.Fits → b.key.Fits →
        (a.key.bytes = b.key.bytes ↔ a.shape = b.shape ∧ a.ids = b.ids)) ∧
      ∀ (index : Index) (g : Diagram), index.Represents g →
        ∃ found rows, c.GivesRows index found rows := by
  refine ⟨fun types hroot hmediates => ?_, fun a b ha hb => ?_,
    fun index g hindex => exists_givesRows h hindex⟩
  · obtain ⟨tags, htags, hbears⟩ := lower_lowersTo_bears hroot hmediates (of_compile h).1
    exact ⟨tags, htags, hbears, fun bindings => htags.exists_mirrors⟩
  · rw [RowKey.bytes_inj ha hb, Row.key_eq_key_iff]

/-- A node with two edges from it is matched twice, and is a row once. -/
theorem hub_is_shown_once :
    ∃ c found rows, compile (.list [.nodeFragment (.any (.root .node)) none []
        [(.leadsTo, .nodeType (.root .node))]]) = .ok c ∧
      c.GivesRows (Index.after [.insertNode ⟨⟨1⟩, .root .node⟩, .insertNode ⟨⟨2⟩, .root .node⟩,
        .insertNode ⟨⟨3⟩, .root .node⟩, .insertEdge ⟨⟨1⟩, .root .edge⟩ ⟨⟨1⟩, ⟨2⟩⟩,
        .insertEdge ⟨⟨2⟩, .root .edge⟩ ⟨⟨1⟩, ⟨3⟩⟩]) found rows ∧
      found.length = 2 ∧ rows.eraseDups = [.list [.node ⟨⟨1⟩, .root .node⟩]] := by
  obtain ⟨c, hc, hshown⟩ := exists_of_compiles
    (.list [.nodeFragment (.any (.root .node)) none [] [(.leadsTo, .nodeType (.root .node))]])
    (fun c => decide ((Matches.all c.slots c.plan (Index.after [.insertNode ⟨⟨1⟩, .root .node⟩,
        .insertNode ⟨⟨2⟩, .root .node⟩, .insertNode ⟨⟨3⟩, .root .node⟩,
        .insertEdge ⟨⟨1⟩, .root .edge⟩ ⟨⟨1⟩, ⟨2⟩⟩,
        .insertEdge ⟨⟨2⟩, .root .edge⟩ ⟨⟨1⟩, ⟨3⟩⟩])).found.length = 2) &&
      decide (c.collect (Index.after [.insertNode ⟨⟨1⟩, .root .node⟩, .insertNode ⟨⟨2⟩, .root .node⟩,
        .insertNode ⟨⟨3⟩, .root .node⟩, .insertEdge ⟨⟨1⟩, .root .edge⟩ ⟨⟨1⟩, ⟨2⟩⟩,
        .insertEdge ⟨⟨2⟩, .root .edge⟩ ⟨⟨1⟩, ⟨3⟩⟩]) = .ok [.list [.node ⟨⟨1⟩, .root .node⟩]]))
    (by decide +kernel)
  rw [Bool.and_eq_true, decide_eq_true_eq, decide_eq_true_eq] at hshown
  obtain ⟨found, rows, hgives⟩ := (rows_mirror_query hc).2.2 _ _ (Index.after_represents _)
  refine ⟨c, found, rows, hc, hgives, ?_, ?_⟩
  · rw [← hshown.1, hgives.all]
  · rw [hgives.collect, Except.ok.injEq] at hshown
    exact hshown.2

end Query

end PatternGraph
