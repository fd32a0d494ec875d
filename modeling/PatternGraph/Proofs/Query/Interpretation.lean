import Mathlib.Data.List.Permutation
import PatternGraph.Proofs.Query.Matches

/-!
# Matches as assignments

An assignment of items to the variables of a query meets its clauses if and only if it can be
extended to the edges that the query implies, so that every slot holds an item that satisfies it.
-/

namespace PatternGraph

namespace Clause

variable {clauses : List (Clause Var)} {path : Path} {a b e : Var} {role role' : Role}

/-- The place of the edge that a clause implies. -/
def impliedPlace? : Clause Var → Option Place
  | joined path _ _ _ => some (.implied path)
  | _ => none

/-- What is expanded says the same of the variables. -/
theorem players_expand_var (clauses : List (Clause Var)) (e : Var) (role : Role) :
    players (.var e) role (clauses.flatMap expand) = (players e role clauses).map Place.var := by
  induction clauses with
  | nil => rfl
  | cons clause clauses ih =>
      rw [List.flatMap_cons, players_append, ih, ← List.singleton_append (l := clauses), players_append,
        List.map_append]
      congr 1
      cases clause with
      | plays n e' role' =>
          by_cases hsame : e' = e ∧ role' = role
          · simp [expand, players, hsame]
          · simp [expand, players, hsame]
      | joined path a b role' => simp [expand, implied, Lowering.typedClauses, players]
      | member x kind => rfl
      | same x item => rfl
      | isA x type => rfl
      | isNot x type => rfl

/-- Relations between two nodes are spelled out. -/
theorem not_joined_mem_expand {path : Path} {a b : Place} {role : Role} :
    .joined path a b role ∉ clauses.flatMap expand := by
  intro hmem
  obtain ⟨clause, -, hclause⟩ := List.mem_flatMap.mp hmem
  cases clause <;> simp [expand, implied, Lowering.typedClauses] at hclause

/-- What is said of an implied edge comes from the clause that implies it. -/
theorem impliedPlace?_of_mem_expand
    {clause : Clause Var}
    {clause' : Clause Place}
    (hmem : clause' ∈ clause.expand)
    (hsubject : clause'.subject = .implied path) :
    clause.impliedPlace? = some (.implied path) := by
  cases clause with
  | joined path' a b role =>
      have hall : ∀ clause ∈ implied path' a b role, clause.subject = .implied path' := by
        simp [implied, Lowering.typedClauses, subject]
      rw [impliedPlace?, ← hall clause' hmem, hsubject]
  | member x kind =>
      obtain rfl := List.mem_singleton.mp hmem
      cases hsubject
  | same x item =>
      obtain rfl := List.mem_singleton.mp hmem
      cases hsubject
  | isA x type =>
      obtain rfl := List.mem_singleton.mp hmem
      cases hsubject
  | isNot x type =>
      obtain rfl := List.mem_singleton.mp hmem
      cases hsubject
  | plays n e role =>
      obtain rfl := List.mem_singleton.mp hmem
      cases hsubject

theorem players_implied_eq_nil (h : .implied path ∉ clauses.filterMap impliedPlace?) (role : Role) :
    players (.implied path) role (clauses.flatMap expand) = [] := by
  apply players_eq_nil
  rintro clause' hclause' hsubject
  obtain ⟨clause, hclause, hmem⟩ := List.mem_flatMap.mp hclause'
  exact h (List.mem_filterMap.mpr ⟨clause, hclause, impliedPlace?_of_mem_expand hmem hsubject⟩)

theorem players_implied (path : Path) (a b : Var) (role : Role) :
    players (.implied path) .endpoint (implied path a b role) =
      if role = .endpoint then [.var a, .var b] else [] := by
  cases role <;> simp [players, implied, Lowering.typedClauses, Role.opposite]

/-- What is said of the players on an implied edge is said by the clause that implies it. -/
theorem players_expand_implied
    (hnodup : (clauses.filterMap impliedPlace?).Nodup)
    (h : .joined path a b role ∈ clauses)
    (role' : Role) :
    players (.implied path) role' (clauses.flatMap expand) =
      players (.implied path) role' (implied path a b role) := by
  induction clauses with
  | nil => cases h
  | cons clause clauses ih =>
      rw [List.flatMap_cons, players_append]
      rcases List.mem_cons.mp h with rfl | h
      · have hrest : .implied path ∉ clauses.filterMap impliedPlace? :=
          (List.nodup_cons.mp hnodup).1
        rw [players_implied_eq_nil hrest, List.append_nil]
        rfl
      · have hplace : .implied path ∈ clauses.filterMap impliedPlace? :=
          List.mem_filterMap.mpr ⟨_, h, rfl⟩
        have hother : clause.impliedPlace? ≠ some (.implied path) := by
          intro hsame
          rw [List.filterMap_cons_some hsame] at hnodup
          exact (List.nodup_cons.mp hnodup).1 hplace
        have hfirst : players (.implied path) role' clause.expand = [] :=
          players_eq_nil fun clause' hmem hsubject =>
            hother (impliedPlace?_of_mem_expand hmem hsubject)
        have hnodup' : (clauses.filterMap impliedPlace?).Nodup := by
          refine hnodup.sublist (List.Sublist.filterMap _ (List.sublist_cons_self _ _))
        rw [hfirst, List.nil_append, ih hnodup' h]

/-- A relation is implied once. -/
theorem joined_unique
    {a' b' : Var}
    (hnodup : (clauses.filterMap impliedPlace?).Nodup)
    (h : .joined path a b role ∈ clauses)
    (h' : .joined path a' b' role' ∈ clauses) :
    a = a' ∧ b = b' ∧ role = role' := by
  induction clauses with
  | nil => cases h
  | cons clause clauses ih =>
      have hplace : ∀ {x y r}, .joined path x y r ∈ clauses →
          .implied path ∈ clauses.filterMap impliedPlace? :=
        fun hmem => List.mem_filterMap.mpr ⟨_, hmem, rfl⟩
      rcases List.mem_cons.mp h with rfl | hrest
      · rcases List.mem_cons.mp h' with heq | hrest'
        · cases heq
          exact ⟨rfl, rfl, rfl⟩
        · exact absurd (hplace hrest') (List.nodup_cons.mp hnodup).1
      · rcases List.mem_cons.mp h' with rfl | hrest'
        · exact absurd (hplace hrest) (List.nodup_cons.mp hnodup).1
        · exact ih (hnodup.sublist (List.Sublist.filterMap _ (List.sublist_cons_self _ _)))
            hrest hrest'

end Clause

namespace Pattern

mutual

/-- Each relation of a pattern implies one edge at most. -/
theorem implied_sublist_places (names : List String) : ∀ (p : Pattern) (path : Path),
    ((p.clauses names path).filterMap Clause.impliedPlace?).Sublist (p.places path)
  | nodeType type, path => List.nil_sublist _
  | edgeType type, path => List.nil_sublist _
  | node n, path => List.nil_sublist _
  | edge e, path => List.nil_sublist _
  | reference name, path => List.nil_sublist _
  | nodeFragment base name excluding relations, path => by
      have hrest := implied_sublist_nodePlaces names relations path
        (base.var name path fun n => .node n.id) 0
      have hexcluded : (excluding.map fun type => Clause.isNot
          (base.var name path fun n => .node n.id) (.node type)).filterMap Clause.impliedPlace? = [] := by
        simp [List.filterMap_eq_nil_iff, Clause.impliedPlace?]
      have hbase : (nodeBase (base.var name path fun n => .node n.id) base).filterMap
          Clause.impliedPlace? = [] := by
        cases base <;> rfl
      rw [clauses, List.filterMap_append, List.filterMap_append, hbase, hexcluded]
      exact hrest.cons _
  | edgeFragment base name excluding relations, path => by
      have hrest := implied_sublist_edgePlaces names relations path
        (base.var name path fun e => .edge e.id) 0
      have hexcluded : (excluding.map fun type => Clause.isNot
          (base.var name path fun e => .edge e.id) (.edge type)).filterMap Clause.impliedPlace? = [] := by
        simp [List.filterMap_eq_nil_iff, Clause.impliedPlace?]
      have hbase : (edgeBase (base.var name path fun e => .edge e.id) base).filterMap
          Clause.impliedPlace? = [] := by
        cases base <;> rfl
      rw [clauses, List.filterMap_append, List.filterMap_append, hbase, hexcluded]
      exact hrest.cons _

theorem implied_sublist_nodePlaces (names : List String) :
    ∀ (relations : List (Relation × Pattern)) (path : Path) (x : Var) (i : Nat),
      ((nodeClauses names path x i relations).filterMap Clause.impliedPlace?).Sublist
        (relationPlaces path i relations)
  | [], _, _, _ => List.nil_sublist _
  | (relation, p) :: rest, path, x, i => by
      have hp := implied_sublist_places names p (i :: path)
      have hrest := implied_sublist_nodePlaces names rest path x (i + 1)
      rw [nodeClauses, List.filterMap_append, List.filterMap_append]
      refine List.Sublist.append ?_ hrest
      unfold related
      split
      · exact hp.cons _
      · exact hp.cons_cons _

theorem implied_sublist_edgePlaces (names : List String) :
    ∀ (relations : List (Relation × Pattern)) (path : Path) (x : Var) (i : Nat),
      ((edgeClauses names path x i relations).filterMap Clause.impliedPlace?).Sublist
        (relationPlaces path i relations)
  | [], _, _, _ => List.nil_sublist _
  | (relation, p) :: rest, path, x, i => by
      have hp := implied_sublist_places names p (i :: path)
      have hrest := implied_sublist_edgePlaces names rest path x (i + 1)
      rw [edgeClauses, List.filterMap_append, List.filterMap_append]
      exact List.Sublist.append (hp.cons _) hrest

end

end Pattern

/-- Different relations of some patterns imply different edges. -/
theorem Query.nodup_implied_patterns (names : List String) (items : List Pattern) :
    ((Lowering.patternClauses names items 0).filterMap Clause.impliedPlace?).Nodup := by
  have hsublist : ∀ (items : List Pattern) (i : Nat),
      ((Lowering.patternClauses names items i).filterMap Clause.impliedPlace?).Sublist
        (Query.places items i) := by
    intro items
    induction items with
    | nil => exact fun _ => List.nil_sublist _
    | cons p items ih =>
        intro i
        have hp := Pattern.implied_sublist_places names p [i]
        have hrest := ih (i + 1)
        simp only [Lowering.patternClauses] at hrest ⊢
        rw [List.zipIdx_cons, List.flatMap_cons, List.filterMap_append, Query.places_cons]
        exact hp.append hrest
  exact (Query.nodup_places items 0).sublist (hsublist items 0)

/-- Different relations of a query imply different edges. -/
theorem Query.nodup_implied (query : Query) :
    (query.clauses.filterMap Clause.impliedPlace?).Nodup :=
  Query.nodup_implied_patterns query.edgeNames query.values

namespace Diagram

variable {g : Diagram} {a b : Item} {e : Edge} {role : Role}

theorem ItemJoins.symm {edge : Item} (h : g.ItemJoins edge a b) : g.ItemJoins edge b a := by
  obtain ⟨e, m, n, rfl, rfl, rfl, w, hw, hends⟩ := h
  exact ⟨e, n, m, rfl, rfl, rfl, w, hw, hends.symm⟩

theorem ItemJoins.plays {edge : Item} (h : g.ItemJoins edge a b) :
    g.ItemPlays a edge .endpoint := by
  obtain ⟨e, m, n, rfl, rfl, rfl, w, hw, hends⟩ := h
  refine ⟨m, e, rfl, rfl, w, hw, ?_⟩
  rcases hends with hends | hends
  · exact Or.inl (by rw [hends])
  · exact Or.inr (by rw [hends])

/-- Two items are related by an edge on which they play their roles. -/
theorem Related.exists_edge (h : g.Related a b role) :
    ∃ e, g.Has (.edge e) ∧ g.ItemPlays a (.edge e) role ∧ g.ItemPlays b (.edge e) role.opposite ∧
      (role = .endpoint → g.ItemJoins (.edge e) a b) := by
  cases role with
  | source =>
      obtain ⟨e, he, ha, hb⟩ := h
      exact ⟨e, he, ha, hb, nofun⟩
  | target =>
      obtain ⟨e, he, ha, hb⟩ := h
      exact ⟨e, he, ha, hb, nofun⟩
  | endpoint =>
      obtain ⟨e, he, hjoins⟩ := h
      exact ⟨e, he, hjoins.plays, hjoins.symm.plays, fun _ => hjoins⟩

end Diagram

/-- The items at all places, given those at the variables and the edges that are implied. -/
def Place.itemOf (σ : Var → Item) (f : List Nat → Edge) : Place → Item
  | .var v => σ v
  | .implied path => .edge (f path)

namespace Means

variable {g : Diagram} {clauses : List (Clause Var)} {σ : Var → Item} {τ : Place → Item}

/-- What meets the expanded clauses meets the clauses. -/
theorem of_expand
    (hnodup : (clauses.filterMap Clause.impliedPlace?).Nodup)
    (h : Means g (clauses.flatMap Clause.expand) τ) :
    Means g clauses fun v => τ (.var v) := by
  have heach : ∀ {clause clause'}, clause ∈ clauses → clause' ∈ Clause.expand clause →
      clause'.Holds g τ :=
    fun hclause hmem => h.each _ (List.mem_flatMap.mpr ⟨_, hclause, hmem⟩)
  constructor
  · intro clause hclause
    cases clause with
    | member x kind => exact heach hclause (List.mem_singleton.mpr rfl)
    | same x item => exact heach hclause (List.mem_singleton.mpr rfl)
    | isA x type => exact heach hclause (List.mem_singleton.mpr rfl)
    | isNot x type => exact heach hclause (List.mem_singleton.mpr rfl)
    | plays n e role => exact heach hclause (List.mem_singleton.mpr rfl)
    | joined path a b role =>
        have hmember : Clause.Holds g τ (.member (.implied path) .edge) :=
          heach hclause (by simp [Clause.expand, Clause.implied, Lowering.typedClauses,
            ItemType.root, ItemType.kind])
        have hplays : Clause.Holds g τ (.plays (.var a) (.implied path) role) :=
          heach hclause (by simp [Clause.expand, Clause.implied])
        have hplays' : Clause.Holds g τ (.plays (.var b) (.implied path) role.opposite) :=
          heach hclause (by simp [Clause.expand, Clause.implied])
        have hends := h.ends (.implied path) (.var a) (.var b)
        rw [Clause.players_expand_implied hnodup hclause, Clause.players_implied] at hends
        obtain ⟨hhas, hkind⟩ := hmember
        simp only [Clause.Holds] at hplays hplays' ⊢
        cases hitem : τ (.implied path) with
        | node n =>
            rw [hitem] at hkind
            cases hkind
        | edge e =>
            rw [hitem] at hhas hplays hplays' hends
            cases role with
            | source => exact ⟨e, hhas, hplays, hplays'⟩
            | target => exact ⟨e, hhas, hplays, hplays'⟩
            | endpoint => exact ⟨e, hhas, hends rfl⟩
  · intro e a b hplayers
    apply h.ends (.var e) (.var a) (.var b)
    rw [Clause.players_expand_var, hplayers]
    rfl

/-- What meets the clauses can be extended to the edges that they imply. -/
theorem exists_expand
    (hroot : ∀ e, g.Has (.edge e) → (Item.edge e).type.isA (.root .edge) = true)
    (hnodup : (clauses.filterMap Clause.impliedPlace?).Nodup)
    (h : Means g clauses σ) :
    ∃ τ : Place → Item, (∀ v, τ (.var v) = σ v) ∧ Means g (clauses.flatMap Clause.expand) τ := by
  have hedges : ∀ path, ∃ e, ∀ a b role, .joined path a b role ∈ clauses →
      g.Has (.edge e) ∧ g.ItemPlays (σ a) (.edge e) role ∧
        g.ItemPlays (σ b) (.edge e) role.opposite ∧
          (role = .endpoint → g.ItemJoins (.edge e) (σ a) (σ b)) := by
    intro path
    by_cases hpath : ∃ a b role, .joined path a b role ∈ clauses
    · obtain ⟨a, b, role, hclause⟩ := hpath
      obtain ⟨e, hedge⟩ := (h.each _ hclause).exists_edge
      refine ⟨e, fun a' b' role' hclause' => ?_⟩
      obtain ⟨rfl, rfl, rfl⟩ := Clause.joined_unique hnodup hclause hclause'
      exact hedge
    · exact ⟨default, fun a b role hclause => absurd ⟨a, b, role, hclause⟩ hpath⟩
  choose f hf using hedges
  refine ⟨Place.itemOf σ f, fun v => rfl, ?_, ?_⟩
  · intro clause' hclause'
    obtain ⟨clause, hclause, hmem⟩ := List.mem_flatMap.mp hclause'
    have hholds := h.each clause hclause
    cases clause with
    | member x kind =>
        obtain rfl := List.mem_singleton.mp hmem
        exact hholds
    | same x item =>
        obtain rfl := List.mem_singleton.mp hmem
        exact hholds
    | isA x type =>
        obtain rfl := List.mem_singleton.mp hmem
        exact hholds
    | isNot x type =>
        obtain rfl := List.mem_singleton.mp hmem
        exact hholds
    | plays n e role =>
        obtain rfl := List.mem_singleton.mp hmem
        exact hholds
    | joined path a b role =>
        obtain ⟨hhas, ha, hb, -⟩ := hf path a b role hclause
        simp only [Clause.expand, Clause.implied, Lowering.typedClauses, List.mem_append,
          List.mem_cons, List.not_mem_nil, or_false] at hmem
        rcases hmem with (rfl | rfl) | rfl | rfl
        · exact ⟨hhas, rfl⟩
        · exact hroot _ hhas
        · exact ha
        · exact hb
  · rintro (e | path) p q hplayers
    · rw [Clause.players_expand_var] at hplayers
      obtain ⟨a, rest, hplayers', rfl, hrest⟩ := List.map_eq_cons_iff.mp hplayers
      obtain ⟨b, rest', rfl, rfl, hnil⟩ := List.map_eq_cons_iff.mp hrest
      obtain rfl := List.map_eq_nil_iff.mp hnil
      exact h.ends e a b hplayers'
    · by_cases hpath : ∃ a b role, .joined path a b role ∈ clauses
      · obtain ⟨a, b, role, hclause⟩ := hpath
        obtain ⟨-, -, -, hjoins⟩ := hf path a b role hclause
        rw [Clause.players_expand_implied hnodup hclause, Clause.players_implied] at hplayers
        split at hplayers
        · rename_i hrole
          cases hplayers
          exact hjoins hrole
        · cases hplayers
      · rw [Clause.players_implied_eq_nil] at hplayers
        · cases hplayers
        · intro hmem
          obtain ⟨clause, hclause, hplace⟩ := List.mem_filterMap.mp hmem
          cases clause <;> cases hplace
          exact hpath ⟨_, _, _, hclause⟩

end Means

namespace Slot

variable {types : List ItemType} {tags : List Place} {clauses : List (Clause Place)}
  {place : Place} {slot : Slot}

theorem admits_iff
    {t : ItemType}
    {kind : Kind}
    (hkind : slot.kind.itemKind = some kind)
    (hroot : t.isA (.root kind) = true) :
    slot.admits t = true ↔
      (∀ u, slot.type = some u → t.isA u = true) ∧ ∀ u ∈ slot.excluded, ¬t.isA u = true := by
  unfold admits scanType
  cases slot.type with
  | none => simp [hkind, hroot]
  | some u => simp

/-- A slot accepts the members that meet what is said of its place. -/
theorem Fits.accepts_iff
    {item : Item}
    (hfits : slot.Fits types tags clauses place)
    (hsettled : slot.kind ≠ .unknown)
    (htype : item.type ∈ types)
    (hroot : item.type.isA (.root item.kind) = true) :
    slot.accepts item = true ↔
      (∀ kind, .member place kind ∈ clauses → item.kind = kind) ∧
      (∀ i, .same place i ∈ clauses → item.id = i.id) ∧
      (∀ u, .isA place u ∈ clauses → item.type.isA u = true) ∧
      ∀ u, .isNot place u ∈ clauses → ¬item.type.isA u = true := by
  obtain ⟨kind, hkind⟩ : ∃ kind, slot.kind.itemKind = some kind := by
    cases hcase : slot.kind with
    | node => exact ⟨.node, rfl⟩
    | edge => exact ⟨.edge, rfl⟩
    | unknown => exact absurd hcase hsettled
  have hsame : (∀ p, slot.pinned = some p → p.id = item.id) ↔
      ∀ i, .same place i ∈ clauses → item.id = i.id := by
    rw [hfits.pinned]
    exact forall_congr' fun i => imp_congr_right fun _ => eq_comm
  have hkinds : slot.kind.itemKind = some item.kind ↔
      ∀ kind, .member place kind ∈ clauses → item.kind = kind := by
    constructor
    · intro hitem kind hmember
      rw [← hfits.kind, hitem] at hmember
      exact Option.some.inj hmember
    · intro hall
      rw [hall kind ((hfits.kind kind).mp hkind), hkind]
  rw [Slot.accepts_iff, hsame, hkinds]
  refine and_congr_right fun hall => and_congr_right fun _ => ?_
  rw [admits_iff (hkinds.mpr hall) hroot, hfits.type _ htype]
  refine and_congr_right fun _ => forall_congr' fun u => ?_
  rw [hfits.excluded]

end Slot

namespace Query.LowersTo

variable {types : List ItemType} {query : Query} {s : Slots} {tags : List Place} {g : Diagram}
  {row : Bindings} {τ : Place → Item}

/-- Whether a row binds each slot to the item that is assigned to its place. -/
structure Shows (tags : List Place) (row : Bindings) (τ : Place → Item) : Prop where
  size : row.size = tags.length
  item : ∀ (i : Nat) (place : Place), tags[i]? = some place → row[i]? = some (some (τ place))

/-- The partners of an edge slot are the slots of the players. -/
theorem mem_partners
    {i j : Nat}
    {slot : Slot}
    {place n : Place}
    {role : Role}
    (h : query.LowersTo types s tags)
    (hslot : s.slots[i]? = some slot)
    (hplace : tags[i]? = some place)
    (hkind : slot.kind = .edge)
    (hn : tags[j]? = some n) :
    j ∈ slot.partners role ↔ .plays n place role ∈ query.clauses.flatMap Clause.expand := by
  have hpartners := (h.fits i slot place hslot hplace).partners (by rw [hkind]; exact nofun) role
  rw [← Clause.mem_players]
  constructor
  · intro hj
    have hmem := hpartners.subset (List.mem_map_of_mem hj)
    rw [hn] at hmem
    simpa using hmem
  · intro hplays
    have hmem := hpartners.symm.subset (List.mem_map_of_mem hplays)
    obtain ⟨j', hj', htag⟩ := List.mem_map.mp hmem
    obtain rfl := h.index_unique htag hn
    exact hj'

theorem slot_of_mem
    {place : Place}
    (h : query.LowersTo types s tags)
    (hplace : place ∈ tags) :
    ∃ (i : Nat) (slot : Slot), tags[i]? = some place ∧ s.slots[i]? = some slot := by
  obtain ⟨i, hi⟩ := List.mem_iff_getElem?.mp hplace
  have hlt : i < s.slots.size := by
    rw [← h.length]
    exact (List.getElem?_eq_some_iff.mp hi).1
  exact ⟨i, _, hi, Array.getElem?_eq_getElem hlt⟩

/-- What an edge slot lists has a place. -/
theorem tag_of_partner
    {i j : Nat}
    {slot : Slot}
    {place : Place}
    {role : Role}
    (h : query.LowersTo types s tags)
    (hslot : s.slots[i]? = some slot)
    (hplace : tags[i]? = some place)
    (hkind : slot.kind = .edge)
    (hj : j ∈ slot.partners role) :
    ∃ n, tags[j]? = some n := by
  have hpartners := (h.fits i slot place hslot hplace).partners (by rw [hkind]; exact nofun) role
  obtain ⟨n, -, hn⟩ := List.mem_map.mp (hpartners.subset (List.mem_map_of_mem hj))
  exact ⟨n, hn.symm⟩

theorem eq_pair_of_map_eq {l : List Nat} {p q : Place}
    (h : (l.map fun j => tags[j]?) = [some p, some q]) :
    ∃ j k, l = [j, k] ∧ tags[j]? = some p ∧ tags[k]? = some q := by
  obtain ⟨j, rest, rfl, hj, hrest⟩ := List.map_eq_cons_iff.mp h
  obtain ⟨k, rest', rfl, hk, hnil⟩ := List.map_eq_cons_iff.mp hrest
  obtain rfl := List.map_eq_nil_iff.mp hnil
  exact ⟨j, k, rfl, hj, hk⟩

/-- An edge slot that lists two ends lists those that are said to be its ends, in some order. -/
theorem ends_perm
    {i : Nat}
    {slot : Slot}
    {place : Place}
    (h : query.LowersTo types s tags)
    (hslot : s.slots[i]? = some slot)
    (hplace : tags[i]? = some place)
    (hkind : slot.kind = .edge) :
    (slot.ends.map fun j => tags[j]?).Perm
      ((Clause.players place .endpoint (query.clauses.flatMap Clause.expand)).map some) :=
  (h.fits i slot place hslot hplace).partners (by rw [hkind]; exact nofun) .endpoint

/-- An edge that plays a part in a clause has a slot, and so has the node. -/
theorem slots_of_plays
    {n e : Place}
    {role : Role}
    (h : query.LowersTo types s tags)
    (hplays : .plays n e role ∈ query.clauses.flatMap Clause.expand) :
    ∃ (i j : Nat) (slot : Slot), tags[j]? = some n ∧ tags[i]? = some e ∧
      s.slots[i]? = some slot ∧ slot.kind = .edge ∧ j ∈ slot.partners role := by
  obtain ⟨hnode, hedge⟩ := h.played n e role hplays
  obtain ⟨j, -, hj, -, -⟩ := h.slot_of_member hnode
  obtain ⟨i, slot, hi, hslot, hitemKind⟩ := h.slot_of_member hedge
  have hkind : slot.kind = .edge := by
    cases hcase : slot.kind with
    | edge => rfl
    | node =>
        rw [hcase] at hitemKind
        cases hitemKind
    | unknown =>
        rw [hcase] at hitemKind
        cases hitemKind
  exact ⟨i, j, slot, hj, hi, hslot, hkind, (h.mem_partners hslot hi hkind hj).mpr hplays⟩

/-- Of every place it is said which kind it has. -/
theorem member_of_mem
    {place : Place}
    (h : query.LowersTo types s tags)
    (hplace : place ∈ tags) :
    ∃ kind, .member place kind ∈ query.clauses.flatMap Clause.expand := by
  obtain ⟨i, slot, hi, hslot⟩ := h.slot_of_mem hplace
  have hfits := h.fits i slot place hslot hi
  cases hcase : slot.kind with
  | node => exact ⟨.node, (hfits.kind .node).mp (by rw [hcase]; rfl)⟩
  | edge => exact ⟨.edge, (hfits.kind .edge).mp (by rw [hcase]; rfl)⟩
  | unknown => exact absurd hcase (h.settled slot (Array.mem_of_getElem? hslot))

/-- A match, read as an assignment, meets what the query says. -/
theorem means_of_satisfies
    (h : query.LowersTo types s tags)
    (hitems : ∀ item, g.Has item → item.type ∈ types)
    (hroots : ∀ item, g.Has item → item.type.isA (.root item.kind) = true)
    (hrow : Shows tags row τ)
    (hsatisfies : s.Satisfies g row) :
    Means g (query.clauses.flatMap Clause.expand) τ := by
  constructor
  · intro clause hclause
    obtain ⟨i, slot, hplace, hslot⟩ := h.slot_of_mem (h.subjects clause hclause)
    obtain ⟨item, hitem, hhas, haccepts⟩ := hsatisfies.items i slot hslot
    rw [hrow.item i _ hplace, Option.some.injEq, Option.some.injEq] at hitem
    subst hitem
    obtain ⟨hkinds, hsame, his, hnot⟩ := ((h.fits i slot _ hslot hplace).accepts_iff
      (h.settled slot (Array.mem_of_getElem? hslot)) (hitems _ hhas) (hroots _ hhas)).mp haccepts
    cases clause with
    | member x kind => exact ⟨hhas, hkinds kind hclause⟩
    | same x item => exact hsame item hclause
    | isA x type => exact his type hclause
    | isNot x type => exact hnot type hclause
    | plays n e role =>
        obtain ⟨i, j, slot, hj, hi, hslot, hkind, hpartner⟩ := h.slots_of_plays hclause
        obtain ⟨n', e', hn, he, hplays⟩ :=
          hsatisfies.links ⟨j, i, role⟩ ((Slots.mem_connections s _).mpr ⟨slot, hslot, hkind, hpartner⟩)
        rw [hrow.item j n hj, Option.some.injEq, Option.some.injEq] at hn
        rw [hrow.item i e hi, Option.some.injEq, Option.some.injEq] at he
        exact ⟨n', e', hn, he, hplays⟩
    | joined path a b role => exact absurd hclause Clause.not_joined_mem_expand
  · intro e a b hplayers
    have hplays : .plays a e .endpoint ∈ query.clauses.flatMap Clause.expand := by
      rw [← Clause.mem_players, hplayers]
      exact List.mem_cons_self
    obtain ⟨i, -, slot, -, hi, hslot, hkind, -⟩ := h.slots_of_plays hplays
    have hperm := h.ends_perm hslot hi hkind
    rw [hplayers] at hperm
    have hjoins : ∀ {j k p q}, slot.ends = [j, k] → tags[j]? = some p → tags[k]? = some q →
        g.ItemJoins (τ e) (τ p) (τ q) := by
      intro j k p q hends hp hq
      obtain ⟨e', m, n, he, hm, hn, hjoins⟩ := hsatisfies.pairs i slot j k hslot hkind hends
      rw [hrow.item i e hi, Option.some.injEq, Option.some.injEq] at he
      rw [hrow.item j p hp, Option.some.injEq, Option.some.injEq] at hm
      rw [hrow.item k q hq, Option.some.injEq, Option.some.injEq] at hn
      exact ⟨e', m, n, he, hm, hn, hjoins⟩
    rcases List.perm_pair.mp hperm with hends | hends
    · obtain ⟨j, k, hslotEnds, hj, hk⟩ := eq_pair_of_map_eq hends
      exact hjoins hslotEnds hj hk
    · obtain ⟨j, k, hslotEnds, hj, hk⟩ := eq_pair_of_map_eq hends
      exact (hjoins hslotEnds hj hk).symm

/-- An assignment that meets what the query says is a match. -/
theorem satisfies_of_means
    (h : query.LowersTo types s tags)
    (hitems : ∀ item, g.Has item → item.type ∈ types)
    (hroots : ∀ item, g.Has item → item.type.isA (.root item.kind) = true)
    (hrow : Shows tags row τ)
    (hmeans : Means g (query.clauses.flatMap Clause.expand) τ) :
    s.Satisfies g row := by
  constructor
  · rw [hrow.size, h.length]
    rfl
  · intro i slot hslot
    obtain ⟨place, hplace, hfits⟩ := h.exists_tag hslot
    have hsettled := h.settled slot (Array.mem_of_getElem? hslot)
    obtain ⟨kind, hmember⟩ := h.member_of_mem (List.mem_of_getElem? hplace)
    have hhas : g.Has (τ place) := (hmeans.each _ hmember).1
    refine ⟨τ place, hrow.item i place hplace, hhas, ?_⟩
    rw [hfits.accepts_iff hsettled (hitems _ hhas) (hroots _ hhas)]
    exact ⟨fun kind hclause => (hmeans.each _ hclause).2, fun item hclause => hmeans.each _ hclause,
      fun u hclause => hmeans.each _ hclause, fun u hclause => hmeans.each _ hclause⟩
  · intro c hc
    obtain ⟨slot, hslot, hkind, hnode⟩ := (Slots.mem_connections s c).mp hc
    obtain ⟨e, he, -⟩ := h.exists_tag hslot
    obtain ⟨n, hn⟩ := h.tag_of_partner hslot he hkind hnode
    have hplays := (h.mem_partners hslot he hkind hn).mp hnode
    obtain ⟨n', e', hnode', hedge', hplays'⟩ := hmeans.each _ hplays
    refine ⟨n', e', ?_, ?_, hplays'⟩
    · rw [hrow.item _ n hn, hnode']
    · rw [hrow.item _ e he, hedge']
  · intro edge slot a b hslot hkind hends
    obtain ⟨e, he, -⟩ := h.exists_tag hslot
    have hperm := h.ends_perm hslot he hkind
    rw [hends] at hperm
    have hmem : ∀ j ∈ slot.partners .endpoint, ∃ n, tags[j]? = some n :=
      fun j hj => h.tag_of_partner hslot he hkind hj
    obtain ⟨p, hp⟩ := hmem a (by simp [Slot.partners, hends])
    obtain ⟨q, hq⟩ := hmem b (by simp [Slot.partners, hends])
    have hjoins : g.ItemJoins (τ e) (τ p) (τ q) := by
      rw [List.map_cons, List.map_cons, hp, hq] at hperm
      have hinjective := List.map_injective_iff.mpr (Option.some_injective Place)
      rcases List.pair_perm.mp hperm with hplayers | hplayers
      · exact hmeans.ends e p q (hinjective hplayers)
      · exact (hmeans.ends e q p (hinjective hplayers)).symm
    obtain ⟨e', m, n, hedge', hm, hn, hjoins⟩ := hjoins
    refine ⟨e', m, n, ?_, ?_, ?_, hjoins⟩
    · rw [hrow.item _ e he, hedge']
    · rw [hrow.item _ p hp, hm]
    · rw [hrow.item _ q hq, hn]

/-- Every assignment to the places is shown by a row. -/
theorem exists_shows (tags : List Place) (τ : Place → Item) : ∃ row, Shows tags row τ := by
  refine ⟨(tags.map fun place => some (τ place)).toArray, by simp, fun i place hplace => ?_⟩
  simp [hplace]

/-- Every row with an item in each slot shows an assignment to the places. -/
theorem exists_shown_of_complete (h : query.LowersTo types s tags) (hrow : s.Complete row) :
    ∃ τ, Shows tags row τ := by
  refine ⟨fun place => ((row[tags.idxOf place]?).join).getD default, ?_, fun i place hplace => ?_⟩
  · rw [hrow.size, h.length]
    rfl
  · obtain ⟨hlt, hget⟩ := List.getElem?_eq_some_iff.mp hplace
    have hindex : tags.idxOf place = i := by rw [← hget, h.nodup.idxOf_getElem]
    have hi : i < s.size := by rwa [Slots.size, ← h.length]
    obtain ⟨item, hitem⟩ := hrow.bound i hi
    rw [hindex, hitem]
    rfl

/-- Every match shows an assignment to the places. -/
theorem exists_shown (h : query.LowersTo types s tags) (hsatisfies : s.Satisfies g row) :
    ∃ τ, Shows tags row τ :=
  h.exists_shown_of_complete hsatisfies.complete

/-- A match is projected to the items that are assigned to the variables of the patterns. -/
theorem project_eq (h : query.LowersTo types s tags) (hrow : Shows tags row τ) :
    s.project row = .ok (query.vars.map fun v => τ (.var v)) := by
  have hlookup : ∀ i ∈ s.outputs.values, ∃ v, tags[i]? = some (.var v) ∧
      Slots.lookup row i = some (τ (.var v)) := by
    intro i hi
    have hmem : tags[i]? ∈ s.outputs.values.map fun i => tags[i]? := List.mem_map_of_mem hi
    rw [h.outputs] at hmem
    obtain ⟨v, -, hv⟩ := List.mem_map.mp hmem
    refine ⟨v, hv.symm, ?_⟩
    rw [Slots.lookup, hrow.item i _ hv.symm]
    rfl
  have hbound : ∀ i < s.size, ∃ item, Slots.lookup row i = some item := by
    intro i hi
    obtain ⟨place, htag, -⟩ := h.exists_tag (Array.getElem?_eq_getElem hi)
    refine ⟨τ place, ?_⟩
    rw [Slots.lookup, hrow.item i place htag]
    rfl
  have hvalues : s.outputs.values.map (fun i => (Slots.lookup row i).getD default) =
      query.vars.values.map fun v => τ (.var v) := by
    calc s.outputs.values.map (fun i => (Slots.lookup row i).getD default)
      _ = s.outputs.values.map fun i => (tags[i]?.map τ).getD default := by
        refine List.map_congr_left fun i hi => ?_
        obtain ⟨v, htag, hv⟩ := hlookup i hi
        rw [htag, hv]
        rfl
      _ = (s.outputs.values.map fun i => tags[i]?).map fun place => (place.map τ).getD default := by
        rw [List.map_map]
        rfl
      _ = query.vars.values.map fun v => τ (.var v) := by
        rw [h.outputs, List.map_map]
        rfl
  rw [h.placed.project_eq hbound]
  exact congrArg Except.ok (Layout.eq_of_values h.shape hvalues)

/-- The rows of a query are what its matches are projected to. -/
theorem isRow_iff
    (h : query.LowersTo types s tags)
    (hitems : ∀ item, g.Has item → item.type ∈ types)
    (hroots : ∀ item, g.Has item → item.type.isA (.root item.kind) = true)
    (r : Row) :
    query.IsRow g r ↔ ∃ row, s.Satisfies g row ∧ s.project row = .ok r := by
  constructor
  · rintro ⟨σ, hσ, rfl⟩
    obtain ⟨τ, hτ, hmeans⟩ :=
      hσ.exists_expand (fun e he => hroots (.edge e) he) query.nodup_implied
    obtain ⟨row, hrow⟩ := exists_shows tags τ
    refine ⟨row, h.satisfies_of_means hitems hroots hrow hmeans, ?_⟩
    rw [h.project_eq hrow, funext hτ]
  · rintro ⟨row, hsatisfies, hproject⟩
    obtain ⟨τ, hrow⟩ := h.exists_shown hsatisfies
    have hmeans := h.means_of_satisfies hitems hroots hrow hsatisfies
    rw [h.project_eq hrow, Except.ok.injEq] at hproject
    exact ⟨_, hmeans.of_expand query.nodup_implied, hproject.symm⟩

end Query.LowersTo

end PatternGraph
