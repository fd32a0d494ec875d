import PatternGraph.Proofs.Query.Answers
import PatternGraph.Proofs.Query.Gaining
import PatternGraph.Proofs.Query.Naming

/-!
# Links stated from both sides

A node fragment may be related to an edge, and a fragment of that edge to the node.  When one of them
says so already and the other one is made to say it too, a link with a direction stays what it was.
The ends of an edge without a direction are counted as often as they are said: a second mention of the
only end makes it both ends, and a third one is too many.
-/

namespace PatternGraph

namespace Relation

/-- What an edge is to a node that is related to it in some way. -/
def mirrored : Relation → Relation
  | leadsTo => comesFrom
  | comesFrom => leadsTo
  | joinedWith => eitherEnd
  | eitherEnd => joinedWith

theorem ofEdge_mirrored (relation : Relation) : relation.mirrored.ofEdge = relation.ofNode := by
  cases relation <;> rfl

end Relation

/-- A pattern with a name speaks about the variable of that name. -/
theorem Pattern.var_of_name? {p : Pattern} {x : String} (h : p.name? = some x) (path : Path) :
    p.var path = .name x := by
  cases p with
  | reference name => exact congrArg Var.name (Option.some.inj h)
  | nodeFragment base name excluding relations =>
      obtain rfl : name = some x := h
      rfl
  | edgeFragment base name excluding relations =>
      obtain rfl : name = some x := h
      rfl
  | nodeType type => cases h
  | edgeType type => cases h
  | node n => cases h
  | edge e => cases h

namespace Clause

variable {edge node : String} {relation : Relation} {clauses : List (Clause Var)}

theorem players_gained (e : Var) (role : Role) :
    players e role (Pattern.gained edge relation node ++ clauses) =
      if e = .name edge ∧ role = relation.ofEdge then .name node :: players e role clauses
      else players e role clauses := by
  by_cases h : e = .name edge ∧ role = relation.ofEdge
  · rw [if_pos h]
    obtain ⟨rfl, rfl⟩ := h
    simp [players, Pattern.gained]
  · rw [if_neg h]
    have hnot : ¬(.name edge = e ∧ relation.ofEdge = role) :=
      fun hsame => h ⟨hsame.1.symm, hsame.2.symm⟩
    simp [players, Pattern.gained, hnot]

end Clause

/--
What is said already may be said again: only when the only end of an edge is said again does an edge have
two ends, both of which it then is.
-/
theorem means_gained_iff
    {g : Diagram}
    {σ : Var → Item}
    {edge node : String}
    {relation : Relation}
    {clauses : List (Clause Var)}
    (hsaid : ∀ clause ∈ Pattern.gained edge relation node, clause ∈ clauses)
    (hsole : relation.ofEdge = .endpoint →
      Clause.players (.name edge) .endpoint clauses = [.name node]) :
    Means g (Pattern.gained edge relation node ++ clauses) σ ↔ Means g clauses σ ∧
      (relation.ofEdge = .endpoint →
        g.ItemJoins (σ (.name edge)) (σ (.name node)) (σ (.name node))) := by
  constructor
  · rintro ⟨heach, hends⟩
    refine ⟨⟨fun clause hclause => heach clause (List.mem_append_right _ hclause),
      fun e a b hplayers => hends e a b ?_⟩, fun hendpoint => hends _ _ _ ?_⟩
    · rw [Clause.players_gained, if_neg, hplayers]
      rintro ⟨rfl, hendpoint⟩
      rw [hsole hendpoint.symm] at hplayers
      cases hplayers
    · rw [Clause.players_gained, if_pos ⟨rfl, hendpoint.symm⟩, hsole hendpoint]
  · rintro ⟨⟨heach, hends⟩, hjoins⟩
    refine ⟨fun clause hclause => ?_, fun e a b hplayers => ?_⟩
    · exact heach clause ((List.mem_append.mp hclause).elim (hsaid clause) id)
    · rw [Clause.players_gained] at hplayers
      split at hplayers
      · next hhere =>
          obtain ⟨rfl, hendpoint⟩ := hhere
          rw [hsole hendpoint.symm] at hplayers
          cases hplayers
          exact hjoins hendpoint.symm
      · exact hends e a b hplayers

namespace Query

/-- Whether a fragment of the node with a name is related to what has another name. -/
def Relates (query : Query) (node : String) (relation : Relation) (edge : String) : Prop :=
  ∃ path base excluding relations p,
    (path, .nodeFragment base (some node) excluding relations) ∈ query.parts ∧
      (relation, p) ∈ relations ∧ p.name? = some edge

/-- Whether a node is all that a query says of the ends of an edge without a direction. -/
def SoleEnd (query : Query) (node edge : String) : Prop :=
  Clause.players (.name edge) .endpoint query.clauses = [.name node]

variable {edge node : String} {relation : Relation} {query query' : Query}

theorem Relates.mem_names (h : query.Relates node relation edge) : node ∈ query.names := by
  obtain ⟨path, base, excluding, relations, p, hpart, -, -⟩ := h
  exact Query.mem_names hpart rfl

theorem Relates.mem_nodeNames (h : query.Relates node relation edge) : node ∈ query.nodeNames := by
  obtain ⟨path, base, excluding, relations, p, hpart, -, -⟩ := h
  exact Query.mem_nodeNames hpart List.mem_cons_self

/-- A node that is related to an edge is said to play a role on it. -/
theorem Relates.plays (h : query.Relates node relation edge) (hkinds : query.Meets .kinds)
    (hedge : edge ∈ query.edgeNames) :
    .plays (.name node) (.name edge) relation.ofNode ∈ query.clauses := by
  obtain ⟨path, base, excluding, relations, p, hpart, hrelated, hname⟩ := h
  obtain ⟨j, hj⟩ := List.mem_iff_getElem?.mp hrelated
  refine mem_clauses_iff.mpr ⟨_, hpart, List.mem_append_right _ (Pattern.mem_links.mpr
    ⟨j, relation, p, hj, ?_⟩)⟩
  have hlike : p.isEdgeLike query.edgeNames = true := by
    cases p with
    | reference name =>
        obtain rfl : name = edge := Option.some.inj hname
        exact List.contains_iff_mem.mpr hedge
    | nodeFragment base' name excluding' relations' =>
        have hinside := mem_parts_of_related hpart hj
        exact absurd hedge (hkinds.2 edge (Query.mem_nodeNames hinside (Option.mem_toList.mpr hname)))
    | edgeFragment base' name excluding' relations' => rfl
    | nodeType type => cases hname
    | edgeType type => cases hname
    | node n => cases hname
    | edge e => cases hname
  rw [Pattern.nodeLink, Pattern.var_of_name? hname, Pattern.related, if_pos hlike]
  exact List.mem_singleton_self _

section

variable (h : query.Gains edge relation.mirrored node query') (hrelates : query.Relates node relation edge)

include h hrelates

/-- A query that says the mirrored link has said it before. -/
theorem gained_subset (hkinds : query.Meets .kinds) :
    ∀ clause ∈ Pattern.gained edge relation.mirrored node, clause ∈ query.clauses := by
  intro clause hclause
  rw [Pattern.gained, relation.ofEdge_mirrored, List.mem_pair] at hclause
  rcases hclause with rfl | rfl
  · exact member_node_of_mem_nodeNames hrelates.mem_nodeNames
  · exact hrelates.plays hkinds h.mem_edgeNames

/-- The names in a query that says the mirrored link are those in the query before. -/
theorem names_of_gains : query'.names ⊆ query.names := by
  intro x hx
  obtain ⟨part, hpart, hname⟩ := List.mem_filterMap.mp hx
  rcases h.exists_part hpart with hreference | ⟨part₁, hpart₁, heq | hgains⟩
  · rw [hreference] at hname
    obtain rfl := Option.some.inj hname
    exact hrelates.mem_names
  · exact mem_names hpart₁ (heq ▸ hname)
  · exact mem_names hpart₁ (hgains.name?_eq ▸ hname)

theorem nodeNames_of_gains : query'.nodeNames ⊆ query.nodeNames := by
  intro x hx
  obtain ⟨part, hpart, huses⟩ := List.mem_flatMap.mp hx
  rcases h.exists_part hpart with hreference | ⟨part₁, hpart₁, heq | hgains⟩
  · rw [hreference] at huses
    cases huses
  · exact mem_nodeNames hpart₁ (heq ▸ huses)
  · rcases List.mem_cons.mp (hgains.nodeUses_subset huses) with rfl | huses
    · exact hrelates.mem_nodeNames
    · exact mem_nodeNames hpart₁ huses

/-- A query that says the mirrored link says what it said before, renamed, and says some of it twice. -/
theorem mem_clauses_of_gains {ρ : Path → Path} (hkinds : query.Meets .kinds)
    (hclauses : query'.clauses.Perm
      ((Pattern.gained edge relation.mirrored node ++ query.clauses).map (Clause.rename ρ)))
    (clause' : Clause Var) :
    clause' ∈ query'.clauses ↔ ∃ clause ∈ query.clauses, clause.rename ρ = clause' := by
  rw [hclauses.mem_iff, List.mem_map]
  refine exists_congr fun clause => and_congr_left fun _ => ?_
  rw [List.mem_append, or_iff_right_of_imp (gained_subset h hrelates hkinds clause)]

/-- What is said of names alone is said by both queries or by none. -/
theorem mem_clauses_of_fixed {ρ : Path → Path} (hρ : Function.Injective ρ)
    (hkinds : query.Meets .kinds)
    (hclauses : query'.clauses.Perm
      ((Pattern.gained edge relation.mirrored node ++ query.clauses).map (Clause.rename ρ)))
    {clause : Clause Var} (hfixed : clause.rename ρ = clause) :
    clause ∈ query'.clauses ↔ clause ∈ query.clauses := by
  rw [mem_clauses_of_gains h hrelates hkinds hclauses]
  refine ⟨fun ⟨clause₁, hclause₁, heq⟩ => ?_, fun hclause => ⟨clause, hclause, hfixed⟩⟩
  rwa [← Clause.relabel_injective (Var.rename_injective hρ) hρ (heq.trans hfixed.symm)]

/-- The only end of an edge is said by the link, if the mirrored link may be said. -/
theorem sole_of_meets (hkinds : query.Meets .kinds) (hends : query'.Meets .ends)
    (hendpoint : relation.ofNode = .endpoint) :
    query.SoleEnd node edge := by
  obtain ⟨ρ, hρ, -, hclauses⟩ := h.exists_rename
  have hperm : (Clause.players (.name edge) .endpoint query'.clauses).Perm _ :=
    Clause.players_perm_relabel (Var.rename_injective hρ) hclauses (.name edge) .endpoint
  have hlength := hends (.name edge)
  rw [hperm.length_eq, List.length_map, Clause.players_gained, relation.ofEdge_mirrored,
    if_pos ⟨rfl, hendpoint.symm⟩, List.length_cons] at hlength
  have hplays := hrelates.plays hkinds h.mem_edgeNames
  rw [hendpoint, ← Clause.mem_players] at hplays
  unfold SoleEnd
  match hplayers : Clause.players (.name edge) .endpoint query.clauses with
  | [] => simp [hplayers] at hplays
  | [v] =>
      rw [hplayers, List.mem_singleton] at hplays
      rw [hplayers, hplays]
  | _ :: _ :: _ => simp [hplayers] at hlength

/--
The mirrored link may be said if and only if it has a direction, or the node is the only end of the edge
that is said.
-/
theorem meets_iff_of_gains (hmeets : ∀ condition, query.Meets condition) :
    (∀ condition, query'.Meets condition) ↔
      (relation.ofNode = .endpoint → query.SoleEnd node edge) := by
  refine ⟨fun hmeets' => sole_of_meets h hrelates (hmeets .kinds) (hmeets' .ends),
    fun hsole condition => ?_⟩
  obtain ⟨ρ, hρ, -, hclauses⟩ := h.exists_rename
  have hfixed : ∀ clause : Clause Var, clause.rename ρ = clause →
      (clause ∈ query'.clauses ↔ clause ∈ query.clauses) :=
    fun clause => mem_clauses_of_fixed h hrelates hρ (hmeets .kinds) hclauses
  cases condition with
  | names => exact fun x hx => hmeets .names x (names_of_gains h hrelates hx)
  | kinds =>
      refine ⟨fun part hpart => ?_, fun x hnode hedge =>
        (hmeets .kinds).2 x (nodeNames_of_gains h hrelates hnode)
          (mem_edgeNames_iff.mpr ((hfixed _ rfl).mp (mem_edgeNames_iff.mp hedge)))⟩
      rcases h.exists_part hpart with hreference | ⟨part₁, hpart₁, heq | hgains⟩
      · rw [hreference]
        rfl
      · exact heq ▸ (hmeets .kinds).1 part₁ hpart₁
      · exact hgains.strayEdges_eq_nil ((hmeets .kinds).1 part₁ hpart₁)
  | types =>
      exact fun x t u ht hu => hmeets .types x t u ((hfixed _ rfl).mp ht) ((hfixed _ rfl).mp hu)
  | instances =>
      exact fun x a b ha hb => hmeets .instances x a b ((hfixed _ rfl).mp ha) ((hfixed _ rfl).mp hb)
  | ends =>
      intro e'
      rcases List.eq_nil_or_concat' (Clause.players e' .endpoint query'.clauses) with hnil | ⟨_, n, hcons⟩
      · simp [hnil]
      · -- The edge has a player, so that it is a renamed edge.
        have hn : n ∈ Clause.players e' .endpoint query'.clauses := by simp [hcons]
        obtain ⟨clause, -, heq⟩ := (mem_clauses_of_gains h hrelates (hmeets .kinds) hclauses _).mp
          (Clause.mem_players.mp hn)
        obtain ⟨-, e, -, rfl, -⟩ := Clause.relabel_eq_iff.mp heq
        rw [(Clause.players_perm_relabel (Var.rename_injective hρ) hclauses e .endpoint).length_eq,
          List.length_map, Clause.players_gained, relation.ofEdge_mirrored]
        split
        · next hhere =>
            obtain ⟨rfl, hendpoint⟩ := hhere
            have hplayers : Clause.players (.name edge) .endpoint query.clauses = _ :=
              hsole hendpoint.symm
            rw [hplayers]
            exact le_rfl
        · exact hmeets .ends e
  | places =>
      intro x hx
      have hplaced := hmeets .places x (names_of_gains h hrelates hx)
      have hmember : ∃ kind, .member (.name x) kind ∈ query.clauses := by
        by_cases hedge : x ∈ query.edgeNames
        · exact ⟨.edge, mem_edgeNames_iff.mp hedge⟩
        · exact exists_member_of_mem_placedNames hplaced hedge
      obtain ⟨kind, hmember⟩ := hmember
      exact mem_placedNames_of_member ((hfixed _ rfl).mpr hmember)

/-- The rows of a query that says the mirrored link: the node is both ends where it has to be. -/
theorem isRow_iff_of_gains
    {g : Diagram}
    {row : Layout Item}
    (hkinds : query.Meets .kinds)
    (hsole : relation.ofNode = .endpoint → query.SoleEnd node edge) :
    query'.IsRow g row ↔ ∃ σ, Means g query.clauses σ ∧
      (relation.ofNode = .endpoint →
        g.ItemJoins (σ (.name edge)) (σ (.name node)) (σ (.name node))) ∧
      row = query.vars.map σ := by
  obtain ⟨ρ, hρ, hvars, hclauses⟩ := h.exists_rename
  have hmeans := fun σ => means_gained_iff (g := g) (σ := σ) (gained_subset h hrelates hkinds)
    (by rwa [relation.ofEdge_mirrored])
  rw [relation.ofEdge_mirrored] at hmeans
  have hrow : ∀ {σ σ' : Var → Item}, (∀ v, σ' (v.rename ρ) = σ v) →
      query'.vars.map σ' = query.vars.map σ := by
    intro σ σ' hσ
    rw [hvars]
    exact Layout.eq_of_values rfl (by simp [Layout.map, hσ])
  constructor
  · rintro ⟨σ', hσ', rfl⟩
    obtain ⟨hσ, hjoins⟩ := (hmeans _).mp (hσ'.of_rename hρ hclauses)
    exact ⟨_, hσ, hjoins, hrow fun _ => rfl⟩
  · rintro ⟨σ, hσ, hjoins, rfl⟩
    obtain ⟨σ', hσ', hsame⟩ := ((hmeans σ).mpr ⟨hσ, hjoins⟩).exists_rename hρ hclauses
    exact ⟨σ', hσ', (hrow hsame).symm⟩

section

variable {v : Vocabulary} {types : List ItemType} {c : CompiledQuery} (hv : v.Holds types)
  (htypes : ∀ x t, .isA x t ∈ query.clauses → t ∈ types) (hcompile : query.compile = .ok c)

include hv htypes hcompile

/-- A query that says the mirrored link mentions the same types. -/
theorem type_mem_of_gains (x : Var) (t : ItemType) (ht : .isA x t ∈ query'.clauses) : t ∈ types := by
  obtain ⟨ρ, -, -, hclauses⟩ := h.exists_rename
  have hkinds := meets_of_lower hv htypes (of_compile hcompile).1 .kinds
  obtain ⟨clause, hclause, heq⟩ := (mem_clauses_of_gains h hrelates hkinds hclauses _).mp ht
  obtain ⟨y, -, rfl⟩ := Clause.relabel_eq_iff.mp heq
  exact htypes y t hclause

/-- The mirrored link is accepted if it has a direction, or the node is the only end that is said. -/
theorem exists_compile_iff_of_gains
    (hitems : ∀ a b, query.Mentions a → query.Mentions b → a.id = b.id → a = b) :
    (∃ c', query'.compile = .ok c') ↔ (relation.ofNode = .endpoint → query.SoleEnd node edge) := by
  obtain ⟨hlower, -⟩ := of_compile hcompile
  have hmeets := meets_of_lower hv htypes hlower
  have hmentions : ∀ a, query'.Mentions a → query.Mentions a := by
    rintro a ⟨x, hx⟩
    obtain ⟨ρ, -, -, hclauses⟩ := h.exists_rename
    obtain ⟨clause, hclause, heq⟩ := (mem_clauses_of_gains h hrelates (hmeets .kinds) hclauses _).mp hx
    obtain ⟨y, -, rfl⟩ := Clause.relabel_eq_iff.mp heq
    exact ⟨y, hclause⟩
  rw [← meets_iff_of_gains h hrelates hmeets, ← exists_lower_iff hv
    (type_mem_of_gains h hrelates hv htypes hcompile)
    fun a b ha hb => hitems a b (hmentions a ha) (hmentions b hb)]
  constructor
  · rintro ⟨c', hc'⟩
    exact ⟨c'.slots, (of_compile hc').1⟩
  · rintro ⟨s', hs'⟩
    obtain ⟨c', hc', -⟩ := exists_compile_of_lower hs'
    exact ⟨c', hc'⟩

/-- The rows of a compiled query and of the one that says the mirrored link. -/
theorem rows_of_gains
    {c' : CompiledQuery}
    {index : Index}
    {g : Diagram}
    (hcompile' : query'.compile = .ok c')
    (hindex : index.Represents g)
    (hmembers : ∀ item, g.Has item → item.type ∈ types) :
    ∃ rows rows', c.collect index = .ok rows ∧ c'.collect index = .ok rows' ∧
      (relation.ofNode ≠ .endpoint → rows'.Perm rows) ∧
      (relation.ofNode = .endpoint → ∀ row, row ∈ rows' ↔ ∃ σ, Means g query.clauses σ ∧
        g.ItemJoins (σ (.name edge)) (σ (.name node)) (σ (.name node)) ∧ row = query.vars.map σ) := by
  have hmeets := meets_of_lower hv htypes (of_compile hcompile).1
  have htypes' := type_mem_of_gains h hrelates hv htypes hcompile
  have hmeets' := meets_of_lower hv htypes' (of_compile hcompile').1
  obtain ⟨before, p, p', after, hvalues, hvalues', -⟩ := h.values
  obtain ⟨rows, hcollect, honce, hrows⟩ := collect_of_compile hv htypes hcompile
    (by simp [hvalues]) hindex hmembers
  obtain ⟨rows', hcollect', honce', hrows'⟩ := collect_of_compile hv htypes' hcompile'
    (by simp [hvalues']) hindex hmembers
  have hrow : ∀ row, query'.IsRow g row ↔ _ := fun _ => isRow_iff_of_gains h hrelates (hmeets .kinds)
    (sole_of_meets h hrelates (hmeets .kinds) (hmeets' .ends))
  refine ⟨rows, rows', hcollect, hcollect', fun hdirected => ?_, fun hendpoint row => ?_⟩
  · refine (List.perm_ext_iff_of_nodup honce' honce).mpr fun row => ?_
    rw [hrows, hrows', hrow]
    simp only [hdirected, IsEmpty.forall_iff, true_and]
    rfl
  · rw [hrows', hrow]
    simp only [hendpoint, forall_const]

end

end

end Query

end PatternGraph
