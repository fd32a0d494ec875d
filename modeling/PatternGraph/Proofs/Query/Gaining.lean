import PatternGraph.Proofs.Query.Reordering

/-!
# One more relation

An edge fragment, at any depth of a query, may be given one more relation, to a name.  The query then
says what it said before, up to renaming the paths behind that relation, and that the name plays a role
on the edge.
-/

namespace PatternGraph

namespace Pattern

/-- Whether a fragment of the edge with a name is given one more relation, at any depth of a pattern. -/
inductive Gains (edge : String) (relation : Relation) (node : String) : Pattern → Pattern → Prop
  | here (base : Base EdgeType Edge) (excluding : List EdgeType)
      (before after : List (Relation × Pattern)) :
      Gains edge relation node (edgeFragment base (some edge) excluding (before ++ after))
        (edgeFragment base (some edge) excluding (before ++ (relation, reference node) :: after))
  | inNode (base : Base NodeType Node) (name : Option String) (excluding : List NodeType)
      (before : List (Relation × Pattern)) (relation' : Relation) {p p' : Pattern}
      (after : List (Relation × Pattern)) (hinside : Gains edge relation node p p') :
      Gains edge relation node (nodeFragment base name excluding (before ++ (relation', p) :: after))
        (nodeFragment base name excluding (before ++ (relation', p') :: after))
  | inEdge (base : Base EdgeType Edge) (name : Option String) (excluding : List EdgeType)
      (before : List (Relation × Pattern)) (relation' : Relation) {p p' : Pattern}
      (after : List (Relation × Pattern)) (hinside : Gains edge relation node p p') :
      Gains edge relation node (edgeFragment base name excluding (before ++ (relation', p) :: after))
        (edgeFragment base name excluding (before ++ (relation', p') :: after))

/-- What the fragment of an edge says by being related to a node with a name. -/
def gained (edge : String) (relation : Relation) (node : String) : List (Clause Var) :=
  [.member (.name node) .node, .plays (.name node) (.name edge) relation.ofEdge]

variable {edge node : String} {relation : Relation} {p p' : Pattern} {names names' : List String}
  {ρ : Path → Path}

theorem Gains.var_eq (h : Gains edge relation node p p') (path : Path) :
    p'.var (ρ path) = (p.var path).rename ρ := by
  cases h with
  | here base excluding before after => exact (rename_var base (some edge) path fun e => .edge e.id).symm
  | inNode base name excluding before relation' after hinside =>
      exact (rename_var base name path fun n => .node n.id).symm
  | inEdge base name excluding before relation' after hinside =>
      exact (rename_var base name path fun e => .edge e.id).symm

theorem Gains.isEdgeLike_eq (h : Gains edge relation node p p') (names names' : List String) :
    p'.isEdgeLike names' = p.isEdgeLike names := by
  cases h <;> rfl

theorem Gains.isEdge_eq (h : Gains edge relation node p p') : p'.isEdge = p.isEdge := by
  cases h <;> rfl

theorem Gains.reference?_eq (h : Gains edge relation node p p') : p'.reference? = p.reference? := by
  cases h <;> rfl

theorem Gains.name?_eq (h : Gains edge relation node p p') : p'.name? = p.name? := by
  cases h <;> rfl

/-- What is put together from the entries of a list, by position, is so from the parts of the list. -/
theorem append_of_cons
    {α β : Type}
    (whole : Nat → List α → List β)
    (part : Nat → α → List β)
    (hnil : ∀ k, whole k [] = [])
    (hcons : ∀ k a rest, whole k (a :: rest) = part k a ++ whole (k + 1) rest)
    (before after : List α)
    (k : Nat) :
    whole k (before ++ after) = whole k before ++ whole (k + before.length) after := by
  induction before generalizing k with
  | nil => simp [hnil]
  | cons a before ih =>
      rw [List.cons_append, hcons, hcons, ih, List.append_assoc, List.length_cons, Nat.add_assoc k 1,
        Nat.add_comm 1]

theorem edgeClauses_append {path : Path} {x : Var} (before after : List (Relation × Pattern))
    (i : Nat) : edgeClauses names path x i (before ++ after) =
      edgeClauses names path x i before ++ edgeClauses names path x (i + before.length) after :=
  append_of_cons (edgeClauses names path x)
    (fun i related => edgeLink x (i :: path) related.1 related.2 ++
      related.2.clauses names (i :: path)) (fun _ => rfl) (fun _ _ _ => rfl) before after i

/-- Clauses among others, some of which are renamed clauses and some are gained. -/
theorem perm_of_gained
    {said before before' link link' inside inside' after after' : List (Clause Var)}
    (hbefore : before'.Perm (before.map (Clause.rename ρ)))
    (hlink : link' = link.map (Clause.rename ρ))
    (hinside : inside'.Perm (said ++ inside.map (Clause.rename ρ)))
    (hafter : after'.Perm (after.map (Clause.rename ρ))) :
    (before' ++ (link' ++ inside' ++ after')).Perm
      (said ++ (before ++ (link ++ inside ++ after)).map (Clause.rename ρ)) := by
  have hmiddle : (link' ++ inside').Perm (said ++ (link ++ inside).map (Clause.rename ρ)) := by
    rw [hlink, List.map_append]
    exact (hinside.append_left _).trans (List.perm_append_comm_assoc ..)
  rw [List.map_append, List.map_append, ← List.append_assoc said]
  calc (before' ++ (link' ++ inside' ++ after')).Perm _ := hbefore.append (hmiddle.append hafter)
    List.Perm _ _ := by
      rw [List.append_assoc, List.append_assoc]
      exact List.perm_append_comm_assoc ..

/-- A fragment whose relations say more says more. -/
theorem fragment_gained
    {τ : Type}
    {said base base' rest rest' : List (Clause Var)}
    (type : τ → ItemType)
    (excluding : List τ)
    (x : Var)
    (hbase : base' = base.map (Clause.rename ρ))
    (hrest : rest'.Perm (said ++ rest.map (Clause.rename ρ))) :
    (base' ++ excluding.map (fun t => Clause.isNot (x.rename ρ) (type t)) ++ rest').Perm
      (said ++ (base ++ excluding.map (fun t => Clause.isNot x (type t)) ++ rest).map
        (Clause.rename ρ)) := by
  refine (hrest.append_left _).trans ((List.perm_append_comm_assoc ..).trans ?_)
  exact (fragment_rename type excluding x hbase (.refl _)).append_left said

/-- Clauses of a pattern that says more are those it said, up to renaming the paths inside, and more. -/
structure Extends (said : List (Clause Var)) (p p' : Pattern) (inside : Path → Path) : Prop where
  injective : Function.Injective inside
  nil : inside [] = []
  perm : ∀ (names names' : List String) (path path' : Path) (ρ : Path → Path),
    (∀ x, x ∈ names' ↔ x ∈ names) → (∀ q, ρ (q ++ path) = inside q ++ path') →
      (p'.clauses names' path').Perm (said ++ (p.clauses names path).map (Clause.rename ρ))

section

variable {path path' : Path} {inside : Path → Path} {relations : List (Relation × Pattern)}

/-- How the paths of a fragment are renamed tells how those of its relations are. -/
theorem graft_relation {number : Nat → Nat} {within : Nat → Path → Path}
    (hρ : ∀ q, ρ (q ++ path) = Path.graft number within q ++ path') (i : Nat) (q : Path) :
    ρ (q ++ i :: path) = within i q ++ number i :: path' := by
  have hgraft := hρ (q ++ [i])
  rw [Path.graft_append] at hgraft
  simpa using hgraft

/-- The number of a relation when another relation is put in at some position. -/
def shift (position i : Nat) : Nat :=
  if i < position then i else i + 1

theorem shift_injective (position : Nat) : Function.Injective (shift position) := by
  intro i j h
  unfold shift at h
  split at h <;> split at h <;> omega

theorem renumbers_before_shift {position : Nat} (hposition : relations.length ≤ position)
    (hρ : ∀ i q, ρ (q ++ i :: path) = q ++ shift position i :: path') :
    Renumbers ρ path path' 0 0 relations := by
  intro j hj q
  rw [hρ, shift, if_pos (by omega)]

theorem renumbers_after_shift {position : Nat}
    (hρ : ∀ i q, ρ (q ++ i :: path) = q ++ shift position i :: path') :
    Renumbers ρ path path' position (position + 1) relations := by
  intro j _ q
  rw [hρ, shift, if_neg (by omega), Nat.add_right_comm]

/-- The renaming of the paths inside each relation, when it is about one position. -/
def insideAt (position : Nat) (inside : Path → Path) (i : Nat) : Path → Path :=
  if i = position then inside else id

theorem insideAt_injective (h : Function.Injective inside) (position i : Nat) :
    Function.Injective (insideAt position inside i) := by
  unfold insideAt
  split
  · exact h
  · exact Function.injective_id

theorem insideAt_self (position : Nat) : insideAt position inside position = inside :=
  if_pos rfl

theorem insideAt_of_ne {position i : Nat} (h : i ≠ position) : insideAt position inside i = id :=
  if_neg h

theorem renumbers_besides {position i : Nat} (hi : i + relations.length ≤ position ∨ position < i)
    (hρ : ∀ i q, ρ (q ++ i :: path) = insideAt position inside i q ++ i :: path') :
    Renumbers ρ path path' i i relations := by
  intro j hj q
  rw [hρ, insideAt_of_ne (by omega)]
  rfl

/-- Relations one of which is to a pattern that says more say more. -/
theorem Extends.relations_perm
    {said : List (Clause Var)}
    {before after : List (Relation × Pattern)}
    {relation' : Relation}
    {x : Var}
    (whole : List String → Path → Var → Nat → List (Relation × Pattern) → List (Clause Var))
    (link : List String → Var → Path → Relation → Pattern → List (Clause Var))
    (hnil : ∀ names path x k, whole names path x k [] = [])
    (hcons : ∀ names path x k related rest, whole names path x k (related :: rest) =
      link names x (k :: path) related.1 related.2 ++ related.2.clauses names (k :: path) ++
        whole names path x (k + 1) rest)
    (hrename : ∀ i relations, Renumbers ρ path path' i i relations →
      (whole names' path' (x.rename ρ) i relations).Perm
        ((whole names path x i relations).map (Clause.rename ρ)))
    (hlink : link names' (x.rename ρ) (ρ (before.length :: path)) relation' p' =
      (link names x (before.length :: path) relation' p).map (Clause.rename ρ))
    (hextends : Extends said p p' inside)
    (hnames : ∀ x, x ∈ names' ↔ x ∈ names)
    (hρ : ∀ q, ρ (q ++ path) = Path.graft id (insideAt before.length inside) q ++ path') :
    (whole names' path' (x.rename ρ) 0 (before ++ (relation', p') :: after)).Perm
      (said ++ (whole names path x 0 (before ++ (relation', p) :: after)).map (Clause.rename ρ)) := by
  have happend : ∀ names path x relations, whole names path x 0 (before ++ relations) =
      whole names path x 0 before ++ whole names path x before.length relations := by
    intro names path x relations
    rw [append_of_cons _ _ (hnil names path x) (hcons names path x), Nat.zero_add]
  have hrelation := graft_relation hρ
  have hwithin : ∀ q, ρ (q ++ before.length :: path) = inside q ++ before.length :: path' := by
    simpa only [insideAt_self, id_eq] using hrelation before.length
  have hhere : ρ (before.length :: path) = before.length :: path' := by
    simpa [hextends.nil] using hwithin []
  rw [hhere] at hlink
  rw [happend, happend, hcons, hcons]
  exact perm_of_gained (hrename 0 before (renumbers_besides (by omega) hrelation)) hlink
    (hextends.perm names names' _ _ ρ hnames hwithin)
    (hrename _ after (renumbers_besides (by omega) hrelation))

end

/-- A pattern in which a fragment is given a relation says what it said and what that relation says. -/
theorem Gains.exists_extends (h : Gains edge relation node p p') :
    ∃ inside, Extends (gained edge relation node) p p' inside := by
  induction h with
  | here base excluding before after =>
      refine ⟨Path.graft (shift before.length) fun _ => id,
        Path.graft_injective (shift_injective _) fun _ => Function.injective_id, rfl,
        fun names names' path path' ρ hnames hρ => ?_⟩
      have hvar := rename_var (ρ := ρ) base (some edge) path fun e => .edge e.id
      rw [show ρ path = path' from hρ []] at hvar
      have hshift : ∀ i q, ρ (q ++ i :: path) = q ++ shift before.length i :: path' :=
        graft_relation hρ
      rw [clauses, clauses, ← hvar]
      refine fragment_gained _ excluding _ (edgeBase_rename _ base) ?_
      rw [edgeClauses_append, edgeClauses_append, edgeClauses, Nat.zero_add]
      have hlink : [] = List.map (Clause.rename ρ) [] := rfl
      have hgained : (gained edge relation node).Perm
          (gained edge relation node ++ List.map (Clause.rename ρ) []) := .refl _
      exact perm_of_gained
        (edgeClauses_rename hnames before path path' _ 0 0 (renumbers_before_shift le_rfl hshift))
        hlink hgained
        (edgeClauses_rename hnames after path path' _ _ _ (renumbers_after_shift hshift))
  | inNode base name excluding before relation' after hinside ih =>
      obtain ⟨inside, hextends⟩ := ih
      refine ⟨Path.graft id (insideAt before.length inside), Path.graft_injective
        Function.injective_id (insideAt_injective hextends.injective _), rfl,
        fun names names' path path' ρ hnames hρ => ?_⟩
      have hvar := rename_var (ρ := ρ) base name path fun n => .node n.id
      rw [show ρ path = path' from hρ []] at hvar
      rw [clauses, clauses, ← hvar]
      refine fragment_gained _ excluding _ (nodeBase_rename _ base) ?_
      exact hextends.relations_perm nodeClauses nodeLink (fun _ _ _ _ => rfl) (fun _ _ _ _ _ _ => rfl)
        (fun i relations => nodeClauses_rename hnames relations path path' _ i i)
        (nodeLink_rename (hinside.var_eq _) (hinside.isEdgeLike_eq names names') _ relation')
        hnames hρ
  | inEdge base name excluding before relation' after hinside ih =>
      obtain ⟨inside, hextends⟩ := ih
      refine ⟨Path.graft id (insideAt before.length inside), Path.graft_injective
        Function.injective_id (insideAt_injective hextends.injective _), rfl,
        fun names names' path path' ρ hnames hρ => ?_⟩
      have hvar := rename_var (ρ := ρ) base name path fun e => .edge e.id
      rw [show ρ path = path' from hρ []] at hvar
      rw [clauses, clauses, ← hvar]
      refine fragment_gained _ excluding _ (edgeBase_rename _ base) ?_
      exact hextends.relations_perm edgeClauses (fun _ => edgeLink) (fun _ _ _ _ => rfl)
        (fun _ _ _ _ _ _ => rfl)
        (fun i relations => edgeClauses_rename hnames relations path path' _ i i)
        (edgeLink_rename (hinside.var_eq _) _ relation') hnames hρ

/-- The parts of what a fragment is related to are parts of the fragment, at their own paths. -/
theorem exists_mem_relationParts
    {path path' : Path}
    {part : Path × Pattern}
    {related : Relation × Pattern}
    {relations : List (Relation × Pattern)}
    (hrelated : related ∈ relations)
    (hpart : part ∈ related.2.parts path') :
    ∃ part' ∈ relationParts path 0 relations, part'.2 = part.2 := by
  obtain ⟨j, hj⟩ := List.mem_iff_getElem?.mp hrelated
  have hmem : part.2 ∈ (related.2.parts path').map Prod.snd := List.mem_map_of_mem hpart
  rw [map_snd_parts related.2 path' ((0 + j) :: path)] at hmem
  obtain ⟨part', hpart', heq⟩ := List.mem_map.mp hmem
  exact ⟨part', mem_relationParts.mpr ⟨j, related, hj, hpart'⟩, heq⟩

/-- What is a part of a list of relations in which one pattern is replaced is inside that pattern or not. -/
theorem mem_relationParts_middle
    {path : Path}
    {part : Path × Pattern}
    {related : Relation × Pattern}
    {before after : List (Relation × Pattern)}
    (hpart : part ∈ relationParts path 0 (before ++ related :: after)) :
    (∃ path', part ∈ related.2.parts path') ∨
      ∃ related' ∈ before ++ after, ∃ path', part ∈ related'.2.parts path' := by
  obtain ⟨j, related', hj, hinside⟩ := mem_relationParts.mp hpart
  rcases List.mem_cons.mp (List.perm_middle.mem_iff.mp (List.mem_of_getElem? hj)) with rfl | hmem
  · exact Or.inl ⟨_, hinside⟩
  · exact Or.inr ⟨related', hmem, _, hinside⟩

/-- The parts of relations of which one is replaced, given what the parts of the replaced one are. -/
theorem exists_part_of_replaced
    {path path' : Path}
    {before after : List (Relation × Pattern)}
    {relation' : Relation}
    (h : ∀ (path path' : Path), ∀ part' ∈ p'.parts path', part'.2 = reference node ∨
      ∃ part ∈ p.parts path, part'.2 = part.2 ∨ Gains edge relation node part.2 part'.2) :
    ∀ part' ∈ relationParts path' 0 (before ++ (relation', p') :: after), part'.2 = reference node ∨
      ∃ part ∈ relationParts path 0 (before ++ (relation', p) :: after),
        part'.2 = part.2 ∨ Gains edge relation node part.2 part'.2 := by
  intro part' hpart'
  rcases mem_relationParts_middle hpart' with ⟨path'', hpart'⟩ | ⟨related, hrelated, path'', hpart'⟩
  · refine (h [] path'' part' hpart').imp_right fun ⟨part, hpart, hpair⟩ => ?_
    have hmem : (relation', p) ∈ before ++ (relation', p) :: after :=
      List.mem_append_right _ List.mem_cons_self
    obtain ⟨part₁, hpart₁, heq⟩ := exists_mem_relationParts hmem hpart
    exact ⟨part₁, hpart₁, heq ▸ hpair⟩
  · have hmem : related ∈ before ++ (relation', p) :: after :=
      List.perm_middle.mem_iff.mpr (List.mem_cons_of_mem _ hrelated)
    obtain ⟨part, hpart, heq⟩ := exists_mem_relationParts hmem hpart'
    exact Or.inr ⟨part, hpart, Or.inl heq.symm⟩

/--
Each part of a pattern that gains a relation is the name in that relation, a part of the pattern before,
or such a part that has gained the relation.
-/
theorem Gains.exists_part (h : Gains edge relation node p p') :
    ∀ (path path' : Path), ∀ part' ∈ p'.parts path', part'.2 = reference node ∨
      ∃ part ∈ p.parts path, part'.2 = part.2 ∨ Gains edge relation node part.2 part'.2 := by
  induction h with
  | here base excluding before after =>
      intro path path' part' hpart'
      rcases List.mem_cons.mp hpart' with rfl | hpart'
      · exact Or.inr ⟨_, List.mem_cons_self, Or.inr (.here base excluding before after)⟩
      · rcases mem_relationParts_middle hpart' with ⟨path'', hpart'⟩ | ⟨related, hrelated, path'', hpart'⟩
        · rw [List.mem_singleton.mp hpart']
          exact Or.inl rfl
        · obtain ⟨part, hpart, heq⟩ : ∃ part ∈ relationParts path 0 (before ++ after),
              part.2 = part'.2 := exists_mem_relationParts hrelated hpart'
          exact Or.inr ⟨part, List.mem_cons_of_mem _ hpart, Or.inl heq.symm⟩
  | inNode base name excluding before relation' after hinside ih =>
      intro path path' part' hpart'
      rcases List.mem_cons.mp hpart' with rfl | hpart'
      · exact Or.inr ⟨_, List.mem_cons_self,
          Or.inr (.inNode base name excluding before relation' after hinside)⟩
      · exact (exists_part_of_replaced ih part' hpart').imp_right fun ⟨part, hpart, hpair⟩ =>
          ⟨part, List.mem_cons_of_mem _ hpart, hpair⟩
  | inEdge base name excluding before relation' after hinside ih =>
      intro path path' part' hpart'
      rcases List.mem_cons.mp hpart' with rfl | hpart'
      · exact Or.inr ⟨_, List.mem_cons_self,
          Or.inr (.inEdge base name excluding before relation' after hinside)⟩
      · exact (exists_part_of_replaced ih part' hpart').imp_right fun ⟨part, hpart, hpair⟩ =>
          ⟨part, List.mem_cons_of_mem _ hpart, hpair⟩

/-- The names that a pattern uses for nodes are those it used and the name in the gained relation. -/
theorem Gains.nodeUses_subset (h : Gains edge relation node p p') : p'.nodeUses ⊆ node :: p.nodeUses := by
  cases h with
  | here base excluding before after =>
      simp only [nodeUses, List.filterMap_append, List.filterMap_cons, reference?]
      exact List.perm_middle.subset
  | inNode base name excluding before relation' after hinside => exact List.subset_cons_self ..
  | inEdge base name excluding before relation' after hinside =>
      simp only [nodeUses, List.filterMap_append, List.filterMap_cons, hinside.reference?_eq]
      exact List.subset_cons_self ..

/-- A pattern relates an edge to an edge if it did so before it gained a relation. -/
theorem Gains.strayEdges_eq_nil (h : Gains edge relation node p p') (hnone : p.strayEdges = []) :
    p'.strayEdges = [] := by
  cases h with
  | here base excluding before after => simpa [strayEdges, isEdge] using hnone
  | inNode base name excluding before relation' after hinside => rfl
  | inEdge base name excluding before relation' after hinside =>
      rw [strayEdges, List.filter_eq_nil_iff] at hnone ⊢
      intro related hrelated
      rcases List.mem_cons.mp (List.perm_middle.mem_iff.mp hrelated) with rfl | hrelated
      · rw [hinside.isEdge_eq]
        exact hnone (relation', _) (List.mem_append_right _ List.mem_cons_self)
      · exact hnone related (List.perm_middle.mem_iff.mpr (List.mem_cons_of_mem _ hrelated))

theorem mem_relationEdgeNames {x : String} {related : Relation × Pattern}
    {relations : List (Relation × Pattern)} (hrelated : related ∈ relations)
    (hx : x ∈ related.2.edgeNames) : x ∈ relationEdgeNames relations := by
  induction relations with
  | nil => cases hrelated
  | cons head rest ih =>
      rw [relationEdgeNames.eq_def]
      rcases List.mem_cons.mp hrelated with rfl | hrelated
      · exact List.mem_append_left _ hx
      · exact List.mem_append_right _ (ih hrelated)

/-- The name of the edge that gains a relation is that of an edge. -/
theorem Gains.mem_edgeNames (h : Gains edge relation node p p') : edge ∈ p.edgeNames := by
  induction h with
  | here base excluding before after => exact List.mem_append_left _ List.mem_cons_self
  | inNode base name excluding before relation' after hinside ih =>
      exact mem_relationEdgeNames (List.mem_append_right before List.mem_cons_self) ih
  | inEdge base name excluding before relation' after hinside ih =>
      exact List.mem_append_right _
        (mem_relationEdgeNames (List.mem_append_right before List.mem_cons_self) ih)

end Pattern

namespace Query

/-- Whether a fragment of the edge with a name is given one more relation, anywhere in a query. -/
structure Gains (edge : String) (relation : Relation) (node : String) (query query' : Query) : Prop where
  shape : query'.shape = query.shape
  values : ∃ before p p' after, query.values = before ++ p :: after ∧
    query'.values = before ++ p' :: after ∧ p.Gains edge relation node p'

variable {edge node x : String} {relation : Relation} {query query' : Query} {part : Path × Pattern}

theorem mem_parts : part ∈ query.parts ↔
    ∃ (i : Nat) (p : Pattern), query.values[i]? = some p ∧ part ∈ p.parts [i] := by
  simp only [parts, List.mem_flatMap, Prod.exists, List.mem_zipIdx_iff_getElem?]
  exact exists_comm

/-- Patterns whose paths stay say the same. -/
theorem patternClauses_rename
    {ρ : Path → Path}
    {names names' : List String}
    (hnames : ∀ x, x ∈ names' ↔ x ∈ names)
    (items : List Pattern)
    (k : Nat)
    (hρ : ∀ i q, k ≤ i → i < k + items.length → ρ (q ++ [i]) = q ++ [i]) :
    (Lowering.patternClauses names' items k).Perm
      ((Lowering.patternClauses names items k).map (Clause.rename ρ)) := by
  induction items generalizing k with
  | nil => exact .refl _
  | cons p items ih =>
      have hcons : ∀ names, Lowering.patternClauses names (p :: items) k =
          p.clauses names [k] ++ Lowering.patternClauses names items (k + 1) := by
        intro names
        simp [Lowering.patternClauses]
      have hlength : (p :: items).length = items.length + 1 := rfl
      rw [hcons, hcons, List.map_append]
      exact (Pattern.clauses_rename hnames p _ _ fun q => hρ k q le_rfl (by omega)).append
        (ih (k + 1) fun i q hi hlt => hρ i q (by omega) (by omega))

/-- What is said by patterns one of which is replaced is said by that pattern or by the others. -/
theorem patternClauses_middle (names : List String) (before : List Pattern) (p : Pattern)
    (after : List Pattern) : Lowering.patternClauses names (before ++ p :: after) 0 =
      Lowering.patternClauses names before 0 ++ (p.clauses names [before.length] ++
        Lowering.patternClauses names after (before.length + 1)) := by
  simp [Lowering.patternClauses, List.zipIdx_append]

namespace Gains

variable (h : query.Gains edge relation node query')

include h

theorem mem_edgeNames : edge ∈ query.edgeNames := by
  obtain ⟨before, p, p', after, hvalues, -, hgains⟩ := h.values
  exact List.mem_flatMap.mpr ⟨p, by simp [hvalues], hgains.mem_edgeNames⟩

theorem exists_part (hpart : part ∈ query'.parts) : part.2 = .reference node ∨
    ∃ part₁ ∈ query.parts, part.2 = part₁.2 ∨ part₁.2.Gains edge relation node part.2 := by
  obtain ⟨before, p, p', after, hvalues, hvalues', hgains⟩ := h.values
  obtain ⟨i, q, hq, hpart⟩ := mem_parts.mp hpart
  rw [hvalues'] at hq
  by_cases hi : i = before.length
  · obtain rfl : p' = q := by simpa [hi] using hq
    refine (hgains.exists_part [i] [i] part hpart).imp_right fun ⟨part₁, hpart₁, hpair⟩ => ?_
    exact ⟨part₁, mem_parts.mpr ⟨i, p, by simp [hvalues, hi], hpart₁⟩, hpair⟩
  · refine Or.inr ⟨part, mem_parts.mpr ⟨i, q, ?_, hpart⟩, Or.inl rfl⟩
    grind

/-- The clauses are those of the query before and what is gained, renamed and in another order. -/
theorem exists_rename :
    ∃ ρ : Path → Path, Function.Injective ρ ∧ query'.vars = query.vars.map (Var.rename ρ) ∧
      query'.clauses.Perm
        ((Pattern.gained edge relation node ++ query.clauses).map (Clause.rename ρ)) := by
  obtain ⟨before, p, p', after, hvalues, hvalues', hgains⟩ := h.values
  obtain ⟨inside, hinside⟩ := hgains.exists_extends
  let ρ := Path.graft id (Pattern.insideAt before.length inside)
  have hpath : ∀ q i, ρ (q ++ [i]) = Pattern.insideAt before.length inside i q ++ [i] :=
    fun q i => Path.graft_append q i
  have hother : ∀ i q, i ≠ before.length → ρ (q ++ [i]) = q ++ [i] := by
    intro i q hi
    rw [hpath, Pattern.insideAt_of_ne hi]
    rfl
  have hperm : ∀ names names' : List String, (∀ x, x ∈ names' ↔ x ∈ names) →
      (Lowering.patternClauses names' query'.values 0).Perm
        ((Pattern.gained edge relation node ++ Lowering.patternClauses names query.values 0).map
          (Clause.rename ρ)) := by
    intro names names' hnames
    have hbefore := patternClauses_rename hnames before 0 fun i q _ hlt =>
      hother i q (by omega)
    have hafter := patternClauses_rename hnames after (before.length + 1)
      fun i q hle _ => hother i q (by omega)
    have hwithin := hinside.perm names names' [before.length] [before.length] ρ hnames fun q => by
      rw [hpath, Pattern.insideAt_self]
    rw [hvalues, hvalues', patternClauses_middle, patternClauses_middle, List.map_append]
    have hlink : [] = List.map (Clause.rename ρ) [] := rfl
    exact Pattern.perm_of_gained hbefore hlink hwithin hafter
  refine ⟨ρ, Path.graft_injective Function.injective_id
    (Pattern.insideAt_injective hinside.injective _), Layout.eq_of_values h.shape ?_,
    hperm _ _ (mem_edgeNames_of_rename _ (by simp [Pattern.gained]) (hperm [] [] fun _ => Iff.rfl))⟩
  have htop : ∀ i, ρ [i] = [i] := by
    intro i
    by_cases hi : i = before.length
    · simpa [hi, Pattern.insideAt_self, hinside.nil] using hpath [] before.length
    · exact hother i [] hi
  have hsame : ∀ (q : Pattern) (i : Nat), q.var [i] = (q.var [i]).rename ρ := by
    intro q i
    have hvar := (Pattern.Reordered.refl q).var_eq (ρ := ρ) [i]
    rwa [htop] at hvar
  have hgained : p'.var [before.length] = (p.var [before.length]).rename ρ := by
    have hvar := hgains.var_eq (ρ := ρ) [before.length]
    rwa [htop] at hvar
  simp only [vars, Layout.map, hvalues, hvalues', List.zipIdx_append, List.zipIdx_cons, List.map_append,
    List.map_cons, List.map_map, Nat.zero_add, hgained]
  congr 1
  · exact List.map_congr_left fun entry _ => hsame _ _
  · exact congrArg _ (List.map_congr_left fun entry _ => hsame _ _)

end Gains

end Query

end PatternGraph
