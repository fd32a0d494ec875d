import PatternGraph.Proofs.Query.Lowered

/-!
# The language of queries

A query is made of patterns inside patterns, its parts.  Six conditions on the parts of a query and
on what they say tell which queries can be lowered, and each way in which lowering fails is about
one of them.  The conditions look at the query as a whole and not at the order of its parts.
-/

namespace PatternGraph

namespace Pattern

/-- The name that a pattern itself uses, if any. -/
def name? : Pattern → Option String
  | reference name => some name
  | nodeFragment _ name _ _ | edgeFragment _ name _ _ => name
  | nodeType _ | edgeType _ | node _ | edge _ => none

/-- The name that a pattern consists of, if it is nothing else. -/
def reference? : Pattern → Option String
  | reference name => some name
  | _ => none

/-- The kind of items that a pattern asks for by its own form. -/
def kind? : Pattern → Option Kind
  | nodeType _ | node _ | nodeFragment .. => some .node
  | edgeType _ | edge _ | edgeFragment .. => some .edge
  | reference _ => none

/-- What a fragment is related to. -/
def relations : Pattern → List (Relation × Pattern)
  | nodeFragment _ _ _ relations | edgeFragment _ _ _ relations => relations
  | nodeType _ | edgeType _ | node _ | edge _ | reference _ => []

/-- The names that a pattern itself uses for nodes. -/
def nodeUses : Pattern → List String
  | nodeFragment _ name _ _ => name.toList
  | edgeFragment _ _ _ relations => relations.filterMap fun related => related.2.reference?
  | nodeType _ | edgeType _ | node _ | edge _ | reference _ => []

/-- The names that a pattern itself gives a place: that of a fragment, and those it is related to. -/
def placedUses (p : Pattern) : List String :=
  match p with
  | nodeFragment _ name _ relations | edgeFragment _ name _ relations =>
    name.toList ++ relations.filterMap fun related => related.2.reference?
  | nodeType _ | edgeType _ | node _ | edge _ | reference _ => []

/-- The patterns of edges that an edge fragment is related to, where nodes are called for. -/
def strayEdges : Pattern → List (Relation × Pattern)
  | edgeFragment _ _ _ relations => relations.filter fun related => related.2.isEdge
  | nodeType _ | edgeType _ | node _ | edge _ | reference _ | nodeFragment .. => []

mutual

/-- A pattern that is written at some path and the patterns inside it, each with its own path. -/
def parts (path : Path) : Pattern → List (Path × Pattern)
  | nodeFragment base name excluding relations =>
    (path, nodeFragment base name excluding relations) :: relationParts path 0 relations
  | edgeFragment base name excluding relations =>
    (path, edgeFragment base name excluding relations) :: relationParts path 0 relations
  | nodeType type => [(path, nodeType type)]
  | edgeType type => [(path, edgeType type)]
  | node n => [(path, node n)]
  | edge e => [(path, edge e)]
  | reference name => [(path, reference name)]
termination_by structural p => p

/-- The parts of what a fragment is related to, the first of which has the given position. -/
def relationParts (path : Path) (i : Nat) : List (Relation × Pattern) → List (Path × Pattern)
  | [] => []
  | (_, p) :: rest => p.parts (i :: path) ++ relationParts path (i + 1) rest
termination_by structural relations => relations

end

/-- What a node fragment says of a pattern at some path that it is related to. -/
def nodeLink (names : List String) (x : Var) (path : Path) (relation : Relation) (p : Pattern) :
    List (Clause Var) :=
  related path x (p.var path) relation.ofNode (p.isEdgeLike names)

/-- What an edge fragment says of a pattern at some path that it is related to. -/
def edgeLink (x : Var) (path : Path) (relation : Relation) (p : Pattern) : List (Clause Var) :=
  [.member (p.var path) .node, .plays (p.var path) x relation.ofEdge]

/-- What a fragment says of all that it is related to, the first of which has the given position. -/
def links (link : Path → Relation → Pattern → List (Clause Var)) (path : Path) (i : Nat) :
    List (Relation × Pattern) → List (Clause Var)
  | [] => []
  | (relation, p) :: rest => link (i :: path) relation p ++ links link path (i + 1) rest

/-- What a pattern says apart from the patterns inside it. -/
def ownClauses (names : List String) (path : Path) : Pattern → List (Clause Var)
  | nodeType type => typed (.occurrence path) (.node type)
  | edgeType type => typed (.occurrence path) (.edge type)
  | node n => exact (.item (.node n.id)) (.node n)
  | edge e => exact (.item (.edge e.id)) (.edge e)
  | reference _ => []
  | nodeFragment base name excluding relations =>
    let x := base.var name path fun n => .node n.id
    nodeBase x base ++ excluding.map (fun type => .isNot x (.node type)) ++
      links (nodeLink names x) path 0 relations
  | edgeFragment base name excluding relations =>
    let x := base.var name path fun e => .edge e.id
    edgeBase x base ++ excluding.map (fun type => .isNot x (.edge type)) ++
      links (edgeLink x) path 0 relations

theorem kind?_of_isEdge {p : Pattern} (h : p.isEdge = true) : p.kind? = some .edge := by
  cases p <;> first | rfl | cases h

theorem kind?_of_not_isEdge {p : Pattern} (h : p.isEdge = false) (hreference : ∀ x, p ≠ reference x) :
    p.kind? = some .node := by
  cases p with
  | reference name => exact absurd rfl (hreference name)
  | nodeType type => rfl
  | node n => rfl
  | nodeFragment base name excluding relations => rfl
  | edgeType type => cases h
  | edge e => cases h
  | edgeFragment base name excluding relations => cases h

theorem isEdge_of_kind? {p : Pattern} (h : p.kind? = some .edge) : p.isEdge = true := by
  cases p <;> first | rfl | cases h

theorem mem_parts_self (path : Path) (p : Pattern) : (path, p) ∈ p.parts path := by
  cases p <;> exact List.mem_cons_self

mutual

/-- A pattern says what its parts say. -/
theorem mem_clauses_iff (names : List String) (clause : Clause Var) :
    ∀ (p : Pattern) (path : Path), clause ∈ p.clauses names path ↔
      ∃ part ∈ p.parts path, clause ∈ part.2.ownClauses names part.1
  | nodeType type, path => by simp [clauses, parts, ownClauses]
  | edgeType type, path => by simp [clauses, parts, ownClauses]
  | node n, path => by simp [clauses, parts, ownClauses]
  | edge e, path => by simp [clauses, parts, ownClauses]
  | reference name, path => by simp [clauses, parts, ownClauses]
  | nodeFragment base name excluding relations, path => by
      have hrest := mem_nodeClauses_iff names clause relations path
        (base.var name path fun n => .node n.id) 0
      simp only [clauses, parts, ownClauses, List.mem_append, hrest, List.exists_mem_cons_iff]
      exact or_assoc.symm
  | edgeFragment base name excluding relations, path => by
      have hrest := mem_edgeClauses_iff names clause relations path
        (base.var name path fun e => .edge e.id) 0
      simp only [clauses, parts, ownClauses, List.mem_append, hrest, List.exists_mem_cons_iff]
      exact or_assoc.symm

theorem mem_nodeClauses_iff (names : List String) (clause : Clause Var) :
    ∀ (relations : List (Relation × Pattern)) (path : Path) (x : Var) (i : Nat),
      clause ∈ nodeClauses names path x i relations ↔
        clause ∈ links (nodeLink names x) path i relations ∨
          ∃ part ∈ relationParts path i relations, clause ∈ part.2.ownClauses names part.1
  | [], _, _, _ => by simp [nodeClauses, links, relationParts]
  | (relation, p) :: rest, path, x, i => by
      have hp := mem_clauses_iff names clause p (i :: path)
      have hrest := mem_nodeClauses_iff names clause rest path x (i + 1)
      simp only [nodeClauses, links, nodeLink, relationParts, List.mem_append, hp, hrest, or_and_right,
        exists_or]
      exact or_or_or_comm

theorem mem_edgeClauses_iff (names : List String) (clause : Clause Var) :
    ∀ (relations : List (Relation × Pattern)) (path : Path) (x : Var) (i : Nat),
      clause ∈ edgeClauses names path x i relations ↔
        clause ∈ links (edgeLink x) path i relations ∨
          ∃ part ∈ relationParts path i relations, clause ∈ part.2.ownClauses names part.1
  | [], _, _, _ => by simp [edgeClauses, links, relationParts]
  | (relation, p) :: rest, path, x, i => by
      have hp := mem_clauses_iff names clause p (i :: path)
      have hrest := mem_edgeClauses_iff names clause rest path x (i + 1)
      rw [edgeClauses, links, edgeLink, relationParts]
      simp only [List.mem_append, hp, hrest, or_and_right, exists_or]
      exact or_or_or_comm

end

mutual

/-- A part of a pattern is the pattern itself or is what another part is related to. -/
theorem eq_or_related_of_mem_parts : ∀ (p : Pattern) (path : Path),
    ∀ part ∈ p.parts path, part = (path, p) ∨
      ∃ owner ∈ p.parts path, ∃ relation, (relation, part.2) ∈ owner.2.relations
  | nodeType _, path, part, h | edgeType _, path, part, h | node _, path, part, h
  | edge _, path, part, h | reference _, path, part, h =>
      Or.inl (List.mem_singleton.mp h)
  | nodeFragment _ _ _ relations, path, part, h | edgeFragment _ _ _ relations, path, part, h => by
      rcases List.mem_cons.mp h with rfl | h
      · exact Or.inl rfl
      · right
        rcases related_of_mem_relationParts relations path 0 part h with hhere | ⟨owner, howner, hin⟩
        · exact ⟨_, List.mem_cons_self, hhere⟩
        · exact ⟨owner, List.mem_cons_of_mem _ howner, hin⟩

theorem related_of_mem_relationParts : ∀ (relations : List (Relation × Pattern)) (path : Path)
    (i : Nat), ∀ part ∈ relationParts path i relations,
      (∃ relation, (relation, part.2) ∈ relations) ∨
        ∃ owner ∈ relationParts path i relations, ∃ relation,
          (relation, part.2) ∈ owner.2.relations
  | [], _, _, _, h => absurd h List.not_mem_nil
  | (relation, p) :: rest, path, i, part, h => by
      rw [relationParts, List.mem_append] at h
      rcases h with h | h
      · rcases eq_or_related_of_mem_parts p (i :: path) part h with rfl | ⟨owner, howner, hin⟩
        · exact Or.inl ⟨relation, List.mem_cons_self⟩
        · exact Or.inr ⟨owner, List.mem_append_left _ howner, hin⟩
      · rcases related_of_mem_relationParts rest path (i + 1) part h with
          ⟨relation', hhere⟩ | ⟨owner, howner, hin⟩
        · exact Or.inl ⟨relation', List.mem_cons_of_mem _ hhere⟩
        · exact Or.inr ⟨owner, List.mem_append_right _ howner, hin⟩

end

/-- What is in a list that is put together from the entries of another one, by position. -/
theorem mem_of_cons
    {α β : Type}
    {b : β}
    {l : List α}
    {k : Nat}
    (whole : Nat → List α → List β)
    (part : Nat → α → List β)
    (hnil : ∀ k, whole k [] = [])
    (hcons : ∀ k a rest, whole k (a :: rest) = part k a ++ whole (k + 1) rest) :
    b ∈ whole k l ↔ ∃ (j : Nat) (a : α), l[j]? = some a ∧ b ∈ part (k + j) a := by
  induction l generalizing k with
  | nil => simp [hnil]
  | cons a rest ih =>
      rw [hcons, List.mem_append, ih]
      constructor
      · rintro (h | ⟨j, a', hj, h⟩)
        · exact ⟨0, a, rfl, h⟩
        · refine ⟨j + 1, a', hj, ?_⟩
          rwa [← Nat.add_assoc, Nat.add_right_comm]
      · rintro ⟨j, a', hj, h⟩
        cases j with
        | zero =>
            obtain rfl : a = a' := Option.some.inj hj
            exact Or.inl h
        | succ j =>
            refine Or.inr ⟨j, a', hj, ?_⟩
            rwa [Nat.add_right_comm, Nat.add_assoc]

theorem mem_relationParts {path : Path} {i : Nat} {relations : List (Relation × Pattern)}
    {part : Path × Pattern} : part ∈ relationParts path i relations ↔
      ∃ (j : Nat) (related : Relation × Pattern), relations[j]? = some related ∧
        part ∈ related.2.parts ((i + j) :: path) :=
  mem_of_cons (relationParts path) (fun i related => related.2.parts (i :: path)) (fun _ => rfl)
    fun _ _ _ => rfl

mutual

/-- What a part is related to is a part. -/
theorem mem_parts_of_related : ∀ (p : Pattern) (path : Path), ∀ owner ∈ p.parts path,
    ∀ (j : Nat) (relation : Relation) (q : Pattern), owner.2.relations[j]? = some (relation, q) →
      (j :: owner.1, q) ∈ p.parts path
  | nodeType _, path, owner, howner, j, relation, q, h
  | edgeType _, path, owner, howner, j, relation, q, h
  | node _, path, owner, howner, j, relation, q, h
  | edge _, path, owner, howner, j, relation, q, h
  | reference _, path, owner, howner, j, relation, q, h => by
      obtain rfl := List.mem_singleton.mp howner
      simp [relations] at h
  | nodeFragment _ _ _ relations, path, owner, howner, j, relation, q, h
  | edgeFragment _ _ _ relations, path, owner, howner, j, relation, q, h => by
      rcases List.mem_cons.mp howner with rfl | howner
      · have hpart := mem_relationParts.mpr ⟨j, _, h, mem_parts_self ((0 + j) :: path) q⟩
        rw [Nat.zero_add] at hpart
        exact List.mem_cons_of_mem _ hpart
      · exact List.mem_cons_of_mem _
          (mem_relationParts_of_related relations path 0 owner howner j relation q h)

theorem mem_relationParts_of_related : ∀ (relations : List (Relation × Pattern)) (path : Path)
    (i : Nat), ∀ owner ∈ relationParts path i relations,
      ∀ (j : Nat) (relation : Relation) (q : Pattern),
        owner.2.relations[j]? = some (relation, q) →
          (j :: owner.1, q) ∈ relationParts path i relations
  | [], _, _, _, howner, _, _, _, _ => absurd howner List.not_mem_nil
  | (_, p) :: rest, path, i, owner, howner, j, relation, q, h => by
      rw [relationParts, List.mem_append] at howner ⊢
      exact howner.imp
        (fun howner => mem_parts_of_related p (i :: path) owner howner j relation q h)
        (fun howner => mem_relationParts_of_related rest path (i + 1) owner howner j relation q h)

end

theorem mem_links
    {link : Path → Relation → Pattern → List (Clause Var)}
    {path : Path}
    {clause : Clause Var}
    {relations : List (Relation × Pattern)}
    {i : Nat} :
    clause ∈ links link path i relations ↔ ∃ (j : Nat) (relation : Relation) (p : Pattern),
      relations[j]? = some (relation, p) ∧ clause ∈ link ((i + j) :: path) relation p := by
  rw [mem_of_cons (links link path) (fun i related => link (i :: path) related.1 related.2)
    (fun _ => rfl) fun _ _ _ => rfl]
  simp only [Prod.exists]

theorem mem_reference? {p : Pattern} {x : String} : p.reference? = some x ↔ p = reference x := by
  cases p <;> simp [reference?]

variable {names : List String} {path : Path} {x : String} {p : Pattern} {kind : Kind}

/-- A name that a pattern uses for a node is said to be that of a node. -/
theorem member_node_of_mem_nodeUses (h : x ∈ p.nodeUses) :
    .member (.name x) .node ∈ p.ownClauses names path := by
  cases p with
  | nodeFragment base name excluding relations =>
      obtain rfl : name = some x := Option.mem_toList.mp h
      refine List.mem_append_left _ (List.mem_append_left _ ?_)
      cases base <;> exact List.mem_cons_self
  | edgeFragment base name excluding relations =>
      obtain ⟨⟨relation, q⟩, hmem, hq⟩ := List.mem_filterMap.mp h
      obtain rfl := mem_reference?.mp hq
      obtain ⟨j, hj⟩ := List.mem_iff_getElem?.mp hmem
      exact List.mem_append_right _ (mem_links.mpr ⟨j, relation, _, hj, List.mem_cons_self⟩)
  | nodeType type => cases h
  | edgeType type => cases h
  | node n => cases h
  | edge e => cases h
  | reference name => cases h

theorem var_eq_name {y : String} (h : p.var path = .name y) : p.name? = some y := by
  cases p with
  | reference name => simpa [var, name?] using h
  | nodeFragment base name excluding relations =>
      cases name <;> cases base <;> simp_all [var, Base.var, name?]
  | edgeFragment base name excluding relations =>
      cases name <;> cases base <;> simp_all [var, Base.var, name?]
  | nodeType type => simp [var] at h
  | edgeType type => simp [var] at h
  | node n => simp [var] at h
  | edge e => simp [var] at h

theorem member_of_mem_nodeBase {y z : Var} {base : Base NodeType Node}
    (h : .member y kind ∈ nodeBase z base) : y = z := by
  cases base <;> simp_all [nodeBase, typed, exact]

theorem member_edgeBase {y : Var} (base : Base EdgeType Edge) : .member y .edge ∈ edgeBase y base := by
  cases base <;> exact List.mem_cons_self

theorem member_of_mem_edgeBase {y z : Var} {base : Base EdgeType Edge}
    (h : .member y kind ∈ edgeBase z base) : y = z := by
  cases base <;> simp_all [edgeBase, typed, exact]

/-- A name is said to stand for something by the pattern with that name or by what is related to it. -/
theorem name?_of_member (h : .member (.name x) kind ∈ p.ownClauses names path) :
    p.name? = some x ∧ p.reference? = none ∨
      ∃ relation q, (relation, q) ∈ p.relations ∧ q.name? = some x := by
  cases p with
  | nodeFragment base name excluding relations =>
      rcases List.mem_append.mp h with h | h
      · rcases List.mem_append.mp h with h | h
        · exact Or.inl ⟨var_eq_name (p := .nodeFragment base name excluding relations)
            (member_of_mem_nodeBase h).symm, rfl⟩
        · simp at h
      · obtain ⟨j, relation, q, hj, h⟩ := mem_links.mp h
        refine Or.inr ⟨relation, q, List.mem_of_getElem? hj, ?_⟩
        unfold nodeLink related at h
        split at h
        · simp at h
        · simp only [List.mem_cons, List.not_mem_nil, or_false, reduceCtorEq, Clause.member.injEq] at h
          exact var_eq_name h.1.symm
  | edgeFragment base name excluding relations =>
      rcases List.mem_append.mp h with h | h
      · rcases List.mem_append.mp h with h | h
        · exact Or.inl ⟨var_eq_name (p := .edgeFragment base name excluding relations)
            (member_of_mem_edgeBase h).symm, rfl⟩
        · simp at h
      · obtain ⟨j, relation, q, hj, h⟩ := mem_links.mp h
        refine Or.inr ⟨relation, q, List.mem_of_getElem? hj, ?_⟩
        simp only [edgeLink, List.mem_cons, List.not_mem_nil, or_false, reduceCtorEq,
          Clause.member.injEq] at h
        exact var_eq_name h.1.symm
  | nodeType type => simp [ownClauses, typed] at h
  | edgeType type => simp [ownClauses, typed] at h
  | node n => simp [ownClauses, exact] at h
  | edge e => simp [ownClauses, exact] at h
  | reference name => cases h

/-- An exact item is said to be of its own type. -/
theorem isA_of_same {y : Var} {item : Item} (h : .same y item ∈ p.ownClauses names path) :
    .isA y item.type ∈ p.ownClauses names path := by
  have hexact : ∀ {z : Var} {a : Item}, .same y item ∈ exact z a → .isA y item.type ∈ exact z a := by
    intro z a h
    obtain ⟨rfl, rfl⟩ : y = z ∧ item = a := by simpa [exact] using h
    exact List.mem_cons_of_mem _ (List.mem_cons_of_mem _ List.mem_cons_self)
  have hlinks : ∀ {link : Path → Relation → Pattern → List (Clause Var)}
      {relations : List (Relation × Pattern)} {i : Nat},
      (∀ path relation p, .same y item ∉ link path relation p) →
        .same y item ∉ links link path i relations := by
    intro link relations i hnot h
    obtain ⟨j, relation, p, -, h⟩ := mem_links.mp h
    exact hnot _ _ _ h
  cases p with
  | nodeType type => simp [ownClauses, typed] at h
  | edgeType type => simp [ownClauses, typed] at h
  | node n => exact hexact h
  | edge e => exact hexact h
  | reference name => cases h
  | nodeFragment base name excluding relations =>
      rcases List.mem_append.mp h with h | h
      · refine List.mem_append_left _ (List.mem_append_left _ ?_)
        have h := (List.mem_append.mp h).resolve_right (by simp)
        cases base with
        | any type => simp [nodeBase, typed] at h
        | exactly n => exact hexact h
      · refine absurd h (hlinks fun path relation p h => ?_)
        unfold nodeLink related at h
        split at h <;> simp at h
  | edgeFragment base name excluding relations =>
      rcases List.mem_append.mp h with h | h
      · refine List.mem_append_left _ (List.mem_append_left _ ?_)
        have h := (List.mem_append.mp h).resolve_right (by simp)
        cases base with
        | any type => simp [edgeBase, typed] at h
        | exactly e => exact hexact h
      · exact absurd h (hlinks fun path relation p h => by simp [edgeLink] at h)

/-- The name of a fragment is placed. -/
theorem mem_placedUses_of_name? (h : p.name? = some x) (hreference : p.reference? = none) :
    x ∈ p.placedUses := by
  cases p <;> simp_all [name?, reference?, placedUses]

/-- A name that a fragment is related to is placed. -/
theorem mem_placedUses_of_related {relation : Relation} (h : (relation, reference x) ∈ p.relations) :
    x ∈ p.placedUses := by
  have hmem : x ∈ p.relations.filterMap fun related => related.2.reference? :=
    List.mem_filterMap.mpr ⟨_, h, rfl⟩
  cases p <;> simp_all [relations, placedUses]

/-- A name that a pattern places is said to stand for something, unless it is that of an edge. -/
theorem exists_member_of_mem_placedUses (h : x ∈ p.placedUses) (hx : x ∉ names) :
    ∃ kind, .member (.name x) kind ∈ p.ownClauses names path := by
  cases p with
  | nodeFragment base name excluding relations =>
      rcases List.mem_append.mp h with h | h
      · exact ⟨.node, member_node_of_mem_nodeUses (p := .nodeFragment base name excluding relations) h⟩
      · obtain ⟨⟨relation, q⟩, hmem, hq⟩ := List.mem_filterMap.mp h
        obtain rfl := mem_reference?.mp hq
        obtain ⟨j, hj⟩ := List.mem_iff_getElem?.mp hmem
        refine ⟨.node, List.mem_append_right _ (mem_links.mpr ⟨j, relation, _, hj, ?_⟩)⟩
        simp [nodeLink, related, isEdgeLike, hx, var]
  | edgeFragment base name excluding relations =>
      rcases List.mem_append.mp h with h | h
      · obtain rfl : name = some x := Option.mem_toList.mp h
        refine ⟨.edge, List.mem_append_left _ (List.mem_append_left _ ?_)⟩
        cases base <;> exact List.mem_cons_self
      · exact ⟨.node, member_node_of_mem_nodeUses (p := .edgeFragment base name excluding relations) h⟩
  | nodeType type => cases h
  | edgeType type => cases h
  | node n => cases h
  | edge e => cases h
  | reference name => cases h

end Pattern

/-- What a query has to be like to be lowered, in six respects. -/
inductive Condition where
  /-- The names are fit to be a user's. -/
  | names
  /-- Nodes stand where nodes are called for, and no name is used for both a node and an edge. -/
  | kinds
  /-- The types that a name is given are related. -/
  | types
  /-- A name is given one exact item at most. -/
  | instances
  /-- No edge has too many ends without a direction. -/
  | ends
  /-- Every name is that of a fragment, or is related to one. -/
  | places
deriving DecidableEq, Repr

/-- The sort of the faults of queries that do not meet a condition. -/
def Condition.category : Condition → Fault.Category
  | names => .invalidInput
  | ends => .structuralIntegrity
  | kinds | types | instances | places => .referenceMismatch

/-- The condition that a fault is about, if it is one of lowering a query. -/
def Fault.condition? : Fault → Option Condition
  | .blankName | .reservedName _ => some .names
  | .wrongKind .. | .mixedKinds .. => some .kinds
  | .unrelatedTypes .. => some .types
  | .twoInstances _ => some .instances
  | .crowdedEdge _ => some .ends
  | .untypedReference _ => some .places
  | _ => none

theorem Fault.category_of_condition? {fault : Fault} {condition : Condition}
    (h : fault.condition? = some condition) : fault.category = condition.category := by
  cases fault <;> cases h <;> rfl

/-- Whether a name is fit to be a user's: it is not blank and does not look like one made up. -/
def IsUserName (x : String) : Prop :=
  Text.isBlank x = false ∧ x.toList.head? ≠ some '#' ∧ x.toList.head? ≠ some '@'

instance (x : String) : Decidable (IsUserName x) :=
  inferInstanceAs (Decidable (_ ∧ _))

namespace Query

/-- The patterns of a query and those inside them, each with its path. -/
def parts (query : Query) : List (Path × Pattern) :=
  query.values.zipIdx.flatMap fun (p, i) => p.parts [i]

/-- The names that occur in a query. -/
def names (query : Query) : List String :=
  query.parts.filterMap fun part => part.2.name?

/-- The names that a query uses for nodes: those of node fragments, and those of an edge's ends. -/
def nodeNames (query : Query) : List String :=
  query.parts.flatMap fun part => part.2.nodeUses

/-- The names of fragments, and those that fragments are related to. -/
def placedNames (query : Query) : List String :=
  query.parts.flatMap fun part => part.2.placedUses

/-- Whether a query meets a condition. -/
def Meets (query : Query) : Condition → Prop
  | .names => ∀ x ∈ query.names, IsUserName x
  | .kinds => (∀ part ∈ query.parts, part.2.strayEdges = []) ∧
      ∀ x ∈ query.nodeNames, x ∉ query.edgeNames
  | .types => ∀ x t u, .isA (.name x) t ∈ query.clauses → .isA (.name x) u ∈ query.clauses →
      t.isA u = true ∨ u.isA t = true
  | .instances => ∀ x a b, .same (.name x) a ∈ query.clauses → .same (.name x) b ∈ query.clauses →
      a.id = b.id
  | .ends => ∀ edge, (Clause.players edge .endpoint query.clauses).length ≤ 2
  | .places => ∀ x ∈ query.names, x ∈ query.placedNames

variable {query : Query} {names : List String} {x : String} {kind : Kind} {part : Path × Pattern}

theorem mem_names (hpart : part ∈ query.parts) (hx : part.2.name? = some x) : x ∈ query.names :=
  List.mem_filterMap.mpr ⟨part, hpart, hx⟩

theorem mem_nodeNames (hpart : part ∈ query.parts) (hx : x ∈ part.2.nodeUses) : x ∈ query.nodeNames :=
  List.mem_flatMap.mpr ⟨part, hpart, hx⟩

theorem mem_patternClauses_iff {clause : Clause Var} :
    clause ∈ Lowering.patternClauses names query.values 0 ↔
      ∃ part ∈ query.parts, clause ∈ part.2.ownClauses names part.1 := by
  simp only [Lowering.patternClauses, parts, List.mem_flatMap, Pattern.mem_clauses_iff]
  constructor
  · rintro ⟨entry, hentry, part, hpart, hclause⟩
    exact ⟨part, ⟨entry, hentry, hpart⟩, hclause⟩
  · rintro ⟨part, ⟨entry, hentry, hpart⟩, hclause⟩
    exact ⟨entry, hentry, part, hpart, hclause⟩

/-- A query says what its parts say. -/
theorem mem_clauses_iff {clause : Clause Var} : clause ∈ query.clauses ↔
    ∃ part ∈ query.parts, clause ∈ part.2.ownClauses query.edgeNames part.1 :=
  mem_patternClauses_iff

/-- A name is used for an edge if it is said to be that of one. -/
theorem mem_edgeNames_iff : x ∈ query.edgeNames ↔ .member (.name x) .edge ∈ query.clauses :=
  member_edge_iff_mem_edgeNames.symm

theorem member_node_of_mem_nodeNames (h : x ∈ query.nodeNames) :
    .member (.name x) .node ∈ query.clauses := by
  obtain ⟨part, hpart, hx⟩ := List.mem_flatMap.mp h
  exact mem_clauses_iff.mpr ⟨part, hpart, Pattern.member_node_of_mem_nodeUses hx⟩

/-- What a part is related to is a part. -/
theorem mem_parts_of_related
    {owner : Path × Pattern}
    {j : Nat}
    {relation : Relation}
    {q : Pattern}
    (howner : owner ∈ query.parts)
    (h : owner.2.relations[j]? = some (relation, q)) :
    (j :: owner.1, q) ∈ query.parts := by
  obtain ⟨entry, hentry, hinside⟩ := List.mem_flatMap.mp howner
  exact List.mem_flatMap.mpr
    ⟨entry, hentry, Pattern.mem_parts_of_related _ _ owner hinside j relation q h⟩

/-- A name that is not placed stands by itself at the top of the query. -/
theorem placed_or_topmost (h : x ∈ query.names) :
    x ∈ query.placedNames ∨ .reference x ∈ query.values := by
  obtain ⟨part, hpart, hname⟩ := List.mem_filterMap.mp h
  obtain ⟨⟨p, i⟩, hentry, hinside⟩ := List.mem_flatMap.mp hpart
  have hplaced : ∀ part ∈ query.parts, x ∈ part.2.placedUses → x ∈ query.placedNames :=
    fun part hpart hx => List.mem_flatMap.mpr ⟨part, hpart, hx⟩
  cases hreference : part.2.reference? with
  | none =>
      exact Or.inl (hplaced part hpart (Pattern.mem_placedUses_of_name? hname hreference))
  | some y =>
      obtain ⟨path, q⟩ := part
      obtain rfl := Pattern.mem_reference?.mp hreference
      obtain rfl : y = x := Option.some.inj hname
      rcases Pattern.eq_or_related_of_mem_parts p [i] _ hinside with heq | ⟨owner, howner, hrelated⟩
      · obtain ⟨-, rfl⟩ := Prod.mk.inj heq
        exact Or.inr (List.fst_mem_of_mem_zipIdx hentry)
      · refine Or.inl (hplaced owner (List.mem_flatMap.mpr ⟨_, hentry, howner⟩) ?_)
        obtain ⟨relation, hrelated⟩ := hrelated
        obtain ⟨path', q⟩ := owner
        exact Pattern.mem_placedUses_of_related hrelated

/-- A name that stands for something is placed. -/
theorem mem_placedNames_of_member (h : .member (.name x) kind ∈ query.clauses) :
    x ∈ query.placedNames := by
  have hown : ∀ part ∈ query.parts, part.2.name? = some x → part.2.reference? = none →
      x ∈ query.placedNames := by
    intro part hpart hname hreference
    exact List.mem_flatMap.mpr ⟨part, hpart, Pattern.mem_placedUses_of_name? hname hreference⟩
  obtain ⟨⟨path, p⟩, hpart, hclause⟩ := mem_clauses_iff.mp h
  rcases Pattern.name?_of_member hclause with ⟨hname, hreference⟩ | ⟨relation, q, hrelated, hname⟩
  · exact hown _ hpart hname hreference
  · cases hreference : q.reference? with
    | none =>
        obtain ⟨j, hj⟩ := List.mem_iff_getElem?.mp hrelated
        exact hown _ (mem_parts_of_related hpart hj) hname hreference
    | some y =>
        obtain rfl := Pattern.mem_reference?.mp hreference
        obtain rfl : y = x := Option.some.inj hname
        refine List.mem_flatMap.mpr ⟨_, hpart, ?_⟩
        exact Pattern.mem_placedUses_of_related hrelated

/-- A name that is placed stands for something, unless it is said to be that of an edge. -/
theorem exists_member_of_mem_placedNames (h : x ∈ query.placedNames) (hx : x ∉ names) :
    ∃ kind, .member (.name x) kind ∈ Lowering.patternClauses names query.values 0 := by
  obtain ⟨part, hpart, hplaced⟩ := List.mem_flatMap.mp h
  obtain ⟨kind, hmember⟩ := Pattern.exists_member_of_mem_placedUses hplaced hx
  exact ⟨kind, mem_patternClauses_iff.mpr ⟨part, hpart, hmember⟩⟩

end Query

end PatternGraph
