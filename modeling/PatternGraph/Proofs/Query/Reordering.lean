import Mathlib.Data.List.FinRange
import PatternGraph.Proofs.Query.Acceptance
import PatternGraph.Proofs.Query.Renaming

/-!
# The order of items and relations

A list of patterns asks for the same in whatever order its items stand, and the relations of each
fragment inside it.  Only the paths to its patterns differ, so its clauses are those of the other
list up to renaming and order.
-/

namespace PatternGraph

namespace Pattern

/-- Whether two patterns differ only in the order of the relations of fragments, at any depth. -/
inductive Reordered : Pattern → Pattern → Prop
  | refl (p : Pattern) : Reordered p p
  | nodeFragment {n : Nat} (base : Base NodeType Node) (name : Option String)
      (excluding : List NodeType) {relations relations' : Fin n → Relation × Pattern}
      (π : Equiv.Perm (Fin n)) (hrelation : ∀ i, (relations' (π i)).1 = (relations i).1)
      (hinside : ∀ i, Reordered (relations i).2 (relations' (π i)).2) :
      Reordered (nodeFragment base name excluding (List.ofFn relations))
        (nodeFragment base name excluding (List.ofFn relations'))
  | edgeFragment {n : Nat} (base : Base EdgeType Edge) (name : Option String)
      (excluding : List EdgeType) {relations relations' : Fin n → Relation × Pattern}
      (π : Equiv.Perm (Fin n)) (hrelation : ∀ i, (relations' (π i)).1 = (relations i).1)
      (hinside : ∀ i, Reordered (relations i).2 (relations' (π i)).2) :
      Reordered (edgeFragment base name excluding (List.ofFn relations))
        (edgeFragment base name excluding (List.ofFn relations'))

variable {p p' : Pattern} {names names' : List String} {ρ : Path → Path}

theorem Reordered.symm (h : p.Reordered p') : p'.Reordered p := by
  induction h with
  | refl p => exact .refl p
  | nodeFragment base name excluding π hrelation hinside ih =>
      refine .nodeFragment base name excluding π.symm (fun i => ?_) fun i => ?_
      · simpa using (hrelation (π.symm i)).symm
      · simpa using ih (π.symm i)
  | edgeFragment base name excluding π hrelation hinside ih =>
      refine .edgeFragment base name excluding π.symm (fun i => ?_) fun i => ?_
      · simpa using (hrelation (π.symm i)).symm
      · simpa using ih (π.symm i)

theorem Reordered.isEdge_eq (h : p.Reordered p') : p'.isEdge = p.isEdge := by
  cases h <;> rfl

theorem Reordered.name?_eq (h : p.Reordered p') : p'.name? = p.name? := by
  cases h <;> rfl

theorem Reordered.reference?_eq (h : p.Reordered p') : p'.reference? = p.reference? := by
  cases h <;> rfl

/-- A renamed base speaks about the renamed variable. -/
theorem rename_var {τ ι : Type} (base : Base τ ι) (name : Option String) (path : Path)
    (id : ι → ItemId) : (base.var name path id).rename ρ = base.var name (ρ path) id := by
  cases name <;> cases base <;> rfl

theorem Reordered.var_eq (h : p.Reordered p') (path : Path) :
    p'.var (ρ path) = (p.var path).rename ρ := by
  cases h with
  | refl =>
      cases p with
      | nodeFragment base name excluding relations => exact (rename_var base name path _).symm
      | edgeFragment base name excluding relations => exact (rename_var base name path _).symm
      | _ => rfl
  | nodeFragment base name excluding π hrelation hinside => exact (rename_var base name path _).symm
  | edgeFragment base name excluding π hrelation hinside => exact (rename_var base name path _).symm

theorem Reordered.isEdgeLike_eq (h : p.Reordered p') (hnames : ∀ x, x ∈ names' ↔ x ∈ names) :
    p'.isEdgeLike names' = p.isEdgeLike names := by
  cases h with
  | refl =>
      cases p with
      | reference name =>
          rw [isEdgeLike, isEdgeLike, Bool.eq_iff_iff, List.contains_iff_mem, List.contains_iff_mem]
          exact hnames name
      | _ => rfl
  | nodeFragment base name excluding π hrelation hinside => rfl
  | edgeFragment base name excluding π hrelation hinside => rfl

/-- What a node fragment says of what it is related to, when both are renamed. -/
theorem nodeLink_rename {path : Path} (hvar : p'.var (ρ path) = (p.var path).rename ρ)
    (hlike : p'.isEdgeLike names' = p.isEdgeLike names) (x : Var) (relation : Relation) :
    nodeLink names' (x.rename ρ) (ρ path) relation p' =
      (nodeLink names x path relation p).map (Clause.rename ρ) := by
  rw [nodeLink, nodeLink, hvar, hlike]
  unfold related
  split <;> rfl

/-- What an edge fragment says of what it is related to, when both are renamed. -/
theorem edgeLink_rename {path : Path} (hvar : p'.var (ρ path) = (p.var path).rename ρ) (x : Var)
    (relation : Relation) : edgeLink (x.rename ρ) (ρ path) relation p' =
      (edgeLink x path relation p).map (Clause.rename ρ) := by
  rw [edgeLink, edgeLink, hvar]
  rfl

theorem nodeBase_rename (x : Var) (base : Base NodeType Node) :
    nodeBase (x.rename ρ) base = (nodeBase x base).map (Clause.rename ρ) := by
  cases base <;> rfl

theorem edgeBase_rename (x : Var) (base : Base EdgeType Edge) :
    edgeBase (x.rename ρ) base = (edgeBase x base).map (Clause.rename ρ) := by
  cases base <;> rfl

/-- A fragment says the same of the renamed variables if its base does and so do its relations. -/
theorem fragment_rename
    {τ : Type}
    {base base' rest rest' : List (Clause Var)}
    (type : τ → ItemType)
    (excluding : List τ)
    (x : Var)
    (hbase : base' = base.map (Clause.rename ρ))
    (hrest : rest'.Perm (rest.map (Clause.rename ρ))) :
    (base' ++ excluding.map (fun t => Clause.isNot (x.rename ρ) (type t)) ++ rest').Perm
      ((base ++ excluding.map (fun t => Clause.isNot x (type t)) ++ rest).map (Clause.rename ρ)) := by
  rw [List.map_append, List.map_append, List.map_map, hbase]
  exact hrest.append_left _

/-- Whether the paths inside some relations are those of relations that have other numbers. -/
def Renumbers (ρ : Path → Path) (path path' : Path) (i i' : Nat)
    (relations : List (Relation × Pattern)) : Prop :=
  ∀ j < relations.length, ∀ q, ρ (q ++ (i + j) :: path) = q ++ (i' + j) :: path'

section

variable {path path' : Path} {i i' : Nat} {related : Relation × Pattern}
  {relations rest : List (Relation × Pattern)}

theorem renumbers_of_path (hρ : ∀ q, ρ (q ++ path) = q ++ path') (i : Nat) :
    Renumbers ρ path path' i i relations := by
  intro j _ q
  simpa using hρ (q ++ [i + j])

theorem Renumbers.head (h : Renumbers ρ path path' i i' (related :: rest)) (q : Path) :
    ρ (q ++ i :: path) = q ++ i' :: path' :=
  h 0 (Nat.succ_pos _) q

theorem Renumbers.tail (h : Renumbers ρ path path' i i' (related :: rest)) :
    Renumbers ρ path path' (i + 1) (i' + 1) rest := by
  intro j hj q
  simpa only [Nat.add_assoc] using h (1 + j) (by rw [List.length_cons]; omega) q

end

mutual

/-- A pattern that stands elsewhere says the same of the renamed variables. -/
theorem clauses_rename (hnames : ∀ x, x ∈ names' ↔ x ∈ names) : ∀ (p : Pattern) (path path' : Path),
    (∀ q, ρ (q ++ path) = q ++ path') →
      (p.clauses names' path').Perm ((p.clauses names path).map (Clause.rename ρ))
  | nodeType type, path, path', hρ | edgeType type, path, path', hρ => by
      rw [← show ρ path = path' from hρ []]
      rfl
  | node n, path, path', hρ | edge e, path, path', hρ | reference name, path, path', hρ => .refl _
  | nodeFragment base name excluding relations, path, path', hρ => by
      have hvar := rename_var (ρ := ρ) base name path fun n => .node n.id
      rw [show ρ path = path' from hρ []] at hvar
      rw [clauses, clauses, ← hvar]
      exact fragment_rename _ excluding _ (nodeBase_rename _ base)
        (nodeClauses_rename hnames relations path path' _ 0 0 (renumbers_of_path hρ 0))
  | edgeFragment base name excluding relations, path, path', hρ => by
      have hvar := rename_var (ρ := ρ) base name path fun e => .edge e.id
      rw [show ρ path = path' from hρ []] at hvar
      rw [clauses, clauses, ← hvar]
      exact fragment_rename _ excluding _ (edgeBase_rename _ base)
        (edgeClauses_rename hnames relations path path' _ 0 0 (renumbers_of_path hρ 0))

theorem nodeClauses_rename (hnames : ∀ x, x ∈ names' ↔ x ∈ names) :
    ∀ (relations : List (Relation × Pattern)) (path path' : Path) (x : Var) (i i' : Nat),
      Renumbers ρ path path' i i' relations →
        (nodeClauses names' path' (x.rename ρ) i' relations).Perm
          ((nodeClauses names path x i relations).map (Clause.rename ρ))
  | [], _, _, _, _, _, _ => .refl _
  | (relation, p) :: rest, path, path', x, i, i', hρ => by
      have hlink := nodeLink_rename (ρ := ρ) ((Reordered.refl p).var_eq (i :: path))
        ((Reordered.refl p).isEdgeLike_eq hnames) x relation
      rw [show ρ (i :: path) = i' :: path' from hρ.head []] at hlink
      rw [nodeClauses, nodeClauses, List.map_append, List.map_append]
      exact ((List.Perm.of_eq hlink).append (clauses_rename hnames p _ _ hρ.head)).append
        (nodeClauses_rename hnames rest path path' x (i + 1) (i' + 1) hρ.tail)

theorem edgeClauses_rename (hnames : ∀ x, x ∈ names' ↔ x ∈ names) :
    ∀ (relations : List (Relation × Pattern)) (path path' : Path) (x : Var) (i i' : Nat),
      Renumbers ρ path path' i i' relations →
        (edgeClauses names' path' (x.rename ρ) i' relations).Perm
          ((edgeClauses names path x i relations).map (Clause.rename ρ))
  | [], _, _, _, _, _, _ => .refl _
  | (relation, p) :: rest, path, path', x, i, i', hρ => by
      have hlink := edgeLink_rename (ρ := ρ) ((Reordered.refl p).var_eq (i :: path)) x relation
      rw [show ρ (i :: path) = i' :: path' from hρ.head []] at hlink
      rw [edgeClauses, edgeClauses, List.map_append, List.map_append]
      exact ((List.Perm.of_eq hlink).append (clauses_rename hnames p _ _ hρ.head)).append
        (edgeClauses_rename hnames rest path path' x (i + 1) (i' + 1) hρ.tail)

end

/-- What is put together from the entries of a list, by position, in the order of the positions. -/
theorem eq_flatMap_finRange
    {α β : Type}
    (whole : Nat → List α → List β)
    (part : Nat → α → List β)
    (hnil : ∀ k, whole k [] = [])
    (hcons : ∀ k a rest, whole k (a :: rest) = part k a ++ whole (k + 1) rest)
    {n : Nat}
    (f : Fin n → α)
    (k : Nat) :
    whole k (List.ofFn f) = (List.finRange n).flatMap fun i : Fin n => part (k + i) (f i) := by
  induction n generalizing k with
  | zero => simp [hnil]
  | succ n ih =>
      rw [List.ofFn_succ, hcons, ih, List.finRange_succ, List.flatMap_cons, List.flatMap_map]
      simp [Nat.add_right_comm, Nat.add_assoc]

/-- Parts that are the renamed parts of another list in another order. -/
theorem flatMap_finRange_perm
    {β γ : Type}
    {n : Nat}
    (π : Equiv.Perm (Fin n))
    {part : Fin n → List β}
    {part' : Fin n → List γ}
    (f : β → γ)
    (hparts : ∀ i, (part' (π i)).Perm ((part i).map f)) :
    ((List.finRange n).flatMap part').Perm (((List.finRange n).flatMap part).map f) := by
  calc ((List.finRange n).flatMap part').Perm _ := (π.map_finRange_perm.flatMap_right part').symm
    List.Perm _ _ := by
      rw [List.flatMap_map, List.map_flatMap]
      exact List.Perm.flatMap_left _ fun i _ => hparts i

/-- Clauses of reordered patterns are the same up to renaming the paths inside them, and order. -/
structure Renames (p p' : Pattern) (inside : Path → Path) : Prop where
  injective : Function.Injective inside
  nil : inside [] = []
  perm : ∀ (names names' : List String) (path path' : Path) (ρ : Path → Path),
    (∀ x, x ∈ names' ↔ x ∈ names) → (∀ q, ρ (q ++ path) = inside q ++ path') →
      (p'.clauses names' path').Perm ((p.clauses names path).map (Clause.rename ρ))

section

variable {n : Nat} {relations relations' : Fin n → Relation × Pattern} {π : Equiv.Perm (Fin n)}
  {inside : Fin n → Path → Path} {path path' : Path}

/-- How the paths of a fragment are renamed tells how those of its relations are. -/
theorem branch_relation (hρ : ∀ q, ρ (q ++ path) = Path.branch π inside q ++ path') (i : Fin n)
    (q : Path) : ρ (q ++ (i : Nat) :: path) = inside i q ++ (π i : Nat) :: path' := by
  have hbranch := hρ (q ++ [(i : Nat)])
  rw [Path.branch_append] at hbranch
  simpa using hbranch

/-- The relations of a fragment in another order say the same. -/
theorem relations_perm
    (whole : List String → Path → Var → Nat → List (Relation × Pattern) → List (Clause Var))
    (link : List String → Var → Path → Relation → Pattern → List (Clause Var))
    (hnil : ∀ names path x k, whole names path x k [] = [])
    (hcons : ∀ names path x k relation p rest, whole names path x k ((relation, p) :: rest) =
      link names x (k :: path) relation p ++ p.clauses names (k :: path) ++
        whole names path x (k + 1) rest)
    (hlink : ∀ p p' x path relation, p.Reordered p' → link names' (x.rename ρ) (ρ path) relation p' =
      (link names x path relation p).map (Clause.rename ρ))
    (hrelation : ∀ i, (relations' (π i)).1 = (relations i).1)
    (hreordered : ∀ i, (relations i).2.Reordered (relations' (π i)).2)
    (hrenames : ∀ i, Renames (relations i).2 (relations' (π i)).2 (inside i))
    (hnames : ∀ x, x ∈ names' ↔ x ∈ names)
    (hρ : ∀ q, ρ (q ++ path) = Path.branch π inside q ++ path')
    (x : Var) :
    (whole names' path' (x.rename ρ) 0 (List.ofFn relations')).Perm
      ((whole names path x 0 (List.ofFn relations)).map (Clause.rename ρ)) := by
  have hparts : ∀ names path x relations, whole names path x 0 (List.ofFn relations) =
      (List.finRange n).flatMap fun i : Fin n =>
        link names x ((i : Nat) :: path) (relations i).1 (relations i).2 ++
          (relations i).2.clauses names ((i : Nat) :: path) := by
    intro names path x relations
    have hwhole := eq_flatMap_finRange (whole names path x)
      (fun i related => link names x (i :: path) related.1 related.2 ++
        related.2.clauses names (i :: path))
      (hnil names path x) (fun k related rest => hcons names path x k related.1 related.2 rest)
      relations 0
    simpa using hwhole
  rw [hparts, hparts]
  refine flatMap_finRange_perm π _ fun i => ?_
  have hpath := branch_relation hρ i
  have hhere : ρ ((i : Nat) :: path) = (π i : Nat) :: path' := by
    simpa [(hrenames i).nil] using hpath []
  rw [List.map_append, ← hlink _ _ x _ _ (hreordered i), hhere, hrelation]
  exact (List.Perm.refl _).append ((hrenames i).perm names names' _ _ ρ hnames hpath)

end

/-- Patterns that differ in the order of relations only say the same up to renaming and order. -/
theorem Reordered.exists_renames (h : p.Reordered p') : ∃ inside, Renames p p' inside := by
  induction h with
  | refl p =>
      exact ⟨id, Function.injective_id, rfl, fun names names' path path' ρ hnames hρ =>
        clauses_rename hnames p path path' hρ⟩
  | nodeFragment base name excluding π hrelation hreordered ih =>
      choose inside hinside using ih
      refine ⟨Path.branch π inside, Path.branch_injective fun i => (hinside i).injective, rfl,
        fun names names' path path' ρ hnames hρ => ?_⟩
      have hvar := rename_var (ρ := ρ) base name path fun n => .node n.id
      rw [show ρ path = path' from hρ []] at hvar
      rw [clauses, clauses, ← hvar]
      exact fragment_rename _ excluding _ (nodeBase_rename _ base)
        (relations_perm nodeClauses nodeLink (fun _ _ _ _ => rfl) (fun _ _ _ _ _ _ _ => rfl)
          (fun _ _ x path relation h =>
            nodeLink_rename (h.var_eq path) (h.isEdgeLike_eq hnames) x relation)
          hrelation hreordered hinside hnames hρ _)
  | edgeFragment base name excluding π hrelation hreordered ih =>
      choose inside hinside using ih
      refine ⟨Path.branch π inside, Path.branch_injective fun i => (hinside i).injective, rfl,
        fun names names' path path' ρ hnames hρ => ?_⟩
      have hvar := rename_var (ρ := ρ) base name path fun e => .edge e.id
      rw [show ρ path = path' from hρ []] at hvar
      rw [clauses, clauses, ← hvar]
      exact fragment_rename _ excluding _ (edgeBase_rename _ base)
        (relations_perm edgeClauses (fun _ => edgeLink) (fun _ _ _ _ => rfl)
          (fun _ _ _ _ _ _ _ => rfl)
          (fun _ _ x path relation h => edgeLink_rename (h.var_eq path) x relation)
          hrelation hreordered hinside hnames hρ _)

mutual

/-- What the parts of a pattern are does not depend on where it stands. -/
theorem map_snd_parts : ∀ (p : Pattern) (path path' : Path),
    (p.parts path).map Prod.snd = (p.parts path').map Prod.snd
  | nodeType _, _, _ | edgeType _, _, _ | node _, _, _ | edge _, _, _ | reference _, _, _ => rfl
  | nodeFragment _ _ _ relations, path, path' | edgeFragment _ _ _ relations, path, path' =>
      congrArg (List.cons _) (map_snd_relationParts relations path path' 0)

theorem map_snd_relationParts : ∀ (relations : List (Relation × Pattern)) (path path' : Path)
    (i : Nat), (relationParts path i relations).map Prod.snd =
      (relationParts path' i relations).map Prod.snd
  | [], _, _, _ => rfl
  | (_, p) :: rest, path, path', i => by
      rw [relationParts, relationParts, List.map_append, List.map_append,
        map_snd_parts p (i :: path) (i :: path'), map_snd_relationParts rest path path' (i + 1)]

end

theorem mem_relationParts_ofFn {n : Nat} {relations : Fin n → Relation × Pattern} {path : Path}
    {part : Path × Pattern} : part ∈ relationParts path 0 (List.ofFn relations) ↔
      ∃ i : Fin n, part ∈ (relations i).2.parts ((i : Nat) :: path) := by
  have hwhole := eq_flatMap_finRange (relationParts path) (fun i related => related.2.parts (i :: path))
    (fun _ => rfl) (fun _ _ _ => rfl) relations 0
  rw [hwhole]
  simp

/-- Each part of a pattern is a part of the reordered pattern, itself reordered. -/
theorem Reordered.exists_part (h : p.Reordered p') : ∀ (path path' : Path), ∀ part ∈ p.parts path,
    ∃ part' ∈ p'.parts path', part.2.Reordered part'.2 := by
  induction h with
  | refl p =>
      intro path path' part hpart
      have hmem : part.2 ∈ (p.parts path).map Prod.snd := List.mem_map_of_mem hpart
      rw [map_snd_parts p path path'] at hmem
      obtain ⟨part', hpart', heq⟩ := List.mem_map.mp hmem
      exact ⟨part', hpart', heq ▸ .refl _⟩
  | nodeFragment base name excluding π hrelation hreordered ih =>
      intro path path' part hpart
      rcases List.mem_cons.mp hpart with rfl | hpart
      · exact ⟨_, List.mem_cons_self, .nodeFragment base name excluding π hrelation hreordered⟩
      · obtain ⟨i, hpart⟩ := mem_relationParts_ofFn.mp hpart
        obtain ⟨part', hpart', hpair⟩ := ih i _ ((π i : Nat) :: path') part hpart
        exact ⟨part', List.mem_cons_of_mem _ (mem_relationParts_ofFn.mpr ⟨π i, hpart'⟩), hpair⟩
  | edgeFragment base name excluding π hrelation hreordered ih =>
      intro path path' part hpart
      rcases List.mem_cons.mp hpart with rfl | hpart
      · exact ⟨_, List.mem_cons_self, .edgeFragment base name excluding π hrelation hreordered⟩
      · obtain ⟨i, hpart⟩ := mem_relationParts_ofFn.mp hpart
        obtain ⟨part', hpart', hpair⟩ := ih i _ ((π i : Nat) :: path') part hpart
        exact ⟨part', List.mem_cons_of_mem _ (mem_relationParts_ofFn.mpr ⟨π i, hpart'⟩), hpair⟩

/-- The names that a fragment is related to are the same in another order. -/
theorem references_subset
    {n : Nat}
    {relations relations' : Fin n → Relation × Pattern}
    {π : Equiv.Perm (Fin n)}
    (hreordered : ∀ i, (relations i).2.Reordered (relations' (π i)).2) :
    (List.ofFn relations).filterMap (fun related => related.2.reference?) ⊆
      (List.ofFn relations').filterMap fun related => related.2.reference? := by
  intro x hx
  obtain ⟨related, hrelated, hreference⟩ := List.mem_filterMap.mp hx
  obtain ⟨i, rfl⟩ := List.mem_ofFn.mp hrelated
  exact List.mem_filterMap.mpr ⟨relations' (π i), List.mem_ofFn.mpr ⟨π i, rfl⟩,
    (hreordered i).reference?_eq.trans hreference⟩

/-- The names that a pattern uses for nodes are the same in another order. -/
theorem Reordered.nodeUses_subset (h : p.Reordered p') : p.nodeUses ⊆ p'.nodeUses := by
  cases h with
  | refl => exact List.Subset.refl _
  | nodeFragment base name excluding π hrelation hreordered => exact List.Subset.refl _
  | edgeFragment base name excluding π hrelation hreordered => exact references_subset hreordered

/-- The names that a pattern places are the same in another order. -/
theorem Reordered.placedUses_subset (h : p.Reordered p') : p.placedUses ⊆ p'.placedUses := by
  cases h with
  | refl => exact List.Subset.refl _
  | nodeFragment base name excluding π hrelation hreordered =>
      exact fun x hx => List.mem_append.mpr
        ((List.mem_append.mp hx).imp_right fun hx => references_subset hreordered hx)
  | edgeFragment base name excluding π hrelation hreordered =>
      exact fun x hx => List.mem_append.mpr
        ((List.mem_append.mp hx).imp_right fun hx => references_subset hreordered hx)

/-- A pattern relates an edge to an edge in any order or in none. -/
theorem Reordered.strayEdges_eq_nil (h : p.Reordered p') (hnone : p'.strayEdges = []) :
    p.strayEdges = [] := by
  cases h with
  | refl => exact hnone
  | nodeFragment base name excluding π hrelation hreordered => rfl
  | edgeFragment base name excluding π hrelation hreordered =>
      rw [strayEdges, List.filter_eq_nil_iff, List.forall_mem_ofFn_iff] at hnone ⊢
      exact fun i => (hreordered i).isEdge_eq ▸ hnone (π i)

end Pattern

/--
Which names are those of edges does not depend on what is supposed of them: it is the same in queries
whose clauses differ by a renaming, in their order, and by clauses that are not about that.
-/
theorem Query.mem_edgeNames_of_rename
    {ρ : Path → Path}
    {query query' : Query}
    (said : List (Clause Var))
    (hsaid : ∀ x, .member x .edge ∉ said)
    (hperm : (Lowering.patternClauses [] query'.values 0).Perm
      ((said ++ Lowering.patternClauses [] query.values 0).map (Clause.rename ρ)))
    (x : String) :
    x ∈ query'.edgeNames ↔ x ∈ query.edgeNames := by
  have hmem := hperm.mem_iff (a := .member (.name x) .edge)
  rw [member_edge_iff_mem_edgeNames, List.mem_map] at hmem
  refine hmem.trans ⟨?_, fun hx =>
    ⟨_, List.mem_append_right _ (member_edge_iff_mem_edgeNames.mpr hx), rfl⟩⟩
  rintro ⟨clause, hclause, heq⟩
  obtain ⟨v, hv, rfl⟩ := Clause.relabel_eq_iff.mp heq
  obtain rfl := Var.rename_eq_name.mp hv
  exact member_edge_iff_mem_edgeNames.mp ((List.mem_append.mp hclause).resolve_left (hsaid _))

end PatternGraph
