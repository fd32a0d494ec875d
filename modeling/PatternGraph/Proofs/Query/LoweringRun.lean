import Mathlib.Algebra.Order.Group.Multiset
import Mathlib.Tactic.Abel
import PatternGraph.Proofs.Query.LoweringSteps
import PatternGraph.Proofs.Query.Places

/-!
# What a whole lowering records

Lowering a pattern extends the ledger by the clauses of the pattern, whatever the draft was before.
The induction is on the pattern, as the lowering is, and each fragment is put together from the
extensions of its base, its exclusions and its relations.
-/

namespace PatternGraph.Lowering

variable {types : List ItemType} {place : Place} {kind : Option Kind} {k : Kind}
  {room room' room'' : List Place} {said said' said'' : List String → List (Clause Place)}
  {path : Path} {x : Var} {i : Nat} {known : List String}

/--
Whether a lowering step, if it succeeds, gives the slot of a place, which is known to be of some
kind afterwards, and says the given clauses.
-/
def Opens (types : List ItemType) (m : Lowering Nat) (place : Place) (kind : Option Kind)
    (room : List Place) (said : List String → List (Clause Place)) : Prop :=
  ∀ (d : Draft) (ledger : Ledger) (i : Nat) (d' : Draft), d.Records types ledger →
    ledger.places.Nodup → ledger.Free room → Yields m d i d' →
      ∃ ledger', d'.Records types ledger' ∧ ledger.Extends ledger' room said ∧
        ledger'.tags[i]? = some place ∧ ∀ k ∈ kind, .member place k ∈ ledger'.clauses

/-- Whether a lowering step, if it succeeds, says the given clauses about a place of some kind. -/
def Tells (types : List ItemType) (i : Nat) (place : Place) (kind : Kind) (m : Lowering Unit)
    (room : List Place) (said : List String → List (Clause Place)) : Prop :=
  ∀ (d : Draft) (ledger : Ledger) (u : Unit) (d' : Draft), d.Records types ledger →
    ledger.places.Nodup → ledger.Free room → ledger.tags[i]? = some place →
      .member place kind ∈ ledger.clauses → Yields m d u d' →
        ∃ ledger', d'.Records types ledger' ∧ ledger.Extends ledger' room said

theorem Opens.congr
    {m : Lowering Nat}
    (h : Opens types m place kind room said)
    (hroom : room.Sublist room')
    (hsaid : ∀ names, Clause.Same (said names) (said' names)) :
    Opens types m place kind room' said' := by
  intro d ledger i d' hd hnodup hfree hrun
  obtain ⟨ledger', hd', hextends, htag⟩ := h d ledger i d' hd hnodup (hfree.mono hroom) hrun
  exact ⟨ledger', hd', hextends.congr hroom.subset fun names _ => hsaid names, htag⟩

theorem Tells.congr
    {m : Lowering Unit}
    (h : Tells types i place k m room said)
    (hroom : room.Sublist room')
    (hsaid : ∀ names, Clause.Same (said names) (said' names)) :
    Tells types i place k m room' said' := by
  intro d ledger u d' hd hnodup hfree htag hkind hrun
  obtain ⟨ledger', hd', hextends⟩ := h d ledger u d' hd hnodup (hfree.mono hroom) htag hkind hrun
  exact ⟨ledger', hd', hextends.congr hroom.subset fun names _ => hsaid names⟩

theorem Tells.nothing : Tells types i place k (pure ()) [] fun _ => [] := by
  intro d ledger u d' hd hnodup _ _ _ hrun
  obtain ⟨-, rfl⟩ := yields_pure.mp hrun
  exact ⟨ledger, hd, .refl hnodup⟩

theorem Tells.bind
    {m m' : Lowering Unit}
    (h : Tells types i place k m room said)
    (h' : Tells types i place k m' room' said') :
    Tells types i place k (do m; m') (room ++ room') fun names => said names ++ said' names := by
  intro d ledger u d' hd hnodup hfree htag hkind hrun
  obtain ⟨_, e, hfirst, hrest⟩ := yields_bind.mp hrun
  obtain ⟨between, he, hextends⟩ :=
    h d ledger _ e hd hnodup (hfree.mono (List.sublist_append_left _ _)) htag hkind hfirst
  obtain ⟨ledger', hd', hextends'⟩ := h' e between u d' he hextends.distinct
    (hfree.right hextends) (hextends.tag htag) (hextends.clauses _ hkind) hrest
  exact ⟨ledger', hd', hextends.trans hextends'⟩

/-- A fragment has a base, about which two more things are said. -/
theorem Opens.fragment
    {m : Lowering Nat}
    {f g : Nat → Lowering Unit}
    (hm : Opens types m place (some k) room said)
    (hf : ∀ i, Tells types i place k (f i) room' said')
    (hg : ∀ i, Tells types i place k (g i) room'' said'') :
    Opens types (do let i ← m; f i; g i; return i) place (some k) (room ++ (room' ++ room''))
      fun names => said names ++ (said' names ++ said'' names) := by
  intro d ledger i d' hd hnodup hfree hrun
  simp only [yields_bind, yields_pure] at hrun
  obtain ⟨i', e, hbase, _, e', hfirst, _, _, hrest, rfl, rfl⟩ := hrun
  obtain ⟨between, he, hextends, htag, hkind⟩ :=
    hm d ledger i' e hd hnodup (hfree.mono (List.sublist_append_left _ _)) hbase
  have hmember := hkind k rfl
  obtain ⟨ledger', hd', hextends'⟩ := (hf i').bind (hg i') e between () _ he hextends.distinct
    (hfree.right hextends) htag hmember (yields_bind.mpr ⟨_, e', hfirst, hrest⟩)
  exact ⟨ledger', hd', hextends.trans hextends', hextends'.tag htag, fun k' hk' =>
    hextends'.clauses _ (hkind k' hk')⟩

/-- A pattern whose own kind is expected, or of which no kind is expected. -/
theorem Opens.expecting
    {m : Lowering Nat}
    {what : String}
    (h : Opens types m place (some k) room said)
    (hmember : ∀ names, .member place k ∈ said names) :
    Opens types (do checkKind kind k what; m) place kind room
      fun names => kindClauses place kind ++ said names := by
  intro d ledger i d' hd hnodup hfree hrun
  obtain ⟨_, e, hcheck, hrest⟩ := yields_bind.mp hrun
  have hexpected : e = d ∧ ∀ k' ∈ kind, k' = k := by
    unfold checkKind at hcheck
    split at hcheck
    · exact ⟨(yields_pure.mp hcheck).2.symm, nofun⟩
    · split at hcheck
      · rename_i hsame
        exact ⟨(yields_pure.mp hcheck).2.symm, fun k' hk' => (Option.some.inj hk').symm.trans hsame⟩
      · exact absurd hcheck not_yields_throw
  obtain ⟨rfl, hexpected⟩ := hexpected
  obtain ⟨ledger', hd', hextends, htag, hkind⟩ := h e ledger i d' hd hnodup hfree hrest
  refine ⟨ledger', hd', hextends.congr (fun _ hp => hp) fun names _ => ?_, htag, fun k' hk' => ?_⟩
  · refine ((Clause.Same.comm _ _).trans (.of_subset (fun clause hclause => ?_) ?_)).symm
    · obtain ⟨k', hk', rfl⟩ := List.mem_map.mp hclause
      rw [hexpected k' (Option.mem_toList.mp hk')]
      exact hmember names
    · simp [kindClauses]
  · rw [hexpected k' hk']
    exact hkind k rfl

theorem typed_opens
    {type : ItemType}
    (htype : type.Mediates types)
    (name : Option String)
    (path : Path) :
    Opens types (typed type name) (typedPlace (.var (.occurrence path)) name) (some type.kind)
      [.var (.occurrence path)] fun _ => typedClauses (typedPlace (.var (.occurrence path)) name) type := by
  intro d ledger i d' hd hnodup hfree hrun
  obtain ⟨hd', htag⟩ := typed_records htype hd
    (fun _ => hfree.not_mem_tags List.mem_cons_self) (fun _ hslot => hslot) hrun
  refine ⟨_, hd', .reach_add hnodup ?_ _, htag, ?_⟩
  · cases name with
    | some x => exact Or.inl trivial
    | none => exact Or.inr ⟨hfree, List.mem_cons_self⟩
  · rintro _ ⟨⟩
    exact List.mem_append_right _ List.mem_cons_self

theorem companion_opens (hroot : (ItemType.root .edge).Mediates types) (path : Path) :
    Opens types companion (.implied path) (some .edge) [.implied path]
      fun _ => typedClauses (.implied path) (.root .edge) := by
  intro d ledger i d' hd hnodup hfree hrun
  have hfresh := hfree.not_mem_tags List.mem_cons_self
  obtain ⟨hd', htag⟩ := companion_records hroot hd hfresh hrun
  have hreach : ledger.reach (.implied path) = ledger.openSlot (.implied path) := if_neg hfresh
  rw [← hreach] at hd' htag
  refine ⟨_, hd', .reach_add hnodup (Or.inr ⟨hfree, List.mem_cons_self⟩) _, htag, ?_⟩
  rintro _ ⟨⟩
  exact List.mem_append_right _ List.mem_cons_self

theorem pinned_opens
    {item : Item}
    (htype : item.type.Mediates types)
    (name : Option String) :
    Opens types (pinned item name) (exactPlace item name) (some item.kind) []
      fun _ => exactClauses (exactPlace item name) item := by
  intro d ledger i d' hd hnodup _ hrun
  obtain ⟨hd', htag⟩ := pinned_records htype hd hrun
  refine ⟨_, hd', .reach_add hnodup (Or.inl ?_) _, htag, ?_⟩
  · cases name with
    | some x => trivial
    | none => trivial
  · rintro _ ⟨⟩
    exact List.mem_append_right _ List.mem_cons_self

theorem named_opens (kind : Option Kind) (name : String) :
    Opens types (named name kind) (.var (.name name)) kind []
      fun _ => kindClauses (.var (.name name)) kind := by
  intro d ledger i d' hd hnodup _ hrun
  obtain ⟨hd', htag⟩ := named_records hd hrun
  refine ⟨_, hd', .reach_add hnodup (Or.inl ?_) _, htag, fun k hk => ?_⟩
  · trivial
  · exact List.mem_append_right _ (List.mem_map_of_mem (Option.mem_toList.mpr hk))

theorem excludeAll_tells (i : Nat) (excluded : List ItemType) (hkind : ∀ t ∈ excluded, t.kind = k) :
    Tells types i place k (excludeAll i excluded) [] fun _ => excluded.map (.isNot place ·) := by
  intro d ledger u d' hd hnodup _ htag hmember hrun
  have hd' := excludeAll_records hd htag hrun
  refine ⟨ledger.add (excluded.map (.isNot place ·)), hd'.congr ?_, .add hnodup _⟩
  constructor
  · intro clause
    simp only [Ledger.add, List.mem_append, List.mem_flatMap, List.mem_cons, List.not_mem_nil,
      or_false, List.mem_map]
    constructor
    · rintro (hold | ⟨t, ht, rfl | rfl⟩)
      · exact Or.inl hold
      · exact Or.inl (hkind t ht ▸ hmember)
      · exact Or.inr ⟨t, ht, rfl⟩
    · rintro (hold | ⟨t, ht, rfl⟩)
      · exact Or.inl hold
      · exact Or.inr ⟨t, ht, Or.inr rfl⟩
  · intro edge role
    have hboth : Clause.players edge role
        (excluded.flatMap fun t => [.member place t.kind, .isNot place t]) = [] :=
      Clause.Same.players_eq_nil_of_not_plays (by simp) edge role
    have hnots : Clause.players edge role (excluded.map (.isNot place ·)) = [] :=
      Clause.Same.players_eq_nil_of_not_plays (by simp) edge role
    simp only [Ledger.add]
    rw [Clause.players_append, Clause.players_append, hboth, hnots]

/-- Whether a slot is that of a place, which is known to be of some kind. -/
def Knows (i : Nat) (place : Place) (k : Kind) (ledger : Ledger) : Prop :=
  ledger.tags[i]? = some place ∧ .member place k ∈ ledger.clauses

theorem Knows.extend
    {ledger ledger' : Ledger}
    (h : Knows i place k ledger)
    (hextends : ledger.Extends ledger' room said) :
    Knows i place k ledger' :=
  ⟨hextends.tag h.1, hextends.clauses _ h.2⟩

/-- Opening the edge between a node and a name that has to be a node's as well. -/
theorem companion_between
    {relation : PutOff}
    {d e d' : Draft}
    {ledger : Ledger}
    {u : Unit}
    {j edge : Nat}
    (hroot : (ItemType.root .edge).Mediates types)
    (hd : d.Records types ledger)
    (hnodup : ledger.places.Nodup)
    (hfree : ledger.Free [relation.place])
    (hat : relation.IsAt ledger.tags ledger.clauses (i, j, relation.role))
    (hkind : Yields (requireKind j .node) d u e)
    (hcompanion : Yields companion e edge d') :
    ∃ opened, d'.Records types opened ∧ opened.putOff = ledger.putOff ∧
      (ledger.Extends opened [relation.place] fun _ =>
        [.member (.var (.name relation.name)) .node] ++ typedClauses relation.place (.root .edge)) ∧
      Knows i (.var relation.node) .node opened ∧
      Knows j (.var (.name relation.name)) .node opened ∧ Knows edge relation.place .edge opened := by
  have he := requireKind_records hd hat.other hkind
  have hextends := Ledger.Extends.add hnodup [.member (.var (.name relation.name)) .node]
  have hfree' : (ledger.add [.member (.var (.name relation.name)) .node]).Free [relation.place] :=
    hfree.right hextends
  have hfresh := hfree'.not_mem_tags List.mem_cons_self
  obtain ⟨hd', hedge⟩ := companion_records hroot he hfresh hcompanion
  have hreach := Ledger.Extends.reach_add hextends.distinct
    (Or.inr ⟨hfree', List.mem_cons_self⟩) (typedClauses relation.place (.root .edge))
  rw [Ledger.reach, if_neg hfresh] at hreach
  have hboth := hextends.trans hreach
  have hknows : Knows i (.var relation.node) .node ledger := ⟨hat.node, hat.isNode⟩
  have hother : Knows j (.var (.name relation.name)) .node
      (ledger.add [.member (.var (.name relation.name)) .node]) :=
    ⟨hat.other, by simp [Ledger.add]⟩
  exact ⟨_, hd', rfl, hboth, hknows.extend hboth, hother.extend hreach, hedge,
    List.mem_append_right _ List.mem_cons_self⟩

/-- Relating a node to a name of a kind that is known by now, or that has to be a node's. -/
theorem connect_extends
    {relation : PutOff}
    {d d' : Draft}
    {ledger : Ledger}
    {u : Unit}
    {j : Nat}
    (hroot : (ItemType.root .edge).Mediates types)
    (hd : d.Records types ledger)
    (hnodup : ledger.places.Nodup)
    (hfree : ledger.Free [relation.place])
    (hat : relation.IsAt ledger.tags ledger.clauses (i, j, relation.role))
    (hrun : Yields (connect i j relation.role) d u d') :
    ∃ ledger', d'.Records types ledger' ∧ ledger'.putOff = ledger.putOff ∧
      ledger.Extends ledger' [relation.place] fun names => relation.clauses names := by
  obtain ⟨slot, hslot, hfits, -⟩ := hd.slot hat.other
  simp only [connect, yields_bind, yields_slotAt] at hrun
  obtain ⟨_, _, ⟨rfl, rfl⟩, hrun⟩ := hrun
  rw [getD_slots hslot] at hrun
  split at hrun
  · rename_i hedge
    have hmember := (hfits.kind .edge).mp (by rw [hedge]; rfl)
    refine ⟨_, link_records hd hat.node hat.other hat.isNode hmember hrun, rfl,
      (Ledger.Extends.add hnodup _).congr (by simp) fun names hnames => ?_⟩
    have hname : relation.name ∈ names := (hnames _).1 (List.mem_append_left _ hmember)
    simpa [PutOff.clauses, Pattern.related, hname, Clause.expand] using Clause.Same.refl _
  · simp only [yields_bind] at hrun
    obtain ⟨_, e, hkind, edge, e', hcompanion, _, e'', hlink, hrun⟩ := hrun
    obtain ⟨opened, he', hputOff, hopened, hnode, hother, hedge⟩ :=
      companion_between hroot hd hnodup hfree hat hkind hcompanion
    have hfirst := link_records he' hnode.1 hedge.1 hnode.2 hedge.2 hlink
    have hsecond := link_records hfirst hother.1 hedge.1 (List.mem_append_left _ hother.2)
      (List.mem_append_left _ hedge.2) hrun
    rw [Ledger.add_add] at hsecond
    refine ⟨_, hsecond, hputOff, (hopened.trans (.add hopened.distinct _)).congr ?_
      fun names hnames => ?_⟩
    · intro p hp
      simpa using hp
    · have hname : relation.name ∉ names := (hnames _).2 (List.mem_append_left _ hother.2)
      simpa [PutOff.clauses, PutOff.place, Pattern.related, hname, Clause.expand, Clause.implied]
        using Clause.Same.refl _

theorem relateToName_tells
    (relation : PutOff)
    (hroot : (ItemType.root .edge).Mediates types) :
    Tells types i (.var relation.node) .node (relateToName i relation.name relation.role)
      [relation.place] fun names => relation.clauses names := by
  intro d ledger u d' hd hnodup hfree htag hmember hrun
  simp only [relateToName, yields_bind, yields_slotAt] at hrun
  obtain ⟨j, e, hnamed, _, _, ⟨rfl, rfl⟩, hrun⟩ := hrun
  obtain ⟨reached, he, hextends, hother, -⟩ := named_opens none relation.name d ledger j e hd
    hnodup (hfree.mono (List.nil_sublist _)) hnamed
  have hat : relation.IsAt reached.tags reached.clauses (i, j, relation.role) :=
    ⟨hextends.tag htag, hother, rfl, hextends.clauses _ hmember⟩
  have hfree' : reached.Free [relation.place] := hfree.right hextends
  split at hrun
  · rw [yields_modify] at hrun
    subst hrun
    refine ⟨reached.defer relation, ⟨he.length, he.nodup, he.fits, he.subjects, he.played, ?_⟩,
      hextends.trans (.defer hextends.distinct hfree')⟩
    obtain ⟨entries, hentries, hputOff⟩ := he.deferred
    refine ⟨entries ++ [(i, j, relation.role)], ?_, List.rel_append hputOff (.cons hat .nil)⟩
    rw [hentries, List.append_assoc]
    rfl
  · obtain ⟨ledger', hd', -, hextends'⟩ :=
      connect_extends hroot he hextends.distinct hfree' hat hrun
    exact ⟨ledger', hd', hextends.trans hextends'⟩

theorem nodeRole_eq_ofNode (relation : Relation) : nodeRole relation = relation.ofNode := by
  cases relation <;> rfl

theorem edgeRole_eq_ofEdge (relation : Relation) : edgeRole relation = relation.ofEdge := by
  cases relation <;> rfl

theorem relateNode_of_isEdge
    {p : Pattern}
    (role : Role)
    (lower : Option Kind → Lowering Nat)
    (hp : p.isEdge = true) :
    relateNode i role p lower = (do
      let edge ← lower (some .edge)
      link i edge role) := by
  cases p <;> first | rfl | cases hp

theorem relateNode_of_not_isEdge
    {p : Pattern}
    (role : Role)
    (lower : Option Kind → Lowering Nat)
    (hp : p.isEdge = false)
    (href : ∀ name, p ≠ .reference name) :
    relateNode i role p lower = (do
      let edge ← companion
      link i edge role
      let other ← lower (some .node)
      link other edge role.opposite) := by
  cases p with
  | reference name => exact absurd rfl (href name)
  | nodeType type => rfl
  | node n => rfl
  | nodeFragment base name excluding relations => rfl
  | edgeType type => cases hp
  | edge e => cases hp
  | edgeFragment base name excluding relations => cases hp

/-- A pattern of an edge says that its variable is one. -/
theorem member_edge_of_isEdge {p : Pattern} (hp : p.isEdge = true) (names : List String)
    (path : Path) : .member (p.var path) .edge ∈ p.clauses names path := by
  cases p with
  | reference name => cases hp
  | nodeType type => cases hp
  | node n => cases hp
  | nodeFragment base name excluding relations => cases hp
  | edgeType type => exact List.mem_cons_self
  | edge e => exact List.mem_cons_self
  | edgeFragment base name excluding relations =>
      cases base with
      | any type => exact List.mem_cons_self
      | exactly e => exact List.mem_cons_self

theorem expand_mem {clause : Clause Var} {clauses : List (Clause Var)} {clause' : Clause Place}
    (hmem : clause ∈ clauses) (hclause' : clause' ∈ clause.expand) :
    clause' ∈ clauses.flatMap Clause.expand :=
  List.mem_flatMap.mpr ⟨clause, hmem, hclause'⟩

/-- That an edge is one is said by its own pattern. -/
theorem same_of_isEdge {p : Pattern} (hp : p.isEdge = true) (names : List String) (path : Path) :
    Clause.Same
      (kindClauses (.var (p.var path)) (some .edge) ++ (p.clauses names path).flatMap Clause.expand)
      ((p.clauses names path).flatMap Clause.expand) := by
  refine (Clause.Same.comm _ _).trans (.of_subset ?_ (by simp [kindClauses]))
  intro clause hclause
  obtain rfl := List.mem_singleton.mp hclause
  exact expand_mem (member_edge_of_isEdge hp names path) List.mem_cons_self

/-- A pattern that is more than a name speaks about an edge or not, whatever names are those of edges. -/
theorem isEdgeLike_eq_isEdge {p : Pattern} (href : ∀ name, p ≠ .reference name)
    (names : List String) : p.isEdgeLike names = p.isEdge := by
  cases p with
  | reference name => exact absurd rfl (href name)
  | _ => rfl

/-- What a node's relation to an edge says, in the order of the steps of its lowering. -/
theorem same_related_of_isEdge {p : Pattern} (hp : p.isEdge = true) (x : Var) (role : Role)
    (names : List String) (path : Path) :
    Clause.Same
      ((Pattern.related path x (p.var path) role (p.isEdgeLike names) ++
        p.clauses names path).flatMap Clause.expand)
      (kindClauses (.var (p.var path)) (some .edge) ++
        (p.clauses names path).flatMap Clause.expand ++ [.plays (.var x) (.var (p.var path)) role]) := by
  have hsame := ((same_of_isEdge hp names path).append
    (.refl [.plays (.var x) (.var (p.var path)) role])).trans (.comm _ _)
  have hlike : p.isEdgeLike names = true :=
    (isEdgeLike_eq_isEdge (fun name hname => by simp [hname, Pattern.isEdge] at hp) names).trans hp
  simpa [hlike, Pattern.related, Clause.expand] using hsame.symm

/-- What a node's relation to another node says, in the order of the steps of its lowering. -/
theorem same_related_of_not_isEdge {p : Pattern} (hp : p.isEdge = false)
    (href : ∀ name, p ≠ .reference name) (x : Var) (role : Role) (names : List String) (path : Path) :
    Clause.Same
      ((Pattern.related path x (p.var path) role (p.isEdgeLike names) ++
        p.clauses names path).flatMap Clause.expand)
      (typedClauses (.implied path) (.root .edge) ++ [.plays (.var x) (.implied path) role] ++
        (kindClauses (.var (p.var path)) (some .node) ++
          (p.clauses names path).flatMap Clause.expand) ++
        [.plays (.var (p.var path)) (.implied path) role.opposite]) := by
  refine .of_perm ?_
  simp only [isEdgeLike_eq_isEdge href, hp, Pattern.related, Bool.false_eq_true, if_false,
    Clause.expand, List.flatMap_append, List.flatMap_cons, List.flatMap_nil, Clause.implied,
    kindClauses, Option.toList_some, List.map_cons, List.map_nil]
  rw [← Multiset.coe_eq_coe]
  simp only [← Multiset.coe_add, ← Multiset.cons_coe, ← Multiset.singleton_add, Multiset.coe_nil]
  abel

/-- Relating a node to what another pattern speaks about. -/
theorem relateNode_tells
    {p : Pattern}
    {role : Role}
    {lower : Option Kind → Lowering Nat}
    (hroot : (ItemType.root .edge).Mediates types)
    (hlower : ∀ kind, Opens types (lower kind) (.var (p.var path)) kind (p.places path)
      fun names => kindClauses (.var (p.var path)) kind ++ (p.clauses names path).flatMap Clause.expand) :
    Tells types i (.var x) .node (relateNode i role p lower) (.implied path :: p.places path)
      fun names => (Pattern.related path x (p.var path) role (p.isEdgeLike names) ++
        p.clauses names path).flatMap Clause.expand := by
  by_cases href : ∃ name, p = .reference name
  · obtain ⟨name, rfl⟩ := href
    refine (relateToName_tells ⟨x, name, role, path⟩ hroot).congr ?_ fun names => ?_
    · exact List.sublist_append_left [_] _
    · rw [Pattern.clauses, List.append_nil]
      exact Clause.Same.refl _
  · have href : ∀ name, p ≠ .reference name := fun name hname => href ⟨name, hname⟩
    intro d ledger u d' hd hnodup hfree htag hmember hrun
    by_cases hp : p.isEdge = true
    · rw [relateNode_of_isEdge role lower hp, yields_bind] at hrun
      obtain ⟨edge, e, hedge, hlink⟩ := hrun
      obtain ⟨ledger', he, hextends, hother, hkind⟩ := hlower (some .edge) d ledger edge e hd hnodup
        (hfree.mono (List.sublist_cons_self _ _)) hedge
      have hlinked := link_records he (hextends.tag htag) hother (hextends.clauses _ hmember)
        (hkind _ rfl) hlink
      refine ⟨_, hlinked, (hextends.trans (.add hextends.distinct _)).congr ?_ fun names _ => ?_⟩
      · intro q hq
        exact List.mem_cons_of_mem _ (by simpa using hq)
      · exact (same_related_of_isEdge hp x role names path).symm
    · rw [Bool.not_eq_true] at hp
      rw [relateNode_of_not_isEdge role lower hp href] at hrun
      simp only [yields_bind] at hrun
      obtain ⟨edge, e, hcompanion, _, e', hlink, other, e'', hother, hlink'⟩ := hrun
      obtain ⟨opened, he, hopened, hedge, hedgeKind⟩ := companion_opens hroot path d ledger edge e hd
        hnodup (hfree.mono (List.sublist_append_left [_] _)) hcompanion
      have hlinked := link_records he (hopened.tag htag) hedge (hopened.clauses _ hmember)
        (hedgeKind _ rfl) hlink
      have hfirst := hopened.trans (.add hopened.distinct [.plays (.var x) (.implied path) role])
      obtain ⟨ledger', he', hextends, hnode, hnodeKind⟩ := hlower (some .node) e' _ other e'' hlinked
        hfirst.distinct (Ledger.Free.right hfree hfirst) hother
      have hsecond := link_records he' hnode (hextends.tag hedge) (hnodeKind _ rfl)
        (hextends.clauses _ (List.mem_append_left _ (hedgeKind _ rfl))) hlink'
      refine ⟨_, hsecond, ((hfirst.trans hextends).trans (.add hextends.distinct _)).congr ?_
        fun names _ => (same_related_of_not_isEdge hp href x role names path).symm⟩
      intro q hq
      simpa using hq

theorem member_nodeBase (y : Var) (base : Base NodeType Node) :
    .member (.var y) .node ∈ (Pattern.nodeBase y base).flatMap Clause.expand := by
  cases base with
  | any type => exact List.mem_cons_self
  | exactly n => exact List.mem_cons_self

theorem member_edgeBase (y : Var) (base : Base EdgeType Edge) :
    .member (.var y) .edge ∈ (Pattern.edgeBase y base).flatMap Clause.expand := by
  cases base with
  | any type => exact List.mem_cons_self
  | exactly e => exact List.mem_cons_self

theorem edgeRelation_tells
    {p : Pattern}
    (role : Role)
    (hp : Opens types (pattern (some .node) p) (.var (p.var path)) (some .node) (p.places path)
      fun names => kindClauses (.var (p.var path)) (some .node) ++
        (p.clauses names path).flatMap Clause.expand) :
    Tells types i (.var x) .edge (do let node ← pattern (some .node) p; link node i role)
      (.implied path :: p.places path)
      fun names => ([Clause.member (p.var path) .node, .plays (p.var path) x role] ++
        p.clauses names path).flatMap Clause.expand := by
  intro d ledger u d' hd hnodup hfree htag hmember hrun
  obtain ⟨node, e, hnode, hlink⟩ := yields_bind.mp hrun
  obtain ⟨ledger', he, hextends, hplace, hkind⟩ := hp d ledger node e hd hnodup
    (hfree.mono (List.sublist_cons_self _ _)) hnode
  have hlinked := link_records he hplace (hextends.tag htag) (hkind _ rfl)
    (hextends.clauses _ hmember) hlink
  refine ⟨_, hlinked, (hextends.trans (.add hextends.distinct _)).congr ?_
    fun names _ => .of_perm ?_⟩
  · intro q hq
    exact List.mem_cons_of_mem _ (by simpa using hq)
  · simp only [Clause.expand, List.flatMap_cons, kindClauses, Option.toList_some, List.map_cons,
      List.map_nil, List.cons_append, List.nil_append]
    exact (List.perm_append_singleton _ _).cons _

theorem nodeBase_opens
    {base : Base NodeType Node}
    (name : Option String)
    (hmediates : ∀ y t, .isA y t ∈ Pattern.nodeBase x base → t.Mediates types)
    (hx : x = base.var name path fun n => .node n.id) :
    Opens types (nodeBase base name) (.var x) (some .node) [.var (.occurrence path)]
      fun _ => (Pattern.nodeBase x base).flatMap Clause.expand := by
  subst hx
  cases base with
  | any type =>
      have htype : (ItemType.node type).Mediates types :=
        hmediates _ _ (List.mem_cons_of_mem _ List.mem_cons_self)
      cases name with
      | some y => exact typed_opens htype (some y) path
      | none => exact typed_opens htype none path
  | exactly n =>
      have htype : (Item.node n).type.Mediates types :=
        hmediates _ _ (List.mem_cons_of_mem _ (List.mem_cons_of_mem _ List.mem_cons_self))
      cases name with
      | some y => exact (pinned_opens htype (some y)).congr (List.nil_sublist _) fun _ => .refl _
      | none => exact (pinned_opens htype none).congr (List.nil_sublist _) fun _ => .refl _

theorem edgeBase_opens
    {base : Base EdgeType Edge}
    (name : Option String)
    (hmediates : ∀ y t, .isA y t ∈ Pattern.edgeBase x base → t.Mediates types)
    (hx : x = base.var name path fun e => .edge e.id) :
    Opens types (edgeBase base name) (.var x) (some .edge) [.var (.occurrence path)]
      fun _ => (Pattern.edgeBase x base).flatMap Clause.expand := by
  subst hx
  cases base with
  | any type =>
      have htype : (ItemType.edge type).Mediates types :=
        hmediates _ _ (List.mem_cons_of_mem _ List.mem_cons_self)
      cases name with
      | some y => exact typed_opens htype (some y) path
      | none => exact typed_opens htype none path
  | exactly e =>
      have htype : (Item.edge e).type.Mediates types :=
        hmediates _ _ (List.mem_cons_of_mem _ (List.mem_cons_of_mem _ List.mem_cons_self))
      cases name with
      | some y => exact (pinned_opens htype (some y)).congr (List.nil_sublist _) fun _ => .refl _
      | none => exact (pinned_opens htype none).congr (List.nil_sublist _) fun _ => .refl _

theorem flatMap_expand_isNot (x : Var) (excluded : List ItemType) :
    (excluded.map (Clause.isNot x ·)).flatMap Clause.expand = excluded.map (.isNot (.var x) ·) := by
  rw [List.flatMap_map, List.map_eq_flatMap]
  rfl

/-- A fragment says what its base, its exclusions and its relations say. -/
theorem Opens.ofFragment
    {m : Lowering Nat}
    {g : Nat → Lowering Unit}
    {base : List (Clause Var)}
    {relations : List String → List (Clause Var)}
    (kind : Option Kind)
    (excluded : List ItemType)
    (hm : Opens types m (.var x) (some k) room fun _ => base.flatMap Clause.expand)
    (hmember : .member (.var x) k ∈ base.flatMap Clause.expand)
    (hexcluded : ∀ t ∈ excluded, t.kind = k)
    (hg : ∀ i, Tells types i (.var x) k (g i) room' fun names =>
      (relations names).flatMap Clause.expand) :
    Opens types (do checkKind kind k "fragment"; let i ← m; excludeAll i excluded; g i; return i)
      (.var x) kind (room ++ room') fun names => kindClauses (.var x) kind ++
        (base ++ excluded.map (Clause.isNot x ·) ++ relations names).flatMap Clause.expand := by
  have hfragment := hm.fragment (fun i => excludeAll_tells i excluded hexcluded) hg
  refine (hfragment.expecting fun _ => List.mem_append_left _ hmember).congr
    (List.Sublist.refl _) fun names => ?_
  rw [List.flatMap_append, List.flatMap_append, flatMap_expand_isNot, List.append_assoc]
  exact .refl _

mutual

/-- Lowering a pattern says its clauses. -/
theorem pattern_opens (hroot : (ItemType.root .edge).Mediates types) :
    ∀ (p : Pattern) (path : Path) (kind : Option Kind),
      (∀ y t, .isA y t ∈ p.clauses known path → t.Mediates types) →
        Opens types (pattern kind p) (.var (p.var path)) kind (p.places path)
          fun names => kindClauses (.var (p.var path)) kind ++
            (p.clauses names path).flatMap Clause.expand
  | .nodeType type, path, kind, hmediates => by
      have htype := hmediates _ _ (List.mem_cons_of_mem _ List.mem_cons_self)
      exact (typed_opens htype none path).expecting fun _ => List.mem_cons_self
  | .edgeType type, path, kind, hmediates => by
      have htype := hmediates _ _ (List.mem_cons_of_mem _ List.mem_cons_self)
      exact (typed_opens htype none path).expecting fun _ => List.mem_cons_self
  | .node n, path, kind, hmediates => by
      have htype := hmediates _ _
        (List.mem_cons_of_mem _ (List.mem_cons_of_mem _ List.mem_cons_self))
      exact ((pinned_opens htype none).expecting fun _ => List.mem_cons_self).congr
        (List.nil_sublist _) fun _ => .refl _
  | .edge e, path, kind, hmediates => by
      have htype := hmediates _ _
        (List.mem_cons_of_mem _ (List.mem_cons_of_mem _ List.mem_cons_self))
      exact ((pinned_opens htype none).expecting fun _ => List.mem_cons_self).congr
        (List.nil_sublist _) fun _ => .refl _
  | .reference name, path, kind, _ => by
      refine (named_opens kind name).congr (List.nil_sublist _) fun _ => ?_
      rw [Pattern.clauses, List.flatMap_nil, List.append_nil]
      exact .refl _
  | .nodeFragment base name excluding relations, path, kind, hmediates => by
      have hbase := nodeBase_opens name (fun y t ht =>
        hmediates y t (List.mem_append_left _ (List.mem_append_left _ ht))) rfl
      have hrelations := fun i => nodeRelations_tells hroot relations path 0 i _ fun y t ht =>
        hmediates y t (List.mem_append_right _ ht)
      have hfragment := hbase.ofFragment kind (excluding.map .node) (member_nodeBase _ base)
        (by simp [ItemType.kind]) hrelations
      rw [List.map_map] at hfragment
      exact hfragment
  | .edgeFragment base name excluding relations, path, kind, hmediates => by
      have hbase := edgeBase_opens name (fun y t ht =>
        hmediates y t (List.mem_append_left _ (List.mem_append_left _ ht))) rfl
      have hrelations := fun i => edgeRelations_tells hroot relations path 0 i _ fun y t ht =>
        hmediates y t (List.mem_append_right _ ht)
      have hfragment := hbase.ofFragment kind (excluding.map .edge) (member_edgeBase _ base)
        (by simp [ItemType.kind]) hrelations
      rw [List.map_map] at hfragment
      exact hfragment

theorem nodeRelations_tells (hroot : (ItemType.root .edge).Mediates types) :
    ∀ (relations : List (Relation × Pattern)) (path : Path) (k : Nat) (i : Nat) (x : Var),
      (∀ y t, .isA y t ∈ Pattern.nodeClauses known path x k relations → t.Mediates types) →
        Tells types i (.var x) .node (nodeRelations i relations)
          (Pattern.relationPlaces path k relations)
          fun names => (Pattern.nodeClauses names path x k relations).flatMap Clause.expand
  | [], _, _, _, _, _ => .nothing
  | (relation, p) :: rest, path, k, i, x, hmediates => by
      have hp := fun kind => pattern_opens hroot p (k :: path) kind fun y t ht =>
        hmediates y t (List.mem_append_left _ (List.mem_append_right _ ht))
      have hrest := nodeRelations_tells hroot rest path (k + 1) i x fun y t ht =>
        hmediates y t (List.mem_append_right _ ht)
      refine ((relateNode_tells hroot hp).bind hrest).congr (List.Sublist.refl _) fun names => ?_
      simp only [Pattern.nodeClauses, List.flatMap_append, nodeRole_eq_ofNode]
      exact Clause.Same.refl _

theorem edgeRelations_tells (hroot : (ItemType.root .edge).Mediates types) :
    ∀ (relations : List (Relation × Pattern)) (path : Path) (k : Nat) (i : Nat) (x : Var),
      (∀ y t, .isA y t ∈ Pattern.edgeClauses known path x k relations → t.Mediates types) →
        Tells types i (.var x) .edge (edgeRelations i relations)
          (Pattern.relationPlaces path k relations)
          fun names => (Pattern.edgeClauses names path x k relations).flatMap Clause.expand
  | [], _, _, _, _, _ => .nothing
  | (relation, p) :: rest, path, k, i, x, hmediates => by
      have hp := pattern_opens hroot p (k :: path) (some .node) fun y t ht =>
        hmediates y t (List.mem_append_left _ (List.mem_append_right _ ht))
      have hrest := edgeRelations_tells hroot rest path (k + 1) i x fun y t ht =>
        hmediates y t (List.mem_append_right _ ht)
      have hboth := (edgeRelation_tells (edgeRole relation) hp).bind hrest
      rw [bind_assoc] at hboth
      refine hboth.congr (List.Sublist.refl _) fun names => ?_
      simp only [Pattern.edgeClauses, List.flatMap_append, edgeRole_eq_ofEdge]
      exact Clause.Same.refl _

end

end PatternGraph.Lowering
