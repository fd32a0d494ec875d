import PatternGraph.Proofs.Query.Failing
import PatternGraph.Proofs.Query.Interpretation
import PatternGraph.Proofs.Query.Language

/-!
# Edges with too many ends

A lowering gives up as soon as it has listed a third end on some edge, before it has come across the
rest of the query.  What it has said by then is part of what the query says, although a name that
stands for an edge may not be known as one yet: learning that only adds ends.  So the query itself
gives some edge too many ends.
-/

namespace PatternGraph

namespace Ledger

/-- Whether some edge has too many ends when more is said, by the names of edges that are known. -/
def Crowded (ledger : Ledger) (said : List String → List (Clause Place)) : Prop :=
  ∃ names, ledger.Agrees names ∧
    (∀ x ∈ names, .member (.var (.name x)) .edge ∈ ledger.all names ++ said names) ∧
    ∃ e, maxEdgeEnds < (Clause.players e .endpoint (ledger.all names ++ said names)).length

variable {ledger ledger' : Ledger} {room : List Place}
  {said said' said'' : List String → List (Clause Place)}

/-- What is crowded after some steps is crowded by what those steps say. -/
theorem Crowded.before
    (h : ledger'.Crowded said')
    (hextends : ledger.Extends ledger' room said)
    (hsaid : ∀ names, ledger'.Agrees names →
      ∃ rest, Clause.Same (said'' names) (said names ++ said' names ++ rest)) :
    ledger.Crowded said'' := by
  obtain ⟨names, hnames, hedges, e, hlength⟩ := h
  obtain ⟨rest, hrest⟩ := hsaid names hnames
  have hall := hextends.account names hnames
  have hsame : Clause.Same (ledger.all names ++ said'' names)
      (ledger'.all names ++ said' names ++ rest) := by
    refine ((Clause.Same.refl (ledger.all names)).append hrest).trans ?_
    rw [← List.append_assoc, ← List.append_assoc]
    exact (hall.symm.append (Clause.Same.refl _)).append (Clause.Same.refl _)
  refine ⟨names, hnames.mono hextends.clauses, fun x hx => ?_, e, ?_⟩
  · exact (hsame.mem _).mpr (List.mem_append_left _ (hedges x hx))
  · rw [(hsame.players e .endpoint).length_eq, Clause.players_append, List.length_append]
    exact Nat.lt_add_right _ hlength

theorem Crowded.mono
    (h : ledger.Crowded said)
    (hnodup : ledger.places.Nodup)
    (hsaid : ∀ names, ledger.Agrees names → ∃ rest, Clause.Same (said' names) (said names ++ rest)) :
    ledger.Crowded said' :=
  h.before (.refl hnodup) hsaid

end Ledger

namespace Lowering

variable {α β : Type} {types : List ItemType} {place n e : Place} {kind : Option Kind} {k : Kind}
  {room room' room'' : List Place} {said said' said'' : List String → List (Clause Place)}
  {pre pre' : Ledger → Prop} {path : Path} {x : Var} {i j : Nat} {role : Role} {known : List String}

/-- Whether a lowering step never finds an edge with too many ends. -/
def Uncrowded (m : Lowering α) : Prop :=
  ∀ d name, ¬Fails m d (.crowdedEdge name)

theorem Uncrowded.bind {m : Lowering α} {f : α → Lowering β} (hm : Uncrowded m)
    (hf : ∀ a, Uncrowded (f a)) : Uncrowded (m >>= f) := by
  intro d name h
  rcases fails_bind.mp h with h | ⟨a, e, -, h⟩
  · exact hm d name h
  · exact hf a e name h

theorem uncrowded_pure (a : α) : Uncrowded (pure a) :=
  fun _ _ => not_fails_pure

theorem uncrowded_throw {fault : Fault} (h : ∀ name, fault ≠ .crowdedEdge name) :
    Uncrowded (throw fault : Lowering α) :=
  fun _ name hfails => h name (fails_throw.mp hfails)

theorem uncrowded_requireKind (i : Nat) (k : Kind) : Uncrowded (requireKind i k) := by
  intro d name h
  obtain ⟨_, -, -, hfault⟩ := of_fails_requireKind h
  cases hfault

theorem uncrowded_checkKind (kind : Option Kind) (k : Kind) (what : String) :
    Uncrowded (checkKind kind k what) := by
  intro d name h
  obtain ⟨_, -, -, hfault⟩ := of_fails_checkKind h
  cases hfault

theorem uncrowded_checkName (x : String) : Uncrowded (checkName x) := by
  intro d name h
  rcases of_fails_checkName h with ⟨-, hfault⟩ | ⟨-, hfault⟩
  · cases hfault
  · cases hfault

theorem uncrowded_narrow (i : Nat) (type : ItemType) : Uncrowded (narrow i type) := by
  refine (uncrowded_requireKind i _).bind fun _ => Uncrowded.bind (fun _ _ => not_fails_slotAt)
    fun slot => ?_
  split
  · exact fun _ _ => not_fails_update
  · split
    · exact uncrowded_throw nofun
    · exact fun _ _ => not_fails_update

theorem uncrowded_excludeAll (i : Nat) (excluded : List ItemType) :
    Uncrowded (excludeAll i excluded) := by
  induction excluded with
  | nil => exact uncrowded_pure ()
  | cons t excluded ih =>
      have hfirst : Uncrowded (exclude i t) :=
        (uncrowded_requireKind i _).bind fun _ _ _ => not_fails_update
      exact hfirst.bind fun _ => ih

theorem uncrowded_pin (i : Nat) (item : Item) : Uncrowded (pin i item) := by
  have hrest : Uncrowded (do
      update i fun slot => { slot with pinned := some item }
      narrow i item.type) :=
    Uncrowded.bind (fun _ _ => not_fails_update) fun _ => uncrowded_narrow i _
  refine Uncrowded.bind (fun _ _ => not_fails_slotAt) fun slot => ?_
  split
  · split
    · exact hrest
    · exact Uncrowded.bind (uncrowded_throw nofun) fun _ => hrest
  · exact hrest

theorem uncrowded_named (x : String) (kind : Option Kind) : Uncrowded (named x kind) := by
  refine (uncrowded_checkName x).bind fun _ => Uncrowded.bind (fun _ _ => not_fails_get) fun d => ?_
  split
  · exact fun _ _ => not_fails_push
  · cases kind with
    | none => exact uncrowded_pure _
    | some k => exact (uncrowded_requireKind _ k).bind fun _ => uncrowded_pure _

theorem uncrowded_typed (type : ItemType) (name : Option String) : Uncrowded (typed type name) := by
  cases name with
  | none => exact fun _ _ => not_fails_typed_none
  | some x =>
      exact (uncrowded_named x _).bind fun i => (uncrowded_narrow i type).bind fun _ =>
        uncrowded_pure i

theorem uncrowded_pinned (item : Item) (name : Option String) : Uncrowded (pinned item name) := by
  have hpin : ∀ i, Uncrowded (do pin i item; return i) :=
    fun i => (uncrowded_pin i item).bind fun _ => uncrowded_pure i
  cases name with
  | some x => exact (uncrowded_named x _).bind hpin
  | none =>
      refine Uncrowded.bind (fun _ _ => not_fails_get) fun d => ?_
      split
      · exact Uncrowded.bind (uncrowded_pure _) hpin
      · exact Uncrowded.bind (fun _ _ => not_fails_push) hpin

/--
Whether a lowering step finds an edge with too many ends only if what has been said before it and
what it says give some edge too many.
-/
def Crowds (types : List ItemType) (pre : Ledger → Prop) (m : Lowering α) (room : List Place)
    (said : List String → List (Clause Place)) : Prop :=
  ∀ (d : Draft) (ledger : Ledger) (name : String), d.Records types ledger → ledger.places.Nodup →
    ledger.Free room → pre ledger → Fails m d (.crowdedEdge name) → ledger.Crowded said

theorem Uncrowded.crowds {m : Lowering α} (h : Uncrowded m) : Crowds types pre m room said :=
  fun d _ name _ _ _ _ hfails => absurd hfails (h d name)

theorem Crowds.congr
    {m : Lowering α}
    (h : Crowds types pre m room said)
    (hsaid : ∀ names, said names = said' names) :
    Crowds types pre m room said' := by
  obtain rfl : said = said' := funext hsaid
  exact h

/-- Of two steps that say something about the same place, the second sees what the first has said. -/
theorem Crowds.then
    {m m' : Lowering Unit}
    (h : Crowds types (Knows i place k) m room said)
    (hm : Tells types i place k m room said)
    (h' : Crowds types (Knows i place k) m' room' said') :
    Crowds types (Knows i place k) (do m; m') (room ++ room') fun names =>
      said names ++ said' names := by
  intro d ledger name hd hnodup hfree hknows hfails
  have hfirst := hfree.mono (List.sublist_append_left room room')
  rcases fails_bind.mp hfails with hfails | ⟨u, e, hrun, hfails⟩
  · exact (h d ledger name hd hnodup hfirst hknows hfails).mono hnodup fun names _ =>
      ⟨_, Clause.Same.refl _⟩
  · obtain ⟨between, he, hextends⟩ := hm d ledger u e hd hnodup hfirst hknows.1 hknows.2 hrun
    refine (h' e between name he hextends.distinct (hfree.right hextends)
      (hknows.extend hextends) hfails).before hextends fun names _ => ⟨[], ?_⟩
    rw [List.append_nil]
    exact Clause.Same.refl _

/-- Linking lists an end too many only if the edge has all the ends that it may have. -/
theorem link_crowds :
    Crowds types (fun ledger => Knows i n .node ledger ∧ Knows j e .edge ledger) (link i j role) []
      fun _ => [.plays n e role] := by
  rintro d ledger name hd - - ⟨⟨hi, hnode⟩, hj, hedge⟩ hfails
  obtain ⟨rfl, linked, rfl, hlength, -⟩ := of_fails_link hfails
  obtain ⟨nodeSlot, hnodeSlot, hnodeFits, -⟩ := hd.slot hi
  obtain ⟨slot, hslot, hfits, -⟩ := hd.slot hj
  have hedgeKind : slot.kind.itemKind = some .edge := (hfits.kind .edge).mpr hedge
  have hne : j ≠ i := by
    rintro rfl
    obtain rfl := Option.some.inj (hslot.symm.trans hnodeSlot)
    have hnodeKind := (hnodeFits.kind .node).mpr hnode
    rw [hedgeKind] at hnodeKind
    cases hnodeKind
  have hkind : slot.kind ≠ .node := by
    intro hnode
    rw [hnode] at hedgeKind
    cases hedgeKind
  have hfirst : (d.slots.modify i (Slot.withPartner .endpoint j))[j]? = some slot :=
    (getElem?_modify hnodeSlot j).trans ((if_neg hne).trans hslot)
  have hafter : ((d.slots.modify i (Slot.withPartner .endpoint j)).modify j
      (Slot.withPartner .endpoint i))[j]? = some (slot.withPartner .endpoint i) :=
    (getElem?_modify (d := { d with slots := d.slots.modify i (Slot.withPartner .endpoint j) })
      hfirst j).trans (if_pos rfl)
  have hplayers := (hfits.partners hkind .endpoint).length_eq
  rw [getD_slots hafter] at hlength
  rw [List.length_map, List.length_map] at hplayers
  obtain ⟨names, hnames, hedges⟩ := hd.exists_agrees
  refine ⟨names, hnames, fun x hx => ?_, e, ?_⟩
  · exact List.mem_append_left _ (List.mem_append_left _ ((hedges x).mp hx))
  · rw [Ledger.all, Clause.players_append, Clause.players_append]
    simp only [Slot.withPartner, Slot.partners, List.length_append, List.length_singleton] at hlength hplayers
    simp only [Clause.players, List.filterMap_cons, and_self, if_true, List.filterMap_nil,
      List.length_append, List.length_singleton] at hplayers ⊢
    omega

/-- Relating a node to a name of a kind that is known by now, or that has to be a node's. -/
theorem connect_crowds
    (relation : PutOff)
    (hroot : (ItemType.root .edge).Mediates types) :
    Crowds types (fun ledger => relation.IsAt ledger.tags ledger.clauses (i, j, relation.role))
      (connect i j relation.role) [relation.place] fun names => relation.clauses names := by
  intro d ledger name hd hnodup hfree hat hfails
  obtain ⟨slot, hslot, hfits, -⟩ := hd.slot hat.other
  obtain h | ⟨_, _, hslotAt, hfails⟩ := fails_bind.mp hfails
  · exact absurd h not_fails_slotAt
  rw [yields_slotAt, getD_slots hslot] at hslotAt
  obtain ⟨rfl, rfl⟩ := hslotAt
  split at hfails
  · rename_i hedge
    have hmember := (hfits.kind .edge).mp (by rw [hedge]; rfl)
    have hlinked := link_crowds d ledger name hd hnodup (hfree.mono (List.nil_sublist _))
      ⟨⟨hat.node, hat.isNode⟩, hat.other, hmember⟩ hfails
    refine hlinked.mono hnodup fun names hnames => ⟨[], ?_⟩
    have hname : relation.name ∈ names := (hnames _).1 hmember
    simpa [PutOff.clauses, Pattern.related, hname, Clause.expand] using Clause.Same.refl _
  · simp only [fails_bind] at hfails
    obtain h | ⟨_, e, hkind, h | ⟨edge, e', hcompanion, hfails⟩⟩ := hfails
    · exact absurd h (uncrowded_requireKind j .node d name)
    · exact absurd h not_fails_typed_none
    obtain ⟨opened, he', -, hopened, hnode, hother, hedge⟩ :=
      companion_between hroot hd hnodup hfree hat hkind hcompanion
    have hclauses : ∀ names, opened.Agrees names → relation.clauses names =
        [.member (.var (.name relation.name)) .node] ++
          Clause.implied relation.path relation.node (.name relation.name) relation.role := by
      intro names hnames
      have hname : relation.name ∉ names := (hnames _).2 hother.2
      simp [PutOff.clauses, Pattern.related, hname, Clause.expand]
    rcases hfails with hfails | ⟨_, e'', hlink, hfails⟩
    · refine (link_crowds e' opened name he' hopened.distinct .nil ⟨hnode, hedge⟩ hfails).before
        hopened fun names hnames => ⟨[.plays (.var (.name relation.name)) relation.place
          relation.role.opposite], ?_⟩
      rw [hclauses names hnames]
      simpa [Clause.implied, PutOff.place] using Clause.Same.refl _
    · have hfirst := link_records he' hnode.1 hedge.1 hnode.2 hedge.2 hlink
      have hadded := Ledger.Extends.add hopened.distinct
        [Clause.plays (.var relation.node) relation.place relation.role]
      refine (link_crowds e'' _ name hfirst hadded.distinct .nil
        ⟨hother.extend hadded, hedge.extend hadded⟩ hfails).before (hopened.trans hadded)
        fun names hnames => ⟨[], ?_⟩
      rw [hclauses names (hnames.mono hadded.clauses)]
      simpa [Clause.implied, PutOff.place] using Clause.Same.refl _

theorem relateToName_crowds
    (relation : PutOff)
    (hroot : (ItemType.root .edge).Mediates types) :
    Crowds types (Knows i (.var relation.node) .node)
      (relateToName i relation.name relation.role) [relation.place] fun names => relation.clauses names := by
  intro d ledger name hd hnodup hfree hknows hfails
  obtain h | ⟨j, e, hnamed, hfails⟩ := fails_bind.mp hfails
  · exact absurd h (uncrowded_named relation.name none d name)
  obtain ⟨reached, he, hextends, hother, -⟩ := named_opens none relation.name d ledger j e hd
    hnodup (hfree.mono (List.nil_sublist _)) hnamed
  have hknows := hknows.extend hextends
  obtain h | ⟨_, _, hslotAt, hfails⟩ := fails_bind.mp hfails
  · exact absurd h not_fails_slotAt
  obtain ⟨rfl, rfl⟩ := yields_slotAt.mp hslotAt
  split at hfails
  · exact absurd hfails not_fails_modify
  · refine (connect_crowds relation hroot e reached name he hextends.distinct (hfree.right hextends)
      ⟨hknows.1, hother, rfl, hknows.2⟩ hfails).before hextends fun names _ => ⟨[], ?_⟩
    simpa [kindClauses] using Clause.Same.refl _

/-- Relating a node to a pattern that is of an edge by its form. -/
theorem relateNode_crowds_of_isEdge
    {p : Pattern}
    {lower : Option Kind → Lowering Nat}
    (hp : p.isEdge = true)
    (hlower : Opens types (lower (some .edge)) (.var (p.var path)) (some .edge) (p.places path)
      fun names => kindClauses (.var (p.var path)) (some .edge) ++
        (p.clauses names path).flatMap Clause.expand)
    (hcrowds : Crowds types (fun _ => True) (lower (some .edge)) (p.places path)
      fun names => kindClauses (.var (p.var path)) (some .edge) ++
        (p.clauses names path).flatMap Clause.expand)
    (x : Var)
    (i : Nat)
    (role : Role) :
    Crowds types (Knows i (.var x) .node) (relateNode i role p lower)
      (.implied path :: p.places path)
      fun names => (Pattern.related path x (p.var path) role (p.isEdgeLike names) ++
        p.clauses names path).flatMap Clause.expand := by
  intro d ledger name hd hnodup hfree hknows hfails
  have hsaid := fun names => same_related_of_isEdge hp x role names path
  rw [relateNode_of_isEdge role lower hp] at hfails
  have hfree' : ledger.Free (p.places path) := hfree.mono (List.sublist_cons_self _ _)
  rcases fails_bind.mp hfails with hfails | ⟨edge, e, hedge, hfails⟩
  · exact (hcrowds d ledger name hd hnodup hfree' trivial hfails).mono hnodup
      fun names _ => ⟨_, hsaid names⟩
  · obtain ⟨ledger', he, hextends, htag, hkind⟩ := hlower d ledger edge e hd hnodup hfree' hedge
    refine (link_crowds e ledger' name he hextends.distinct .nil
      ⟨hknows.extend hextends, htag, hkind _ rfl⟩ hfails).before hextends fun names _ => ⟨[], ?_⟩
    rw [List.append_nil]
    exact hsaid names

/-- Relating a node to a pattern that is of a node by its form, across an edge of their own. -/
theorem relateNode_crowds_of_not_isEdge
    {p : Pattern}
    {lower : Option Kind → Lowering Nat}
    (hroot : (ItemType.root .edge).Mediates types)
    (hp : p.isEdge = false)
    (href : ∀ y, p ≠ .reference y)
    (hlower : Opens types (lower (some .node)) (.var (p.var path)) (some .node) (p.places path)
      fun names => kindClauses (.var (p.var path)) (some .node) ++
        (p.clauses names path).flatMap Clause.expand)
    (hcrowds : Crowds types (fun _ => True) (lower (some .node)) (p.places path)
      fun names => kindClauses (.var (p.var path)) (some .node) ++
        (p.clauses names path).flatMap Clause.expand)
    (x : Var)
    (i : Nat)
    (role : Role) :
    Crowds types (Knows i (.var x) .node) (relateNode i role p lower)
      (.implied path :: p.places path)
      fun names => (Pattern.related path x (p.var path) role (p.isEdgeLike names) ++
        p.clauses names path).flatMap Clause.expand := by
  intro d ledger name hd hnodup hfree hknows hfails
  have hsaid := fun names => same_related_of_not_isEdge hp href x role names path
  rw [relateNode_of_not_isEdge role lower hp href] at hfails
  rcases fails_bind.mp hfails with h | ⟨edge, e, hcompanion, hfails⟩
  · exact absurd h not_fails_typed_none
  obtain ⟨opened, he, hopened, htag, hkind⟩ := companion_opens hroot path d ledger edge e hd
    hnodup (hfree.mono (List.sublist_append_left [_] _)) hcompanion
  have hedge : Knows edge (.implied path) .edge opened := ⟨htag, hkind _ rfl⟩
  have hnode := hknows.extend hopened
  rcases fails_bind.mp hfails with hfails | ⟨_, e', hlink, hfails⟩
  · refine (link_crowds e opened name he hopened.distinct .nil ⟨hnode, hedge⟩ hfails).before
      hopened fun names _ => ⟨kindClauses (.var (p.var path)) (some .node) ++
        (p.clauses names path).flatMap Clause.expand ++
          [.plays (.var (p.var path)) (.implied path) role.opposite], ?_⟩
    simpa only [List.append_assoc] using hsaid names
  have hlinked := link_records he hnode.1 hedge.1 hnode.2 hedge.2 hlink
  have hadded := Ledger.Extends.add hopened.distinct [.plays (.var x) (.implied path) role]
  have hfirst := hopened.trans hadded
  have hfree' : (opened.add [.plays (.var x) (.implied path) role]).Free (p.places path) :=
    Ledger.Free.right hfree hfirst
  rcases fails_bind.mp hfails with hfails | ⟨other, e'', hother, hfails⟩
  · exact (hcrowds e' _ name hlinked hadded.distinct hfree' trivial hfails).before hfirst
      fun names _ => ⟨[.plays (.var (p.var path)) (.implied path) role.opposite], hsaid names⟩
  · obtain ⟨ledger', he', hextends, htag', hkind'⟩ := hlower e' _ other e'' hlinked hadded.distinct
      hfree' hother
    refine (link_crowds e'' ledger' name he' hextends.distinct .nil
      ⟨⟨htag', hkind' _ rfl⟩, (hedge.extend hadded).extend hextends⟩ hfails).before
        (hfirst.trans hextends) fun names _ => ⟨[], ?_⟩
    rw [List.append_nil]
    exact hsaid names

/-- Relating a node to what another pattern speaks about. -/
theorem relateNode_crowds
    {p : Pattern}
    {lower : Option Kind → Lowering Nat}
    (hroot : (ItemType.root .edge).Mediates types)
    (hlower : ∀ kind, Opens types (lower kind) (.var (p.var path)) kind (p.places path)
      fun names => kindClauses (.var (p.var path)) kind ++ (p.clauses names path).flatMap Clause.expand)
    (hcrowds : ∀ kind, Crowds types (fun _ => True) (lower kind) (p.places path)
      fun names => kindClauses (.var (p.var path)) kind ++ (p.clauses names path).flatMap Clause.expand)
    (x : Var)
    (i : Nat)
    (role : Role) :
    Crowds types (Knows i (.var x) .node) (relateNode i role p lower)
      (.implied path :: p.places path)
      fun names => (Pattern.related path x (p.var path) role (p.isEdgeLike names) ++
        p.clauses names path).flatMap Clause.expand := by
  by_cases href : ∃ y, p = .reference y
  · obtain ⟨y, rfl⟩ := href
    intro d ledger name hd hnodup hfree hknows hfails
    have hcrowded := relateToName_crowds ⟨x, y, role, path⟩ hroot d ledger name hd hnodup
      (hfree.mono (List.sublist_append_left [_] _)) hknows hfails
    refine hcrowded.mono hnodup fun names _ => ⟨[], ?_⟩
    rw [Pattern.clauses, List.append_nil, List.append_nil]
    exact Clause.Same.refl _
  · cases hp : p.isEdge with
    | true => exact relateNode_crowds_of_isEdge hp (hlower _) (hcrowds _) x i role
    | false =>
        exact relateNode_crowds_of_not_isEdge hroot hp (fun y hy => href ⟨y, hy⟩) (hlower _)
          (hcrowds _) x i role

/-- Relating an edge to what a pattern of a node speaks about. -/
theorem edgeRelation_crowds
    {p : Pattern}
    (hp : Opens types (pattern (some .node) p) (.var (p.var path)) (some .node) (p.places path)
      fun names => kindClauses (.var (p.var path)) (some .node) ++
        (p.clauses names path).flatMap Clause.expand)
    (hcrowds : Crowds types (fun _ => True) (pattern (some .node) p) (p.places path)
      fun names => kindClauses (.var (p.var path)) (some .node) ++
        (p.clauses names path).flatMap Clause.expand)
    (x : Var)
    (i : Nat)
    (role : Role) :
    Crowds types (Knows i (.var x) .edge) (do let node ← pattern (some .node) p; link node i role)
      (.implied path :: p.places path)
      fun names => ([Clause.member (p.var path) .node, .plays (p.var path) x role] ++
        p.clauses names path).flatMap Clause.expand := by
  intro d ledger name hd hnodup hfree hknows hfails
  have hsaid : ∀ names, Clause.Same
      (([Clause.member (p.var path) .node, .plays (p.var path) x role] ++
        p.clauses names path).flatMap Clause.expand)
      (kindClauses (.var (p.var path)) (some .node) ++
        (p.clauses names path).flatMap Clause.expand ++ [.plays (.var (p.var path)) (.var x) role]) := by
    refine fun names => .of_perm ?_
    simp only [Clause.expand, List.flatMap_cons, kindClauses, Option.toList_some, List.map_cons,
      List.map_nil, List.cons_append, List.nil_append]
    exact ((List.perm_append_singleton _ _).cons _).symm
  have hfree' : ledger.Free (p.places path) := hfree.mono (List.sublist_cons_self _ _)
  rcases fails_bind.mp hfails with hfails | ⟨node, e, hnode, hfails⟩
  · exact (hcrowds d ledger name hd hnodup hfree' trivial hfails).mono hnodup
      fun names _ => ⟨_, hsaid names⟩
  · obtain ⟨ledger', he, hextends, htag, hkind⟩ := hp d ledger node e hd hnodup hfree' hnode
    refine (link_crowds e ledger' name he hextends.distinct .nil
      ⟨⟨htag, hkind _ rfl⟩, hknows.extend hextends⟩ hfails).before hextends fun names _ => ⟨[], ?_⟩
    rw [List.append_nil]
    exact hsaid names

/-- The kind that is expected of a pattern is found out before anything is listed on an edge. -/
theorem Crowds.expecting
    {m : Lowering α}
    (h : Crowds types pre m room said)
    (kind : Option Kind)
    (what : String)
    (place : Place) :
    Crowds types pre (do checkKind kind k what; m) room fun names =>
      kindClauses place kind ++ said names := by
  intro d ledger name hd hnodup hfree hpre hfails
  obtain h' | ⟨_, e, hcheck, hrest⟩ := fails_bind.mp hfails
  · exact absurd h' (uncrowded_checkKind kind k what d name)
  obtain ⟨rfl, -⟩ := of_yields_checkKind hcheck
  exact (h e ledger name hd hnodup hfree hpre hrest).mono hnodup fun names _ => ⟨_, .comm _ _⟩

/-- A fragment lists ends on edges when its relations are lowered. -/
theorem fragment_crowds
    {m : Lowering Nat}
    {g : Nat → Lowering Unit}
    {base : List (Clause Var)}
    {relations : List String → List (Clause Var)}
    (kind : Option Kind)
    (excluded : List ItemType)
    (hm : Opens types m (.var x) (some k) room fun _ => base.flatMap Clause.expand)
    (huncrowded : Uncrowded m)
    (hexcluded : ∀ t ∈ excluded, t.kind = k)
    (hg : ∀ i, Crowds types (Knows i (.var x) k) (g i) room' fun names =>
      (relations names).flatMap Clause.expand) :
    Crowds types (fun _ => True)
      (do checkKind kind k "fragment"; let i ← m; excludeAll i excluded; g i; return i)
      (room ++ room') fun names => kindClauses (.var x) kind ++
        (base ++ excluded.map (Clause.isNot x ·) ++ relations names).flatMap Clause.expand := by
  refine Crowds.expecting (fun d ledger name hd hnodup hfree _ hfails => ?_) kind _ _
  obtain h | ⟨i, e, hbase, hfails⟩ := fails_bind.mp hfails
  · exact absurd h (huncrowded d name)
  obtain ⟨opened, he, hopened, htag, hkind⟩ :=
    hm d ledger i e hd hnodup (hfree.mono (List.sublist_append_left _ _)) hbase
  obtain h | ⟨u, e', hexclude, hfails⟩ := fails_bind.mp hfails
  · exact absurd h (uncrowded_excludeAll i excluded e name)
  have hfree' : opened.Free room' := hfree.right hopened
  obtain ⟨ledger', he', hextends⟩ := excludeAll_tells i excluded hexcluded e opened u e' he
    hopened.distinct (hfree'.mono (List.nil_sublist _)) htag (hkind k rfl) hexclude
  have hknows : Knows i (.var x) k opened := ⟨htag, hkind k rfl⟩
  obtain hfails | ⟨_, _, -, h⟩ := fails_bind.mp hfails
  · refine (hg i e' ledger' name he' hextends.distinct (Ledger.Free.right hfree' hextends)
      (hknows.extend hextends) hfails).before (hopened.trans hextends) fun names _ => ⟨[], ?_⟩
    rw [List.flatMap_append, List.flatMap_append, flatMap_expand_isNot, List.append_nil]
    exact Clause.Same.refl _
  · exact absurd h not_fails_pure

theorem uncrowded_nodeBase (base : Base NodeType Node) (name : Option String) :
    Uncrowded (nodeBase base name) := by
  cases base with
  | any type => exact uncrowded_typed _ name
  | exactly n => exact uncrowded_pinned _ name

theorem uncrowded_edgeBase (base : Base EdgeType Edge) (name : Option String) :
    Uncrowded (edgeBase base name) := by
  cases base with
  | any type => exact uncrowded_typed _ name
  | exactly e => exact uncrowded_pinned _ name

mutual

/-- Lowering a pattern finds an edge with too many ends only if there is one. -/
theorem pattern_crowds (hroot : (ItemType.root .edge).Mediates types) :
    ∀ (p : Pattern) (path : Path) (kind : Option Kind),
      (∀ y t, .isA y t ∈ p.clauses known path → t.Mediates types) →
        Crowds types (fun _ => True) (pattern kind p) (p.places path)
          fun names => kindClauses (.var (p.var path)) kind ++
            (p.clauses names path).flatMap Clause.expand
  | .nodeType type, path, kind, _ =>
      ((uncrowded_checkKind kind .node _).bind fun _ => uncrowded_typed _ none).crowds
  | .edgeType type, path, kind, _ =>
      ((uncrowded_checkKind kind .edge _).bind fun _ => uncrowded_typed _ none).crowds
  | .node n, path, kind, _ =>
      ((uncrowded_checkKind kind .node _).bind fun _ => uncrowded_pinned _ none).crowds
  | .edge e, path, kind, _ =>
      ((uncrowded_checkKind kind .edge _).bind fun _ => uncrowded_pinned _ none).crowds
  | .reference name, path, kind, _ => (uncrowded_named name kind).crowds
  | .nodeFragment base name excluding relations, path, kind, hmediates => by
      have hbase := nodeBase_opens name (fun y t ht =>
        hmediates y t (List.mem_append_left _ (List.mem_append_left _ ht))) rfl
      have hrelations := fun i => nodeRelations_crowds hroot relations path 0 i _ fun y t ht =>
        hmediates y t (List.mem_append_right _ ht)
      have hfragment := fragment_crowds kind (excluding.map .node) hbase
        (uncrowded_nodeBase base name) (by simp [ItemType.kind]) hrelations
      rw [List.map_map] at hfragment
      exact hfragment
  | .edgeFragment base name excluding relations, path, kind, hmediates => by
      have hbase := edgeBase_opens name (fun y t ht =>
        hmediates y t (List.mem_append_left _ (List.mem_append_left _ ht))) rfl
      have hrelations := fun i => edgeRelations_crowds hroot relations path 0 i _ fun y t ht =>
        hmediates y t (List.mem_append_right _ ht)
      have hfragment := fragment_crowds kind (excluding.map .edge) hbase
        (uncrowded_edgeBase base name) (by simp [ItemType.kind]) hrelations
      rw [List.map_map] at hfragment
      exact hfragment

theorem nodeRelations_crowds (hroot : (ItemType.root .edge).Mediates types) :
    ∀ (relations : List (Relation × Pattern)) (path : Path) (k : Nat) (i : Nat) (x : Var),
      (∀ y t, .isA y t ∈ Pattern.nodeClauses known path x k relations → t.Mediates types) →
        Crowds types (Knows i (.var x) .node) (nodeRelations i relations)
          (Pattern.relationPlaces path k relations)
          fun names => (Pattern.nodeClauses names path x k relations).flatMap Clause.expand
  | [], _, _, _, _, _ => (uncrowded_pure ()).crowds
  | (relation, p) :: rest, path, k, i, x, hmediates => by
      have hinside := fun y t ht =>
        hmediates y t (List.mem_append_left _ (List.mem_append_right _ ht))
      have hp := fun kind => pattern_opens hroot p (k :: path) kind hinside
      have hfirst := relateNode_crowds hroot hp
        (fun kind => pattern_crowds hroot p (k :: path) kind hinside) x i (nodeRole relation)
      have hrest := nodeRelations_crowds hroot rest path (k + 1) i x fun y t ht =>
        hmediates y t (List.mem_append_right _ ht)
      refine (hfirst.then (relateNode_tells hroot hp) hrest).congr fun names => ?_
      simp only [Pattern.nodeClauses, List.flatMap_append, nodeRole_eq_ofNode]

theorem edgeRelations_crowds (hroot : (ItemType.root .edge).Mediates types) :
    ∀ (relations : List (Relation × Pattern)) (path : Path) (k : Nat) (i : Nat) (x : Var),
      (∀ y t, .isA y t ∈ Pattern.edgeClauses known path x k relations → t.Mediates types) →
        Crowds types (Knows i (.var x) .edge) (edgeRelations i relations)
          (Pattern.relationPlaces path k relations)
          fun names => (Pattern.edgeClauses names path x k relations).flatMap Clause.expand
  | [], _, _, _, _, _ => (uncrowded_pure ()).crowds
  | (relation, p) :: rest, path, k, i, x, hmediates => by
      have hinside := fun y t ht =>
        hmediates y t (List.mem_append_left _ (List.mem_append_right _ ht))
      have hp := pattern_opens hroot p (k :: path) (some .node) hinside
      have hfirst := edgeRelation_crowds hp
        (pattern_crowds hroot p (k :: path) (some .node) hinside) x i (edgeRole relation)
      have hrest := edgeRelations_crowds hroot rest path (k + 1) i x fun y t ht =>
        hmediates y t (List.mem_append_right _ ht)
      have hboth := hfirst.then (edgeRelation_tells (edgeRole relation) hp) hrest
      rw [bind_assoc] at hboth
      refine hboth.congr fun names => ?_
      simp only [Pattern.edgeClauses, List.flatMap_append, edgeRole_eq_ofEdge]

end

theorem patterns_crowds
    {entries : List (Position × Pattern)}
    {k : Nat}
    (hroot : (ItemType.root .edge).Mediates types)
    (hmediates : ∀ y t, .isA y t ∈ patternClauses known (entries.map Prod.snd) k → t.Mediates types) :
    Crowds types (fun _ => True) (patterns entries) (Query.places (entries.map Prod.snd) k) fun names =>
      (patternClauses names (entries.map Prod.snd) k).flatMap Clause.expand := by
  induction entries generalizing k with
  | nil => exact (uncrowded_pure _).crowds
  | cons entry entries ih =>
      intro d ledger name hd hnodup hfree _ hfails
      obtain ⟨position, p⟩ := entry
      have hclauses : ∀ names, patternClauses names (((position, p) :: entries).map Prod.snd) k =
          p.clauses names [k] ++ patternClauses names (entries.map Prod.snd) (k + 1) := by
        intro names
        simp [patternClauses]
      have hinside : ∀ y t, .isA y t ∈ p.clauses known [k] → t.Mediates types :=
        fun y t ht => hmediates y t (by rw [hclauses]; exact List.mem_append_left _ ht)
      rw [List.map_cons, Query.places_cons] at hfree
      have hfirst : ledger.Free (p.places [k]) := hfree.mono (List.sublist_append_left _ _)
      rcases fails_bind.mp hfails with hfails | ⟨i, e, hrun, hfails⟩
      · refine (pattern_crowds hroot p [k] none hinside d ledger name hd hnodup hfirst trivial
          hfails).mono hnodup fun names _ =>
            ⟨(patternClauses names (entries.map Prod.snd) (k + 1)).flatMap Clause.expand, ?_⟩
        rw [hclauses, List.flatMap_append]
        exact Clause.Same.refl _
      · obtain ⟨between, he, hextends, htag, -⟩ :=
          pattern_opens hroot p [k] none hinside d ledger i e hd hnodup hfirst hrun
        rcases fails_bind.mp hfails with h | ⟨_, e', hshow, hfails⟩
        · exact absurd h not_fails_update
        · refine (ih (fun y t ht => hmediates y t (by rw [hclauses]; exact List.mem_append_right _ ht))
            e' between name (showIn_records he htag hshow) hextends.distinct (hfree.right hextends)
              trivial hfails).before hextends fun names _ => ⟨[], ?_⟩
          rw [hclauses, List.flatMap_append, List.append_nil]
          exact Clause.Same.refl _

theorem resolve_crowds
    {entries : List (Nat × Nat × Role)}
    {relations : List PutOff}
    (hroot : (ItemType.root .edge).Mediates types) :
    Crowds types (fun ledger =>
        List.Forall₂ (PutOff.IsAt ledger.tags ledger.clauses) entries relations)
      (resolve entries) (relations.map PutOff.place)
      fun names => relations.flatMap (PutOff.clauses names) := by
  induction relations generalizing entries with
  | nil =>
      intro d ledger name _ _ _ hat hfails
      obtain rfl := List.forall₂_nil_right_iff.mp hat
      exact absurd hfails not_fails_pure
  | cons relation relations ih =>
      intro d ledger name hd hnodup hfree hat hfails
      obtain ⟨⟨i, j, role⟩, entries, hfirst, hrest, rfl⟩ := List.forall₂_cons_right_iff.mp hat
      obtain rfl : role = relation.role := hfirst.role
      have hplace : ledger.Free [relation.place] := hfree.mono (List.sublist_append_left [_] _)
      rcases fails_bind.mp hfails with hfails | ⟨_, e, hconnect, hfails⟩
      · exact (connect_crowds relation hroot d ledger name hd hnodup hplace hfirst hfails).mono hnodup
          fun names _ => ⟨_, Clause.Same.refl _⟩
      · obtain ⟨between, he, -, hextends⟩ :=
          connect_extends hroot hd hnodup hplace hfirst hconnect
        have hfree' : between.Free (relations.map PutOff.place) := Ledger.Free.right hfree hextends
        refine (ih e between name he hextends.distinct hfree'
          (hrest.imp fun _ _ h => PutOff.IsAt.extend h hextends) hfails).before hextends
            fun names _ => ⟨[], ?_⟩
        rw [List.append_nil]
        exact Clause.Same.refl _

/-- Lowering a query finds an edge with too many ends only if what the query says gives one too many. -/
theorem all_crowds
    {entries : List (Position × Pattern)}
    {name : String}
    (hroot : (ItemType.root .edge).Mediates types)
    (hmediates : ∀ y t, .isA y t ∈ patternClauses known (entries.map Prod.snd) 0 → t.Mediates types)
    (hfails : Fails (all entries) Draft.empty (.crowdedEdge name)) :
    Ledger.empty.Crowded fun names =>
      (patternClauses names (entries.map Prod.snd) 0).flatMap Clause.expand := by
  rcases fails_bind.mp hfails with hfails | ⟨_, d, hpatterns, hfails⟩
  · exact patterns_crowds hroot hmediates Draft.empty .empty name Draft.Records.empty
      List.nodup_nil (free_empty (entries.map Prod.snd)) trivial hfails
  obtain h | ⟨_, _, hget, hfails⟩ := fails_bind.mp hfails
  · exact absurd h not_fails_get
  obtain ⟨rfl, rfl⟩ := yields_get.mp hget
  rcases fails_bind.mp hfails with hfails | ⟨_, e, -, hfails⟩
  · obtain ⟨first, hextends, -, -, htaken, hnodup, hfree, hat⟩ :=
      patterns_takeUp hroot hmediates hpatterns
    obtain ⟨names, hnames, hedges, edge, hlength⟩ :=
      resolve_crowds hroot d _ name htaken hnodup hfree hat hfails
    -- What was put off before counts as said already.
    have hall : (first.takeUp d.deferred).all names ++ first.putOff.flatMap (PutOff.clauses names) =
        first.all names := by
      simp [Ledger.all, Ledger.takeUp]
    rw [hall] at hedges hlength
    have hcrowded : first.Crowded fun _ => [] :=
      ⟨names, hnames, by simpa using hedges, edge, by simpa using hlength⟩
    exact hcrowded.before hextends fun names _ => ⟨[], by simpa using Clause.Same.refl _⟩
  · obtain ⟨_, -, -, hfault⟩ := of_fails_checkSettled hfails
    cases hfault

end Lowering

namespace Pattern

variable {names names' : List String} {e : Var} {role : Role}

/-- That more names stand for edges only adds to the players that a relation tells of. -/
theorem players_related_sublist (hnames : names ⊆ names') (p : Pattern) (path : Path) (x y : Var)
    (role' : Role) :
    (Clause.players e role (related path x y role' (p.isEdgeLike names))).Sublist
      (Clause.players e role (related path x y role' (p.isEdgeLike names'))) := by
  cases hlike : p.isEdgeLike names with
  | false => exact List.nil_sublist _
  | true =>
      have hlike' : p.isEdgeLike names' = true := by
        cases p with
        | reference name => simpa [isEdgeLike] using hnames (by simpa [isEdgeLike] using hlike)
        | _ => exact hlike
      rw [hlike']

mutual

/-- That more names stand for edges only adds to the players that a pattern tells of. -/
theorem players_clauses_sublist (hnames : names ⊆ names') : ∀ (p : Pattern) (path : Path),
    (Clause.players e role (p.clauses names path)).Sublist
      (Clause.players e role (p.clauses names' path))
  | nodeType _, _ | edgeType _, _ | node _, _ | edge _, _ | reference _, _ => List.Sublist.refl _
  | nodeFragment base name excluding relations, path => by
      have hrest := players_nodeClauses_sublist hnames relations path
        (base.var name path fun n => .node n.id) 0
      rw [clauses, clauses, Clause.players_append, Clause.players_append _ _ _ (nodeClauses ..)]
      exact (List.Sublist.refl _).append hrest
  | edgeFragment base name excluding relations, path => by
      have hrest := players_edgeClauses_sublist hnames relations path
        (base.var name path fun e => .edge e.id) 0
      rw [clauses, clauses, Clause.players_append, Clause.players_append _ _ _ (edgeClauses ..)]
      exact (List.Sublist.refl _).append hrest

theorem players_nodeClauses_sublist (hnames : names ⊆ names') :
    ∀ (relations : List (Relation × Pattern)) (path : Path) (x : Var) (i : Nat),
      (Clause.players e role (nodeClauses names path x i relations)).Sublist
        (Clause.players e role (nodeClauses names' path x i relations))
  | [], _, _, _ => List.Sublist.refl _
  | (relation, p) :: rest, path, x, i => by
      have hp := players_clauses_sublist hnames p (i :: path)
      have hrest := players_nodeClauses_sublist hnames rest path x (i + 1)
      simp only [nodeClauses, Clause.players_append]
      exact ((players_related_sublist hnames p _ _ _ _).append hp).append hrest

theorem players_edgeClauses_sublist (hnames : names ⊆ names') :
    ∀ (relations : List (Relation × Pattern)) (path : Path) (x : Var) (i : Nat),
      (Clause.players e role (edgeClauses names path x i relations)).Sublist
        (Clause.players e role (edgeClauses names' path x i relations))
  | [], _, _, _ => List.Sublist.refl _
  | (relation, p) :: rest, path, x, i => by
      have hp := players_clauses_sublist hnames p (i :: path)
      have hrest := players_edgeClauses_sublist hnames rest path x (i + 1)
      simp only [edgeClauses, Clause.players_append]
      exact ((List.Sublist.refl _).append hp).append hrest

end

end Pattern

namespace Query

theorem players_patternClauses_sublist {names names' : List String} {e : Var} {role : Role}
    (hnames : names ⊆ names') (items : List Pattern) (k : Nat) :
    (Clause.players e role (Lowering.patternClauses names items k)).Sublist
      (Clause.players e role (Lowering.patternClauses names' items k)) := by
  induction items generalizing k with
  | nil => exact List.Sublist.refl _
  | cons p items ih =>
      have hrest := ih (k + 1)
      simp only [Lowering.patternClauses] at hrest ⊢
      rw [List.zipIdx_cons, List.flatMap_cons, List.flatMap_cons, Clause.players_append,
        Clause.players_append]
      exact (Pattern.players_clauses_sublist hnames p [k]).append hrest

/-- An edge that a query implies has two ends, so one that is crowded is mentioned. -/
theorem not_meets_ends
    {query : Query}
    (h : Ledger.empty.Crowded fun names =>
      (Lowering.patternClauses names query.values 0).flatMap Clause.expand) :
    ¬query.Meets .ends := by
  obtain ⟨names, -, hedges, e, hlength⟩ := h
  have hnames : names ⊆ query.edgeNames := by
    intro x hx
    exact member_edge_iff_mem_edgeNames.mp (mem_expand_member.mp (hedges x hx))
  cases e with
  | var v =>
      intro hmeets
      have hplayers := Clause.players_expand_var (Lowering.patternClauses names query.values 0) v .endpoint
      have hsublist : (Clause.players v .endpoint (Lowering.patternClauses names query.values 0)).Sublist
          (Clause.players v .endpoint query.clauses) :=
        players_patternClauses_sublist hnames query.values 0
      have hle := hsublist.length_le.trans (hmeets v)
      have hmany : maxEdgeEnds < ((Clause.players v .endpoint
          (Lowering.patternClauses names query.values 0)).map Place.var).length := hplayers ▸ hlength
      rw [List.length_map] at hmany
      exact absurd hle (Nat.not_le.mpr hmany)
  | implied path =>
      exfalso
      have hnodup := nodup_implied_patterns names query.values
      by_cases hplace : .implied path ∈
          (Lowering.patternClauses names query.values 0).filterMap Clause.impliedPlace?
      · obtain ⟨clause, hclause, hjoined⟩ := List.mem_filterMap.mp hplace
        cases clause with
        | joined path' a b role =>
            obtain rfl : path' = path := by simpa [Clause.impliedPlace?] using hjoined
            have hplayers := (Clause.players_expand_implied hnodup hclause .endpoint).trans
              (Clause.players_implied path' a b role)
            have hmany : maxEdgeEnds <
                (if role = .endpoint then [Place.var a, Place.var b] else []).length :=
              hplayers ▸ hlength
            split at hmany
            · exact lt_irrefl 2 hmany
            · exact Nat.not_lt_zero 2 hmany
        | member x kind => cases hjoined
        | same x item => cases hjoined
        | isA x type => cases hjoined
        | isNot x type => cases hjoined
        | plays n e role => cases hjoined
      · have hnone : maxEdgeEnds < ([] : List Place).length :=
          Clause.players_implied_eq_nil hplace .endpoint ▸ hlength
        exact Nat.not_lt_zero 2 hnone

end Query

end PatternGraph
