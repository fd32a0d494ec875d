import PatternGraph.Proofs.Query.LoweringRun
import PatternGraph.Proofs.Query.Showing
import PatternGraph.Query.Rows

/-!
# Lowered queries

A query that can be lowered has slots that are constrained exactly as its clauses say: each variable
has one slot, and each edge that the query implies has one more.  The places recorded on a slot are those
of the patterns that speak about its variable.
-/

namespace PatternGraph

namespace Lowering

variable {types : List ItemType} {d d' : Draft} {ledger : Ledger} {u : Unit}

/-- What the patterns of a query say, the first of which has the given position. -/
def patternClauses (names : List String) (items : List Pattern) (i : Nat) : List (Clause Var) :=
  (items.zipIdx i).flatMap fun (p, i) => p.clauses names [i]

/--
The places of the patterns that speak about the item of a slot, which is that of a given place in the query
if there is such a slot.  The first of the patterns has the given position.
-/
def shownAt (entries : List (Position × Pattern)) (k : Nat) (place : Option Place) : List Position :=
  ((entries.zipIdx k).filter fun entry => place == some (.var (entry.1.2.var [entry.2]))).map (·.1.1)

/-- Whether what the patterns speak about has slots. -/
def Opened (entries : List (Position × Pattern)) (k : Nat) (tags : List Place) : Prop :=
  ∀ entry ∈ entries.zipIdx k, .var (entry.1.2.var [entry.2]) ∈ tags

theorem shownAt_cons (position : Position) (p : Pattern) (entries : List (Position × Pattern)) (k : Nat)
    (place : Option Place) :
    shownAt ((position, p) :: entries) k place =
      (if place = some (.var (p.var [k])) then [position] else []) ++ shownAt entries (k + 1) place := by
  rw [shownAt, List.zipIdx_cons, List.filter_cons]
  by_cases hplace : place = some (.var (p.var [k]))
  · simp [hplace, shownAt]
  · simp [hplace, shownAt]

theorem opened_cons {position : Position} {p : Pattern} {entries : List (Position × Pattern)} {k : Nat}
    {tags : List Place} :
    Opened ((position, p) :: entries) k tags ↔
      .var (p.var [k]) ∈ tags ∧ Opened entries (k + 1) tags := by
  simp [Opened]

/-- A place that had a slot keeps it, and gets no other. -/
theorem getElem?_tags_iff
    {ledger' : Ledger}
    {room : List Place}
    {said : List String → List (Clause Place)}
    {place : Place}
    (h : ledger.Extends ledger' room said)
    (hplace : place ∈ ledger.tags)
    (hnodup : ledger'.tags.Nodup)
    (i : Nat) :
    ledger'.tags[i]? = some place ↔ ledger.tags[i]? = some place := by
  obtain ⟨j, hj⟩ := List.mem_iff_getElem?.mp hplace
  have hj' := h.tag hj
  refine ⟨fun hi => ?_, h.tag⟩
  have hlt := (List.getElem?_eq_some_iff.mp hi).1
  rwa [(List.getElem?_inj hlt hnodup).mp (hi.trans hj'.symm)]

/-- What is opened later has nothing to do with what patterns speak about whose slots are there. -/
theorem Opened.shownAt_eq
    {ledger' : Ledger}
    {entries : List (Position × Pattern)}
    {k : Nat}
    {room : List Place}
    {said : List String → List (Clause Place)}
    (hopened : Opened entries k ledger.tags)
    (h : ledger.Extends ledger' room said)
    (hnodup : ledger'.tags.Nodup)
    (i : Nat) :
    shownAt entries k ledger'.tags[i]? = shownAt entries k ledger.tags[i]? := by
  refine congrArg (List.map _) (List.filter_congr fun entry hentry => ?_)
  rw [Bool.eq_iff_iff, beq_iff_eq, beq_iff_eq]
  exact getElem?_tags_iff h (hopened entry hentry) hnodup i

theorem Opened.extend
    {ledger' : Ledger}
    {entries : List (Position × Pattern)}
    {k : Nat}
    {room : List Place}
    {said : List String → List (Clause Place)}
    (hopened : Opened entries k ledger.tags)
    (h : ledger.Extends ledger' room said) :
    Opened entries k ledger'.tags := by
  intro entry hentry
  obtain ⟨j, hj⟩ := List.mem_iff_getElem?.mp (hopened entry hentry)
  exact List.mem_of_getElem? (h.tag hj)

theorem patterns_extends
    {entries : List (Position × Pattern)}
    {k : Nat}
    {known : List String}
    (hroot : (ItemType.root .edge).Mediates types)
    (hmediates : ∀ y t, .isA y t ∈ patternClauses known (entries.map Prod.snd) k → t.Mediates types)
    (hd : d.Records types ledger)
    (hnodup : ledger.places.Nodup)
    (hfree : ledger.Free (Query.places (entries.map Prod.snd) k))
    (hrun : Yields (patterns entries) d u d') :
    ∃ ledger', d'.Records types ledger' ∧
      (ledger.Extends ledger' (Query.places (entries.map Prod.snd) k) fun names =>
        (patternClauses names (entries.map Prod.snd) k).flatMap Clause.expand) ∧
      Opened entries k ledger'.tags ∧
      ∀ i, d'.shown i = d.shown i ++ shownAt entries k ledger'.tags[i]? := by
  induction entries generalizing k d ledger with
  | nil =>
      obtain ⟨-, rfl⟩ := yields_pure.mp hrun
      exact ⟨ledger, hd, .refl hnodup, nofun, fun i => (List.append_nil _).symm⟩
  | cons entry entries ih =>
      obtain ⟨position, p⟩ := entry
      simp only [patterns, yields_bind] at hrun
      obtain ⟨i, e, hfirst, _, e', hshow, hrest⟩ := hrun
      have hclauses : ∀ names, patternClauses names (((position, p) :: entries).map Prod.snd) k =
          p.clauses names [k] ++ patternClauses names (entries.map Prod.snd) (k + 1) := by
        intro names
        simp [patternClauses]
      rw [List.map_cons, Query.places_cons] at hfree ⊢
      obtain ⟨between, he, hextends, htag, -⟩ := pattern_opens hroot p [k] none
        (fun y t ht => hmediates y t (by rw [hclauses]; exact List.mem_append_left _ ht))
        d ledger i e hd hnodup (hfree.mono (List.sublist_append_left _ _)) hfirst
      obtain ⟨ledger', he', hextends', hopened, hshown⟩ := ih
        (fun y t ht => hmediates y t (by rw [hclauses]; exact List.mem_append_right _ ht))
        (showIn_records he htag hshow) hextends.distinct (hfree.right hextends) hrest
      have htag' := hextends'.tag htag
      refine ⟨ledger', he', (hextends.trans hextends').congr (fun _ hp => hp) fun names _ => ?_,
        opened_cons.mpr ⟨List.mem_of_getElem? htag', hopened⟩, fun j => ?_⟩
      · rw [← List.map_cons, hclauses, List.flatMap_append]
        exact Clause.Same.refl _
      · -- Of all slots only that of the pattern has its place.
        have hsame : j = i ↔ ledger'.tags[j]? = some (.var (p.var [k])) := by
          refine ⟨fun hji => hji ▸ htag', fun hj => ?_⟩
          exact (List.getElem?_inj (List.getElem?_eq_some_iff.mp hj).1 he'.nodup).mp
            (hj.trans htag'.symm)
        have hlt : i < e.slots.size := he.length ▸ (List.getElem?_eq_some_iff.mp htag).1
        rw [hshown, shown_of_yields_showIn hlt hshow, Quiet.compositional.pattern none p d i e hfirst,
          List.append_assoc, shownAt_cons]
        simp only [hsame]

theorem PutOff.IsAt.extend
    {ledger' : Ledger}
    {room : List Place}
    {said : List String → List (Clause Place)}
    {entry : Nat × Nat × Role}
    {relation : PutOff}
    (h : relation.IsAt ledger.tags ledger.clauses entry)
    (hextends : ledger.Extends ledger' room said) :
    relation.IsAt ledger'.tags ledger'.clauses entry :=
  ⟨hextends.tag h.node, hextends.tag h.other, h.role, hextends.clauses _ h.isNode⟩

/-- Lowering the relations that were put off says what they say. -/
theorem resolve_extends
    {entries : List (Nat × Nat × Role)}
    {relations : List PutOff}
    (hroot : (ItemType.root .edge).Mediates types)
    (hat : List.Forall₂ (PutOff.IsAt ledger.tags ledger.clauses) entries relations)
    (hd : d.Records types ledger)
    (hnodup : ledger.places.Nodup)
    (hfree : ledger.Free (relations.map PutOff.place))
    (hrun : Yields (resolve entries) d u d') :
    ∃ ledger', d'.Records types ledger' ∧ ledger'.putOff = ledger.putOff ∧
      ledger.Extends ledger' (relations.map PutOff.place)
        fun names => relations.flatMap (PutOff.clauses names) := by
  induction relations generalizing entries d ledger with
  | nil =>
      obtain rfl := List.forall₂_nil_right_iff.mp hat
      obtain ⟨-, rfl⟩ := yields_pure.mp hrun
      exact ⟨ledger, hd, rfl, .refl hnodup⟩
  | cons relation relations ih =>
      obtain ⟨⟨i, j, role⟩, entries, hfirst, hrest, rfl⟩ := List.forall₂_cons_right_iff.mp hat
      obtain rfl : role = relation.role := hfirst.role
      obtain ⟨_, e, hconnect, hresolve⟩ := yields_bind.mp hrun
      obtain ⟨between, he, hputOff, hextends⟩ := connect_extends hroot hd hnodup
        (hfree.mono (List.sublist_append_left [_] _)) hfirst hconnect
      have hfree' : between.Free (relations.map PutOff.place) := Ledger.Free.right hfree hextends
      obtain ⟨ledger', hd', hputOff', hextends'⟩ := ih
        (hrest.imp fun _ _ h => PutOff.IsAt.extend h hextends) he hextends.distinct hfree' hresolve
      exact ⟨ledger', hd', hputOff'.trans hputOff, hextends.trans hextends'⟩

theorem of_yields_checkSettled (hrun : Yields checkSettled d u d') :
    d' = d ∧ ∀ slot ∈ d.slots, slot.kind ≠ .unknown := by
  simp only [checkSettled, yields_bind, yields_get] at hrun
  obtain ⟨_, _, ⟨rfl, rfl⟩, hrun⟩ := hrun
  split at hrun
  · exact absurd hrun not_yields_throw
  · rename_i hnone
    rw [Array.find?_eq_none] at hnone
    exact ⟨(yields_pure.mp hrun).2.symm, fun slot hslot hkind => hnone slot hslot (by simp [hkind])⟩

theorem free_empty (items : List Pattern) : Ledger.empty.Free (Query.places items 0) :=
  ⟨Query.nodup_places items 0, fun _ _ => List.not_mem_nil, fun place hplace => by
    obtain ⟨j, -, hunder⟩ := Query.under_of_mem_places hplace
    exact hunder.not_isShared⟩

/-- When all patterns have been lowered, the relations that were put off can be taken up. -/
theorem patterns_takeUp
    {entries : List (Position × Pattern)}
    {known : List String}
    (hroot : (ItemType.root .edge).Mediates types)
    (hmediates : ∀ y t, .isA y t ∈ patternClauses known (entries.map Prod.snd) 0 → t.Mediates types)
    (hrun : Yields (patterns entries) Draft.empty u d) :
    ∃ first : Ledger,
      (Ledger.empty.Extends first (Query.places (entries.map Prod.snd) 0) fun names =>
        (patternClauses names (entries.map Prod.snd) 0).flatMap Clause.expand) ∧
      Opened entries 0 first.tags ∧ (∀ i, d.shown i = shownAt entries 0 first.tags[i]?) ∧
      d.Records types (first.takeUp d.deferred) ∧ (first.takeUp d.deferred).places.Nodup ∧
      (first.takeUp d.deferred).Free (first.putOff.map PutOff.place) ∧
      List.Forall₂ (PutOff.IsAt (first.takeUp d.deferred).tags (first.takeUp d.deferred).clauses)
        d.deferred first.putOff := by
  obtain ⟨first, hd, hextends, hopened, hshown⟩ := patterns_extends hroot hmediates
    Draft.Records.empty List.nodup_nil (free_empty (entries.map Prod.snd)) hrun
  obtain ⟨putOff, hputOff, hat⟩ := hd.deferred
  rw [hextends.takenUp] at hputOff
  obtain rfl : d.deferred = putOff := hputOff
  obtain ⟨htags, hputOff, hapart⟩ := List.nodup_append.mp hextends.distinct
  have hplaces : (first.takeUp d.deferred).places = first.tags := List.append_nil _
  refine ⟨first, hextends, hopened, hshown, ?_, hplaces ▸ htags, ⟨hputOff, fun p hp htag => ?_, ?_⟩,
    hat⟩
  · refine ⟨hd.length, hd.nodup, hd.fits, hd.subjects, hd.played, [], ?_, .nil⟩
    rw [Ledger.takeUp, hextends.takenUp]
    exact (List.append_nil _).symm
  · rw [hplaces] at htag
    exact hapart p htag p hp rfl
  · intro p hp
    obtain ⟨relation, -, rfl⟩ := List.mem_map.mp hp
    exact id

/-- Lowering all patterns of a query says all their clauses, and leaves nothing put off. -/
theorem resolve_records
    {entries : List (Position × Pattern)}
    {known : List String}
    {u' : Unit}
    (hroot : (ItemType.root .edge).Mediates types)
    (hmediates : ∀ y t, .isA y t ∈ patternClauses known (entries.map Prod.snd) 0 → t.Mediates types)
    (hpatterns : Yields (patterns entries) Draft.empty u d)
    (hresolve : Yields (resolve d.deferred) d u' d') :
    ∃ ledger, d'.Records types ledger ∧
      (∀ names, ledger.Agrees names → Clause.Same ledger.clauses
        ((patternClauses names (entries.map Prod.snd) 0).flatMap Clause.expand)) ∧
      Opened entries 0 ledger.tags ∧ ∀ i, d'.shown i = shownAt entries 0 ledger.tags[i]? := by
  obtain ⟨first, hextends, hopened, hshown, htaken, hnodup, hfree, hat⟩ :=
    patterns_takeUp hroot hmediates hpatterns
  obtain ⟨ledger, hd', hnone, hextends'⟩ := resolve_extends hroot hat htaken hnodup hfree hresolve
  have hopened' : Opened entries 0 (first.takeUp d.deferred).tags := hopened
  refine ⟨ledger, hd', fun names hnames => ?_, hopened'.extend hextends', fun i => ?_⟩
  · have hfirst := hextends.account names (hnames.mono hextends'.clauses)
    have hlast := hextends'.account names hnames
    have hclauses : ledger.all names = ledger.clauses := by
      rw [Ledger.all, hnone]
      exact List.append_nil _
    have hbefore : (first.takeUp d.deferred).all names = first.clauses := List.append_nil _
    rw [hclauses, hbefore] at hlast
    exact hlast.trans hfirst
  · rw [Quiet.compositional.resolve d.deferred d u' d' hresolve, hshown,
      hopened'.shownAt_eq hextends' hd'.nodup]
    rfl

theorem of_yields_all
    {entries : List (Position × Pattern)}
    (hrun : Yields (all entries) Draft.empty u d') :
    (∃ d, Yields (patterns entries) Draft.empty () d ∧ Yields (resolve d.deferred) d () d') ∧
      ∀ slot ∈ d'.slots, slot.kind ≠ .unknown := by
  simp only [all, yields_bind, yields_get] at hrun
  obtain ⟨_, d, hpatterns, _, _, ⟨rfl, rfl⟩, _, e, hresolve, hsettled⟩ := hrun
  obtain ⟨rfl, hsettled⟩ := of_yields_checkSettled hsettled
  exact ⟨⟨d, hpatterns, hresolve⟩, hsettled⟩

end Lowering

namespace Pattern

theorem mem_edgeBase {x y : Var} {base : Base EdgeType Edge} :
    .member y .edge ∈ edgeBase x base ↔ y = x := by
  cases base with
  | any type => simp [edgeBase, typed, ItemType.kind]
  | exactly e => simp [edgeBase, exact, Item.kind]

theorem not_mem_nodeBase {x y : Var} {base : Base NodeType Node} :
    .member y .edge ∉ nodeBase x base := by
  cases base with
  | any type => simp [nodeBase, typed, ItemType.kind]
  | exactly n => simp [nodeBase, exact, Item.kind]

variable (names : List String) (x : String)

mutual

/-- A pattern says of its edge names that they are names of edges, and of no others. -/
theorem member_edge_iff : ∀ (p : Pattern) (path : Path),
    .member (.name x) .edge ∈ p.clauses names path ↔ x ∈ p.edgeNames
  | nodeType type, path => by simp [clauses, typed, edgeNames]
  | edgeType type, path => by simp [clauses, typed, edgeNames]
  | node n, path => by simp [clauses, exact, edgeNames]
  | edge e, path => by simp [clauses, exact, edgeNames]
  | reference name, path => by simp [clauses, edgeNames]
  | nodeFragment base name excluding relations, path => by
      have hrest := node_member_edge_iff relations path
        (base.var name path fun n => .node n.id) 0
      simp [clauses, edgeNames, hrest, not_mem_nodeBase]
  | edgeFragment base name excluding relations, path => by
      have hrest := edge_member_edge_iff relations path
        (base.var name path fun e => .edge e.id) 0
      have hname : .name x = base.var name path (fun e => .edge e.id) ↔ name = some x := by
        cases name <;> cases base <;> simp [Base.var, eq_comm]
      simp [clauses, edgeNames, hrest, mem_edgeBase, hname]

theorem node_member_edge_iff : ∀ (relations : List (Relation × Pattern)) (path : Path) (y : Var)
    (i : Nat), .member (.name x) .edge ∈ nodeClauses names path y i relations ↔
      x ∈ relationEdgeNames relations
  | [], _, _, _ => by simp [nodeClauses, relationEdgeNames]
  | (relation, p) :: rest, path, y, i => by
      have hp := member_edge_iff p (i :: path)
      have hrest := node_member_edge_iff rest path y (i + 1)
      have hrelated : .member (.name x) .edge ∉ related (i :: path) y (p.var (i :: path))
          relation.ofNode (p.isEdgeLike names) := by
        unfold related
        split <;> simp
      simp [nodeClauses, relationEdgeNames, hp, hrest, hrelated]

theorem edge_member_edge_iff : ∀ (relations : List (Relation × Pattern)) (path : Path) (y : Var)
    (i : Nat), .member (.name x) .edge ∈ edgeClauses names path y i relations ↔
      x ∈ relationEdgeNames relations
  | [], _, _, _ => by simp [edgeClauses, relationEdgeNames]
  | (relation, p) :: rest, path, y, i => by
      have hp := member_edge_iff p (i :: path)
      have hrest := edge_member_edge_iff rest path y (i + 1)
      simp [edgeClauses, relationEdgeNames, hp, hrest]

end

end Pattern

namespace Query

/-- Whether slots are constrained as a query says, when it is known what each slot is for. -/
structure LowersTo (types : List ItemType) (query : Query) (s : Slots) (tags : List Place) : Prop where
  length : tags.length = s.slots.size
  nodup : tags.Nodup
  fits : ∀ (i : Nat) (slot : Slot) (place : Place), s.slots[i]? = some slot →
    tags[i]? = some place → slot.Fits types tags (query.clauses.flatMap Clause.expand) place
  subjects : ∀ clause ∈ query.clauses.flatMap Clause.expand, clause.subject ∈ tags
  played : ∀ n e role, .plays n e role ∈ query.clauses.flatMap Clause.expand →
    .member n .node ∈ query.clauses.flatMap Clause.expand ∧
      .member e .edge ∈ query.clauses.flatMap Clause.expand
  settled : ∀ slot ∈ s.slots, slot.kind ≠ .unknown
  shape : s.shape = query.shape
  opened : ∀ v ∈ query.vars.values, .var v ∈ tags
  /-- The places recorded on a slot are those of the patterns that speak about its item. -/
  shown : ∀ (i : Nat) (slot : Slot) (place : Place), s.slots[i]? = some slot →
    tags[i]? = some place → slot.outputs = (query.vars.map Place.var).positionsOf place

/-- A clause that is said as it stands is said of the places if and only if it is of the variables. -/
theorem mem_expand {clauses : List (Clause Var)} {clause : Clause Var} {clause' : Clause Place}
    (hexpand : clause.expand = [clause']) :
    clause' ∈ clauses.flatMap Clause.expand ↔ clause ∈ clauses := by
  rw [List.mem_flatMap]
  constructor
  · rintro ⟨other, hother, hmem⟩
    have hsame : other = clause := by
      cases clause <;> cases hexpand <;> cases other <;>
        simp_all [Clause.expand, Clause.implied, Lowering.typedClauses]
    exact hsame ▸ hother
  · exact fun hmem => ⟨clause, hmem, hexpand ▸ List.mem_singleton_self clause'⟩

theorem mem_expand_member {clauses : List (Clause Var)} {v : Var} {kind : Kind} :
    .member (.var v) kind ∈ clauses.flatMap Clause.expand ↔ .member v kind ∈ clauses :=
  mem_expand rfl

theorem member_edge_iff_mem_edgeNames {names : List String} {items : List Pattern} {i : Nat}
    {x : String} : .member (.name x) .edge ∈ Lowering.patternClauses names items i ↔
      x ∈ items.flatMap Pattern.edgeNames := by
  induction items generalizing i with
  | nil => simp [Lowering.patternClauses]
  | cons p items ih =>
      have hp := Pattern.member_edge_iff names x p [i]
      have hrest := ih (i := i + 1)
      simp only [Lowering.patternClauses] at hrest ⊢
      rw [List.zipIdx_cons, List.flatMap_cons, List.mem_append, hp, hrest, List.flatMap_cons,
        List.mem_append]

/-- The patterns of a query, which are in its places. -/
theorem map_snd_places (query : Query) : (Layout.places query).map Prod.snd = query.values :=
  List.map_snd_zip query.fits.le

theorem zip_map_zipIdx {α β γ : Type} (f : β × Nat → γ) (as : List α) (bs : List β) (k : Nat) :
    as.zip ((bs.zipIdx k).map f) =
      ((as.zip bs).zipIdx k).map fun entry => (entry.1.1, f (entry.1.2, entry.2)) := by
  induction as generalizing bs k with
  | nil => rfl
  | cons a as ih =>
      cases bs with
      | nil => rfl
      | cons b bs => simp [List.zipIdx_cons, ih]

/-- The places of the patterns that speak about a variable. -/
theorem positionsOf_vars (query : Query) (place : Place) :
    (query.vars.map Place.var).positionsOf place =
      Lowering.shownAt (Layout.places query) 0 (some place) := by
  have hvalues : (query.vars.map Place.var).values =
      query.values.zipIdx.map fun entry => Place.var (entry.1.var [entry.2]) :=
    List.map_map
  have hplaces : (query.vars.map Place.var).places = (Layout.places query).zipIdx.map fun entry =>
      (entry.1.1, Place.var (entry.1.2.var [entry.2])) := by
    rw [Layout.places, hvalues, zip_map_zipIdx]
    rfl
  rw [Layout.positionsOf, hplaces, List.filter_map, List.map_map]
  refine congrArg (List.map _) (List.filter_congr fun entry _ => ?_)
  rw [Function.comp_apply, Bool.eq_iff_iff, beq_iff_eq, beq_iff_eq, Option.some.injEq]
  exact eq_comm

/-- A query that can be lowered has slots that are constrained as it says and named accordingly. -/
theorem lower_lowersTo_bears
    {types : List ItemType}
    {query : Query}
    {s : Slots}
    (hroot : (ItemType.root .edge).Mediates types)
    (hmediates : ∀ y t, .isA y t ∈ query.clauses → t.Mediates types)
    (h : query.lower = .ok s) :
    ∃ tags, query.LowersTo types s tags ∧ ∀ (i : Nat) (slot : Slot) (place : Place),
      s.slots[i]? = some slot → tags[i]? = some place → slot.Bears place := by
  unfold lower at h
  split at h
  · cases h
  · rename_i d hrun
    obtain rfl := (Except.ok.inj h).symm
    obtain ⟨⟨e, hpatterns, hresolve⟩, hsettled⟩ := Lowering.of_yields_all hrun
    have hvalues := map_snd_places query
    obtain ⟨ledger, hd, hclauses, hopened, hshown⟩ := Lowering.resolve_records hroot
      (by rw [hvalues]; exact hmediates) hpatterns hresolve
    rw [hvalues] at hclauses
    -- Only the kinds recorded in the end tell which names are those of edges.
    obtain ⟨names, hnames, hmem⟩ := hd.exists_agrees
    have hedge : ∀ x, .member (.var (.name x)) .edge ∈ ledger.clauses ↔ x ∈ query.edgeNames := by
      intro x
      rw [(hclauses names hnames).mem, mem_expand_member, member_edge_iff_mem_edgeNames, edgeNames]
    have hagrees : ledger.Agrees query.edgeNames := by
      intro x
      refine ⟨(hedge x).mp, fun hnode hx => ?_⟩
      cases hd.kind_unique hnode ((hedge x).mpr hx)
    have hsame := hclauses _ hagrees
    refine ⟨ledger.tags, ⟨hd.length, hd.nodup, fun i slot place hslot hplace => ?_, ?_, ?_, hsettled,
      rfl, fun v hv => ?_, fun i slot place hslot hplace => ?_⟩,
      fun i slot place hslot hplace => (hd.fits i slot place hslot hplace).2⟩
    · exact (hd.fits i slot place hslot hplace).1.congr hsame
    · exact fun clause hclause => hd.subjects clause ((hsame.mem clause).mpr hclause)
    · intro n e role hplays
      obtain ⟨hn, he⟩ := hd.played n e role ((hsame.mem _).mpr hplays)
      exact ⟨(hsame.mem _).mp hn, (hsame.mem _).mp he⟩
    · obtain ⟨⟨p, i⟩, hp, rfl⟩ := List.mem_map.mp hv
      rw [← hvalues, List.zipIdx_map, List.mem_map] at hp
      obtain ⟨⟨⟨position, p⟩, i⟩, hentry, hsame⟩ := hp
      obtain ⟨rfl, rfl⟩ := Prod.mk.inj hsame
      exact hopened _ hentry
    · rw [positionsOf_vars, ← hplace, ← hshown, Draft.shown_of_getElem? hslot]

/-- A query that can be lowered has slots that are constrained as it says. -/
theorem lower_lowersTo
    {types : List ItemType}
    {query : Query}
    {s : Slots}
    (hroot : (ItemType.root .edge).Mediates types)
    (hmediates : ∀ y t, .isA y t ∈ query.clauses → t.Mediates types)
    (h : query.lower = .ok s) :
    ∃ tags, query.LowersTo types s tags := by
  obtain ⟨tags, hlowers, -⟩ := lower_lowersTo_bears hroot hmediates h
  exact ⟨tags, hlowers⟩

end Query

end PatternGraph
