import PatternGraph.Proofs.Query.Crowding
import PatternGraph.Proofs.Query.Refusals

/-!
# Which queries are accepted

A query can be lowered if and only if it meets the six conditions of the language, and each fault of
a lowering is about a condition that the query does not meet.
-/

namespace PatternGraph

namespace Lowering

variable {α β : Type} {d d' : Draft} {i : Nat} {x : String} {u : Unit}

/-- Whether a lowering step succeeds only if a name is fit to be a user's. -/
def Checks (x : String) (m : Lowering α) : Prop :=
  ∀ d a d', Yields m d a d' → IsUserName x

theorem Checks.bind {m : Lowering α} (h : Checks x m) (f : α → Lowering β) : Checks x (m >>= f) := by
  intro d b d' hrun
  obtain ⟨a, e, hfirst, -⟩ := yields_bind.mp hrun
  exact h d a e hfirst

theorem named_checks (x : String) (kind : Option Kind) : Checks x (named x kind) :=
  Checks.bind (fun _ _ _ h => (of_yields_checkName h).1) _

theorem nodeBase_checks (base : Base NodeType Node) (x : String) : Checks x (nodeBase base (some x)) := by
  cases base with
  | any type => exact (named_checks x _).bind _
  | exactly n => exact (named_checks x _).bind _

theorem edgeBase_checks (base : Base EdgeType Edge) (x : String) : Checks x (edgeBase base (some x)) := by
  cases base with
  | any type => exact (named_checks x _).bind _
  | exactly e => exact (named_checks x _).bind _

/-- Whether the name of a pattern is fit to be a user's, and it relates no edge to an edge. -/
def Clean (p : Pattern) : Prop :=
  (∀ x, p.name? = some x → IsUserName x) ∧ p.strayEdges = []

theorem clean_reference (h : IsUserName x) : Clean (.reference x) := by
  refine ⟨fun y hy => ?_, rfl⟩
  obtain rfl : x = y := Option.some.inj hy
  exact h

/-- A node is related to a name that has been checked, or to what has been lowered. -/
theorem relateNode_cases
    {p : Pattern}
    {role : Role}
    {lower : Option Kind → Lowering Nat}
    (h : Yields (relateNode i role p lower) d u d') :
    (∃ x, p = .reference x ∧ IsUserName x) ∨ ∃ kind e j e', Yields (lower kind) e j e' := by
  by_cases href : ∃ x, p = .reference x
  · obtain ⟨x, rfl⟩ := href
    exact Or.inl ⟨x, rfl, (named_checks x none).bind _ d u d' h⟩
  · have href : ∀ x, p ≠ .reference x := fun x hx => href ⟨x, hx⟩
    right
    cases hp : p.isEdge with
    | true =>
        rw [relateNode_of_isEdge role lower hp] at h
        obtain ⟨j, e, hlower, -⟩ := yields_bind.mp h
        exact ⟨_, _, _, _, hlower⟩
    | false =>
        rw [relateNode_of_not_isEdge role lower hp href] at h
        simp only [yields_bind] at h
        obtain ⟨_, _, -, _, _, -, j, e, hlower, -⟩ := h
        exact ⟨_, _, _, _, hlower⟩

/-- Where a node is called for no edge is accepted. -/
theorem ne_node_of_checkKind {expected : Option Kind} {what : String}
    (h : Yields (checkKind expected .edge what) d u d') : ∀ wanted ∈ expected, wanted ≠ .node := by
  intro wanted hwanted hnode
  have hedge := (of_yields_checkKind h).2 wanted hwanted
  rw [hnode] at hedge
  cases hedge

mutual

/-- Lowering a pattern checks all names in it, and that its edges are related to nodes. -/
theorem pattern_clean : ∀ (p : Pattern) (path : Path) (expected : Option Kind) (d : Draft) (i : Nat)
    (d' : Draft), Yields (pattern expected p) d i d' →
      (∀ part ∈ p.parts path, Clean part.2) ∧ ∀ wanted ∈ expected, wanted = .node → p.isEdge = false
  | .nodeType _, path, expected, d, i, d', h | .node _, path, expected, d, i, d', h => by
      refine ⟨fun part hpart => ?_, fun _ _ _ => rfl⟩
      obtain rfl := List.mem_singleton.mp hpart
      exact ⟨nofun, rfl⟩
  | .edgeType _, path, expected, d, i, d', h | .edge _, path, expected, d, i, d', h => by
      obtain ⟨_, e, hcheck, -⟩ := yields_bind.mp h
      refine ⟨fun part hpart => ?_, fun wanted hwanted hnode =>
        absurd hnode (ne_node_of_checkKind hcheck wanted hwanted)⟩
      obtain rfl := List.mem_singleton.mp hpart
      exact ⟨nofun, rfl⟩
  | .reference name, path, expected, d, i, d', h => by
      refine ⟨fun part hpart => ?_, fun _ _ _ => rfl⟩
      obtain rfl := List.mem_singleton.mp hpart
      exact clean_reference (named_checks name expected d i d' h)
  | .nodeFragment base name excluding relations, path, expected, d, i, d', h => by
      simp only [pattern, yields_bind] at h
      obtain ⟨_, _, -, j, _, hbase, _, _, -, _, _, hrelations, -⟩ := h
      refine ⟨fun part hpart => ?_, fun _ _ _ => rfl⟩
      rcases List.mem_cons.mp hpart with rfl | hpart
      · refine ⟨fun x hx => ?_, rfl⟩
        obtain rfl : name = some x := hx
        exact nodeBase_checks base x _ _ _ hbase
      · exact nodeRelations_clean relations path 0 j _ _ _ hrelations part hpart
  | .edgeFragment base name excluding relations, path, expected, d, i, d', h => by
      simp only [pattern, yields_bind] at h
      obtain ⟨_, _, hcheck, j, _, hbase, _, _, -, _, _, hrelations, -⟩ := h
      obtain ⟨hclean, hnodes⟩ := edgeRelations_clean relations path 0 j _ _ _ hrelations
      refine ⟨fun part hpart => ?_, fun wanted hwanted hnode =>
        absurd hnode (ne_node_of_checkKind hcheck wanted hwanted)⟩
      rcases List.mem_cons.mp hpart with rfl | hpart
      · refine ⟨fun x hx => ?_, List.filter_eq_nil_iff.mpr fun related hrelated => ?_⟩
        · obtain rfl : name = some x := hx
          exact edgeBase_checks base x _ _ _ hbase
        · rw [hnodes related hrelated]
          exact Bool.false_ne_true
      · exact hclean part hpart

theorem nodeRelations_clean : ∀ (relations : List (Relation × Pattern)) (path : Path) (k i : Nat)
    (d : Draft) (u : Unit) (d' : Draft), Yields (nodeRelations i relations) d u d' →
      ∀ part ∈ Pattern.relationParts path k relations, Clean part.2
  | [], _, _, _, _, _, _, _, _, hpart => absurd hpart List.not_mem_nil
  | (relation, p) :: rest, path, k, i, d, u, d', h, part, hpart => by
      obtain ⟨_, e, hfirst, hrest⟩ := yields_bind.mp h
      rcases List.mem_append.mp hpart with hpart | hpart
      · rcases relateNode_cases hfirst with ⟨x, rfl, hx⟩ | ⟨kind, _, _, _, hlower⟩
        · obtain rfl := List.mem_singleton.mp hpart
          exact clean_reference hx
        · exact (pattern_clean p (k :: path) kind _ _ _ hlower).1 part hpart
      · exact nodeRelations_clean rest path (k + 1) i e u d' hrest part hpart

theorem edgeRelations_clean : ∀ (relations : List (Relation × Pattern)) (path : Path) (k i : Nat)
    (d : Draft) (u : Unit) (d' : Draft), Yields (edgeRelations i relations) d u d' →
      (∀ part ∈ Pattern.relationParts path k relations, Clean part.2) ∧
        ∀ related ∈ relations, related.2.isEdge = false
  | [], _, _, _, _, _, _, _ => ⟨nofun, nofun⟩
  | (relation, p) :: rest, path, k, i, d, u, d', h => by
      simp only [edgeRelations, yields_bind] at h
      obtain ⟨node, e, hnode, _, e', -, hrest⟩ := h
      obtain ⟨hclean, hkind⟩ := pattern_clean p (k :: path) (some .node) d node e hnode
      obtain ⟨hcleanRest, hkinds⟩ := edgeRelations_clean rest path (k + 1) i e' u d' hrest
      refine ⟨fun part hpart => ?_, List.forall_mem_cons.mpr ⟨hkind _ rfl rfl, hkinds⟩⟩
      exact (List.mem_append.mp hpart).elim (hclean part) (hcleanRest part)

end

theorem patterns_clean
    {entries : List (Position × Pattern)}
    {k : Nat}
    {u : Unit}
    (h : Yields (patterns entries) d u d') :
    ∀ entry ∈ (entries.map Prod.snd).zipIdx k, ∀ part ∈ entry.1.parts [entry.2], Clean part.2 := by
  induction entries generalizing k d with
  | nil => exact nofun
  | cons entry entries ih =>
      simp only [patterns, yields_bind] at h
      obtain ⟨i, e, hfirst, _, _, -, hrest⟩ := h
      rw [List.map_cons, List.zipIdx_cons, List.forall_mem_cons]
      exact ⟨(pattern_clean entry.2 [k] none d i e hfirst).1, ih hrest⟩

variable {query : Query} {slot : Slot} {j : Nat} {role : Role} {fault : Fault}

/-- Whether a slot of unknown kind is that of a name that occurs in a query. -/
def Asked (query : Query) (slot : Slot) : Prop :=
  slot.kind = .unknown → IsUserName slot.name ∧ slot.name ∈ query.names

/-- Whether all slots of unknown kind are those of names that occur in a query. -/
def AllAsked (query : Query) (d : Draft) : Prop :=
  ∀ (i : Nat) (slot : Slot), d.slots[i]? = some slot → Asked query slot

theorem allAsked_of_backed (h : d.Backed query) : AllAsked query d := by
  intro i slot hslot hkind
  cases h i slot hslot with
  | name huser hmem => exact ⟨huser, hmem⟩
  | item p _ _ hknown =>
      rw [hkind] at hknown
      cases hcase : p.kind <;> simp [hcase, SlotKind.ofKind] at hknown
  | unnamed _ hknown => exact absurd hkind hknown

theorem Sets.allAsked
    (h : Sets d i slot d')
    (hd : ∀ j ≠ i, ∀ slot, d.slots[j]? = some slot → Asked query slot)
    (hslot : slot.kind ≠ .unknown) :
    AllAsked query d' := by
  intro j slot' hslot'
  rw [h j] at hslot'
  split at hslot'
  · exact Option.some.inj hslot' ▸ fun hkind => absurd hkind hslot
  · exact hd j ‹_› slot' hslot'

theorem link_allAsked (hd : AllAsked query d) (h : Yields (link i j role) d u d') :
    AllAsked query d' := by
  have hmodify : ∀ (d : Draft) (k l : Nat) (role : Role), AllAsked query d →
      AllAsked query { d with slots := d.slots.modify k (Slot.withPartner role l) } := by
    intro d k l role hd m slot hslot
    rw [Array.getElem?_modify] at hslot
    split at hslot
    · obtain ⟨old, hold, rfl⟩ := Option.map_eq_some_iff.mp hslot
      simpa [Asked] using hd m old hold
    · exact hd m slot hslot
  obtain ⟨rfl, -⟩ := of_yields_link h
  exact hmodify _ j i role (hmodify d i j role.opposite hd)

theorem requireKind_allAsked {kind : Kind} (hd : AllAsked query d)
    (h : Yields (requireKind j kind) d u d') : AllAsked query d' := by
  cases hslot : d.slots[j]? with
  | some slot =>
      obtain ⟨-, hset⟩ := of_yields_requireKind hslot h
      exact hset.allAsked (fun k _ => hd k) (ofKind_ne_unknown kind)
  | none =>
      simp only [requireKind, yields_bind, yields_slotAt] at h
      obtain ⟨_, _, ⟨rfl, rfl⟩, h⟩ := h
      split at h
      · rw [yields_update] at h
        subst h
        intro k slot hk
        rw [Array.getElem?_modify] at hk
        split at hk
        · rename_i hjk
          rw [← hjk, hslot] at hk
          cases hk
        · exact hd k slot hk
      · split at h
        · obtain ⟨-, rfl⟩ := yields_pure.mp h
          exact hd
        · exact absurd h not_yields_throw

/-- Relating a node to a name leaves only such slots with an unknown kind as have had none before. -/
theorem connect_allAsked (hd : AllAsked query d) (h : Yields (connect i j role) d u d') :
    AllAsked query d' := by
  simp only [connect, yields_bind, yields_slotAt] at h
  obtain ⟨_, _, ⟨rfl, rfl⟩, h⟩ := h
  split at h
  · exact link_allAsked hd h
  · simp only [yields_bind] at h
    obtain ⟨_, e, hkind, edge, e', hcompanion, _, e'', hlink, h⟩ := h
    have he := requireKind_allAsked hd hkind
    obtain ⟨rfl, opened, k, narrowed, hslots, hset'⟩ := of_yields_typed_none hcompanion
    have he' : AllAsked query e' := by
      refine hset'.allAsked (fun l hl slot hslot => ?_)
        (by simp [Slot.fresh, ItemType.root, ItemType.kind, SlotKind.ofKind])
      rw [hslots, Array.getElem?_push, if_neg hl] at hslot
      exact he l slot hslot
    exact link_allAsked (link_allAsked he' hlink) h

theorem resolve_allAsked {entries : List (Nat × Nat × Role)} (hd : AllAsked query d)
    (h : Yields (resolve entries) d u d') : AllAsked query d' := by
  induction entries generalizing d with
  | nil =>
      obtain ⟨-, rfl⟩ := yields_pure.mp h
      exact hd
  | cons entry entries ih =>
      obtain ⟨_, e, hfirst, hrest⟩ := yields_bind.mp h
      exact ih (connect_allAsked hd hfirst) hrest

end Lowering

/-- Whether a clause is about no exact item, and about no types but the roots. -/
def Clause.isPlain : Clause Var → Bool
  | isA _ type => decide (type ∈ [ItemType.root .node, .root .edge])
  | same .. => false
  | member .. | isNot .. | plays .. | joined .. => true

namespace Query

variable {query : Query} {v : Vocabulary} {types : List ItemType} {s : Slots} {tags : List Place}
  {x : String}

/-- A name is not said to be that of a node and that of an edge. -/
theorem LowersTo.kind_unique
    {k k' : Kind}
    (h : query.LowersTo types s tags)
    (hk : .member (.name x) k ∈ query.clauses)
    (hk' : .member (.name x) k' ∈ query.clauses) :
    k = k' := by
  obtain ⟨i, slot, -, -, hfits⟩ := h.slot_of_subject (mem_expand_member.mpr hk)
  have hkind := (hfits.kind k).mpr (mem_expand_member.mpr hk)
  have hkind' := (hfits.kind k').mpr (mem_expand_member.mpr hk')
  exact Option.some.inj (hkind.symm.trans hkind')

/-- The types of a name are ancestors of the type that its slot keeps. -/
theorem LowersTo.types_related
    {t u : ItemType}
    (hv : v.Holds types)
    (htypes : ∀ y t, .isA y t ∈ query.clauses → t ∈ types)
    (h : query.LowersTo types s tags)
    (ht : .isA (.name x) t ∈ query.clauses)
    (hu : .isA (.name x) u ∈ query.clauses) :
    t.isA u = true ∨ u.isA t = true := by
  obtain ⟨i, slot, -, -, hfits⟩ := h.slot_of_subject ((mem_expand rfl).mpr ht)
  cases hslot : slot.type with
  | none =>
      have hall := (hfits.type t (htypes _ t ht)).mp (by rw [hslot]; exact nofun)
      exact Or.inl (hall u ((mem_expand rfl).mpr hu))
  | some w =>
      have hw : w ∈ types := htypes _ w ((mem_expand rfl).mp (hfits.given w hslot))
      have hall := (hfits.type w hw).mp fun w' hw' => by
        rw [hslot, Option.some.injEq] at hw'
        exact hw' ▸ hv.declared.isA_refl hw
      exact hv.related hw (htypes _ t ht) (htypes _ u hu) (hall t ((mem_expand rfl).mpr ht))
        (hall u ((mem_expand rfl).mpr hu))

/-- A name has one exact item at most. -/
theorem LowersTo.instance_unique
    {a b : Item}
    (h : query.LowersTo types s tags)
    (ha : .same (.name x) a ∈ query.clauses)
    (hb : .same (.name x) b ∈ query.clauses) :
    a.id = b.id := by
  obtain ⟨i, slot, -, -, hfits⟩ := h.slot_of_subject ((mem_expand rfl).mpr ha)
  cases hslot : slot.pinned with
  | none =>
      have hall := (hfits.pinned b.id).mp (by rw [hslot]; exact nofun)
      exact hall a ((mem_expand rfl).mpr ha)
  | some p =>
      have hall := (hfits.pinned p.id).mp fun p' hp' => by
        rw [hslot, Option.some.injEq] at hp'
        exact hp' ▸ rfl
      exact (hall a ((mem_expand rfl).mpr ha)).trans (hall b ((mem_expand rfl).mpr hb)).symm

/-- An edge has no more ends than its slot lists. -/
theorem LowersTo.ends_le (h : query.LowersTo types s tags) (e : Var) :
    (Clause.players e .endpoint query.clauses).length ≤ 2 := by
  cases hplayers : Clause.players e .endpoint query.clauses with
  | nil => exact Nat.zero_le 2
  | cons n rest =>
      have hplays : .plays (.var n) (.var e) .endpoint ∈ query.clauses.flatMap Clause.expand := by
        have hn : n ∈ Clause.players e .endpoint query.clauses := hplayers ▸ List.mem_cons_self
        exact List.mem_flatMap.mpr ⟨_, Clause.mem_players.mp hn, List.mem_cons_self⟩
      obtain ⟨i, slot, -, -, hfits⟩ := h.slot_of_subject hplays
      have hedge := (hfits.kind .edge).mpr (h.played _ _ _ hplays).2
      have hkind : slot.kind ≠ .node := by
        intro hnode
        rw [hnode] at hedge
        cases hedge
      have hlength := (hfits.partners hkind .endpoint).length_eq
      rw [Clause.subject, Clause.players_expand_var, hplayers, List.length_map, List.length_map,
        List.length_map] at hlength
      exact hlength ▸ hfits.ends hkind

/-- A name that stands by itself at the top of a query is that of something. -/
theorem LowersTo.exists_member_of_topmost
    (h : query.LowersTo types s tags)
    (hx : .reference x ∈ query.values) :
    ∃ kind, .member (.name x) kind ∈ query.clauses := by
  have hvar : .name x ∈ query.vars.values := by
    obtain ⟨i, hi⟩ := List.mem_iff_getElem?.mp hx
    have hentry : (.reference x, i) ∈ query.values.zipIdx := by
      rw [List.mem_zipIdx_iff_getElem?]
      exact hi
    exact List.mem_map_of_mem hentry
  obtain ⟨i, htag⟩ := List.mem_iff_getElem?.mp (h.opened _ hvar)
  have hlt : i < s.slots.size := by
    rw [← h.length]
    exact (List.getElem?_eq_some_iff.mp htag).1
  have hslot : s.slots[i]? = some s.slots[i] := Array.getElem?_eq_getElem hlt
  have hfits := h.fits i _ _ hslot htag
  cases hkind : s.slots[i].kind.itemKind with
  | none =>
      have hsettled := h.settled _ (Array.mem_of_getElem? hslot)
      cases hcase : s.slots[i].kind with
      | unknown => exact absurd hcase hsettled
      | node => simp [hcase, SlotKind.itemKind] at hkind
      | edge => simp [hcase, SlotKind.itemKind] at hkind
  | some kind => exact ⟨kind, mem_expand_member.mp ((hfits.kind kind).mp hkind)⟩

/-- A query that can be lowered meets every condition. -/
theorem meets_of_lower
    (hv : v.Holds types)
    (htypes : ∀ y t, .isA y t ∈ query.clauses → t ∈ types)
    (h : query.lower = .ok s)
    (condition : Condition) :
    query.Meets condition := by
  obtain ⟨tags, hlowers⟩ := lower_lowersTo (hv.mediates (hv.root_mem .edge))
    (fun y t ht => hv.mediates (htypes y t ht)) h
  have hclean : ∀ part ∈ query.parts, Lowering.Clean part.2 := by
    unfold lower at h
    split at h
    · cases h
    · rename_i d hrun
      obtain ⟨⟨_, hpatterns, -⟩, -⟩ := Lowering.of_yields_all hrun
      intro part hpart
      obtain ⟨entry, hentry, hinside⟩ := List.mem_flatMap.mp hpart
      rw [← map_snd_places] at hentry
      exact Lowering.patterns_clean hpatterns entry hentry part hinside
  cases condition with
  | names =>
      intro x hx
      obtain ⟨part, hpart, hname⟩ := List.mem_filterMap.mp hx
      exact (hclean part hpart).1 x hname
  | kinds =>
      refine ⟨fun part hpart => (hclean part hpart).2, fun x hnode hedge => ?_⟩
      cases hlowers.kind_unique (member_node_of_mem_nodeNames hnode) (mem_edgeNames_iff.mp hedge)
  | types => exact fun x t u ht hu => hlowers.types_related hv htypes ht hu
  | instances => exact fun x a b ha hb => hlowers.instance_unique ha hb
  | ends => exact hlowers.ends_le
  | places =>
      intro x hx
      rcases placed_or_topmost hx with hplaced | htop
      · exact hplaced
      · obtain ⟨kind, hmember⟩ := hlowers.exists_member_of_topmost htop
        exact mem_placedNames_of_member hmember

/-- A slot whose kind nothing has told is that of a name that is not placed. -/
theorem not_meets_places
    {d d' : Draft}
    {u u' : Unit}
    {slot : Slot}
    (hroot : (ItemType.root .edge).Mediates types)
    (hmediates : ∀ y t, .isA y t ∈ query.clauses → t.Mediates types)
    (hpatterns : Lowering.Yields (Lowering.patterns (Layout.places query)) Draft.empty u d)
    (hbacked : d.Backed query)
    (hresolve : Lowering.Yields (Lowering.resolve d.deferred) d u' d')
    (hslot : slot ∈ d'.slots)
    (hunknown : slot.kind = .unknown) :
    ¬query.Meets .places := by
  obtain ⟨i, hi⟩ := Array.mem_iff_getElem?.mp hslot
  obtain ⟨huser, hname⟩ := Lowering.resolve_allAsked (Lowering.allAsked_of_backed hbacked)
    hresolve i slot hi hunknown
  obtain ⟨ledger, hd', hclauses, -⟩ := Lowering.resolve_records hroot
    (by rw [map_snd_places]; exact hmediates) hpatterns hresolve
  rw [map_snd_places] at hclauses
  obtain ⟨place, -, hfits, hbears⟩ := hd'.tag hi
  obtain rfl := hbears.eq_name huser.2.1 huser.2.2
  have hnone : ∀ kind, .member (.var (.name slot.name)) kind ∉ ledger.clauses := by
    intro kind hmember
    have hkind := (hfits.kind kind).mpr hmember
    rw [hunknown] at hkind
    cases hkind
  obtain ⟨names, hnames, hedges⟩ := hd'.exists_agrees
  intro hmeets
  obtain ⟨kind, hmember⟩ := exists_member_of_mem_placedNames (hmeets slot.name hname)
    fun hx => hnone .edge ((hedges slot.name).mp hx)
  exact hnone kind (((hclauses names hnames).mem _).mpr (mem_expand_member.mpr hmember))

/-- What makes a lowering fail is that the query does not meet a condition. -/
theorem not_meets_of_lower_error
    {fault : Fault}
    (hroot : (ItemType.root .edge).Mediates types)
    (hmediates : ∀ y t, .isA y t ∈ query.clauses → t.Mediates types)
    (hcoherent : query.Coherent)
    (h : query.lower = .error fault) :
    ∃ condition, ¬query.Meets condition ∧ fault.condition? = some condition := by
  have hfails : Lowering.Fails (Lowering.all (Layout.places query)) Draft.empty fault := by
    unfold lower at h
    split at h
    · rename_i hrun
      exact hrun.trans (congrArg Except.error (Except.error.inj h))
    · cases h
  have hcrowded : ∀ name, fault = .crowdedEdge name →
      ∃ condition, ¬query.Meets condition ∧ fault.condition? = some condition := by
    rintro name rfl
    have hcrowds := Lowering.all_crowds hroot (by rw [map_snd_places]; exact hmediates) hfails
    rw [map_snd_places] at hcrowds
    exact ⟨.ends, not_meets_ends hcrowds, rfl⟩
  have hbacks := Lowering.patterns_backs hcoherent (Layout.places query) 0
    (fun entry hentry part hpart =>
      List.mem_flatMap.mpr ⟨entry, map_snd_places query ▸ hentry, hpart⟩)
    Draft.empty (by simp [Draft.Backed, Draft.empty]) trivial
  rcases Lowering.fails_bind.mp hfails with hrun | ⟨_, d, hpatterns, hrest⟩
  · rcases hbacks.2 fault hrun with ⟨name, hname⟩ | ⟨condition, hcondition, hnot⟩
    · exact hcrowded name hname
    · exact ⟨condition, hnot, hcondition⟩
  obtain hget | ⟨_, _, hget, hrest⟩ := Lowering.fails_bind.mp hrest
  · exact absurd hget Lowering.not_fails_get
  obtain ⟨rfl, rfl⟩ := Lowering.yields_get.mp hget
  rcases Lowering.fails_bind.mp hrest with hrun | ⟨u, e, hresolve, hrest⟩
  · obtain ⟨name, hname⟩ := Lowering.of_fails_resolve hrun
    exact hcrowded name hname
  · obtain ⟨slot, hslot, hunknown, rfl⟩ := Lowering.of_fails_checkSettled hrest
    exact ⟨.places, not_meets_places hroot hmediates hpatterns (hbacks.1 _ d hpatterns).1 hresolve
      hslot hunknown, rfl⟩

theorem coherent_of_holds
    (hv : v.Holds types)
    (htypes : ∀ y t, .isA y t ∈ query.clauses → t ∈ types)
    (hitems : ∀ a b, query.Mentions a → query.Mentions b → a.id = b.id → a = b) :
    query.Coherent := by
  refine ⟨hitems, fun item hitem => hv.declared.isA_refl ?_⟩
  obtain ⟨y, hsame⟩ := hitem
  obtain ⟨part, hpart, hsame⟩ := mem_clauses_iff.mp hsame
  exact htypes y _ (mem_clauses_iff.mpr ⟨part, hpart, Pattern.isA_of_same hsame⟩)

/-- A query of declared types can be lowered if and only if it meets every condition. -/
theorem exists_lower_iff
    (hv : v.Holds types)
    (htypes : ∀ y t, .isA y t ∈ query.clauses → t ∈ types)
    (hitems : ∀ a b, query.Mentions a → query.Mentions b → a.id = b.id → a = b) :
    (∃ s, query.lower = .ok s) ↔ ∀ condition, query.Meets condition := by
  constructor
  · rintro ⟨s, hs⟩
    exact meets_of_lower hv htypes hs
  · intro hmeets
    cases h : query.lower with
    | ok s => exact ⟨s, rfl⟩
    | error fault =>
        obtain ⟨condition, hnot, -⟩ := not_meets_of_lower_error (hv.mediates (hv.root_mem .edge))
          (fun y t ht => hv.mediates (htypes y t ht)) (coherent_of_holds hv htypes hitems) h
        exact absurd (hmeets condition) hnot

/-- A query with plain clauses asks for the root types only. -/
theorem types_of_plain (h : query.clauses.all Clause.isPlain = true) :
    ∀ y t, .isA y t ∈ query.clauses → t ∈ [ItemType.root .node, .root .edge] :=
  fun _ _ ht => of_decide_eq_true (List.all_eq_true.mp h _ ht)

/-- A query with plain clauses mentions no exact items. -/
theorem items_of_plain (h : query.clauses.all Clause.isPlain = true) :
    ∀ a b, query.Mentions a → query.Mentions b → a.id = b.id → a = b :=
  fun _ _ ⟨_, ha⟩ => absurd (List.all_eq_true.mp h _ ha) Bool.false_ne_true

end Query

end PatternGraph
