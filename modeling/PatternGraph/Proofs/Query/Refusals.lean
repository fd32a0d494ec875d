import PatternGraph.Proofs.Query.Failing
import PatternGraph.Proofs.Query.Language
import Std.Data.String.ToNat

/-!
# What a lowering refuses

Whatever a slot holds before the end of a lowering has been asked for by the query: the slot of a
name holds a kind, a type and an item that the query gives to that name.  So when a step finds that
it cannot change a slot, two things that the query asks for do not go together.  Both are said by
one contract, which every step meets and which the steps of a composed lowering pass on.  Edges with
too many ends are left aside here, because they are a matter of counting.
-/

namespace PatternGraph

namespace ItemId

theorem text_injective {a b : ItemId} (h : a.text = b.text) : a = b := by
  have hnumber : ∀ {head : String} {m n : Nat}, head ++ toString m = head ++ toString n → m = n :=
    fun heq => Nat.repr_injective ((String.append_right_inj _).mp heq)
  cases a with
  | node m =>
      cases b with
      | node n => exact congrArg _ (Ident.eq_of_number (hnumber h))
      | edge e =>
          have := congrArg (fun s : String => s.toList.head?) h
          simp [text, NodeId.text, EdgeId.text] at this
  | edge d =>
      cases b with
      | edge e => exact congrArg _ (Ident.eq_of_number (hnumber h))
      | node n =>
          have := congrArg (fun s : String => s.toList.head?) h
          simp [text, NodeId.text, EdgeId.text] at this

end ItemId

namespace Query

/-- Whether a query uses a name for an item of a kind. -/
def Uses (query : Query) (x : String) : Kind → Prop
  | .node => x ∈ query.nodeNames
  | .edge => x ∈ query.edgeNames

/-- Whether a query mentions an exact item. -/
def Mentions (query : Query) (item : Item) : Prop :=
  ∃ v, .same v item ∈ query.clauses

/-- What a query says of a name that it gives to items of a type. -/
structure Gives (query : Query) (type : ItemType) (x : String) : Prop where
  mem : x ∈ query.names
  uses : query.Uses x type.kind
  type : .isA (.name x) type ∈ query.clauses

/--
Whether the exact items that a query mentions are told apart by their identities, and the type of
each is one of its own descendants.
-/
structure Coherent (query : Query) : Prop where
  unique : ∀ a b, query.Mentions a → query.Mentions b → a.id = b.id → a = b
  refl : ∀ item, query.Mentions item → item.type.isA item.type = true

/-- Whether a pattern may stand where items of a kind are called for, unless the kinds are mixed up. -/
structure Expects (query : Query) (kind : Option Kind) (p : Pattern) : Prop where
  name : ∀ x, p = .reference x → ∀ k ∈ kind, query.Uses x k
  form : ∀ k, p.kind? = some k → ∀ wanted ∈ kind, wanted ≠ k → ¬query.Meets .kinds

/-- Whether a fault is about a condition that the query does not meet, or about a crowded edge. -/
def Deserves (query : Query) (fault : Fault) : Prop :=
  (∃ name, fault = .crowdedEdge name) ∨
    ∃ condition, fault.condition? = some condition ∧ ¬query.Meets condition

variable {query : Query} {x : String}

theorem not_meets_kinds {k k' : Kind} (h : query.Uses x k) (h' : query.Uses x k') (hne : k ≠ k') :
    ¬query.Meets .kinds := by
  rintro ⟨-, happart⟩
  cases k <;> cases k' <;> first | exact hne rfl | exact happart x ‹_› ‹_›

end Query

/-- Whether all that a slot holds has been asked for by a query. -/
inductive Slot.Backed (query : Query) (slot : Slot) : Prop
  | name (huser : IsUserName slot.name) (hmem : slot.name ∈ query.names)
      (hkind : ∀ k, slot.kind.itemKind = some k → query.Uses slot.name k)
      (htype : ∀ t, slot.type = some t → .isA (.name slot.name) t ∈ query.clauses)
      (hpinned : ∀ p, slot.pinned = some p → .same (.name slot.name) p ∈ query.clauses)
  | item (p : Item) (hname : slot.name = "@" ++ p.text) (hmentions : query.Mentions p)
      (hkind : slot.kind = .ofKind p.kind) (hpinned : slot.pinned = some p)
      (htype : slot.type = some p.type)
  | unnamed (hname : slot.name.toList.head? = some '#') (hkind : slot.kind ≠ .unknown)

/-- What backs a slot is what it holds, and not what it is linked with. -/
theorem Slot.Backed.congr
    {query : Query}
    {slot slot' : Slot}
    (h : slot.Backed query)
    (hname : slot'.name = slot.name)
    (hkind : slot'.kind = slot.kind)
    (hpinned : slot'.pinned = slot.pinned)
    (htype : slot'.type = slot.type) :
    slot'.Backed query := by
  cases h with
  | name huser hmem hkinds htypes hitems =>
      rw [← hname] at huser hmem hkinds htypes hitems
      exact .name huser hmem (hkind ▸ hkinds) (htype ▸ htypes) (hpinned ▸ hitems)
  | item p hnamed hmentions hkinds hitems htypes =>
      exact .item p (hname.trans hnamed) hmentions (hkind.trans hkinds) (hpinned.trans hitems)
        (htype.trans htypes)
  | unnamed hhash hknown => exact .unnamed (hname ▸ hhash) (hkind ▸ hknown)

/-- Whether all that the slots of a draft hold has been asked for by a query. -/
def Draft.Backed (query : Query) (d : Draft) : Prop :=
  ∀ (i : Nat) (slot : Slot), d.slots[i]? = some slot → slot.Backed query

namespace Lowering

variable {α β : Type} {query : Query} {d d' : Draft} {i : Nat} {slot : Slot} {x : String}
  {type : ItemType} {item : Item} {kind : Kind}

/-- Setting a slot to what has been asked for. -/
theorem Sets.backed (h : Sets d i slot d')
    (hd : ∀ j ≠ i, ∀ slot, d.slots[j]? = some slot → slot.Backed query)
    (hslot : slot.Backed query) :
    d'.Backed query := by
  intro j slot' hslot'
  rw [h j] at hslot'
  split at hslot'
  · exact Option.some.inj hslot' ▸ hslot
  · exact hd j ‹_› slot' hslot'

theorem backed_push (hd : d.Backed query) (hslot : slot.Backed query) :
    Draft.Backed query { d with slots := d.slots.push slot } := by
  intro j slot' hslot'
  rw [Array.getElem?_push] at hslot'
  split at hslot'
  · exact Option.some.inj hslot' ▸ hslot
  · exact hd j slot' hslot'

/--
Whether a lowering step, from a draft whose slots are backed by a query, keeps them so, and fails for
what the query asks for.
-/
def Backs (query : Query) (pre : Draft → Prop) (m : Lowering α) (post : α → Draft → Prop) : Prop :=
  ∀ d, d.Backed query → pre d →
    (∀ a d', Yields m d a d' → d'.Backed query ∧ post a d') ∧
      ∀ fault, Fails m d fault → query.Deserves fault

namespace Backs

variable {pre pre' : Draft → Prop} {mid post post' : α → Draft → Prop} {m : Lowering α}

theorem pure {a : α} : Backs query pre (pure a) fun b d => b = a ∧ pre d := by
  refine fun d hd hpre => ⟨fun b d' h => ?_, fun fault h => absurd h not_fails_pure⟩
  obtain ⟨rfl, rfl⟩ := yields_pure.mp h
  exact ⟨hd, rfl, hpre⟩

theorem bind {f : α → Lowering β} {last : β → Draft → Prop} (hm : Backs query pre m mid)
    (hf : ∀ a, Backs query (mid a) (f a) last) : Backs query pre (m >>= f) last := by
  refine fun d hd hpre => ⟨fun b d' h => ?_, fun fault h => ?_⟩
  · obtain ⟨a, e, hfirst, hrest⟩ := yields_bind.mp h
    obtain ⟨he, hmid⟩ := (hm d hd hpre).1 a e hfirst
    exact (hf a e he hmid).1 b d' hrest
  · rcases fails_bind.mp h with hfirst | ⟨a, e, hfirst, hrest⟩
    · exact (hm d hd hpre).2 fault hfirst
    · obtain ⟨he, hmid⟩ := (hm d hd hpre).1 a e hfirst
      exact (hf a e he hmid).2 fault hrest

theorem mono (hm : Backs query pre m post) (hpre : ∀ d, pre' d → pre d)
    (hpost : ∀ a d, post a d → post' a d) : Backs query pre' m post' := by
  refine fun d hd h => ⟨fun a d' hrun => ?_, (hm d hd (hpre d h)).2⟩
  obtain ⟨hd', hlast⟩ := (hm d hd (hpre d h)).1 a d' hrun
  exact ⟨hd', hpost a d' hlast⟩

end Backs

/-- A slot with the name of a user is backed by what the query says of that name. -/
theorem backed_of_user (h : slot.Backed query) (huser : IsUserName slot.name) :
    slot.name ∈ query.names ∧ (∀ k, slot.kind.itemKind = some k → query.Uses slot.name k) ∧
      (∀ t, slot.type = some t → .isA (.name slot.name) t ∈ query.clauses) ∧
      ∀ p, slot.pinned = some p → .same (.name slot.name) p ∈ query.clauses := by
  cases h with
  | name _ hmem hkind htype hpinned => exact ⟨hmem, hkind, htype, hpinned⟩
  | item p hname => exact absurd (by simp [hname]) huser.2.2
  | unnamed hname => exact absurd hname huser.2.1

/-- A slot that is marked as that of an exact item is backed by a mention of that item. -/
theorem backed_of_item
    (hunique : ∀ a b, query.Mentions a → query.Mentions b → a.id = b.id → a = b)
    (hitem : query.Mentions item)
    (h : slot.Backed query)
    (hname : slot.name = "@" ++ item.text) :
    slot.kind = .ofKind item.kind ∧ slot.pinned = some item ∧ slot.type = some item.type := by
  cases h with
  | name huser => exact absurd (by simp [hname]) huser.2.2
  | unnamed hhash => simp [hname] at hhash
  | item p hname' hmentions hkind hpinned htype =>
      have hid : p.id = item.id :=
        ItemId.text_injective ((String.append_right_inj "@").mp (hname'.symm.trans hname))
      obtain rfl := hunique p item hmentions hitem hid
      exact ⟨hkind, hpinned, htype⟩

theorem of_yields_checkName {u : Unit} (h : Yields (checkName x) d u d') :
    IsUserName x ∧ d' = d := by
  unfold checkName at h
  split at h
  · exact absurd h not_yields_throw
  · rename_i hblank
    split at h
    · exact absurd h not_yields_throw
    · rename_i hplain
      rw [not_or] at hplain
      exact ⟨⟨Bool.not_eq_true _ ▸ hblank, hplain⟩, (yields_pure.mp h).2.symm⟩

/-- A name is refused only if it is not fit to be a user's. -/
theorem deserves_checkName {fault : Fault} (hx : x ∈ query.names) (h : Fails (checkName x) d fault) :
    query.Deserves fault := by
  rcases of_fails_checkName h with ⟨hblank, rfl⟩ | ⟨hreserved, rfl⟩
  · refine Or.inr ⟨.names, rfl, fun hmeets => ?_⟩
    rw [(hmeets x hx).1] at hblank
    cases hblank
  · exact Or.inr ⟨.names, rfl, fun hmeets =>
      hreserved.elim (hmeets x hx).2.1 (hmeets x hx).2.2⟩

/-- The slot of a name. -/
def IsNamed (i : Nat) (x : String) (d : Draft) : Prop :=
  IsUserName x ∧ ∃ slot, d.slots[i]? = some slot ∧ slot.name = x

/-- A slot of a kind. -/
def HasKind (i : Nat) (kind : Kind) (d : Draft) : Prop :=
  ∃ slot, d.slots[i]? = some slot ∧ slot.kind = .ofKind kind

/-- Settling the kind of a name that is used for items of that kind. -/
theorem requireKind_backs (huses : query.Uses x kind) :
    Backs query (IsNamed i x) (requireKind i kind) fun _ d => IsNamed i x d ∧ HasKind i kind d := by
  rintro d hd ⟨huser, slot, hslot, rfl⟩
  obtain ⟨hmem, hkind, htype, hpinned⟩ := backed_of_user (hd i slot hslot) huser
  refine ⟨fun u d' h => ?_, fun fault h => ?_⟩
  · obtain ⟨-, hset⟩ := of_yields_requireKind hslot h
    refine ⟨hset.backed (fun j _ => hd j) (.name huser hmem (fun k hk => ?_) htype hpinned),
      ⟨huser, _, hset.self, rfl⟩, _, hset.self, rfl⟩
    obtain rfl : kind = k := Option.some.inj ((itemKind_ofKind kind).symm.trans hk)
    exact huses
  · obtain ⟨known, hknown, hne, rfl⟩ := of_fails_requireKind h
    rw [getD_slots hslot] at hknown
    exact Or.inr ⟨.kinds, rfl, Query.not_meets_kinds (hkind known hknown) huses hne⟩

/-- A slot that is opened for a name of the query is backed by the query. -/
theorem fresh_backed {kind : Option Kind} (huser : IsUserName x) (hx : x ∈ query.names)
    (huses : ∀ k ∈ kind, query.Uses x k) : (Slot.fresh x (.ofKind? kind) false).Backed query := by
  refine .name huser hx (fun k hk => ?_) (by simp [Slot.fresh]) (by simp [Slot.fresh])
  cases kind with
  | none => cases hk
  | some kind =>
      obtain rfl : kind = k := Option.some.inj ((itemKind_ofKind kind).symm.trans hk)
      exact huses kind rfl

/-- Coming across a name that the query uses for items of the kind that its mention tells. -/
theorem named_backs {kind : Option Kind} (hx : x ∈ query.names)
    (huses : ∀ k ∈ kind, query.Uses x k) :
    Backs query (fun _ => True) (named x kind) fun i d =>
      IsNamed i x d ∧ ∀ k ∈ kind, HasKind i k d := by
  refine fun d hd _ => ⟨fun i d' h => ?_, fun fault h => ?_⟩
  · simp only [named, yields_bind, yields_get] at h
    obtain ⟨_, e, hname, _, _, ⟨rfl, rfl⟩, h⟩ := h
    obtain ⟨huser, rfl⟩ := of_yields_checkName hname
    split at h
    · rw [yields_push] at h
      obtain ⟨rfl, rfl⟩ := h
      have hslot : (e.slots.push (.fresh x (.ofKind? kind) false))[e.slots.size]? =
          some (.fresh x (.ofKind? kind) false) := Array.getElem?_push_size
      refine ⟨backed_push hd (fresh_backed huser hx huses), ⟨huser, _, hslot, rfl⟩, ?_⟩
      rintro k rfl
      exact ⟨_, hslot, rfl⟩
    · rename_i j hj
      obtain ⟨slot, hslot, hname⟩ := exists_of_indexOf? hj
      cases kind with
      | none =>
          obtain ⟨rfl, rfl⟩ := yields_pure.mp h
          exact ⟨hd, ⟨huser, slot, hslot, hname⟩, fun k hk => by cases hk⟩
      | some kind =>
          simp only [yields_bind, yields_pure] at h
          obtain ⟨_, e', hkind, rfl, rfl⟩ := h
          obtain ⟨he', hnamed, hlast⟩ := (requireKind_backs (huses kind rfl) e hd
            ⟨huser, slot, hslot, hname⟩).1 _ _ hkind
          refine ⟨he', hnamed, ?_⟩
          rintro _ ⟨⟩
          exact hlast
  · simp only [named, fails_bind, yields_get] at h
    obtain h | ⟨_, e, hname, h | ⟨_, _, ⟨rfl, rfl⟩, h⟩⟩ := h
    · exact deserves_checkName hx h
    · exact absurd h not_fails_get
    · obtain ⟨huser, rfl⟩ := of_yields_checkName hname
      split at h
      · exact absurd h not_fails_push
      · rename_i j hj
        obtain ⟨slot, hslot, hname⟩ := exists_of_indexOf? hj
        cases kind with
        | none => exact absurd h not_fails_pure
        | some kind =>
            rcases fails_bind.mp h with h | ⟨_, _, -, h⟩
            · exact (requireKind_backs (huses kind rfl) e hd ⟨huser, slot, hslot, hname⟩).2 fault h
            · exact absurd h not_fails_pure

/-- Narrowing the type of a name to one that the query gives to it. -/
theorem narrow_backs (huses : query.Uses x type.kind) (htype : .isA (.name x) type ∈ query.clauses) :
    Backs query (IsNamed i x) (narrow i type) fun _ d => IsNamed i x d ∧ HasKind i type.kind d := by
  rintro d hd ⟨huser, slot, hslot, rfl⟩
  obtain ⟨hmem, hkind, hgiven, hpinned⟩ := backed_of_user (hd i slot hslot) huser
  refine ⟨fun u d' h => ?_, fun fault h => ?_⟩
  · obtain ⟨-, narrowed, hnarrowed, hset⟩ := of_yields_narrow hslot h
    refine ⟨hset.backed (fun j _ => hd j) (.name huser hmem (fun k hk => ?_) (fun t ht => ?_) hpinned),
      ⟨huser, _, hset.self, rfl⟩, _, hset.self, rfl⟩
    · obtain rfl : type.kind = k := Option.some.inj ((itemKind_ofKind _).symm.trans hk)
      exact huses
    · obtain rfl : narrowed = t := Option.some.inj ht
      rcases hnarrowed with hold | rfl
      · exact hgiven _ hold
      · exact htype
  · rcases of_fails_narrow hslot h with ⟨known, hknown, hne, rfl⟩ | ⟨existing, hold, hunrelated, rfl⟩
    · exact Or.inr ⟨.kinds, rfl, Query.not_meets_kinds (hkind known hknown) huses hne⟩
    · exact Or.inr ⟨.types, rfl, fun hmeets =>
        hunrelated (hmeets slot.name existing type (hgiven existing hold) htype)⟩

theorem kind_type (item : Item) : item.type.kind = item.kind := by
  cases item <;> rfl

/-- Binding a name to an exact item that the query gives to it. -/
theorem pin_backs
    (huses : query.Uses x item.kind)
    (htype : .isA (.name x) item.type ∈ query.clauses)
    (hsame : .same (.name x) item ∈ query.clauses) :
    Backs query (IsNamed i x) (pin i item) fun _ d => IsNamed i x d ∧ HasKind i item.kind d := by
  rintro d hd ⟨huser, slot, hslot, rfl⟩
  obtain ⟨hmem, hkind, hgiven, hpinned⟩ := backed_of_user (hd i slot hslot) huser
  have hbound : ∀ e, Sets d i { slot with pinned := some item } e →
      e.Backed query ∧ IsNamed i slot.name e := by
    refine fun e hset => ⟨hset.backed (fun j _ => hd j) (.name huser hmem hkind hgiven fun p hp => ?_),
      huser, _, hset.self, rfl⟩
    obtain rfl : item = p := Option.some.inj hp
    exact hsame
  have hnarrow := narrow_backs (i := i) (kind_type item ▸ huses) htype
  rw [kind_type] at hnarrow
  refine ⟨fun u d' h => ?_, fun fault h => ?_⟩
  · obtain ⟨-, e, rfl, hrest⟩ := of_yields_pin h
    have hset : Sets d i { slot with pinned := some item }
        { d with slots := d.slots.modify i fun slot => { slot with pinned := some item } } :=
      getElem?_modify hslot
    obtain ⟨he, hnamed⟩ := hbound _ hset
    exact (hnarrow _ he hnamed).1 u d' hrest
  · rcases of_fails_pin hslot h with ⟨p, hp, hne, rfl⟩ | ⟨-, e, hset, hrest⟩
    · exact Or.inr ⟨.instances, rfl, fun hmeets =>
        hne (hmeets slot.name p item (hpinned p hp) hsame)⟩
    · obtain ⟨he, hnamed⟩ := hbound e hset
      exact (hnarrow e he hnamed).2 fault hrest

/-- The slot of an unnamed pattern is opened and narrowed to one type. -/
theorem typed_none_backs (type : ItemType) :
    Backs query (fun _ => True) (typed type none) fun i d => HasKind i type.kind d := by
  refine fun d hd _ => ⟨fun i d' h => ?_, fun fault h => absurd h not_fails_typed_none⟩
  obtain ⟨rfl, e, k, narrowed, hslots, hset⟩ := of_yields_typed_none h
  refine ⟨hset.backed (fun j hj slot hslot => ?_)
    (.unnamed (by simp [Slot.fresh]) (ofKind_ne_unknown type.kind)), _, hset.self, rfl⟩
  rw [hslots, Array.getElem?_push, if_neg hj] at hslot
  exact hd j slot hslot

/-- Coming across any item of a type. -/
theorem typed_backs {name : Option String} (hname : ∀ x ∈ name, query.Gives type x) :
    Backs query (fun _ => True) (typed type name) fun i d => HasKind i type.kind d := by
  cases name with
  | none => exact typed_none_backs type
  | some x =>
      obtain ⟨hmem, huses, htype⟩ := hname x rfl
      have hnamed : Backs query (fun _ => True) (named x (some type.kind)) fun i d => IsNamed i x d :=
        (named_backs hmem fun k hk => Option.some.inj hk ▸ huses).mono (fun _ h => h) fun _ _ h => h.1
      refine hnamed.bind fun i => (narrow_backs huses htype).bind fun _ => ?_
      exact Backs.pure.mono (fun _ h => h) fun j d h => h.1 ▸ h.2.2

/-- The slot of an exact item without a name is bound to it, and to nothing else. -/
theorem pin_exact
    (hrefl : item.type.isA item.type = true)
    (hmentions : query.Mentions item)
    (hslot : d.slots[i]? = some slot)
    (hname : slot.name = "@" ++ item.text)
    (hkind : slot.kind = .ofKind item.kind)
    (hpinned : ∀ p, slot.pinned = some p → p = item)
    (htype : ∀ t, slot.type = some t → t = item.type) :
    (∀ u d', Yields (pin i item) d u d' →
      ∃ slot', Sets d i slot' d' ∧ slot'.Backed query ∧ slot'.kind = .ofKind item.kind) ∧
    ∀ fault, ¬Fails (pin i item) d fault := by
  refine ⟨fun u d' h => ?_, fun fault h => ?_⟩
  · obtain ⟨-, e, rfl, hrest⟩ := of_yields_pin h
    have hset : Sets d i { slot with pinned := some item }
        { d with slots := d.slots.modify i fun slot => { slot with pinned := some item } } :=
      getElem?_modify hslot
    obtain ⟨-, narrowed, hnarrowed, hlast⟩ := of_yields_narrow hset.self hrest
    rw [kind_type] at hlast
    obtain rfl : narrowed = item.type := hnarrowed.elim (htype narrowed) Eq.symm
    exact ⟨_, hset.trans hlast, .item item hname hmentions rfl rfl rfl, rfl⟩
  · rcases of_fails_pin hslot h with ⟨p, hp, hne, -⟩ | ⟨-, e, hset, hrest⟩
    · exact hne (congrArg Item.id (hpinned p hp))
    · refine not_fails_narrow hset.self (kind_type item ▸ hkind) (fun t ht => ?_) hrest
      rw [htype t ht]
      exact hrefl

/-- Binding the slot of an exact item that has been come across before. -/
theorem pin_found
    (hcoherent : query.Coherent)
    (hmentions : query.Mentions item)
    (hd : d.Backed query)
    (hi : d.indexOf? ("@" ++ item.text) = some i) :
    (∀ u d', Yields (pin i item) d u d' → d'.Backed query ∧ HasKind i item.kind d') ∧
      ∀ fault, ¬Fails (pin i item) d fault := by
  obtain ⟨slot, hslot, hname⟩ := exists_of_indexOf? hi
  obtain ⟨hkind, hbound, htype⟩ := backed_of_item hcoherent.unique hmentions (hd i slot hslot) hname
  obtain ⟨hyields, hfails⟩ := pin_exact (hcoherent.refl item hmentions) hmentions hslot hname hkind
    (fun p hp => Option.some.inj (hp.symm.trans hbound))
    (fun t ht => Option.some.inj (ht.symm.trans htype))
  refine ⟨fun u d' h => ?_, hfails⟩
  obtain ⟨slot', hset, hbacked, hlast⟩ := hyields u d' h
  exact ⟨hset.backed (fun j _ => hd j) hbacked, slot', hset.self, hlast⟩

/-- Binding the slot that is opened for an exact item. -/
theorem pin_opened
    (hcoherent : query.Coherent)
    (hmentions : query.Mentions item)
    (hd : d.Backed query) :
    let e := { d with slots := d.slots.push (.fresh ("@" ++ item.text) (.ofKind item.kind) true) }
    (∀ u d', Yields (pin d.slots.size item) e u d' →
      d'.Backed query ∧ HasKind d.slots.size item.kind d') ∧
        ∀ fault, ¬Fails (pin d.slots.size item) e fault := by
  intro e
  have hslot : e.slots[d.slots.size]? = some (.fresh ("@" ++ item.text) (.ofKind item.kind) true) :=
    Array.getElem?_push_size
  obtain ⟨hyields, hfails⟩ := pin_exact (hcoherent.refl item hmentions) hmentions hslot rfl rfl
    (by simp [Slot.fresh]) (by simp [Slot.fresh])
  refine ⟨fun u d' h => ?_, hfails⟩
  obtain ⟨slot', hset, hbacked, hlast⟩ := hyields u d' h
  refine ⟨hset.backed (fun j hj slot hslot => ?_) hbacked, slot', hset.self, hlast⟩
  rw [Array.getElem?_push, if_neg hj] at hslot
  exact hd j slot hslot

/-- Coming across an exact item without a name. -/
theorem pinned_none_backs (hcoherent : query.Coherent) (hmentions : query.Mentions item) :
    Backs query (fun _ => True) (pinned item none) fun i d => HasKind i item.kind d := by
  refine fun d hd _ => ⟨fun i d' h => ?_, fun fault h => ?_⟩
  · simp only [pinned, yields_bind, yields_get] at h
    obtain ⟨_, _, ⟨rfl, rfl⟩, h⟩ := h
    split at h
    · simp only [yields_bind, yields_pure] at h
      obtain ⟨_, _, ⟨rfl, rfl⟩, _, e, hrun, rfl, rfl⟩ := h
      exact (pin_found hcoherent hmentions hd ‹_›).1 _ _ hrun
    · simp only [yields_bind, yields_push, yields_pure] at h
      obtain ⟨_, _, ⟨rfl, rfl⟩, _, e, hrun, rfl, rfl⟩ := h
      exact (pin_opened hcoherent hmentions hd).1 _ _ hrun
  · simp only [pinned, fails_bind, yields_get] at h
    obtain h | ⟨_, _, ⟨rfl, rfl⟩, h⟩ := h
    · exact absurd h not_fails_get
    split at h
    · simp only [fails_bind, yields_pure] at h
      obtain h | ⟨_, _, ⟨rfl, rfl⟩, h | ⟨_, _, -, h⟩⟩ := h
      · exact absurd h not_fails_pure
      · exact absurd h ((pin_found hcoherent hmentions hd ‹_›).2 fault)
      · exact absurd h not_fails_pure
    · simp only [fails_bind, yields_push] at h
      obtain h | ⟨_, _, ⟨rfl, rfl⟩, h | ⟨_, _, -, h⟩⟩ := h
      · exact absurd h not_fails_push
      · exact absurd h ((pin_opened hcoherent hmentions hd).2 fault)
      · exact absurd h not_fails_pure

/-- Coming across an exact item. -/
theorem pinned_backs
    {name : Option String}
    (hcoherent : query.Coherent)
    (hmentions : query.Mentions item)
    (hname : ∀ x ∈ name, query.Gives item.type x ∧ .same (.name x) item ∈ query.clauses) :
    Backs query (fun _ => True) (pinned item name) fun i d => HasKind i item.kind d := by
  cases name with
  | none => exact pinned_none_backs hcoherent hmentions
  | some x =>
      obtain ⟨⟨hmem, huses, htype⟩, hsame⟩ := hname x rfl
      rw [kind_type] at huses
      have hnamed : Backs query (fun _ => True) (named x (some item.kind)) fun i d => IsNamed i x d :=
        (named_backs hmem fun k hk => Option.some.inj hk ▸ huses).mono (fun _ h => h) fun _ _ h => h.1
      refine hnamed.bind fun i => (pin_backs huses htype hsame).bind fun _ => ?_
      exact Backs.pure.mono (fun _ h => h) fun j d h => h.1 ▸ h.2.2

theorem excludeAll_backs {excluded : List ItemType} (hkind : ∀ t ∈ excluded, t.kind = kind) :
    Backs query (HasKind i kind) (excludeAll i excluded) fun _ _ => True := by
  induction excluded with
  | nil => exact Backs.pure.mono (fun _ h => h) fun _ _ _ => trivial
  | cons t excluded ih =>
      obtain rfl := hkind t List.mem_cons_self
      have hexclude : Backs query (HasKind i t.kind) (exclude i t) fun _ => HasKind i t.kind := by
        rintro d hd ⟨slot, hslot, hkind⟩
        refine ⟨fun u d' h => ?_, fun fault h => ?_⟩
        · obtain ⟨excluded', hset⟩ := of_yields_exclude hslot h
          exact ⟨hset.backed (fun j _ => hd j) ((hd i slot hslot).congr rfl hkind.symm rfl rfl),
            _, hset.self, rfl⟩
        · obtain ⟨known, hknown, hne⟩ := of_fails_exclude hslot h
          rw [hkind, itemKind_ofKind] at hknown
          exact absurd (Option.some.inj hknown).symm hne
      exact hexclude.bind fun _ => ih fun t' ht' => hkind t' (List.mem_cons_of_mem _ ht')

/-- Changing a slot in something that does not have to be asked for. -/
theorem backed_modify {f : Slot → Slot} (hd : d.Backed query)
    (hf : ∀ slot : Slot, slot.Backed query → (f slot).Backed query) (i : Nat) :
    Draft.Backed query { d with slots := d.slots.modify i f } := by
  intro k slot hslot
  rw [Array.getElem?_modify] at hslot
  split at hslot
  · obtain ⟨old, hold, rfl⟩ := Option.map_eq_some_iff.mp hslot
    exact hf old (hd k old hold)
  · exact hd k slot hslot

theorem link_backs (i j : Nat) (role : Role) :
    Backs query (fun _ => True) (link i j role) fun _ _ => True := by
  have hpartner : ∀ (i : Nat) (role : Role) (slot : Slot), slot.Backed query →
      (slot.withPartner role i).Backed query :=
    fun i role slot hslot => hslot.congr (by simp) (by simp) (by simp) (by simp)
  refine fun d hd _ => ⟨fun u d' h => ?_, fun fault h => ?_⟩
  · obtain ⟨rfl, -⟩ := of_yields_link h
    exact ⟨backed_modify (backed_modify hd (hpartner j role.opposite) i) (hpartner i role) j, trivial⟩
  · obtain ⟨-, _, -, -, hfault⟩ := of_fails_link h
    exact Or.inl ⟨_, hfault⟩

theorem companion_backs : Backs query (fun _ => True) companion fun _ _ => True :=
  (typed_none_backs (.root .edge)).mono (fun _ h => h) fun _ _ _ => trivial

/-- Relating a node slot to a slot of a known kind. -/
theorem connect_backs (i j : Nat) (role : Role) :
    Backs query (fun d => ∃ slot, d.slots[j]? = some slot ∧ slot.kind ≠ .unknown)
      (connect i j role) fun _ _ => True := by
  rintro d hd ⟨slot, hslot, hknown⟩
  refine ⟨fun u d' h => ?_, fun fault h => Or.inl (of_fails_connect h)⟩
  simp only [connect, yields_bind, yields_slotAt] at h
  obtain ⟨_, _, ⟨rfl, rfl⟩, h⟩ := h
  rw [getD_slots hslot] at h
  split at h
  · exact (link_backs i j role d hd trivial).1 u d' h
  · rename_i hedge
    obtain ⟨_, e, hkind, h⟩ := yields_bind.mp h
    have hnode : SlotKind.ofKind .node = slot.kind := by
      cases hcase : slot.kind with
      | node => rfl
      | edge => exact absurd hcase hedge
      | unknown => exact absurd hcase hknown
    obtain ⟨-, hset⟩ := of_yields_requireKind hslot hkind
    have he : e.Backed query :=
      hset.backed (fun j _ => hd j) ((hd j slot hslot).congr rfl hnode rfl rfl)
    have hrest : Backs query (fun _ => True) (do
        let edge ← companion
        link i edge role
        link j edge role.opposite) fun _ _ => True :=
      companion_backs.bind fun edge => (link_backs i edge role).bind fun _ => link_backs j edge _
    exact (hrest e he trivial).1 u d' h

theorem relateToName_backs (hx : x ∈ query.names) (i : Nat) (role : Role) :
    Backs query (fun _ => True) (relateToName i x role) fun _ _ => True := by
  have hnamed : Backs query (fun _ => True) (named x none) _ := named_backs hx nofun
  refine hnamed.bind fun j => ?_
  rintro d hd ⟨⟨-, slot, hslot, -⟩, -⟩
  refine ⟨fun u d' h => ?_, fun fault h => ?_⟩
  · simp only [yields_bind, yields_slotAt] at h
    obtain ⟨_, _, ⟨rfl, rfl⟩, h⟩ := h
    rw [getD_slots hslot] at h
    split at h
    · rw [yields_modify] at h
      subst h
      exact ⟨hd, trivial⟩
    · exact (connect_backs i j role d hd ⟨slot, hslot, ‹_›⟩).1 u d' h
  · obtain h | ⟨_, _, -, h⟩ := fails_bind.mp h
    · exact absurd h not_fails_slotAt
    · split at h
      · exact absurd h not_fails_modify
      · exact Or.inl (of_fails_connect h)

theorem checkKind_backs
    {expected : Option Kind}
    (hform : ∀ wanted ∈ expected, wanted ≠ kind → ¬query.Meets .kinds)
    (what : String) :
    Backs query (fun _ => True) (checkKind expected kind what) fun _ _ => True := by
  refine fun d hd _ => ⟨fun u d' h => ?_, fun fault h => ?_⟩
  · obtain ⟨rfl, -⟩ := of_yields_checkKind h
    exact ⟨hd, trivial⟩
  · obtain ⟨wanted, hwanted, hne, rfl⟩ := of_fails_checkKind h
    exact Or.inr ⟨.kinds, rfl, hform wanted hwanted hne⟩

/-- Relating a node slot to a pattern that is lowered as the query calls for. -/
theorem relateNode_backs
    {p : Pattern}
    {lower : Option Kind → Lowering Nat}
    (hname : ∀ x, p = .reference x → x ∈ query.names)
    (hlower : ∀ kind, query.Expects kind p → Backs query (fun _ => True) (lower kind) fun _ _ => True)
    (i : Nat)
    (role : Role) :
    Backs query (fun _ => True) (relateNode i role p lower) fun _ _ => True := by
  by_cases href : ∃ x, p = .reference x
  · obtain ⟨x, rfl⟩ := href
    exact relateToName_backs (hname x rfl) i role
  · have href : ∀ x, p ≠ .reference x := fun x hx => href ⟨x, hx⟩
    have hexpects : ∀ k, p.kind? = some k → query.Expects (some k) p := by
      intro k hk
      refine ⟨fun x hx => absurd hx (href x), fun k' hk' wanted hwanted hne => ?_⟩
      rw [Option.mem_some_iff.mp hwanted] at hk
      exact absurd (Option.some.inj (hk.symm.trans hk')) hne
    cases hp : p.isEdge with
    | true =>
        rw [relateNode_of_isEdge role lower hp]
        exact (hlower _ (hexpects .edge (Pattern.kind?_of_isEdge hp))).bind fun edge =>
          link_backs i edge role
    | false =>
        rw [relateNode_of_not_isEdge role lower hp href]
        exact companion_backs.bind fun edge => (link_backs i edge role).bind fun _ =>
          (hlower _ (hexpects .node (Pattern.kind?_of_not_isEdge hp href))).bind fun other =>
            link_backs other edge _

theorem nodeBase_backs
    {base : Base NodeType Node}
    {name : Option String}
    {path : Path}
    (hcoherent : query.Coherent)
    (hname : ∀ x ∈ name, x ∈ query.names ∧ query.Uses x .node)
    (hclauses : ∀ clause ∈ Pattern.nodeBase (base.var name path fun n => .node n.id) base,
      clause ∈ query.clauses) :
    Backs query (fun _ => True) (nodeBase base name) (HasKind · .node) := by
  cases base with
  | any type =>
      refine typed_backs fun x hx => ?_
      obtain rfl := Option.mem_def.mp hx
      exact ⟨(hname x rfl).1, (hname x rfl).2, hclauses _ (List.mem_cons_of_mem _ List.mem_cons_self)⟩
  | exactly n =>
      have hsame := hclauses _ (List.mem_cons_of_mem _ List.mem_cons_self)
      refine pinned_backs hcoherent ⟨_, hsame⟩ fun x hx => ?_
      obtain rfl := Option.mem_def.mp hx
      exact ⟨⟨(hname x rfl).1, (hname x rfl).2,
        hclauses _ (List.mem_cons_of_mem _ (List.mem_cons_of_mem _ List.mem_cons_self))⟩, hsame⟩

theorem edgeBase_backs
    {base : Base EdgeType Edge}
    {name : Option String}
    {path : Path}
    (hcoherent : query.Coherent)
    (hname : ∀ x ∈ name, x ∈ query.names ∧ query.Uses x .edge)
    (hclauses : ∀ clause ∈ Pattern.edgeBase (base.var name path fun e => .edge e.id) base,
      clause ∈ query.clauses) :
    Backs query (fun _ => True) (edgeBase base name) (HasKind · .edge) := by
  cases base with
  | any type =>
      refine typed_backs fun x hx => ?_
      obtain rfl := Option.mem_def.mp hx
      exact ⟨(hname x rfl).1, (hname x rfl).2, hclauses _ (List.mem_cons_of_mem _ List.mem_cons_self)⟩
  | exactly e =>
      have hsame := hclauses _ (List.mem_cons_of_mem _ List.mem_cons_self)
      refine pinned_backs hcoherent ⟨_, hsame⟩ fun x hx => ?_
      obtain rfl := Option.mem_def.mp hx
      exact ⟨⟨(hname x rfl).1, (hname x rfl).2,
        hclauses _ (List.mem_cons_of_mem _ (List.mem_cons_of_mem _ List.mem_cons_self))⟩, hsame⟩

/-- A fragment is lowered as the query calls for if its base and its relations are. -/
theorem fragment_backs
    {expected : Option Kind}
    {m : Lowering Nat}
    {g : Nat → Lowering Unit}
    {excluded : List ItemType}
    (hform : ∀ wanted ∈ expected, wanted ≠ kind → ¬query.Meets .kinds)
    (hm : Backs query (fun _ => True) m (HasKind · kind))
    (hexcluded : ∀ t ∈ excluded, t.kind = kind)
    (hg : ∀ i, Backs query (fun _ => True) (g i) fun _ _ => True) :
    Backs query (fun _ => True)
      (do checkKind expected kind "fragment"; let i ← m; excludeAll i excluded; g i; return i)
      fun _ _ => True :=
  (checkKind_backs hform _).bind fun _ => hm.bind fun i =>
    (excludeAll_backs hexcluded).bind fun _ => (hg i).bind fun _ =>
      Backs.pure.mono (fun _ h => h) fun _ _ _ => trivial

mutual

/-- Lowering a pattern of a query fails only for what the query asks for. -/
theorem pattern_backs (hcoherent : query.Coherent) : ∀ (p : Pattern) (path : Path) (expected : Option Kind),
    (∀ part ∈ p.parts path, part ∈ query.parts) → query.Expects expected p →
      Backs query (fun _ => True) (pattern expected p) fun _ _ => True
  | .nodeType type, path, expected, hparts, hexpects => by
      exact (checkKind_backs (hexpects.form .node rfl) _).bind fun _ =>
        (typed_none_backs _).mono (fun _ h => h) fun _ _ _ => trivial
  | .edgeType type, path, expected, hparts, hexpects => by
      exact (checkKind_backs (hexpects.form .edge rfl) _).bind fun _ =>
        (typed_none_backs _).mono (fun _ h => h) fun _ _ _ => trivial
  | .node n, path, expected, hparts, hexpects => by
      have hmentions : query.Mentions (.node n) := ⟨_, Query.mem_clauses_iff.mpr
        ⟨_, hparts _ (Pattern.mem_parts_self path _), List.mem_cons_of_mem _ List.mem_cons_self⟩⟩
      exact (checkKind_backs (hexpects.form .node rfl) _).bind fun _ =>
        (pinned_none_backs hcoherent hmentions).mono (fun _ h => h) fun _ _ _ => trivial
  | .edge e, path, expected, hparts, hexpects => by
      have hmentions : query.Mentions (.edge e) := ⟨_, Query.mem_clauses_iff.mpr
        ⟨_, hparts _ (Pattern.mem_parts_self path _), List.mem_cons_of_mem _ List.mem_cons_self⟩⟩
      exact (checkKind_backs (hexpects.form .edge rfl) _).bind fun _ =>
        (pinned_none_backs hcoherent hmentions).mono (fun _ h => h) fun _ _ _ => trivial
  | .reference name, path, expected, hparts, hexpects => by
      have hmem := Query.mem_names (hparts _ (Pattern.mem_parts_self path _)) rfl
      exact (named_backs hmem (hexpects.name name rfl)).mono (fun _ h => h) fun _ _ _ => trivial
  | .nodeFragment base name excluding relations, path, expected, hparts, hexpects => by
      have hself := hparts _ (Pattern.mem_parts_self path _)
      have hbase := nodeBase_backs hcoherent
        (fun x hx => ⟨Query.mem_names hself hx, Query.mem_nodeNames hself (Option.mem_toList.mpr hx)⟩)
        fun clause hclause => Query.mem_clauses_iff.mpr
          ⟨_, hself, List.mem_append_left _ (List.mem_append_left _ hclause)⟩
      exact fragment_backs (hexpects.form .node rfl) hbase (by simp [ItemType.kind])
        fun i => nodeRelations_backs hcoherent relations path 0 i fun part hpart =>
          hparts part (List.mem_cons_of_mem _ hpart)
  | .edgeFragment base name excluding relations, path, expected, hparts, hexpects => by
      have hself := hparts _ (Pattern.mem_parts_self path _)
      have hown : ∀ clause ∈ (Pattern.edgeFragment base name excluding relations).ownClauses
          query.edgeNames path, clause ∈ query.clauses :=
        fun clause hclause => Query.mem_clauses_iff.mpr ⟨_, hself, hclause⟩
      have hbase := edgeBase_backs hcoherent (fun x hx => ⟨Query.mem_names hself hx, by
          obtain rfl := Option.mem_def.mp hx
          refine Query.mem_edgeNames_iff.mpr (hown _ ?_)
          exact List.mem_append_left _ (List.mem_append_left _ (Pattern.member_edgeBase base))⟩)
        fun clause hclause => hown _ (List.mem_append_left _ (List.mem_append_left _ hclause))
      have hexpected : ∀ related ∈ relations, query.Expects (some .node) related.2 := by
        refine fun related hrelated => ⟨fun x hx k hk => ?_, fun k hk wanted hwanted hne hmeets => ?_⟩
        · obtain rfl := Option.mem_some_iff.mp hk
          exact Query.mem_nodeNames hself
            (List.mem_filterMap.mpr ⟨related, hrelated, Pattern.mem_reference?.mpr hx⟩)
        · obtain rfl := Option.mem_some_iff.mp hwanted
          have hedge : related.2.isEdge = true := by
            cases k with
            | node => exact absurd rfl hne
            | edge => exact Pattern.isEdge_of_kind? hk
          have hstray : related ∈ relations.filter fun related => related.2.isEdge :=
            List.mem_filter.mpr ⟨hrelated, hedge⟩
          have hnone : (relations.filter fun related => related.2.isEdge) = [] := hmeets.1 _ hself
          rw [hnone] at hstray
          exact List.not_mem_nil hstray
      exact fragment_backs (hexpects.form .edge rfl) hbase (by simp [ItemType.kind])
        fun i => edgeRelations_backs hcoherent relations path 0 i
          (fun part hpart => hparts part (List.mem_cons_of_mem _ hpart)) hexpected

theorem nodeRelations_backs (hcoherent : query.Coherent) :
    ∀ (relations : List (Relation × Pattern)) (path : Path) (k i : Nat),
    (∀ part ∈ Pattern.relationParts path k relations, part ∈ query.parts) →
      Backs query (fun _ => True) (nodeRelations i relations) fun _ _ => True
  | [], _, _, _, _ => Backs.pure.mono (fun _ h => h) fun _ _ _ => trivial
  | (relation, p) :: rest, path, k, i, hparts => by
      have hp := fun kind => pattern_backs hcoherent p (k :: path) kind fun part hpart =>
        hparts part (List.mem_append_left _ hpart)
      have hrest := nodeRelations_backs hcoherent rest path (k + 1) i fun part hpart =>
        hparts part (List.mem_append_right _ hpart)
      have hname : ∀ x, p = .reference x → x ∈ query.names := by
        rintro x rfl
        exact Query.mem_names (hparts _ (List.mem_append_left _ (Pattern.mem_parts_self _ _))) rfl
      exact (relateNode_backs hname hp i (nodeRole relation)).bind fun _ => hrest

theorem edgeRelations_backs (hcoherent : query.Coherent) :
    ∀ (relations : List (Relation × Pattern)) (path : Path) (k i : Nat),
    (∀ part ∈ Pattern.relationParts path k relations, part ∈ query.parts) →
      (∀ related ∈ relations, query.Expects (some .node) related.2) →
        Backs query (fun _ => True) (edgeRelations i relations) fun _ _ => True
  | [], _, _, _, _, _ => Backs.pure.mono (fun _ h => h) fun _ _ _ => trivial
  | (relation, p) :: rest, path, k, i, hparts, hexpects => by
      have hp := pattern_backs hcoherent p (k :: path) (some .node)
        (fun part hpart => hparts part (List.mem_append_left _ hpart))
        (hexpects _ List.mem_cons_self)
      have hrest := edgeRelations_backs hcoherent rest path (k + 1) i
        (fun part hpart => hparts part (List.mem_append_right _ hpart))
        fun related hrelated => hexpects related (List.mem_cons_of_mem _ hrelated)
      exact hp.bind fun node => (link_backs node i (edgeRole relation)).bind fun _ => hrest

end

/-- Recording where a slot is shown. -/
theorem showIn_backs (i : Nat) (position : Position) :
    Backs query (fun _ => True) (showIn i position) fun _ _ => True := by
  refine fun d hd _ => ⟨fun u d' h => ?_, fun fault h => absurd h not_fails_update⟩
  rw [showIn, yields_update] at h
  subst h
  refine ⟨backed_modify hd (fun slot hslot => ?_) i, trivial⟩
  exact hslot.congr rfl rfl rfl rfl

theorem patterns_backs
    (hcoherent : query.Coherent)
    (entries : List (Position × Pattern))
    (k : Nat)
    (hparts : ∀ entry ∈ (entries.map Prod.snd).zipIdx k, ∀ part ∈ entry.1.parts [entry.2],
      part ∈ query.parts) :
    Backs query (fun _ => True) (patterns entries) fun _ _ => True := by
  induction entries generalizing k with
  | nil => exact Backs.pure.mono (fun _ h => h) fun _ _ _ => trivial
  | cons entry entries ih =>
      rw [List.map_cons, List.zipIdx_cons, List.forall_mem_cons] at hparts
      exact (pattern_backs hcoherent entry.2 [k] none hparts.1 ⟨nofun, nofun⟩).bind fun i =>
        (showIn_backs i entry.1).bind fun _ => ih (k + 1) hparts.2

end Lowering

end PatternGraph
