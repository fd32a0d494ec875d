import PatternGraph.Proofs.Query.Ledger

/-!
# What the steps of a lowering record

For each step of a lowering that succeeds, the ledger that the draft records afterwards: which
slots have been opened, and what has been said about which slot.
-/

namespace PatternGraph.Lowering

variable {α β : Type} {d d' : Draft}

/-- Whether a lowering step succeeds on a draft, gives a value and leaves another draft. -/
def Yields (m : Lowering α) (d : Draft) (a : α) (d' : Draft) : Prop :=
  m.run d = .ok (a, d')

theorem yields_pure {a b : α} : Yields (pure a) d b d' ↔ a = b ∧ d = d' := by
  rw [Yields, StateT.run_pure]
  simp [pure, Except.pure]

theorem yields_bind {m : Lowering α} {f : α → Lowering β} {b : β} :
    Yields (m >>= f) d b d' ↔ ∃ a e, Yields m d a e ∧ Yields (f a) e b d' := by
  simp only [Yields, StateT.run_bind]
  cases m.run d with
  | error fault => simp [bind, Except.bind]
  | ok r =>
      obtain ⟨a, e⟩ := r
      constructor
      · exact fun h => ⟨a, e, rfl, h⟩
      · rintro ⟨a', e', heq, h⟩
        cases heq
        exact h

theorem yields_get {e : Draft} : Yields get d e d' ↔ d = e ∧ d = d' := by
  simp [Yields, pure, Except.pure]

theorem yields_modify {f : Draft → Draft} {u : Unit} : Yields (modify f) d u d' ↔ f d = d' := by
  simp [Yields, pure, Except.pure]

theorem yields_modifyGet {f : Draft → α × Draft} {a : α} :
    Yields (modifyGet f) d a d' ↔ f d = (a, d') := by
  simp [Yields, pure, Except.pure, Prod.ext_iff]

theorem not_yields_throw {fault : Fault} {a : α} : ¬Yields (throw fault) d a d' := by
  simp [Yields, throw, throwThe, MonadExceptOf.throw, StateT.lift, StateT.run, bind, Except.bind]

theorem yields_slotAt {i : Nat} {slot : Slot} :
    Yields (slotAt i) d slot d' ↔ d.slots.getD i default = slot ∧ d = d' := by
  simp only [slotAt, yields_bind, yields_get, yields_pure]
  constructor
  · rintro ⟨_, _, ⟨rfl, rfl⟩, h⟩
    exact h
  · exact fun h => ⟨d, d, ⟨rfl, rfl⟩, h⟩

theorem yields_update {i : Nat} {f : Slot → Slot} {u : Unit} :
    Yields (update i f) d u d' ↔ { d with slots := d.slots.modify i f } = d' :=
  yields_modify

theorem yields_push {slot : Slot} {i : Nat} :
    Yields (push slot) d i d' ↔
      d.slots.size = i ∧ { d with slots := d.slots.push slot } = d' := by
  rw [push, yields_modifyGet, Prod.mk.injEq]

/-- The slot at an index that is in use. -/
theorem getD_slots {i : Nat} {slot : Slot} (h : d.slots[i]? = some slot) :
    d.slots.getD i default = slot := by
  simp [h]

end PatternGraph.Lowering

namespace PatternGraph.Slot

/-- Lists a further slot in a role. -/
def withPartner (role : Role) (i : Nat) (slot : Slot) : Slot :=
  match role with
  | .source => { slot with sources := slot.sources ++ [i] }
  | .target => { slot with targets := slot.targets ++ [i] }
  | .endpoint => { slot with ends := slot.ends ++ [i] }

variable (role role' : Role) (i : Nat) (slot : Slot)

@[simp]
theorem name_withPartner : (slot.withPartner role i).name = slot.name := by
  cases role <;> rfl

@[simp]
theorem kind_withPartner : (slot.withPartner role i).kind = slot.kind := by
  cases role <;> rfl

@[simp]
theorem pinned_withPartner : (slot.withPartner role i).pinned = slot.pinned := by
  cases role <;> rfl

@[simp]
theorem type_withPartner : (slot.withPartner role i).type = slot.type := by
  cases role <;> rfl

@[simp]
theorem excluded_withPartner : (slot.withPartner role i).excluded = slot.excluded := by
  cases role <;> rfl

theorem partners_withPartner :
    (slot.withPartner role i).partners role' =
      slot.partners role' ++ if role = role' then [i] else [] := by
  cases role <;> cases role' <;> simp [withPartner, partners]

end PatternGraph.Slot

namespace PatternGraph.Slot.Fits

variable {types : List ItemType} {tags : List Place} {clauses : List (Clause Place)}
  {place : Place} {slot : Slot} {kind : Kind} {type : ItemType} {item : Item}

/-- A slot that nothing has been said about. -/
theorem fresh (hnone : ∀ clause ∈ clauses, clause.subject ≠ place) (name : String)
    (anonymous : Bool) : (Slot.fresh name .unknown anonymous).Fits types tags clauses place := by
  have hnot : ∀ clause : Clause Place, clause.subject = place → clause ∉ clauses :=
    fun clause hsubject hclause => hnone clause hclause hsubject
  constructor
  · intro kind
    simp [Slot.fresh, SlotKind.itemKind, hnot (.member place kind) rfl]
  · intro id
    simp [Slot.fresh, hnot (.same place _) rfl]
  · intro t _
    simp [Slot.fresh, hnot (.isA place _) rfl]
  · simp [Slot.fresh]
  · simp [Slot.fresh]
  · intro t
    simp [Slot.fresh, hnot (.isNot place t) rfl]
  · intro _ role
    rw [Clause.players_eq_nil hnone]
    cases role <;> exact List.Perm.nil
  · simp [Slot.fresh]

/-- Clauses that are not about players leave the partners of a slot as they are. -/
theorem partners_append
    {slot' : Slot}
    {new : List (Clause Place)}
    (h : slot.Fits types tags clauses place)
    (hkind : slot.kind ≠ .node)
    (hsame : slot'.partners = slot.partners)
    (hnew : ∀ n e role, .plays n e role ∉ new)
    (role : Role) :
    ((slot'.partners role).map fun i => tags[i]?).Perm
      ((Clause.players place role (clauses ++ new)).map some) := by
  rw [hsame, Clause.players_append, Clause.Same.players_eq_nil_of_not_plays hnew, List.append_nil]
  exact h.partners hkind role

/-- Settling the kind of a slot whose kind is not types. -/
theorem settle (h : slot.Fits types tags clauses place) (hunknown : slot.kind.itemKind = none) :
    ({ slot with kind := .ofKind kind } : Slot).Fits types tags
      (clauses ++ [.member place kind]) place := by
  have hnone : ∀ k, .member place k ∉ clauses := by
    intro k hk
    rw [← h.kind, hunknown] at hk
    cases hk
  have hkind : slot.kind ≠ .node := by
    intro hnode
    rw [hnode] at hunknown
    cases hunknown
  constructor
  · intro k
    cases kind <;> simp [SlotKind.ofKind, SlotKind.itemKind, hnone, eq_comm]
  · intro id
    simpa using h.pinned id
  · intro t ht
    simpa using h.type t ht
  · exact h.mediates
  · exact fun u hu => List.mem_append_left _ (h.given u hu)
  · intro t
    simpa using h.excluded t
  · exact fun _ => h.partners_append hkind (funext fun role => by cases role <;> rfl) (by simp)
  · exact fun _ => h.ends hkind

/-- Saying again what kind a slot has. -/
theorem sameKind (h : slot.Fits types tags clauses place)
    (hkind : slot.kind.itemKind = some kind) :
    slot.Fits types tags (clauses ++ [.member place kind]) place := by
  have hold : .member place kind ∈ clauses := (h.kind kind).mp hkind
  constructor
  · intro k
    rw [h.kind, List.mem_append, List.mem_singleton, Clause.member.injEq]
    constructor
    · exact Or.inl
    · rintro (hk | ⟨-, rfl⟩)
      · exact hk
      · exact hold
  · intro id
    simpa using h.pinned id
  · intro t ht
    simpa using h.type t ht
  · exact h.mediates
  · exact fun u hu => List.mem_append_left _ (h.given u hu)
  · intro t
    simpa using h.excluded t
  · exact fun hnode => h.partners_append hnode rfl (by simp)
  · exact h.ends

/-- Narrowing a type, where being a subtype is transitive. -/
theorem narrow
    {narrowed : ItemType}
    (h : slot.Fits types tags clauses place)
    (hknown : narrowed.Mediates types)
    (hgiven : slot.type = some narrowed ∨ narrowed = type)
    (hnarrowed : ∀ t ∈ types, (t.isA narrowed = true ↔
      (∀ u, slot.type = some u → t.isA u = true) ∧ t.isA type = true)) :
    ({ slot with type := some narrowed } : Slot).Fits types tags
      (clauses ++ [.isA place type]) place := by
  constructor
  · intro k
    simpa using h.kind k
  · intro id
    simpa using h.pinned id
  · intro t ht
    have hold := h.type t ht
    simp only [Option.some.injEq, List.mem_append, List.mem_singleton, Clause.isA.injEq, true_and]
    rw [forall_eq', hnarrowed t ht, hold]
    constructor
    · rintro ⟨hall, hlast⟩ u (hu | rfl)
      · exact hall u hu
      · exact hlast
    · exact fun hall => ⟨fun u hu => hall u (Or.inl hu), hall type (Or.inr rfl)⟩
  · intro u hu
    obtain rfl : narrowed = u := by simpa using hu
    exact hknown
  · intro u hu
    obtain rfl : narrowed = u := by simpa using hu
    rcases hgiven with hold | rfl
    · exact List.mem_append_left _ (h.given _ hold)
    · exact List.mem_append_right _ List.mem_cons_self
  · intro t
    simpa using h.excluded t
  · exact fun hnode => h.partners_append hnode (funext fun role => by cases role <;> rfl) (by simp)
  · exact h.ends

/-- Excluding a type. -/
theorem exclude (h : slot.Fits types tags clauses place) :
    (if slot.excluded.contains type then slot
      else { slot with excluded := slot.excluded ++ [type] }).Fits types tags
        (clauses ++ [.isNot place type]) place := by
  split
  · rename_i hmem
    constructor
    · intro k
      simpa using h.kind k
    · intro id
      simpa using h.pinned id
    · intro t ht
      simpa using h.type t ht
    · exact h.mediates
    · exact fun u hu => List.mem_append_left _ (h.given u hu)
    · intro t
      rw [h.excluded, List.mem_append, List.mem_singleton, Clause.isNot.injEq]
      constructor
      · exact Or.inl
      · rintro (ht | ⟨-, rfl⟩)
        · exact ht
        · exact (h.excluded t).mp (by simpa using hmem)
    · exact fun hnode => h.partners_append hnode rfl (by simp)
    · exact h.ends
  · constructor
    · intro k
      simpa using h.kind k
    · intro id
      simpa using h.pinned id
    · intro t ht
      simpa using h.type t ht
    · exact h.mediates
    · exact fun u hu => List.mem_append_left _ (h.given u hu)
    · intro t
      simp [h.excluded]
    · exact fun hnode =>
        h.partners_append hnode (funext fun role => by cases role <;> rfl) (by simp)
    · exact h.ends

/-- Binding a slot to an exact item, which is the only one that it may be bound to. -/
theorem pin
    (h : slot.Fits types tags clauses place)
    (hsame : ∀ p, slot.pinned = some p → p.id = item.id) :
    ({ slot with pinned := some item } : Slot).Fits types tags
      (clauses ++ [.same place item]) place := by
  constructor
  · intro k
    simpa using h.kind k
  · intro id
    have hold := (h.pinned item.id).mp hsame
    simp only [Option.some.injEq, forall_eq', List.mem_append, List.mem_singleton,
      Clause.same.injEq, true_and]
    constructor
    · rintro rfl i (hi | rfl)
      · exact hold i hi
      · rfl
    · exact fun hall => hall item (Or.inr rfl)
  · intro t ht
    simpa using h.type t ht
  · exact h.mediates
  · exact fun u hu => List.mem_append_left _ (h.given u hu)
  · intro t
    simpa using h.excluded t
  · exact fun hnode => h.partners_append hnode (funext fun role => by cases role <;> rfl) (by simp)
  · exact h.ends

/-- What a node slot lists is not looked at. -/
theorem withPartner_node
    (h : slot.Fits types tags clauses place)
    (hkind : slot.kind = .node)
    (role : Role)
    (i : Nat) :
    (slot.withPartner role i).Fits types tags clauses place := by
  refine ⟨?_, ?_, ?_, ?_, ?_, ?_, fun hnode => ?_, fun hnode => ?_⟩
  · simpa using h.kind
  · simpa using h.pinned
  · simpa using h.type
  · simpa using h.mediates
  · simpa using h.given
  · simpa using h.excluded
  · exact absurd hkind (by simpa using hnode)
  · exact absurd hkind (by simpa using hnode)

/-- Listing a node on the slot of an edge on which it plays a role. -/
theorem withPartner
    {role : Role}
    {i : Nat}
    {n : Place}
    (h : slot.Fits types tags clauses place)
    (hi : tags[i]? = some n)
    (hends : (slot.withPartner role i).ends.length ≤ maxEdgeEnds) :
    (slot.withPartner role i).Fits types tags (clauses ++ [.plays n place role]) place := by
  refine ⟨?_, ?_, ?_, ?_, ?_, ?_, fun hnode role' => ?_, fun _ => hends⟩
  · simpa using h.kind
  · simpa using h.pinned
  · simpa using h.type
  · simpa using h.mediates
  · simpa using h.given
  · simpa using h.excluded
  · rw [kind_withPartner] at hnode
    have hold := h.partners hnode role'
    rw [partners_withPartner, Clause.players_append, List.map_append, List.map_append]
    refine hold.append ?_
    by_cases hrole : role = role'
    · simp [Clause.players, hrole, hi]
    · simp [Clause.players, hrole]

end PatternGraph.Slot.Fits

namespace PatternGraph.Lowering

variable {types : List ItemType} {d d' : Draft} {ledger : Ledger} {i : Nat}
  {place : Place} {kind : Kind} {type : ItemType} {item : Item} {u : Unit}

theorem getElem?_modify {slot : Slot} {f : Slot → Slot} (hslot : d.slots[i]? = some slot) (j : Nat) :
    (d.slots.modify i f)[j]? = if j = i then some (f slot) else d.slots[j]? := by
  rw [Array.getElem?_modify]
  by_cases hj : j = i
  · subst hj
    simp [hslot]
  · simp [hj, Ne.symm hj]

/-- Changing one slot according to what is said about it. -/
theorem update_records
    {new : List (Clause Place)}
    {slot : Slot}
    {f : Slot → Slot}
    (h : d.Records types ledger)
    (hi : ledger.tags[i]? = some place)
    (hslot : d.slots[i]? = some slot)
    (hsubject : ∀ clause ∈ new, clause.subject = place)
    (hplayed : ∀ n e role, .plays n e role ∉ new)
    (hfits : (f slot).Fits types ledger.tags (ledger.clauses ++ new) place)
    (hbears : (f slot).Bears place) :
    ({ d with slots := d.slots.modify i f } : Draft).Records types (ledger.add new) :=
  h.change hi (by simp) (getElem?_modify hslot) rfl hsubject
    (fun n e role hplays => absurd hplays (hplayed n e role)) hfits hbears

theorem requireKind_records
    (h : d.Records types ledger)
    (hi : ledger.tags[i]? = some place)
    (hrun : Yields (requireKind i kind) d u d') :
    d'.Records types (ledger.add [.member place kind]) := by
  obtain ⟨slot, hslot, hfits, hbears⟩ := h.slot hi
  simp only [requireKind, yields_bind, yields_slotAt] at hrun
  obtain ⟨_, _, ⟨rfl, rfl⟩, hrun⟩ := hrun
  rw [getD_slots hslot] at hrun
  split at hrun
  · rename_i hunknown
    rw [yields_update] at hrun
    subst hrun
    refine update_records h hi hslot (by simp [Clause.subject]) (by simp)
      (hfits.settle hunknown) (hbears.congr rfl rfl)
  · rename_i known hknown
    split at hrun
    · rename_i hsame
      subst hsame
      obtain ⟨-, rfl⟩ := yields_pure.mp hrun
      refine h.change hi rfl (fun j => ?_) rfl (by simp [Clause.subject]) (by simp)
        (hfits.sameKind hknown) hbears
      split
      · rename_i hj
        rw [hj, hslot]
      · rfl
    · exact absurd hrun not_yields_throw

/-- The more specific of two related types stands for both. -/
theorem isA_narrowest
    {existing narrowed : ItemType}
    (hexisting : existing.Mediates types)
    (htype : type.Mediates types)
    (hnarrowed : existing.narrowest type = some narrowed) :
    narrowed.Mediates types ∧ (existing = narrowed ∨ narrowed = type) ∧ ∀ t ∈ types,
      (t.isA narrowed = true ↔ t.isA existing = true ∧ t.isA type = true) := by
  unfold ItemType.narrowest at hnarrowed
  split at hnarrowed
  · rename_i hsub
    obtain rfl : existing = narrowed := by simpa using hnarrowed
    exact ⟨hexisting, Or.inl rfl, fun t ht => ⟨fun h => ⟨h, hexisting t ht type h hsub⟩, fun h => h.1⟩⟩
  · split at hnarrowed
    · rename_i hsub
      obtain rfl : type = narrowed := by simpa using hnarrowed
      exact ⟨htype, Or.inr rfl, fun t ht => ⟨fun h => ⟨htype t ht existing h hsub, h⟩, fun h => h.2⟩⟩
    · cases hnarrowed

theorem narrow_records
    (htype : type.Mediates types)
    (h : d.Records types ledger)
    (hi : ledger.tags[i]? = some place)
    (hrun : Yields (narrow i type) d u d') :
    d'.Records types ((ledger.add [.member place type.kind]).add [.isA place type]) := by
  simp only [narrow, yields_bind] at hrun
  obtain ⟨_, e, hkind, _, _, hslotAt, hrun⟩ := hrun
  have he := requireKind_records h hi hkind
  obtain ⟨slot, hslot, hfits, hbears⟩ := he.slot hi
  rw [yields_slotAt, getD_slots hslot] at hslotAt
  obtain ⟨rfl, rfl⟩ := hslotAt
  split at hrun
  · rename_i hnone
    rw [yields_update] at hrun
    subst hrun
    refine update_records he hi hslot (by simp [Clause.subject]) (by simp) ?_
      (hbears.congr rfl rfl)
    exact hfits.narrow htype (Or.inr rfl) fun t _ => by simp [hnone]
  · rename_i existing hexisting
    split at hrun
    · exact absurd hrun not_yields_throw
    · rename_i narrowed hnarrowed
      rw [yields_update] at hrun
      subst hrun
      refine update_records he hi hslot (by simp [Clause.subject]) (by simp) ?_
        (hbears.congr rfl rfl)
      obtain ⟨hmediates, heither, hboth⟩ :=
        isA_narrowest (hfits.mediates existing hexisting) htype hnarrowed
      refine hfits.narrow hmediates (heither.imp (fun heq => hexisting.trans (congrArg some heq)) id) fun t ht => ?_
      rw [hboth t ht]
      simp [hexisting]

theorem exclude_records
    (h : d.Records types ledger)
    (hi : ledger.tags[i]? = some place)
    (hrun : Yields (exclude i type) d u d') :
    d'.Records types ((ledger.add [.member place type.kind]).add [.isNot place type]) := by
  simp only [exclude, yields_bind] at hrun
  obtain ⟨_, e, hkind, hrun⟩ := hrun
  have he := requireKind_records h hi hkind
  obtain ⟨slot, hslot, hfits, hbears⟩ := he.slot hi
  rw [yields_update] at hrun
  subst hrun
  refine update_records he hi hslot (by simp [Clause.subject]) (by simp) hfits.exclude ?_
  split
  · exact hbears
  · exact hbears.congr rfl rfl

theorem excludeAll_records
    {excluded : List ItemType}
    (h : d.Records types ledger)
    (hi : ledger.tags[i]? = some place)
    (hrun : Yields (excludeAll i excluded) d u d') :
    d'.Records types (ledger.add
      (excluded.flatMap fun t => [.member place t.kind, .isNot place t])) := by
  induction excluded generalizing d ledger with
  | nil =>
      obtain ⟨-, rfl⟩ := yields_pure.mp hrun
      simpa [Ledger.add] using h
  | cons t excluded ih =>
      rw [excludeAll, yields_bind] at hrun
      obtain ⟨_, e, hfirst, hrest⟩ := hrun
      have hall := ih (exclude_records h hi hfirst) hi hrest
      simpa [Ledger.add] using hall

theorem of_yields_pin (hrun : Yields (pin i item) d u d') :
    (∀ p, (d.slots.getD i default).pinned = some p → p.id = item.id) ∧
      ∃ e, e = { d with slots := d.slots.modify i fun slot => { slot with pinned := some item } } ∧
        Yields (narrow i item.type) e u d' := by
  simp only [pin, yields_bind, yields_slotAt] at hrun
  obtain ⟨_, _, ⟨rfl, rfl⟩, hrun⟩ := hrun
  split at hrun
  · rename_i p hp
    split at hrun
    · rename_i hid
      simp only [yields_bind, yields_update] at hrun
      obtain ⟨_, _, rfl, hrun⟩ := hrun
      refine ⟨fun p' hp' => ?_, _, rfl, hrun⟩
      rw [hp, Option.some.injEq] at hp'
      exact hp' ▸ hid
    · rw [yields_bind] at hrun
      obtain ⟨_, _, hthrow, -⟩ := hrun
      exact absurd hthrow not_yields_throw
  · rename_i hnone
    simp only [yields_bind, yields_update] at hrun
    obtain ⟨_, _, rfl, hrun⟩ := hrun
    refine ⟨fun p hp => ?_, _, rfl, hrun⟩
    rw [hnone] at hp
    cases hp

/-- Binding the slot of a name to an exact item, or that of the item itself once more. -/
theorem pin_records
    (htype : item.type.Mediates types)
    (h : d.Records types ledger)
    (hi : ledger.tags[i]? = some place)
    (hplace : (∃ x, place = .var (.name x)) ∨ place = .var (.item item.id))
    (hrun : Yields (pin i item) d u d') :
    d'.Records types (((ledger.add [.same place item]).add [.member place item.type.kind]).add
      [.isA place item.type]) := by
  obtain ⟨hsame, e, rfl, hnarrow⟩ := of_yields_pin hrun
  obtain ⟨slot, hslot, hfits, hbears⟩ := h.slot hi
  rw [getD_slots hslot] at hsame
  refine narrow_records htype ?_ hi hnarrow
  refine update_records h hi hslot (by simp [Clause.subject]) (by simp) (hfits.pin hsame) ?_
  rcases hplace with ⟨x, rfl⟩ | rfl
  · exact hbears
  · exact ⟨hbears.1, item, rfl, rfl⟩

theorem yields_checkName {name : String} :
    Yields (checkName name) d u d' →
      name.toList.head? ≠ some '#' ∧ name.toList.head? ≠ some '@' ∧ d' = d := by
  intro hrun
  unfold checkName at hrun
  split at hrun
  · exact absurd hrun not_yields_throw
  · split at hrun
    · exact absurd hrun not_yields_throw
    · rename_i hplain
      rw [not_or] at hplain
      exact ⟨hplain.1, hplain.2, (yields_pure.mp hrun).2.symm⟩

theorem exists_of_indexOf? {name : String} (h : d.indexOf? name = some i) :
    ∃ slot, d.slots[i]? = some slot ∧ slot.name = name := by
  rw [Draft.indexOf?, Array.findIdx?_eq_some_iff_getElem] at h
  obtain ⟨hlt, hname, -⟩ := h
  exact ⟨d.slots[i], Array.getElem?_eq_getElem hlt, by simpa using hname⟩

theorem ne_of_indexOf? {name : String} {slot : Slot} (h : d.indexOf? name = none)
    (hslot : d.slots[i]? = some slot) : slot.name ≠ name := by
  rw [Draft.indexOf?, Array.findIdx?_eq_none_iff] at h
  simpa using h slot (Array.mem_of_getElem? hslot)

/-- Nothing has been said about a place without a slot. -/
theorem fits_fresh (h : d.Records types ledger) (hfresh : place ∉ ledger.tags) (name : String)
    (anonymous : Bool) :
    (Slot.fresh name .unknown anonymous).Fits types (ledger.tags ++ [place]) ledger.clauses place := by
  apply Slot.Fits.fresh
  rintro clause hclause rfl
  exact hfresh (h.subjects clause hclause)

theorem fits_fresh_kind (h : d.Records types ledger) (hfresh : place ∉ ledger.tags) (name : String)
    (anonymous : Bool) (kind : Kind) :
    (Slot.fresh name (.ofKind kind) anonymous).Fits types (ledger.tags ++ [place])
      (ledger.clauses ++ [.member place kind]) place :=
  (fits_fresh h hfresh name anonymous).settle rfl

/-- Opening the slot of an unnamed pattern or of an implied edge. -/
theorem pushUnnamed_records
    (h : d.Records types ledger)
    (hfresh : place ∉ ledger.tags)
    (hplace : ∀ slot : Slot, slot.name.toList.head? = some '#' → slot.Bears place)
    (hrun : Yields (pushUnnamed kind) d i d') :
    d'.Records types ((ledger.openSlot place).add [.member place kind]) ∧
      (ledger.openSlot place).tags[i]? = some place := by
  simp only [pushUnnamed, yields_bind, yields_modifyGet, yields_push, Prod.mk.injEq] at hrun
  obtain ⟨k, e, ⟨rfl, rfl⟩, rfl, rfl⟩ := hrun
  constructor
  · refine h.push hfresh rfl rfl (by simp [Clause.subject]) (by simp)
      (fits_fresh_kind h hfresh _ _ kind) (hplace _ ?_)
    simp [Slot.fresh]
  · simp [Ledger.openSlot, ← h.length]

/-- The clauses about the kind of a name, as far as its mention tells it. -/
def kindClauses (place : Place) (kind : Option Kind) : List (Clause Place) :=
  kind.toList.map (.member place ·)

/-- Coming across a name. -/
theorem named_records
    {x : String}
    {kind : Option Kind}
    (h : d.Records types ledger)
    (hrun : Yields (named x kind) d i d') :
    d'.Records types ((ledger.reach (.var (.name x))).add (kindClauses (.var (.name x)) kind)) ∧
      (ledger.reach (.var (.name x))).tags[i]? = some (.var (.name x)) := by
  simp only [named, yields_bind, yields_get] at hrun
  obtain ⟨_, e, hname, _, _, ⟨rfl, rfl⟩, hrun⟩ := hrun
  obtain ⟨hhash, hat, rfl⟩ := yields_checkName hname
  split at hrun
  · rename_i hnone
    have hfresh : .var (.name x) ∉ ledger.tags := by
      intro hmem
      obtain ⟨j, hj⟩ := List.mem_iff_getElem?.mp hmem
      obtain ⟨slot, hslot, -, hbears⟩ := h.slot hj
      exact ne_of_indexOf? hnone hslot hbears.1
    rw [yields_push] at hrun
    obtain ⟨rfl, rfl⟩ := hrun
    rw [Ledger.reach, if_neg hfresh]
    constructor
    · cases kind with
      | none =>
          refine h.push hfresh rfl rfl (by simp [kindClauses]) (by simp [kindClauses]) ?_
            ⟨rfl, hhash, hat⟩
          have hfits := fits_fresh h hfresh x false
          rwa [← List.append_nil ledger.clauses] at hfits
      | some kind =>
          exact h.push hfresh rfl rfl (by simp [kindClauses, Clause.subject])
            (by simp [kindClauses]) (fits_fresh_kind h hfresh x false kind) ⟨rfl, hhash, hat⟩
    · simp [Ledger.openSlot, ← h.length]
  · rename_i j hj
    obtain ⟨slot, hslot, hname⟩ := exists_of_indexOf? hj
    obtain ⟨place, hplace, -, hbears⟩ := h.tag hslot
    obtain rfl : place = .var (.name x) := by
      rw [← hname] at hhash hat ⊢
      exact hbears.eq_name hhash hat
    have hmem : .var (.name x) ∈ ledger.tags := List.mem_of_getElem? hplace
    rw [Ledger.reach, if_pos hmem]
    cases kind with
    | none =>
        obtain ⟨rfl, rfl⟩ := yields_pure.mp hrun
        exact ⟨by simpa [kindClauses, Ledger.add] using h, hplace⟩
    | some kind =>
        simp only [yields_bind, yields_pure] at hrun
        obtain ⟨_, e, hkind, rfl, rfl⟩ := hrun
        exact ⟨requireKind_records h hplace hkind, hplace⟩

/-- The place of an exact item: the name that it is given, or else its own. -/
def exactPlace (item : Item) : Option String → Place
  | some x => .var (.name x)
  | none => .var (.item item.id)

/-- What is said when an exact item is mentioned. -/
def exactClauses (place : Place) (item : Item) : List (Clause Place) :=
  [.member place item.kind, .same place item, .isA place item.type]

/-- What is said when any item of a type is mentioned. -/
def typedClauses (place : Place) (type : ItemType) : List (Clause Place) :=
  [.member place type.kind, .isA place type]

theorem modify_push (slots : Array Slot) (slot : Slot) (f : Slot → Slot) :
    (slots.push slot).modify slots.size f = slots.push (f slot) := by
  apply Array.ext_getElem?
  intro j
  rw [Array.getElem?_modify, Array.getElem?_push, Array.getElem?_push]
  by_cases hj : j = slots.size
  · simp [hj]
  · simp [hj, Ne.symm hj]

theorem Ledger.add_add (ledger : Ledger) (a b : List (Clause Place)) :
    (ledger.add a).add b = ledger.add (a ++ b) := by
  simp [Ledger.add]

/-- Saying what has been said, in a shorter way. -/
theorem records_add
    {new new' : List (Clause Place)}
    (h : d.Records types (ledger.add new))
    (hmem : ∀ clause, clause ∈ new ↔ clause ∈ new')
    (hnew : ∀ n e role, .plays n e role ∉ new) :
    d.Records types (ledger.add new') :=
  h.congr ((Clause.Same.refl ledger.clauses).append (.of_mem hmem hnew))

/-- Coming across an exact item. -/
theorem pinned_records
    {name : Option String}
    (htype : item.type.Mediates types)
    (h : d.Records types ledger)
    (hrun : Yields (pinned item name) d i d') :
    d'.Records types ((ledger.reach (exactPlace item name)).add
        (exactClauses (exactPlace item name) item)) ∧
      (ledger.reach (exactPlace item name)).tags[i]? = some (exactPlace item name) := by
  have hkind : item.type.kind = item.kind := by cases item <;> rfl
  cases name with
  | some x =>
      simp only [pinned, yields_bind, yields_pure] at hrun
      obtain ⟨j, e, hnamed, _, e', hpin, rfl, rfl⟩ := hrun
      obtain ⟨he, hj⟩ := named_records h hnamed
      have hpinned := pin_records htype he hj (Or.inl ⟨x, rfl⟩) hpin
      rw [Ledger.add_add, Ledger.add_add, Ledger.add_add, hkind] at hpinned
      refine ⟨records_add hpinned (fun clause => ?_) (by simp [kindClauses]), hj⟩
      simp only [kindClauses, exactClauses, exactPlace, Option.toList_some, List.map_cons,
        List.map_nil, List.mem_append, List.mem_cons, List.not_mem_nil, or_false]
      tauto
  | none =>
      simp only [pinned, yields_bind, yields_get] at hrun
      obtain ⟨_, _, ⟨rfl, rfl⟩, hrun⟩ := hrun
      split at hrun
      · rename_i j hj
        obtain ⟨slot, hslot, hname⟩ := exists_of_indexOf? hj
        obtain ⟨place, hplace, hfits, hbears⟩ := h.tag hslot
        obtain ⟨p, hp, rfl⟩ := hbears.eq_item (by simp [hname])
        simp only [yields_bind, yields_pure] at hrun
        obtain ⟨_, _, ⟨rfl, rfl⟩, _, e, hpin, rfl, rfl⟩ := hrun
        have hid : p.id = item.id := by
          refine (of_yields_pin hpin).1 p ?_
          rw [getD_slots hslot, hp]
        rw [hid] at hplace hfits hbears
        have hmem : .var (.item item.id) ∈ ledger.tags := List.mem_of_getElem? hplace
        rw [exactPlace, Ledger.reach, if_pos hmem]
        have hpinned := pin_records htype h hplace (Or.inr rfl) hpin
        rw [Ledger.add_add, Ledger.add_add, hkind] at hpinned
        refine ⟨records_add hpinned (fun clause => ?_) (by simp), hplace⟩
        simp only [exactClauses, List.mem_append, List.mem_cons, List.not_mem_nil, or_false]
        tauto
      · rename_i hnone
        have hfresh : .var (.item item.id) ∉ ledger.tags := by
          intro hmem
          obtain ⟨j, hj⟩ := List.mem_iff_getElem?.mp hmem
          obtain ⟨slot, hslot, -, hbears⟩ := h.slot hj
          exact ne_of_indexOf? hnone hslot hbears.1
        simp only [yields_bind, yields_push, yields_pure] at hrun
        obtain ⟨_, _, ⟨rfl, rfl⟩, _, e, hpin, rfl, rfl⟩ := hrun
        obtain ⟨-, bound, hbound, hnarrow⟩ := of_yields_pin hpin
        have htag : (ledger.openSlot (.var (.item item.id))).tags[d.slots.size]? =
            some (.var (.item item.id)) := by
          simp [Ledger.openSlot, ← h.length]
        -- Opening the slot and binding it is one step, after which the slot is that of the item.
        let slot : Slot :=
          { Slot.fresh ("@" ++ item.text) (.ofKind item.kind) true with pinned := some item }
        have hfits : slot.Fits types (ledger.tags ++ [.var (.item item.id)])
            (ledger.clauses ++ [.member (.var (.item item.id)) item.kind] ++
              [.same (.var (.item item.id)) item]) (.var (.item item.id)) :=
          (fits_fresh_kind h hfresh _ true item.kind).pin nofun
        have hbears : slot.Bears (.var (.item item.id)) := ⟨rfl, item, rfl, rfl⟩
        rw [List.append_assoc] at hfits
        have hslots : bound.slots = d.slots.push slot := by
          rw [hbound]
          exact modify_push d.slots (.fresh ("@" ++ item.text) (.ofKind item.kind) true)
            fun slot => { slot with pinned := some item }
        have hdeferred : bound.deferred = d.deferred := by rw [hbound]
        have hopened := h.push hfresh hslots hdeferred (by simp [Clause.subject]) (by simp) hfits
          hbears
        have hnarrowed := narrow_records htype hopened htag hnarrow
        rw [Ledger.add_add, Ledger.add_add, hkind] at hnarrowed
        rw [exactPlace, Ledger.reach, if_neg hfresh]
        refine ⟨records_add hnarrowed (fun clause => ?_) (by simp), htag⟩
        simp only [exactClauses, List.mem_append, List.mem_cons, List.not_mem_nil, or_false]
        tauto

/-- The place of any item of a type: the name that it is given, or else one of its own. -/
def typedPlace (place : Place) : Option String → Place
  | some x => .var (.name x)
  | none => place

/-- Coming across any item of a type; without a name it gets a slot of its own. -/
theorem typed_records
    {name : Option String}
    (htype : type.Mediates types)
    (h : d.Records types ledger)
    (hfresh : name = none → place ∉ ledger.tags)
    (hplace : ∀ slot : Slot, slot.name.toList.head? = some '#' → slot.Bears place)
    (hrun : Yields (typed type name) d i d') :
    d'.Records types ((ledger.reach (typedPlace place name)).add
        (typedClauses (typedPlace place name) type)) ∧
      (ledger.reach (typedPlace place name)).tags[i]? = some (typedPlace place name) := by
  cases name with
  | some x =>
      simp only [typed, yields_bind, yields_pure] at hrun
      obtain ⟨j, e, hnamed, _, e', hnarrow, rfl, rfl⟩ := hrun
      obtain ⟨he, hj⟩ := named_records h hnamed
      have hnarrowed := narrow_records htype he hj hnarrow
      rw [Ledger.add_add, Ledger.add_add] at hnarrowed
      refine ⟨records_add hnarrowed (fun clause => ?_) (by simp [kindClauses]), hj⟩
      simp only [kindClauses, typedClauses, typedPlace, Option.toList_some, List.map_cons,
        List.map_nil, List.mem_append, List.mem_cons, List.not_mem_nil, or_false]
      tauto
  | none =>
      simp only [typed, yields_bind, yields_pure] at hrun
      obtain ⟨j, e, hpush, _, e', hnarrow, rfl, rfl⟩ := hrun
      obtain ⟨he, hj⟩ := pushUnnamed_records h (hfresh rfl) hplace hpush
      have hnarrowed := narrow_records htype he hj hnarrow
      rw [Ledger.add_add, Ledger.add_add] at hnarrowed
      rw [typedPlace, Ledger.reach, if_neg (hfresh rfl)]
      refine ⟨records_add hnarrowed (fun clause => ?_) (by simp), hj⟩
      simp only [typedClauses, List.mem_append, List.mem_cons, List.not_mem_nil, or_false]
      tauto

/-- Opening the slot of an edge that a relation implies. -/
theorem companion_records
    {path : Path}
    (hroot : (ItemType.root .edge).Mediates types)
    (h : d.Records types ledger)
    (hfresh : .implied path ∉ ledger.tags)
    (hrun : Yields companion d i d') :
    d'.Records types ((ledger.openSlot (.implied path)).add
        (typedClauses (.implied path) (.root .edge))) ∧
      (ledger.openSlot (.implied path)).tags[i]? = some (.implied path) := by
  have htyped : d'.Records types ((ledger.reach (typedPlace (.implied path) none)).add
        (typedClauses (typedPlace (.implied path) none) (.root .edge))) ∧
      (ledger.reach (typedPlace (.implied path) none)).tags[i]? =
        some (typedPlace (.implied path) none) :=
    typed_records hroot h (fun _ => hfresh) (fun _ hslot => hslot) hrun
  rwa [typedPlace, Ledger.reach, if_neg hfresh] at htyped

/-- Linking a node slot with an edge slot lists each of them on the other one, if there is room. -/
theorem of_yields_link
    {j : Nat}
    {role : Role}
    (hrun : Yields (link i j role) d u d') :
    d' = { d with
      slots := (d.slots.modify i (Slot.withPartner role.opposite j)).modify j
        (Slot.withPartner role i) } ∧
      (role = .endpoint → (d'.slots.getD j default).ends.length ≤ maxEdgeEnds) := by
  cases role with
  | source =>
      simp only [link, yields_bind, yields_update] at hrun
      obtain ⟨_, _, rfl, rfl⟩ := hrun
      exact ⟨rfl, nofun⟩
  | target =>
      simp only [link, yields_bind, yields_update] at hrun
      obtain ⟨_, _, rfl, rfl⟩ := hrun
      exact ⟨rfl, nofun⟩
  | endpoint =>
      simp only [link, yields_bind, yields_update, yields_slotAt] at hrun
      obtain ⟨_, _, rfl, _, _, rfl, _, _, ⟨rfl, rfl⟩, hrun⟩ := hrun
      split at hrun
      · exact absurd hrun not_yields_throw
      · rename_i hroom
        obtain ⟨-, rfl⟩ := yields_pure.mp hrun
        exact ⟨rfl, fun _ => not_lt.mp hroom⟩

/-- Linking a node slot with an edge slot. -/
theorem link_records
    {j : Nat}
    {n e : Place}
    {role : Role}
    (h : d.Records types ledger)
    (hi : ledger.tags[i]? = some n)
    (hj : ledger.tags[j]? = some e)
    (hnode : .member n .node ∈ ledger.clauses)
    (hedge : .member e .edge ∈ ledger.clauses)
    (hrun : Yields (link i j role) d u d') :
    d'.Records types (ledger.add [.plays n e role]) := by
  obtain ⟨rfl, hroom⟩ := of_yields_link hrun
  obtain ⟨slot, hslot, hfits, hbears⟩ := h.slot hi
  have hkind : slot.kind = .node := by
    have := (hfits.kind .node).mpr hnode
    cases hslotKind : slot.kind <;> simp_all [SlotKind.itemKind]
  have hlisted := hfits.withPartner_node hkind role.opposite j
  rw [← List.append_nil ledger.clauses] at hlisted
  have hfirst := update_records h hi hslot (by simp) (by simp) hlisted
    (hbears.congr (by simp) (by simp))
  rw [Ledger.add, List.append_nil] at hfirst
  obtain ⟨slot', hslot', hfits', hbears'⟩ := hfirst.slot hj
  have hlast : (slot'.withPartner role i).ends.length ≤ maxEdgeEnds := by
    have hedgeKind : slot'.kind ≠ .node := by
      have := (hfits'.kind .edge).mpr hedge
      intro hnodeKind
      simp [hnodeKind, SlotKind.itemKind] at this
    cases role with
    | source => exact hfits'.ends hedgeKind
    | target => exact hfits'.ends hedgeKind
    | endpoint =>
        have hlisted := (getElem?_modify (f := Slot.withPartner .endpoint i) hslot' j).trans
          (if_pos rfl)
        simpa [hlisted] using hroom rfl
  refine hfirst.change hj (by simp) (getElem?_modify hslot') rfl (by simp [Clause.subject]) ?_
    (hfits'.withPartner hi hlast) (hbears'.congr (by simp) (by simp))
  intro n' e' role' hplays
  rw [List.mem_singleton, Clause.plays.injEq] at hplays
  obtain ⟨rfl, rfl, rfl⟩ := hplays
  exact ⟨List.mem_append_left _ hnode, List.mem_append_left _ hedge⟩

end PatternGraph.Lowering
