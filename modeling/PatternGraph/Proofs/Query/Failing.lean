import PatternGraph.Proofs.Query.LoweringSteps

/-!
# How the steps of a lowering fail

For each step of a lowering, what it changes when it succeeds, and what the draft was like before
when it fails.  The steps that look at one slot change that slot only.
-/

namespace PatternGraph.Lowering

variable {α β : Type} {d : Draft} {fault : Fault} {i : Nat} {kind : Kind} {type : ItemType}
  {item : Item}

/-- Whether a lowering step fails on a draft. -/
def Fails (m : Lowering α) (d : Draft) (fault : Fault) : Prop :=
  m.run d = .error fault

theorem fails_bind {m : Lowering α} {f : α → Lowering β} :
    Fails (m >>= f) d fault ↔ Fails m d fault ∨ ∃ a e, Yields m d a e ∧ Fails (f a) e fault := by
  simp only [Fails, Yields, StateT.run_bind]
  cases m.run d with
  | error fault' => simp [bind, Except.bind]
  | ok r =>
      obtain ⟨a, e⟩ := r
      constructor
      · exact fun h => Or.inr ⟨a, e, rfl, h⟩
      · rintro (h | ⟨a', e', heq, h⟩)
        · cases h
        · cases heq
          exact h

theorem not_fails_pure {a : α} : ¬Fails (pure a) d fault := nofun

theorem not_fails_get : ¬Fails get d fault := nofun

theorem not_fails_modify {f : Draft → Draft} : ¬Fails (modify f) d fault := nofun

theorem not_fails_modifyGet {f : Draft → α × Draft} : ¬Fails (modifyGet f) d fault := nofun

theorem not_fails_slotAt : ¬Fails (slotAt i) d fault := nofun

theorem not_fails_update {f : Slot → Slot} : ¬Fails (update i f) d fault := nofun

theorem not_fails_push {slot : Slot} : ¬Fails (push slot) d fault := nofun

theorem fails_throw {fault' : Fault} : Fails (throw fault' : Lowering α) d fault ↔ fault' = fault := by
  simp [Fails, throw, throwThe, MonadExceptOf.throw, StateT.lift, StateT.run, bind, Except.bind]

theorem of_fails_checkName {name : String} (h : Fails (checkName name) d fault) :
    Text.isBlank name = true ∧ fault = .blankName ∨
      (name.toList.head? = some '#' ∨ name.toList.head? = some '@') ∧ fault = .reservedName name := by
  unfold checkName at h
  split at h
  · exact Or.inl ⟨‹_›, (fails_throw.mp h).symm⟩
  · split at h
    · exact Or.inr ⟨‹_›, (fails_throw.mp h).symm⟩
    · exact absurd h not_fails_pure

theorem of_fails_checkKind {expected : Option Kind} {what : String}
    (h : Fails (checkKind expected kind what) d fault) :
    ∃ wanted, expected = some wanted ∧ wanted ≠ kind ∧ fault = .wrongKind wanted kind what := by
  unfold checkKind at h
  split at h
  · exact absurd h not_fails_pure
  · split at h
    · exact absurd h not_fails_pure
    · exact ⟨_, rfl, ‹_›, (fails_throw.mp h).symm⟩

theorem of_yields_checkKind {expected : Option Kind} {what : String} {u : Unit} {d' : Draft}
    (h : Yields (checkKind expected kind what) d u d') : d' = d ∧ ∀ wanted ∈ expected, wanted = kind := by
  unfold checkKind at h
  split at h
  · exact ⟨(yields_pure.mp h).2.symm, nofun⟩
  · split at h
    · rename_i hsame
      exact ⟨(yields_pure.mp h).2.symm, fun _ hwanted => (Option.some.inj hwanted).symm.trans hsame⟩
    · exact absurd h not_yields_throw

/-- Whether one draft is another one with a slot set, as far as slots go. -/
def Sets (d : Draft) (i : Nat) (slot : Slot) (d' : Draft) : Prop :=
  ∀ j, d'.slots[j]? = if j = i then some slot else d.slots[j]?

variable {d' d'' : Draft} {slot slot' slot'' : Slot} {u : Unit}

theorem Sets.self (h : Sets d i slot d') : d'.slots[i]? = some slot :=
  (h i).trans (if_pos rfl)

theorem Sets.refl (hslot : d.slots[i]? = some slot) : Sets d i slot d := by
  intro j
  split
  · rename_i hj
    rw [hj, hslot]
  · rfl

theorem Sets.trans (h : Sets d i slot' d') (h' : Sets d' i slot'' d'') : Sets d i slot'' d'' := by
  intro j
  rw [h' j]
  split
  · rfl
  · rename_i hj
    exact (h j).trans (if_neg hj)

theorem sets_of_yields_update {f : Slot → Slot} (hslot : d.slots[i]? = some slot)
    (h : Yields (update i f) d u d') : Sets d i (f slot) d' := by
  rw [yields_update] at h
  subst h
  exact getElem?_modify hslot

/-- Settling the kind of a slot. -/
theorem of_yields_requireKind (hslot : d.slots[i]? = some slot)
    (h : Yields (requireKind i kind) d u d') :
    (∀ known, slot.kind.itemKind = some known → known = kind) ∧
      Sets d i { slot with kind := .ofKind kind } d' := by
  simp only [requireKind, yields_bind, yields_slotAt] at h
  obtain ⟨_, _, ⟨rfl, rfl⟩, h⟩ := h
  rw [getD_slots hslot] at h
  split at h
  · rename_i hnone
    exact ⟨fun known hknown => by simp [hnone] at hknown, sets_of_yields_update hslot h⟩
  · rename_i known hknown
    split at h
    · rename_i hsame
      subst hsame
      obtain ⟨-, rfl⟩ := yields_pure.mp h
      refine ⟨fun k hk => Option.some.inj (hk.symm.trans hknown), ?_⟩
      have hkind : slot.kind = .ofKind known := by
        cases hcase : slot.kind <;> simp_all [SlotKind.itemKind] <;> subst hknown <;> rfl
      rw [← hkind]
      exact .refl hslot
    · exact absurd h not_yields_throw

theorem of_fails_requireKind (h : Fails (requireKind i kind) d fault) :
    ∃ known, (d.slots.getD i default).kind.itemKind = some known ∧ known ≠ kind ∧
      fault = .mixedKinds (d.slots.getD i default).name known kind := by
  rw [requireKind, fails_bind] at h
  obtain h | ⟨_, _, hslotAt, h⟩ := h
  · exact absurd h not_fails_slotAt
  · rw [yields_slotAt] at hslotAt
    obtain ⟨rfl, rfl⟩ := hslotAt
    split at h
    · exact absurd h not_fails_update
    · split at h
      · exact absurd h not_fails_pure
      · exact ⟨_, ‹_›, ‹_›, (fails_throw.mp h).symm⟩

theorem eq_or_eq_of_narrowest {existing narrowed : ItemType}
    (h : existing.narrowest type = some narrowed) : existing = narrowed ∨ type = narrowed := by
  unfold ItemType.narrowest at h
  split at h
  · exact Or.inl (Option.some.inj h)
  · split at h
    · exact Or.inr (Option.some.inj h)
    · cases h

/-- Types neither of which is the more specific one are unrelated. -/
theorem unrelated_of_narrowest {existing : ItemType} (h : existing.narrowest type = none) :
    ¬(existing.isA type = true ∨ type.isA existing = true) := by
  unfold ItemType.narrowest at h
  split at h
  · cases h
  · split at h
    · cases h
    · rintro (hsub | hsub)
      · contradiction
      · contradiction

/-- Narrowing the type of a slot gives it the more specific one of its old type and the new one. -/
theorem yields_narrow (hslot : d.slots[i]? = some slot) (h : Yields (narrow i type) d u d') :
    (∀ known, slot.kind.itemKind = some known → known = type.kind) ∧
      ∃ narrowed, (slot.type = none ∧ type = narrowed ∨
          ∃ existing, slot.type = some existing ∧ existing.narrowest type = some narrowed) ∧
        Sets d i { slot with kind := .ofKind type.kind, type := some narrowed } d' := by
  simp only [narrow, yields_bind] at h
  obtain ⟨_, e, hkind, _, _, hslotAt, h⟩ := h
  obtain ⟨hknown, hset⟩ := of_yields_requireKind hslot hkind
  rw [yields_slotAt, getD_slots hset.self] at hslotAt
  obtain ⟨rfl, rfl⟩ := hslotAt
  refine ⟨hknown, ?_⟩
  split at h
  · rename_i hnone
    exact ⟨type, Or.inl ⟨hnone, rfl⟩, hset.trans (sets_of_yields_update hset.self h)⟩
  · rename_i existing hexisting
    split at h
    · exact absurd h not_yields_throw
    · rename_i narrowed hnarrowed
      exact ⟨narrowed, Or.inr ⟨existing, hexisting, hnarrowed⟩,
        hset.trans (sets_of_yields_update hset.self h)⟩

/-- Narrowing the type of a slot keeps its old type or gives it the new one. -/
theorem of_yields_narrow (hslot : d.slots[i]? = some slot) (h : Yields (narrow i type) d u d') :
    (∀ known, slot.kind.itemKind = some known → known = type.kind) ∧
      ∃ narrowed, (slot.type = some narrowed ∨ type = narrowed) ∧
        Sets d i { slot with kind := .ofKind type.kind, type := some narrowed } d' := by
  obtain ⟨hknown, narrowed, hnarrowed, hset⟩ := yields_narrow hslot h
  refine ⟨hknown, narrowed, ?_, hset⟩
  rcases hnarrowed with ⟨-, htype⟩ | ⟨existing, hexisting, hnarrowed⟩
  · exact Or.inr htype
  · exact (eq_or_eq_of_narrowest hnarrowed).imp (fun heq => hexisting.trans (congrArg some heq)) id

theorem of_fails_narrow (hslot : d.slots[i]? = some slot) (h : Fails (narrow i type) d fault) :
    (∃ known, slot.kind.itemKind = some known ∧ known ≠ type.kind ∧
      fault = .mixedKinds slot.name known type.kind) ∨
    ∃ existing, slot.type = some existing ∧ ¬(existing.isA type = true ∨ type.isA existing = true) ∧
      fault = .unrelatedTypes slot.name existing.name type.name := by
  simp only [narrow, fails_bind] at h
  obtain h | ⟨_, e, hkind, h | ⟨_, _, hslotAt, h⟩⟩ := h
  · have hfails := of_fails_requireKind h
    rw [getD_slots hslot] at hfails
    exact Or.inl hfails
  · exact absurd h not_fails_slotAt
  · obtain ⟨-, hset⟩ := of_yields_requireKind hslot hkind
    rw [yields_slotAt, getD_slots hset.self] at hslotAt
    obtain ⟨rfl, rfl⟩ := hslotAt
    split at h
    · exact absurd h not_fails_update
    · rename_i existing hexisting
      split at h
      · rename_i hnone
        exact Or.inr ⟨existing, hexisting, unrelated_of_narrowest hnone, (fails_throw.mp h).symm⟩
      · exact absurd h not_fails_update

/-- Excluding a type from a slot that has its kind changes nothing else. -/
theorem of_yields_exclude (hslot : d.slots[i]? = some slot) (h : Yields (exclude i type) d u d') :
    ∃ excluded, Sets d i { slot with kind := .ofKind type.kind, excluded := excluded } d' := by
  simp only [exclude, yields_bind] at h
  obtain ⟨_, e, hkind, h⟩ := h
  obtain ⟨-, hset⟩ := of_yields_requireKind hslot hkind
  have hlast := hset.trans (sets_of_yields_update hset.self h)
  split at hlast
  · exact ⟨slot.excluded, hlast⟩
  · exact ⟨_, hlast⟩

theorem of_fails_exclude (hslot : d.slots[i]? = some slot) (h : Fails (exclude i type) d fault) :
    ∃ known, slot.kind.itemKind = some known ∧ known ≠ type.kind := by
  simp only [exclude, fails_bind] at h
  obtain h | ⟨_, e, -, h⟩ := h
  · obtain ⟨known, hknown, hne, -⟩ := of_fails_requireKind h
    rw [getD_slots hslot] at hknown
    exact ⟨known, hknown, hne⟩
  · exact absurd h not_fails_update

theorem of_fails_pin (hslot : d.slots[i]? = some slot) (h : Fails (pin i item) d fault) :
    (∃ p, slot.pinned = some p ∧ p.id ≠ item.id ∧ fault = .twoInstances slot.name) ∨
      (∀ p, slot.pinned = some p → p.id = item.id) ∧ ∃ e, Sets d i { slot with pinned := some item } e ∧
        Fails (narrow i item.type) e fault := by
  rw [pin, fails_bind] at h
  obtain h | ⟨_, _, hslotAt, h⟩ := h
  · exact absurd h not_fails_slotAt
  rw [yields_slotAt, getD_slots hslot] at hslotAt
  obtain ⟨rfl, rfl⟩ := hslotAt
  have hrest : ∀ e, e = d → Fails (do
      update i fun slot => { slot with pinned := some item }
      narrow i item.type) e fault →
        ∃ e, Sets d i { slot with pinned := some item } e ∧ Fails (narrow i item.type) e fault := by
    rintro e rfl h
    obtain h | ⟨_, e', hupdate, h⟩ := fails_bind.mp h
    · exact absurd h not_fails_update
    · exact ⟨e', sets_of_yields_update hslot hupdate, h⟩
  split at h
  · rename_i p hp
    split at h
    · rename_i hid
      refine Or.inr ⟨fun p' hp' => ?_, hrest _ rfl h⟩
      rw [hp, Option.some.injEq] at hp'
      exact hp' ▸ hid
    · rename_i hid
      rw [fails_bind] at h
      obtain h | ⟨_, _, hthrow, -⟩ := h
      · exact Or.inl ⟨p, hp, hid, (fails_throw.mp h).symm⟩
      · exact absurd hthrow not_yields_throw
  · rename_i hnone
    exact Or.inr ⟨fun p hp => by simp [hnone] at hp, hrest _ rfl h⟩

/-- Linking fails only when it lists too many ends on an edge. -/
theorem of_fails_link {node edge : Nat} {role : Role} (h : Fails (link node edge role) d fault) :
    role = .endpoint ∧ ∃ e, e = { d with
        slots := (d.slots.modify node (Slot.withPartner .endpoint edge)).modify edge
          (Slot.withPartner .endpoint node) } ∧
      maxEdgeEnds < (e.slots.getD edge default).ends.length ∧
        fault = .crowdedEdge (e.slots.getD edge default).name := by
  cases role with
  | source =>
      simp only [link, fails_bind] at h
      obtain h | ⟨_, _, -, h⟩ := h
      · exact absurd h not_fails_update
      · exact absurd h not_fails_update
  | target =>
      simp only [link, fails_bind] at h
      obtain h | ⟨_, _, -, h⟩ := h
      · exact absurd h not_fails_update
      · exact absurd h not_fails_update
  | endpoint =>
      simp only [link, fails_bind, yields_update, yields_slotAt] at h
      obtain h | ⟨_, _, rfl, h | ⟨_, _, rfl, h | ⟨_, _, ⟨rfl, rfl⟩, h⟩⟩⟩ := h
      · exact absurd h not_fails_update
      · exact absurd h not_fails_update
      · exact absurd h not_fails_slotAt
      · split at h
        · exact ⟨rfl, _, rfl, ‹_›, (fails_throw.mp h).symm⟩
        · exact absurd h not_fails_pure

theorem ofKind_ne_unknown (kind : Kind) : SlotKind.ofKind kind ≠ .unknown := by
  cases kind <;> simp [SlotKind.ofKind]

theorem itemKind_ofKind (kind : Kind) : (SlotKind.ofKind kind).itemKind = some kind := by
  cases kind <;> rfl

/-- A slot of the kind of a type, with no other type, can be narrowed to it. -/
theorem not_fails_narrow
    (hslot : d.slots[i]? = some slot)
    (hkind : slot.kind = .ofKind type.kind)
    (htype : ∀ t, slot.type = some t → t.isA type = true) :
    ¬Fails (narrow i type) d fault := by
  intro h
  rcases of_fails_narrow hslot h with ⟨known, hknown, hne, -⟩ | ⟨existing, hold, hunrelated, -⟩
  · rw [hkind, itemKind_ofKind] at hknown
    exact hne (Option.some.inj hknown).symm
  · exact hunrelated (Or.inl (htype existing hold))

theorem of_yields_pushUnnamed (h : Yields (pushUnnamed kind) d i d') :
    i = d.slots.size ∧ ∃ k, d'.slots = d.slots.push (.fresh ("#" ++ k) (.ofKind kind) true) := by
  simp only [pushUnnamed, yields_bind, yields_modifyGet, yields_push, Prod.mk.injEq] at h
  obtain ⟨k, e, ⟨rfl, rfl⟩, rfl, rfl⟩ := h
  exact ⟨rfl, _, rfl⟩

/-- An unnamed slot is opened and narrowed in one go. -/
theorem of_yields_typed_none (h : Yields (typed type none) d i d') :
    i = d.slots.size ∧ ∃ e k narrowed,
      e.slots = d.slots.push (.fresh ("#" ++ k) (.ofKind type.kind) true) ∧
        Sets e i { Slot.fresh ("#" ++ k) (.ofKind type.kind) true with type := some narrowed } d' := by
  simp only [typed, yields_bind, yields_pure] at h
  obtain ⟨j, e, hpush, _, e', hnarrow, rfl, rfl⟩ := h
  obtain ⟨rfl, k, hslots⟩ := of_yields_pushUnnamed hpush
  have hslot : e.slots[d.slots.size]? = some (.fresh ("#" ++ k) (.ofKind type.kind) true) := by
    rw [hslots]
    exact Array.getElem?_push_size
  obtain ⟨-, narrowed, -, hset⟩ := of_yields_narrow hslot hnarrow
  exact ⟨rfl, e, k, narrowed, hslots, hset⟩

theorem not_fails_typed_none : ¬Fails (typed type none) d fault := by
  intro h
  simp only [typed, fails_bind] at h
  obtain h | ⟨j, e, hpush, h | ⟨_, _, -, h⟩⟩ := h
  · simp only [pushUnnamed, fails_bind] at h
    obtain h | ⟨_, _, -, h⟩ := h
    · exact not_fails_modifyGet h
    · exact not_fails_push h
  · obtain ⟨rfl, k, hslots⟩ := of_yields_pushUnnamed hpush
    have hslot : e.slots[d.slots.size]? = some (.fresh ("#" ++ k) (.ofKind type.kind) true) := by
      rw [hslots]
      exact Array.getElem?_push_size
    exact not_fails_narrow hslot rfl (fun t ht => by cases ht) h
  · exact not_fails_pure h

/-- A name that is not known to be that of an edge is taken for that of a node without a fault. -/
theorem of_fails_connect {node other : Nat} {role : Role}
    (h : Fails (connect node other role) d fault) : ∃ name, fault = .crowdedEdge name := by
  rw [connect, fails_bind] at h
  obtain h | ⟨_, _, hslotAt, h⟩ := h
  · exact absurd h not_fails_slotAt
  rw [yields_slotAt] at hslotAt
  obtain ⟨rfl, rfl⟩ := hslotAt
  split at h
  · obtain ⟨-, _, -, -, hfault⟩ := of_fails_link h
    exact ⟨_, hfault⟩
  · rename_i hedge
    simp only [fails_bind] at h
    obtain h | ⟨_, _, -, h | ⟨_, _, -, h | ⟨_, _, -, h⟩⟩⟩ := h
    · obtain ⟨known, hknown, hne, -⟩ := of_fails_requireKind h
      cases hkind : (d.slots.getD other default).kind with
      | edge => exact absurd hkind hedge
      | node =>
          rw [hkind] at hknown
          exact absurd (Option.some.inj hknown).symm hne
      | unknown =>
          rw [hkind] at hknown
          cases hknown
    · exact absurd h not_fails_typed_none
    · obtain ⟨-, _, -, -, hfault⟩ := of_fails_link h
      exact ⟨_, hfault⟩
    · obtain ⟨-, _, -, -, hfault⟩ := of_fails_link h
      exact ⟨_, hfault⟩

theorem of_fails_resolve {entries : List (Nat × Nat × Role)} (h : Fails (resolve entries) d fault) :
    ∃ name, fault = .crowdedEdge name := by
  induction entries generalizing d with
  | nil => exact absurd h not_fails_pure
  | cons entry entries ih =>
      rcases fails_bind.mp h with h | ⟨_, e, -, h⟩
      · exact of_fails_connect h
      · exact ih h

theorem of_fails_checkSettled (h : Fails checkSettled d fault) :
    ∃ slot ∈ d.slots, slot.kind = .unknown ∧ fault = .untypedReference slot.name := by
  rw [checkSettled, fails_bind] at h
  obtain h | ⟨_, _, hget, h⟩ := h
  · exact absurd h not_fails_get
  · obtain ⟨rfl, rfl⟩ := yields_get.mp hget
    split at h
    · rename_i slot hfound
      exact ⟨slot, Array.mem_of_find?_eq_some hfound, by simpa using Array.find?_some hfound,
        (fails_throw.mp h).symm⟩
    · exact absurd h not_fails_pure

end PatternGraph.Lowering
