import PatternGraph.Proofs.Query.Failing
import PatternGraph.Proofs.Types

/-!
# Narrowing by several types

A slot that is said to have several types keeps the most specific one it has seen so far and forgets the
others.  Nothing is lost by that: the types that exist form a forest, so whatever clashes with a forgotten
type clashes with the one that is kept.  The outcome depends on the types that are said, and not on
the order in which they come.  This holds up to the largest number of types that can be told apart.
-/

namespace PatternGraph

namespace ItemType

variable {t u w : ItemType} {list list' : List ItemType}

/-- What is left when the first of several types is narrowed by the others one by one. -/
def narrowAll : List ItemType → Option ItemType
  | [] => none
  | t :: rest => rest.foldlM narrowest t

/-- Whether every two of some types are related. -/
def AllRelated (list : List ItemType) : Prop :=
  ∀ t ∈ list, ∀ u ∈ list, t.isA u = true ∨ u.isA t = true

/-- Whether a type is one of several, and is a subtype of them all. -/
def IsLowest (u : ItemType) (list : List ItemType) : Prop :=
  u ∈ list ∧ ∀ t ∈ list, u.isA t = true

theorem AllRelated.mono (h : AllRelated list) (hsub : list' ⊆ list) : AllRelated list' :=
  fun t ht u hu => h t (hsub ht) u (hsub hu)

theorem isLowest_perm (h : list.Perm list') : u.IsLowest list ↔ u.IsLowest list' := by
  simp only [IsLowest, h.mem_iff]

theorem related_of_narrowest (h : t.narrowest u = some w) : t.isA u = true ∨ u.isA t = true := by
  unfold narrowest at h
  split at h
  · exact Or.inl ‹_›
  · split at h
    · exact Or.inr ‹_›
    · cases h

/-- Only types of one kind are narrowed, to a type of this kind. -/
theorem kind_of_narrowest (h : t.narrowest u = some w) : t.kind = u.kind ∧ w.kind = u.kind := by
  have hkind : t.kind = u.kind := by
    rcases related_of_narrowest h with hsub | hsub
    · exact ((isA_iff t u).mp hsub).1
    · exact ((isA_iff u t).mp hsub).1.symm
  rcases Lowering.eq_or_eq_of_narrowest h with rfl | rfl
  · exact ⟨hkind, hkind⟩
  · exact ⟨hkind, rfl⟩

/-- Narrowing fails on types that clash. -/
theorem not_allRelated_of_foldlM_narrowest
    (existing : ItemType)
    (rest : List ItemType)
    (h : rest.foldlM narrowest existing = none) :
    ¬AllRelated (existing :: rest) := by
  induction rest generalizing existing with
  | nil => cases h
  | cons t rest ih =>
      intro hrelated
      rw [List.foldlM_cons] at h
      cases hnarrowed : existing.narrowest t with
      | none => exact Lowering.unrelated_of_narrowest hnarrowed (hrelated _ (by simp) _ (by simp))
      | some w =>
          rw [hnarrowed] at h
          refine ih w h (hrelated.mono ?_)
          rcases Lowering.eq_or_eq_of_narrowest hnarrowed with rfl | rfl
          · exact List.cons_subset_cons _ (List.subset_cons_self _ _)
          · exact List.subset_cons_self _ _

end ItemType

namespace Vocabulary.Holds

open ItemType

variable {v : Vocabulary} {types list list' : List ItemType} {t u w : ItemType}

/-- What is lowest after two types have been narrowed is lowest with both of them in its place. -/
theorem isLowest_of_narrowest
    {existing : ItemType}
    {rest : List ItemType}
    (h : Holds v types)
    (hexisting : existing ∈ types)
    (ht : t ∈ types)
    (hu : u ∈ types)
    (hnarrowed : existing.narrowest t = some w)
    (hlowest : u.IsLowest (w :: rest)) :
    u.IsLowest (existing :: t :: rest) := by
  obtain ⟨hmem, hlower⟩ := hlowest
  obtain ⟨-, -, hboth⟩ := Lowering.isA_narrowest (h.mediates hexisting) (h.mediates ht) hnarrowed
  obtain ⟨hfirst, hsecond⟩ := (hboth u hu).mp (hlower w List.mem_cons_self)
  refine ⟨?_, ?_⟩
  · rcases List.mem_cons.mp hmem with rfl | hmem
    · rcases Lowering.eq_or_eq_of_narrowest hnarrowed with rfl | rfl
      · exact List.mem_cons_self
      · exact List.mem_cons_of_mem _ List.mem_cons_self
    · exact List.mem_cons_of_mem _ (List.mem_cons_of_mem _ hmem)
  · simp only [List.forall_mem_cons]
    exact ⟨hfirst, hsecond, fun s hs => hlower s (List.mem_cons_of_mem w hs)⟩

/-- What is left is a subtype of all that has been narrowed, also of what was forgotten on the way. -/
theorem isLowest_of_foldlM_narrowest
    (h : Holds v types)
    (existing : ItemType)
    (rest : List ItemType)
    (hexisting : existing ∈ types)
    (hrest : rest ⊆ types)
    (hfold : rest.foldlM narrowest existing = some u) :
    u.IsLowest (existing :: rest) := by
  induction rest generalizing existing with
  | nil =>
      obtain rfl : existing = u := Option.some.inj hfold
      exact ⟨List.mem_cons_self, by simpa using h.declared.isA_refl hexisting⟩
  | cons t rest ih =>
      obtain ⟨ht, hrest⟩ := List.cons_subset.mp hrest
      rw [List.foldlM_cons] at hfold
      cases hnarrowed : existing.narrowest t with
      | none =>
          rw [hnarrowed] at hfold
          cases hfold
      | some w =>
          rw [hnarrowed] at hfold
          have hw : w ∈ types := by
            rcases Lowering.eq_or_eq_of_narrowest hnarrowed with rfl | rfl
            · exact hexisting
            · exact ht
          have hlowest := ih w hw hrest hfold
          have hu : u ∈ types := List.cons_subset.mpr ⟨hw, hrest⟩ hlowest.1
          exact h.isLowest_of_narrowest hexisting ht hu hnarrowed hlowest

/-- The supertypes of a type are related. -/
theorem allRelated_of_isLowest (h : Holds v types) (hlist : list ⊆ types) (hu : u.IsLowest list) :
    AllRelated list :=
  fun t ht w hw => h.related (hlist hu.1) (hlist ht) (hlist hw) (hu.2 t ht) (hu.2 w hw)

/-- Narrowing finds the lowest of several types, and nothing if there is none. -/
theorem narrowAll_eq_some_iff (h : Holds v types) (hlist : list ⊆ types) :
    narrowAll list = some u ↔ u.IsLowest list := by
  cases list with
  | nil => simp [narrowAll, IsLowest]
  | cons t rest =>
      obtain ⟨ht, hrest⟩ := List.cons_subset.mp hlist
      constructor
      · exact h.isLowest_of_foldlM_narrowest t rest ht hrest
      · intro hu
        cases hfold : narrowAll (t :: rest) with
        | none =>
            exact absurd (h.allRelated_of_isLowest hlist hu)
              (not_allRelated_of_foldlM_narrowest t rest hfold)
        | some w =>
            have hw := h.isLowest_of_foldlM_narrowest t rest ht hrest hfold
            rw [h.isA_antisymm (hlist hw.1) (hlist hu.1) (hw.2 u hu.1) (hu.2 w hw.1)]

theorem narrowAll_perm (h : Holds v types) (hlist : list ⊆ types) (hperm : list.Perm list') :
    narrowAll list' = narrowAll list := by
  ext u
  rw [h.narrowAll_eq_some_iff hlist, isLowest_perm hperm,
    h.narrowAll_eq_some_iff fun t ht => hlist (hperm.mem_iff.mpr ht)]

/-- Types that are all related have a lowest one. -/
theorem exists_narrowAll_iff (h : Holds v types) (hlist : list ⊆ types) (hne : list ≠ []) :
    (∃ u, narrowAll list = some u) ↔ AllRelated list := by
  constructor
  · rintro ⟨u, hu⟩
    exact h.allRelated_of_isLowest hlist ((h.narrowAll_eq_some_iff hlist).mp hu)
  · intro hrelated
    cases list with
    | nil => exact absurd rfl hne
    | cons t rest =>
        cases hfold : narrowAll (t :: rest) with
        | none => exact absurd hrelated (not_allRelated_of_foldlM_narrowest t rest hfold)
        | some u => exact ⟨u, rfl⟩

end Vocabulary.Holds

namespace Lowering

variable {α : Type} {d d' : Draft} {i : Nat} {slot : Slot} {type existing u : ItemType}
  {list : List ItemType}

theorem yields_or_fails (m : Lowering α) (d : Draft) :
    (∃ a d', Yields m d a d') ∨ ∃ fault, Fails m d fault := by
  cases hrun : m.run d with
  | error fault => exact Or.inr ⟨fault, hrun⟩
  | ok result => exact Or.inl ⟨result.1, result.2, hrun⟩

theorem yields_forM_cons {f : ItemType → Lowering Unit} :
    Yields ((type :: list).forM f) d () d' ↔
      ∃ e, Yields (f type) d () e ∧ Yields (list.forM f) e () d' := by
  have hcons : (type :: list).forM f = f type >>= fun _ => list.forM f := rfl
  rw [hcons, yields_bind]
  exact ⟨fun ⟨_, e, h⟩ => ⟨e, h⟩, fun ⟨e, h⟩ => ⟨(), e, h⟩⟩

theorem yields_forM_nil {f : ItemType → Lowering Unit} :
    Yields (([] : List ItemType).forM f) d () d' ↔ d = d' := by
  have hnil : ([] : List ItemType).forM f = pure () := rfl
  rw [hnil, yields_pure]
  simp

/-- A slot without a type takes any type of its kind. -/
theorem exists_yields_narrow_of_none
    (hslot : d.slots[i]? = some slot)
    (htype : slot.type = none)
    (hkind : ∀ known, slot.kind.itemKind = some known → known = type.kind) :
    ∃ d', Yields (narrow i type) d () d' := by
  rcases yields_or_fails (narrow i type) d with ⟨_, d', hyields⟩ | ⟨fault, hfails⟩
  · exact ⟨d', hyields⟩
  · rcases of_fails_narrow hslot hfails with ⟨known, hknown, hne, -⟩ | ⟨existing, hexisting, -⟩
    · exact absurd (hkind known hknown) hne
    · rw [htype] at hexisting
      cases hexisting

/-- A slot with a type takes any related type. -/
theorem exists_yields_narrow_of_some
    (hslot : d.slots[i]? = some slot)
    (htype : slot.type = some existing)
    (hkind : slot.kind = .ofKind existing.kind)
    (hnarrowed : existing.narrowest type = some u) :
    ∃ d', Yields (narrow i type) d () d' := by
  rcases yields_or_fails (narrow i type) d with ⟨_, d', hyields⟩ | ⟨fault, hfails⟩
  · exact ⟨d', hyields⟩
  · rcases of_fails_narrow hslot hfails with ⟨known, hknown, hne, -⟩ | ⟨t, ht, hunrelated, -⟩
    · rw [hkind, itemKind_ofKind] at hknown
      exact absurd ((Option.some.inj hknown).symm.trans (ItemType.kind_of_narrowest hnarrowed).1) hne
    · obtain rfl : existing = t := Option.some.inj (htype.symm.trans ht)
      exact absurd (ItemType.related_of_narrowest hnarrowed) hunrelated

/-- A slot with a type that has been narrowed by further types has what is left of them as its type. -/
theorem of_yields_narrow_forM
    (hslot : d.slots[i]? = some slot)
    (htype : slot.type = some existing)
    (h : Yields (list.forM (narrow i)) d () d') :
    ∃ u slot', list.foldlM ItemType.narrowest existing = some u ∧ d'.slots[i]? = some slot' ∧
      slot'.type = some u := by
  induction list generalizing d slot existing with
  | nil =>
      obtain rfl := yields_forM_nil.mp h
      exact ⟨existing, slot, rfl, hslot, htype⟩
  | cons t list ih =>
      obtain ⟨e, hfirst, hrest⟩ := yields_forM_cons.mp h
      obtain ⟨-, w, ⟨hnone, -⟩ | ⟨old, hold, hnarrowed⟩, hset⟩ := yields_narrow hslot hfirst
      · rw [htype] at hnone
        cases hnone
      · obtain rfl : existing = old := Option.some.inj (htype.symm.trans hold)
        rw [List.foldlM_cons, hnarrowed]
        exact ih hset.self rfl hrest

/-- A slot with a type can be narrowed by further types as long as the type can. -/
theorem exists_yields_narrow_forM
    (hslot : d.slots[i]? = some slot)
    (htype : slot.type = some existing)
    (hkind : slot.kind = .ofKind existing.kind)
    (hfold : list.foldlM ItemType.narrowest existing = some u) :
    ∃ d', Yields (list.forM (narrow i)) d () d' := by
  induction list generalizing d slot existing with
  | nil => exact ⟨d, yields_forM_nil.mpr rfl⟩
  | cons t list ih =>
      rw [List.foldlM_cons] at hfold
      cases hnarrowed : existing.narrowest t with
      | none =>
          rw [hnarrowed] at hfold
          cases hfold
      | some w =>
          rw [hnarrowed] at hfold
          obtain ⟨e, hfirst⟩ := exists_yields_narrow_of_some hslot htype hkind hnarrowed
          obtain ⟨-, w', ⟨hnone, -⟩ | ⟨old, hold, hnarrowed'⟩, hset⟩ := yields_narrow hslot hfirst
          · rw [htype] at hnone
            cases hnone
          · obtain rfl : existing = old := Option.some.inj (htype.symm.trans hold)
            obtain rfl : w = w' := Option.some.inj (hnarrowed.symm.trans hnarrowed')
            have hkind' : SlotKind.ofKind t.kind = .ofKind w.kind := by
              rw [(ItemType.kind_of_narrowest hnarrowed).2]
            obtain ⟨d', hrest⟩ := ih hset.self rfl hkind' hfold
            exact ⟨d', yields_forM_cons.mpr ⟨e, hfirst, hrest⟩⟩

/--
A slot without a type that is narrowed by several types gets what is left of them as its type, and the
narrowing succeeds whenever something is left.
-/
theorem narrow_forM_of_none
    (hslot : d.slots[i]? = some slot)
    (htype : slot.type = none)
    (hkind : ∀ known, slot.kind.itemKind = some known → ∀ t ∈ list.head?, known = t.kind)
    (hne : list ≠ []) :
    ((∃ d', Yields (list.forM (narrow i)) d () d') ↔ ∃ u, ItemType.narrowAll list = some u) ∧
      ∀ d', Yields (list.forM (narrow i)) d () d' → ∃ u slot', ItemType.narrowAll list = some u ∧
        d'.slots[i]? = some slot' ∧ slot'.type = some u := by
  cases list with
  | nil => exact absurd rfl hne
  | cons t list =>
      obtain ⟨e, hfirst⟩ := exists_yields_narrow_of_none hslot htype fun known hknown =>
        hkind known hknown t rfl
      have hopened : ∀ e, Yields (narrow i t) d () e →
          Sets d i { slot with kind := .ofKind t.kind, type := some t } e := by
        intro e he
        obtain ⟨-, w, ⟨-, rfl⟩ | ⟨old, hold, -⟩, hset⟩ := yields_narrow hslot he
        · exact hset
        · rw [htype] at hold
          cases hold
      have hfound : ∀ d', Yields ((t :: list).forM (narrow i)) d () d' →
          ∃ u slot', ItemType.narrowAll (t :: list) = some u ∧ d'.slots[i]? = some slot' ∧
            slot'.type = some u := by
        intro d' hyields
        obtain ⟨e, he, hrest⟩ := yields_forM_cons.mp hyields
        exact of_yields_narrow_forM (hopened e he).self rfl hrest
      refine ⟨⟨?_, ?_⟩, hfound⟩
      · rintro ⟨d', hyields⟩
        obtain ⟨u, -, hu, -⟩ := hfound d' hyields
        exact ⟨u, hu⟩
      · rintro ⟨u, hu⟩
        obtain ⟨d', hrest⟩ := exists_yields_narrow_forM (hopened e hfirst).self rfl rfl hu
        exact ⟨d', yields_forM_cons.mpr ⟨e, hfirst, hrest⟩⟩

end Lowering

namespace Vocabulary

/--
As long as there are no more types than there are numbers for them, the types that have been declared
form a forest: being a subtype is an order among them that holds within one kind only, and the supertypes
of a type are a chain.  Narrowing types one by one succeeds exactly when every two of them are related, and
gives the one among them that is a subtype of all, whatever their order; and so does narrowing a slot by
them.
-/
theorem narrowing_is_order_free
    {v : Vocabulary}
    {types : List ItemType}
    (hdeclared : Declared v types)
    (hfew : types.length ≤ 2 ^ 32) :
    (∀ t ∈ types, t.isA t = true) ∧
    (∀ t ∈ types, ∀ u ∈ types, ∀ w ∈ types, t.isA u = true → u.isA w = true → t.isA w = true) ∧
    (∀ t ∈ types, ∀ u ∈ types, t.isA u = true → u.isA t = true → t = u) ∧
    (∀ t ∈ types, ∀ u ∈ types, t.isA u = true → t.kind = u.kind) ∧
    (∀ w ∈ types, ItemType.AllRelated (types.filter (w.isA ·))) ∧
    ∀ list ⊆ types, list ≠ [] →
      ((∃ u, ItemType.narrowAll list = some u) ↔ ItemType.AllRelated list) ∧
      (ItemType.AllRelated list → ∃! u : ItemType, u.IsLowest list) ∧
      (∀ u, ItemType.narrowAll list = some u ↔ u.IsLowest list) ∧
      (∀ list', list.Perm list' → ItemType.narrowAll list' = ItemType.narrowAll list) ∧
      ∀ (d : Draft) (i : Nat) (slot : Slot), d.slots[i]? = some slot → slot.type = none →
        (∀ known, slot.kind.itemKind = some known → ∀ t ∈ list.head?, known = t.kind) →
        ((∃ d', Lowering.Yields (list.forM (Lowering.narrow i)) d () d') ↔
          ItemType.AllRelated list) ∧
        ∀ d', Lowering.Yields (list.forM (Lowering.narrow i)) d () d' →
          ∃ u slot', u.IsLowest list ∧ d'.slots[i]? = some slot' ∧ slot'.type = some u := by
  have h : Holds v types := hdeclared.holds hfew
  refine ⟨fun t ht => hdeclared.isA_refl ht, fun t ht u hu w _ => h.mediates hu t ht w,
    fun t ht u hu => h.isA_antisymm ht hu, fun t _ u _ htu => ((ItemType.isA_iff t u).mp htu).1,
    fun w hw => ?_, fun list hlist hne => ?_⟩
  · intro t ht u hu
    rw [List.mem_filter] at ht hu
    exact h.related hw ht.1 hu.1 ht.2 hu.2
  · have hiff := h.exists_narrowAll_iff hlist hne
    have hlowest : ∀ u, ItemType.narrowAll list = some u ↔ u.IsLowest list := fun u =>
      h.narrowAll_eq_some_iff hlist
    refine ⟨hiff, fun hrelated => ?_, hlowest, fun list' => h.narrowAll_perm hlist,
      fun d i slot hslot htype hkind => ?_⟩
    · obtain ⟨u, hu⟩ := hiff.mpr hrelated
      refine ⟨u, (hlowest u).mp hu, fun w hw => ?_⟩
      exact Option.some.inj (((hlowest w).mpr hw).symm.trans hu)
    · obtain ⟨hsucceeds, hfound⟩ := Lowering.narrow_forM_of_none hslot htype hkind hne
      refine ⟨hsucceeds.trans hiff, fun d' hyields => ?_⟩
      obtain ⟨u, slot', hu, hrest⟩ := hfound d' hyields
      exact ⟨u, slot', (hlowest u).mp hu, hrest⟩

/--
Dogs and cats are animals.  Nodes, dogs and animals are narrowed to dogs, in any order; dogs, nodes and
cats are narrowed to nothing, although nodes are related to both.
-/
theorem narrowing_to_dogs :
    let animal := roots.declare "Animal" (Typ.root .node)
    let dog := animal.2.declare "Dog" animal.1
    let cat := dog.2.declare "Cat" animal.1
    let types : List ItemType :=
      [.node cat.1, .node dog.1, .node animal.1, .root .node, .root .edge]
    let related : List ItemType := [.root .node, .node dog.1, .node animal.1]
    let clashing : List ItemType := [.node dog.1, .root .node, .node cat.1]
    Declared cat.2 types ∧ types.length ≤ 2 ^ 32 ∧ related ⊆ types ∧ clashing ⊆ types ∧
      ItemType.narrowAll related = some (.node dog.1) ∧
      ItemType.narrowAll related.reverse = ItemType.narrowAll related ∧
      ¬∃ u, ItemType.narrowAll clashing = some u := by
  intro animal dog cat types related clashing
  have hanimal : Declared animal.2 [.node animal.1, .root .node, .root .edge] :=
    .declare "Animal" (Typ.root .node) .roots (by decide)
  have hdog : Declared dog.2 [.node dog.1, .node animal.1, .root .node, .root .edge] :=
    .declare "Dog" animal.1 hanimal (by decide)
  have hcat : Declared cat.2 types := .declare "Cat" animal.1 hdog (by decide)
  have hfew : types.length ≤ 2 ^ 32 := by decide
  have hrelated : related ⊆ types := by decide
  have hclashing : clashing ⊆ types := by decide
  obtain ⟨-, -, -, -, -, hnarrowing⟩ := narrowing_is_order_free hcat hfew
  obtain ⟨-, -, hlowest, horder, -⟩ := hnarrowing related hrelated (by decide)
  obtain ⟨hsucceeds, -⟩ := hnarrowing clashing hclashing (by decide)
  refine ⟨hcat, hfew, hrelated, hclashing, (hlowest _).mpr ⟨by decide, by decide⟩,
    horder _ (List.reverse_perm related).symm, ?_⟩
  rw [hsucceeds]
  intro hall
  exact absurd (hall (.node dog.1) (by decide) (.node cat.1) (by decide)) (by decide)

/--
Once more types have been declared than there are numbers, the numbers begin again, and the next type gets
that of the root of nodes.  When it is declared below animals, it has the identity of an ancestor of its
parent: animals and the new type are each a subtype of the other, and narrowing them depends on the order.
-/
theorem narrowing_after_last_number :
    ∃ (v : Vocabulary) (types : List ItemType) (animal last : NodeType),
      Declared v types ∧ types.length = 2 ^ 32 + 1 ∧
      ItemType.node animal ∈ types ∧ ItemType.node last ∈ types ∧ animal ≠ last ∧
      animal.isA last = true ∧ last.isA animal = true ∧
      ItemType.narrowAll [.node animal, .node last] = some (.node animal) ∧
      ItemType.narrowAll [.node last, .node animal] = some (.node last) := by
  let animal := roots.declare "Animal" (Typ.root .node)
  have hanimal : Declared animal.2 [.node animal.1, .root .node, .root .edge] :=
    .declare "Animal" (Typ.root .node) .roots (by decide)
  obtain ⟨v, types, hdeclared, hnext, hlength, hsub⟩ :=
    hanimal.exists_more animal.1 (by decide) (2 ^ 32 - 3)
  have hzero : v = ⟨0⟩ := by
    cases v
    exact congrArg Vocabulary.mk (hnext.trans (by decide))
  subst hzero
  have hmem : ItemType.node animal.1 ∈ types := hsub (by decide)
  refine ⟨_, _, animal.1, _, hdeclared.declare "Last" animal.1 hmem, ?_, List.mem_cons_of_mem _ hmem,
    List.mem_cons_self, by decide, by decide, by decide, by decide, by decide⟩
  rw [List.length_cons, hlength]
  simp

end Vocabulary

end PatternGraph
