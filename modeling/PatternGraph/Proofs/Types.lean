import Mathlib.Algebra.Group.Nat.Defs
import Mathlib.Data.List.Infix
import Mathlib.Data.List.Nodup
import PatternGraph.ItemType

/-!
# Declared types

The types that exist are the two roots and whatever has been declared below an existing type.  Each
knows the chain of its ancestors.  As long as the numbers last, each also has an identity of its own; the
chain of an ancestor is then the rest of the chain from there on, so that being a subtype is reflexive
and transitive.  Once a number is drawn for a second time, a type can be taken for an ancestor of its own
parent.
-/

namespace PatternGraph

namespace ItemType

/-- A type of a kind as a type of either kind. -/
def ofTyp : {kind : Kind} → Typ kind → ItemType
  | .node, t => .node t
  | .edge, t => .edge t

@[simp]
theorem id_ofTyp {kind : Kind} (t : Typ kind) : (ofTyp t).id = t.id := by
  cases kind <;> rfl

@[simp]
theorem ancestors_ofTyp {kind : Kind} (t : Typ kind) : (ofTyp t).ancestors = t.ancestors := by
  cases kind <;> rfl

@[simp]
theorem kind_ofTyp {kind : Kind} (t : Typ kind) : (ofTyp t).kind = kind := by
  cases kind <;> rfl

theorem isA_iff (t u : ItemType) :
    t.isA u = true ↔ t.kind = u.kind ∧ u.id ∈ t.ancestors := by
  cases t <;> cases u <;> simp [isA, Typ.isA, kind, id, ancestors]

/-- Whether what is below a type, among the given ones, is below all that the type is below. -/
def Mediates (types : List ItemType) (u : ItemType) : Prop :=
  ∀ t ∈ types, ∀ w, t.isA u = true → u.isA w = true → t.isA w = true

end ItemType

namespace Vocabulary

/-- The types that have been declared when a vocabulary is reached, the latest first. -/
inductive Declared : Vocabulary → List ItemType → Prop where
  | roots : Declared .roots [.root .node, .root .edge]
  | declare {v : Vocabulary} {types : List ItemType} {kind : Kind} (name : String)
      (parent : Typ kind) (hv : Declared v types) (hparent : .ofTyp parent ∈ types) :
      Declared (v.declare name parent).2 (.ofTyp (v.declare name parent).1 :: types)

/-- The types that exist in a vocabulary in which each of them has an identity of its own. -/
structure Holds (v : Vocabulary) (types : List ItemType) : Prop where
  declared : Declared v types
  distinct : (types.map ItemType.id).Nodup

@[simp]
theorem id_declare {kind : Kind} (v : Vocabulary) (name : String) (parent : Typ kind) :
    (v.declare name parent).1.id = ⟨v.next⟩ := rfl

@[simp]
theorem ancestors_declare {kind : Kind} (v : Vocabulary) (name : String) (parent : Typ kind) :
    (v.declare name parent).1.ancestors = ⟨v.next⟩ :: parent.ancestors := rfl

@[simp]
theorem next_declare {kind : Kind} (v : Vocabulary) (name : String) (parent : Typ kind) :
    (v.declare name parent).2.next = v.next + 1 := rfl

namespace Declared

variable {v : Vocabulary} {types : List ItemType} {t : ItemType}

/-- The chain of a type starts with the type itself. -/
theorem head?_ancestors (h : Declared v types) (ht : t ∈ types) : t.ancestors.head? = some t.id := by
  induction h with
  | roots =>
      simp only [List.mem_cons, List.not_mem_nil, or_false] at ht
      rcases ht with rfl | rfl
      · rfl
      · rfl
  | declare name parent hv hparent ih =>
      rcases List.mem_cons.mp ht with rfl | ht
      · simp
      · exact ih ht

theorem isA_refl (h : Declared v types) (ht : t ∈ types) : t.isA t = true := by
  rw [ItemType.isA_iff]
  exact ⟨rfl, List.mem_of_head? (h.head?_ancestors ht)⟩

/-- The chain of an ancestor, or of the latest type with its identity, is the rest of the chain. -/
theorem ancestors_suffix
    (h : Declared v types)
    (ht : t ∈ types)
    {id : TypeId}
    (hid : id ∈ t.ancestors) :
    ∃ u ∈ types, u.id = id ∧ u.kind = t.kind ∧ u.ancestors <:+ t.ancestors := by
  induction h generalizing t with
  | roots =>
      refine ⟨t, ht, ?_, rfl, List.suffix_rfl⟩
      simp only [List.mem_cons, List.not_mem_nil, or_false] at ht
      rcases ht with rfl | rfl
      · exact (List.mem_singleton.mp hid).symm
      · exact (List.mem_singleton.mp hid).symm
  | @declare v types kind name parent hv hparent ih =>
      rcases List.mem_cons.mp ht with rfl | ht
      · rw [ItemType.ancestors_ofTyp, ancestors_declare, List.mem_cons] at hid
        rcases hid with rfl | hid
        · exact ⟨_, List.mem_cons_self, by simp, rfl, List.suffix_rfl⟩
        · obtain ⟨u, hu, hsame, hkind, hsuffix⟩ := ih hparent (by simpa using hid)
          refine ⟨u, List.mem_cons_of_mem _ hu, hsame, by simpa using hkind, ?_⟩
          rw [ItemType.ancestors_ofTyp] at hsuffix
          rw [ItemType.ancestors_ofTyp, ancestors_declare]
          exact hsuffix.trans (List.suffix_cons _ _)
      · obtain ⟨u, hu, hrest⟩ := ih ht hid
        exact ⟨u, List.mem_cons_of_mem _ hu, hrest⟩

/-- The chain of a type ends with the root of its kind. -/
theorem isA_root (h : Declared v types) (ht : t ∈ types) : t.isA (.root t.kind) = true := by
  have hmem : ∀ u ∈ types, (ItemType.root u.kind).id ∈ u.ancestors := by
    clear ht
    induction h with
    | roots => simp [ItemType.root, Typ.root, ItemType.id, ItemType.ancestors, ItemType.kind]
    | declare name parent hv hparent ih =>
        intro u hu
        rcases List.mem_cons.mp hu with rfl | hu
        · have hroot := ih _ hparent
          rw [ItemType.kind_ofTyp, ItemType.ancestors_ofTyp] at hroot
          rw [ItemType.kind_ofTyp, ItemType.ancestors_ofTyp, ancestors_declare]
          exact List.mem_cons_of_mem _ hroot
        · exact ih u hu
  rw [ItemType.isA_iff]
  exact ⟨by cases t.kind <;> rfl, hmem t ht⟩

theorem root_mem (h : Declared v types) (kind : Kind) : .root kind ∈ types := by
  induction h with
  | roots => cases kind <;> simp
  | declare name parent hv hparent ih => exact List.mem_cons_of_mem _ ih

/-- The numbers are drawn one after the other. -/
theorem next_eq (h : Declared v types) : v.next = UInt32.ofNat types.length := by
  induction h with
  | roots => rfl
  | declare name parent hv hparent ih =>
      rw [next_declare, ih, List.length_cons, UInt32.ofNat_add]
      rfl

/-- As long as there are no more types than numbers, the latest type has the largest number. -/
theorem lt_length (h : Declared v types) (hfew : types.length ≤ 2 ^ 32) (ht : t ∈ types) :
    t.id.word.toNat < types.length := by
  induction h with
  | roots =>
      simp only [List.mem_cons, List.not_mem_nil, or_false] at ht
      rcases ht with rfl | rfl
      · decide
      · decide
  | declare name parent hv hparent ih =>
      rw [List.length_cons] at hfew ⊢
      rcases List.mem_cons.mp ht with rfl | ht
      · rw [ItemType.id_ofTyp, id_declare, hv.next_eq, UInt32.toNat_ofNat']
        exact Nat.lt_succ_of_le (Nat.mod_le _ _)
      · exact (ih (Nat.le_of_succ_le hfew) ht).trans (Nat.lt_succ_self _)

/-- Types have identities of their own as long as there are no more types than numbers. -/
theorem holds (h : Declared v types) (hfew : types.length ≤ 2 ^ 32) : v.Holds types := by
  refine ⟨h, ?_⟩
  induction h with
  | roots => decide
  | declare name parent hv hparent ih =>
      rw [List.length_cons] at hfew
      rw [List.map_cons, List.nodup_cons]
      refine ⟨fun hmem => ?_, ih (Nat.le_of_succ_le hfew)⟩
      obtain ⟨t, ht, hid⟩ := List.mem_map.mp hmem
      have hlt := hv.lt_length (Nat.le_of_succ_le hfew) ht
      rw [hid, ItemType.id_ofTyp, id_declare, hv.next_eq, UInt32.toNat_ofNat',
        Nat.mod_eq_of_lt (Nat.lt_of_succ_le hfew)] at hlt
      exact hlt.false

/-- However many types are declared, further ones can be declared below any of them. -/
theorem exists_more
    {kind : Kind}
    (parent : Typ kind)
    (h : Declared v types)
    (hparent : .ofTyp parent ∈ types)
    (n : Nat) :
    ∃ v' types', Declared v' types' ∧ v'.next = v.next + UInt32.ofNat n ∧
      types'.length = types.length + n ∧ types ⊆ types' := by
  induction n with
  | zero => exact ⟨v, types, h, by simp, rfl, List.Subset.refl _⟩
  | succ n ih =>
      obtain ⟨v', types', h', hnext, hlength, hsub⟩ := ih
      refine ⟨_, _, h'.declare "" parent (hsub hparent), ?_, ?_, List.subset_cons_of_subset _ hsub⟩
      · rw [next_declare, hnext, UInt32.ofNat_add, UInt32.add_assoc]
        rfl
      · rw [List.length_cons, hlength]
        omega

end Declared

namespace Holds

variable {v : Vocabulary} {types : List ItemType} {t u : ItemType}

theorem roots : Holds .roots [.root .node, .root .edge] :=
  ⟨.roots, by decide⟩

/-- An identity belongs to one type. -/
theorem eq_of_id (h : Holds v types) (ht : t ∈ types) (hu : u ∈ types) (hid : t.id = u.id) :
    t = u :=
  List.inj_on_of_nodup_map h.distinct ht hu hid

/-- Two types are the same when each is a subtype of the other: their chains are equally long. -/
theorem isA_antisymm
    (h : Holds v types)
    (ht : t ∈ types)
    (hu : u ∈ types)
    (htu : t.isA u = true)
    (hut : u.isA t = true) :
    t = u := by
  rw [ItemType.isA_iff] at htu hut
  obtain ⟨u', hu', hidu, -, hsuffixu⟩ := h.declared.ancestors_suffix ht htu.2
  obtain ⟨t', ht', hidt, -, hsuffixt⟩ := h.declared.ancestors_suffix hu hut.2
  obtain rfl := h.eq_of_id hu' hu hidu
  obtain rfl := h.eq_of_id ht' ht hidt
  have hchain : t'.ancestors = u'.ancestors :=
    hsuffixt.eq_of_length_le hsuffixu.length_le
  refine h.eq_of_id ht hu (Option.some.inj ?_)
  rw [← h.declared.head?_ancestors ht, ← h.declared.head?_ancestors hu, hchain]

/-- Being a subtype is transitive among the types that exist. -/
theorem mediates (h : Holds v types) (hu : u ∈ types) : u.Mediates types := by
  intro t ht w htu huw
  rw [ItemType.isA_iff] at htu huw ⊢
  obtain ⟨u', hu', hid, -, hsuffix⟩ := h.declared.ancestors_suffix ht htu.2
  obtain rfl := h.eq_of_id hu' hu hid
  exact ⟨htu.1.trans huw.1, hsuffix.subset huw.2⟩

/-- Of two ancestors of a type, one descends from the other. -/
theorem related
    {w : ItemType}
    (h : Holds v types)
    (hw : w ∈ types)
    (ht : t ∈ types)
    (hu : u ∈ types)
    (hwt : w.isA t = true)
    (hwu : w.isA u = true) :
    t.isA u = true ∨ u.isA t = true := by
  rw [ItemType.isA_iff] at hwt hwu
  obtain ⟨t', ht', hidt, -, hsuffixt⟩ := h.declared.ancestors_suffix hw hwt.2
  obtain ⟨u', hu', hidu, -, hsuffixu⟩ := h.declared.ancestors_suffix hw hwu.2
  obtain rfl := h.eq_of_id ht' ht hidt
  obtain rfl := h.eq_of_id hu' hu hidu
  have hkind : t'.kind = u'.kind := hwt.1.symm.trans hwu.1
  have ht := ((ItemType.isA_iff t' t').mp (h.declared.isA_refl ht')).2
  have hu := ((ItemType.isA_iff u' u').mp (h.declared.isA_refl hu')).2
  rcases List.suffix_or_suffix_of_suffix hsuffixt hsuffixu with hsuffix | hsuffix
  · exact Or.inr ((ItemType.isA_iff _ _).mpr ⟨hkind.symm, hsuffix.subset ht⟩)
  · exact Or.inl ((ItemType.isA_iff _ _).mpr ⟨hkind, hsuffix.subset hu⟩)

/-- Every type descends from the root of its kind. -/
theorem isA_root (h : Holds v types) (ht : t ∈ types) : t.isA (.root t.kind) = true :=
  h.declared.isA_root ht

theorem root_mem (h : Holds v types) (kind : Kind) : .root kind ∈ types :=
  h.declared.root_mem kind

end Holds

end Vocabulary

end PatternGraph
