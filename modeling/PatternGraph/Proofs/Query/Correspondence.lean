import PatternGraph.Proofs.Query.Acceptance
import PatternGraph.Proofs.Query.Renaming

/-!
# The same slots under other numbers

Queries whose clauses differ by a renaming and in their order are lowered to the same slots, except
for the numbers of the slots and for the names that are made up for them.
-/

namespace PatternGraph

/-- Whether a slot is another one, when slots have other numbers and made up names. -/
structure Slot.Corresponds (types : List ItemType) (f : Nat → Nat) (slot slot' : Slot) : Prop where
  name : IsUserName slot.name → slot'.name = slot.name
  kind : slot'.kind = slot.kind
  accepts : ∀ item, item.type ∈ types → slot'.accepts item = slot.accepts item
  partners : slot.kind = .edge → ∀ role, (slot'.partners role).Perm ((slot.partners role).map f)

/-- Whether slots are other slots one to one, when each is given the number that `f` tells. -/
structure Slots.Corresponds (types : List ItemType) (f : Nat → Nat) (s s' : Slots) : Prop where
  size : s'.size = s.size
  injective : ∀ i j, i < s.size → j < s.size → f i = f j → i = j
  slot : ∀ i slot, s.slots[i]? = some slot →
    ∃ slot', s'.slots[f i]? = some slot' ∧ slot.Corresponds types f slot'

theorem SlotKind.eq_of_itemKind {kind kind' : SlotKind}
    (h : ∀ k, kind'.itemKind = some k ↔ kind.itemKind = some k) : kind' = kind := by
  cases kind <;> cases kind' <;> simp_all [itemKind]

variable {ρ : Path → Path} {clauses clauses' : List (Clause Place)}

namespace Slot

variable {types : List ItemType} {tags tags' : List Place} {place : Place} {slot slot' : Slot}
  {f : Nat → Nat}

/-- Lists of numbers are the same in another order if what has these numbers is. -/
theorem perm_of_map_getElem?
    {l l' : List Nat}
    (hnodup : tags.Nodup)
    (hl : ∀ i ∈ l, tags[i]?.isSome)
    (h : (l.map fun i => tags[i]?).Perm (l'.map fun i => tags[i]?)) :
    l.Perm l' := by
  have hl' : ∀ i ∈ l', tags[i]?.isSome := by
    intro i hi
    obtain ⟨j, hj, heq⟩ := List.mem_map.mp (h.mem_iff.mpr (List.mem_map_of_mem hi))
    exact heq ▸ hl j hj
  have hback : ∀ l : List Nat, (∀ i ∈ l, tags[i]?.isSome) →
      (l.map fun i => tags[i]?).map (fun tag => tag.elim 0 fun place => tags.idxOf place) = l := by
    intro l hl
    rw [List.map_map]
    refine (List.map_congr_left fun i hi => ?_).trans (List.map_id l)
    obtain ⟨place, hplace⟩ := Option.isSome_iff_exists.mp (hl i hi)
    obtain ⟨hi, rfl⟩ := List.getElem?_eq_some_iff.mp hplace
    simp [hi, hnodup.idxOf_getElem]
  rw [← hback l hl, ← hback l' hl']
  exact h.map _

/-- Edge slots that fit the same clauses under other names list the slots of the same players. -/
theorem Fits.partners_perm
    (hρ : Function.Injective ρ)
    (hclauses : clauses'.Perm (clauses.map (Clause.relabel (Place.rename ρ) ρ)))
    (hfits : slot.Fits types tags clauses place)
    (hfits' : slot'.Fits types tags' clauses' (place.rename ρ))
    (hkind : slot.kind = .edge)
    (hkind' : slot'.kind = .edge)
    (htags : ∀ (i : Nat) (n : Place), tags[i]? = some n → tags'[f i]? = some (n.rename ρ))
    (hnodup : tags'.Nodup)
    (role : Role) :
    (slot'.partners role).Perm ((slot.partners role).map f) := by
  have hpartners := hfits.partners (by rw [hkind]; exact SlotKind.noConfusion) role
  have hpartners' := hfits'.partners (by rw [hkind']; exact SlotKind.noConfusion) role
  have hplayers := (Clause.players_perm_relabel (Place.rename_injective hρ) hclauses place role).map some
  have htag : ∀ i ∈ slot.partners role, ∃ n, tags[i]? = some n ∧ tags'[f i]? = some (n.rename ρ) := by
    intro i hi
    obtain ⟨n, -, hn⟩ := List.mem_map.mp (hpartners.mem_iff.mp (List.mem_map_of_mem hi))
    exact ⟨n, hn.symm, htags i n hn.symm⟩
  have hrenamed : ((slot.partners role).map f).map (fun i => tags'[i]?) =
      ((slot.partners role).map fun i => tags[i]?).map (Option.map (Place.rename ρ)) := by
    rw [List.map_map, List.map_map]
    refine List.map_congr_left fun i hi => ?_
    obtain ⟨n, hn, hn'⟩ := htag i hi
    simp [hn, hn']
  refine (perm_of_map_getElem? hnodup (fun i hi => ?_) ?_).symm
  · obtain ⟨j, hj, rfl⟩ := List.mem_map.mp hi
    obtain ⟨n, -, hn'⟩ := htag j hj
    rw [hn']
    rfl
  · rw [hrenamed]
    refine (hpartners.map _).trans (.trans ?_ hpartners'.symm)
    rw [List.map_map] at hplayers ⊢
    exact hplayers.symm

/-- Slots that fit the same clauses under other names correspond. -/
theorem Fits.corresponds
    {v : Vocabulary}
    (hv : v.Holds types)
    (hρ : Function.Injective ρ)
    (hclauses : clauses'.Perm (clauses.map (Clause.relabel (Place.rename ρ) ρ)))
    (hfits : slot.Fits types tags clauses place)
    (hfits' : slot'.Fits types tags' clauses' (place.rename ρ))
    (hbears : slot.Bears place)
    (hbears' : slot'.Bears (place.rename ρ))
    (hsettled : slot.kind ≠ .unknown)
    (htags : ∀ (i : Nat) (n : Place), tags[i]? = some n → tags'[f i]? = some (n.rename ρ))
    (hnodup : tags'.Nodup) :
    slot.Corresponds types f slot' := by
  have hmem : ∀ clause : Clause Place, clause.relabel (Place.rename ρ) ρ ∈ clauses' ↔
      clause ∈ clauses :=
    fun clause => hclauses.mem_iff.trans
      (List.mem_map_of_injective (Clause.relabel_injective (Place.rename_injective hρ) hρ))
  have hkind : slot'.kind = slot.kind := SlotKind.eq_of_itemKind fun k =>
    (hfits'.kind k).trans ((hmem (.member place k)).trans (hfits.kind k).symm)
  refine ⟨fun hname => ?_, hkind, fun item hitem => ?_, fun hedge =>
    hfits.partners_perm hρ hclauses hfits' hedge (hkind.trans hedge) htags hnodup⟩
  · obtain rfl := hbears.eq_name hname.2.1 hname.2.2
    exact hbears'.1
  · have hroot : item.type.isA (.root item.kind) = true := by
      have hroot := hv.isA_root hitem
      cases item <;> exact hroot
    rw [Bool.eq_iff_iff, hfits'.accepts_iff (hkind ▸ hsettled) hitem hroot,
      hfits.accepts_iff hsettled hitem hroot]
    exact and_congr (forall_congr' fun k => imp_congr_left (hmem (.member place k)))
      (and_congr (forall_congr' fun i => imp_congr_left (hmem (.same place i)))
        (and_congr (forall_congr' fun u => imp_congr_left (hmem (.isA place u)))
          (forall_congr' fun u => imp_congr_left (hmem (.isNot place u)))))

end Slot

namespace Query

variable {types : List ItemType} {query query' : Query} {s s' : Slots} {tags tags' : List Place}

/-- Places have slots if and only if the renamed places do. -/
theorem LowersTo.perm_tags
    (hρ : Function.Injective ρ)
    (hclauses : query'.clauses.Perm (query.clauses.map (Clause.rename ρ)))
    (h : query.LowersTo types s tags)
    (h' : query'.LowersTo types s' tags') :
    tags'.Perm (tags.map (Place.rename ρ)) := by
  have hexpanded := Clause.expand_perm_rename hclauses
  refine (List.perm_ext_iff_of_nodup h'.nodup (h.nodup.map (Place.rename_injective hρ))).mpr
    fun place => ?_
  constructor
  · intro hplace
    obtain ⟨kind, hmember⟩ := h'.member_of_mem hplace
    obtain ⟨clause, hclause, heq⟩ := List.mem_map.mp (hexpanded.mem_iff.mp hmember)
    obtain ⟨place, rfl, rfl⟩ := Clause.relabel_eq_iff.mp heq
    exact List.mem_map_of_mem (h.subjects _ hclause)
  · intro hplace
    obtain ⟨place, htag, rfl⟩ := List.mem_map.mp hplace
    obtain ⟨kind, hmember⟩ := h.member_of_mem htag
    exact h'.subjects _ (hexpanded.mem_iff.mpr (List.mem_map_of_mem hmember))

/-- Queries whose clauses differ by a renaming and in their order have corresponding slots. -/
theorem LowersTo.exists_corresponds
    {v : Vocabulary}
    (hv : v.Holds types)
    (hρ : Function.Injective ρ)
    (hclauses : query'.clauses.Perm (query.clauses.map (Clause.rename ρ)))
    (h : query.LowersTo types s tags)
    (h' : query'.LowersTo types s' tags')
    (hbears : ∀ (i : Nat) (slot : Slot) (place : Place), s.slots[i]? = some slot →
      tags[i]? = some place → slot.Bears place)
    (hbears' : ∀ (i : Nat) (slot : Slot) (place : Place), s'.slots[i]? = some slot →
      tags'[i]? = some place → slot.Bears place) :
    ∃ f, s.Corresponds types f s' ∧
      ∀ (i : Nat) (place : Place), tags[i]? = some place → tags'[f i]? = some (place.rename ρ) := by
  have hperm := LowersTo.perm_tags hρ hclauses h h'
  have hnumber : ∀ i : Nat, ∃ j : Nat, ∀ place : Place, tags[i]? = some place →
      tags'[j]? = some (place.rename ρ) := by
    intro i
    cases hplace : tags[i]? with
    | none => exact ⟨0, nofun⟩
    | some place =>
        have hmem := hperm.mem_iff.mpr (List.mem_map_of_mem (List.mem_of_getElem? hplace))
        obtain ⟨j, hj⟩ := List.mem_iff_getElem?.mp hmem
        exact ⟨j, fun _ heq => Option.some.inj heq ▸ hj⟩
  choose f hf using hnumber
  refine ⟨f, ⟨?_, fun i j hi hj heq => ?_, fun i slot hslot => ?_⟩, hf⟩
  · rw [Slots.size, Slots.size, ← h'.length, ← h.length, hperm.length_eq, List.length_map]
  · obtain ⟨p, hp, -⟩ := h.exists_tag (Array.getElem?_eq_getElem hi)
    obtain ⟨q, hq, -⟩ := h.exists_tag (Array.getElem?_eq_getElem hj)
    have hsame := hf i p hp
    rw [heq, hf j q hq, Option.some.injEq] at hsame
    obtain rfl := Place.rename_injective hρ hsame
    exact h.index_unique hp hq
  · obtain ⟨place, hplace, hfits⟩ := h.exists_tag hslot
    have hplace' := hf i place hplace
    obtain ⟨j, slot', hj, hslot'⟩ := h'.slot_of_mem (List.mem_of_getElem? hplace')
    obtain rfl := h'.index_unique hj hplace'
    exact ⟨slot', hslot', hfits.corresponds hv hρ (Clause.expand_perm_rename hclauses)
      (h'.fits _ _ _ hslot' hj) (hbears i slot place hslot hplace) (hbears' _ _ _ hslot' hj)
      (h.settled slot (Array.mem_of_getElem? hslot)) hf h'.nodup⟩

/-- The slot of a position is that of the variable at the position. -/
theorem LowersTo.tag_of_output
    {j : Nat}
    {x : Var}
    (h : query.LowersTo types s tags)
    (hx : query.vars.values[j]? = some x) :
    ∃ i, s.outputs.values[j]? = some i ∧ tags[i]? = some (.var x) := by
  have houtput := congrArg (fun l => l[j]?) h.outputs
  simp only [List.getElem?_map, hx, Option.map_some, Option.map_eq_some_iff] at houtput
  exact houtput

end Query

end PatternGraph
