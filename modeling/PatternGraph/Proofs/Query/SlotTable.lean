import PatternGraph.Proofs.Query.Linking

/-!
# The table of slots

What planning, searching and projecting take for granted about the slots of a query, brought together:
every slot is known by one name, and no name of a user is among those that are made up; a slot asks
for items of one kind; slots are linked on both sides; and each place of a row is recorded on one slot.
-/

namespace PatternGraph

namespace Slots

variable {s : Slots} {query : Query} {slot : Slot}

/-- The number of each slot under its name, where of several slots with one name the last counts. -/
def byName (s : Slots) : Std.HashMap String Nat :=
  .ofList (s.slots.toList.zipIdx.map fun entry => (entry.1.name, entry.2))

/-- Whether the slots of a query can be relied on by all that works with them. -/
structure WellBuilt (s : Slots) (query : Query) : Prop where
  named : (s.slots.toList.map Slot.name).Nodup
  byName : ∀ (x : String) (i : Nat), s.byName[x]? = some i ↔
    ∃ slot, s.slots[i]? = some slot ∧ slot.name = x
  indexOf : ∀ x, s.indexOf? x = s.byName[x]?
  /-- A slot with a name that is not made up is a user's. -/
  user : ∀ slot ∈ s.slots, slot.anonymous = false → IsUserName slot.name
  made : ∀ slot ∈ s.slots, slot.anonymous = true → (∃ k : Nat, slot.name = "#" ++ toString k) ∨
    ∃ item, slot.pinned = some item ∧ slot.name = "@" ++ item.text
  /-- No name in the query is that of a slot whose name is made up. -/
  asked : ∀ x ∈ query.names, ∃ i slot, s.byName[x]? = some i ∧ s.slots[i]? = some slot ∧
    slot.anonymous = false
  known : ∀ slot ∈ s.slots, slot.kind ≠ .unknown
  ofOneKind : ∀ slot ∈ s.slots, slot.OfOneKind
  joins : ∀ (i : Nat) (slot : Slot) (role : Role), s.slots[i]? = some slot →
    ∀ j ∈ slot.partners role, ∃ kind other, slot.kind = .ofKind kind ∧
      s.slots[j]? = some other ∧ other.kind = .ofKind kind.other
  /-- One slot lists another one as often as that one lists it in the opposite role. -/
  returned : ∀ (i j : Nat) (a b : Slot) (role : Role), s.slots[i]? = some a → s.slots[j]? = some b →
    (a.partners role.opposite).count j = (b.partners role).count i
  ends : ∀ slot ∈ s.slots, slot.kind = .edge → slot.ends.length ≤ 2
  shape : s.shape = query.shape
  /-- The places recorded on all slots together are those of the query. -/
  recorded : (s.slots.toList.flatMap Slot.outputs).Perm query.shape.positions
  once : (s.slots.toList.flatMap Slot.outputs).Nodup

/-- Looking a name up in the table finds the slot with that name. -/
theorem Named.byName_eq_some (h : s.Named) (x : String) (i : Nat) :
    s.byName[x]? = some i ↔ ∃ slot, s.slots[i]? = some slot ∧ slot.name = x := by
  have hkeys : (s.slots.toList.zipIdx.map fun entry => (entry.1.name, entry.2)).map Prod.fst =
      s.slots.toList.map Slot.name := by
    conv_rhs => rw [← List.zipIdx_map_fst 0 s.slots.toList]
    rw [List.map_map, List.map_map]
    rfl
  have hentry : ∀ {i : Nat} {slot : Slot}, s.slots[i]? = some slot →
      s.byName[slot.name]? = some i := by
    intro i slot hslot
    refine Std.HashMap.getElem?_ofList_of_mem (beq_self_eq_true _) ?_ ?_
    · have hnames : (s.slots.toList.map Slot.name).Nodup := h
      rw [← hkeys] at hnames
      exact (List.pairwise_map.mp hnames).imp fun hne => beq_eq_false_iff_ne.mpr hne
    · refine List.mem_map.mpr ⟨(slot, i), List.mem_zipIdx_iff_getElem?.mpr ?_, rfl⟩
      simpa using hslot
  constructor
  · intro hfound
    have hmem : x ∈ s.slots.toList.map Slot.name := by
      by_contra habsent
      have hnone : s.byName[x]? = none :=
        Std.HashMap.getElem?_ofList_of_contains_eq_false (by rw [hkeys]; simpa using habsent)
      rw [hnone] at hfound
      cases hfound
    obtain ⟨slot, hslot, rfl⟩ := List.mem_map.mp hmem
    obtain ⟨j, hj⟩ := Array.mem_iff_getElem?.mp (Array.mem_toList_iff.mp hslot)
    obtain rfl : j = i := Option.some.inj ((hentry hj).symm.trans hfound)
    exact ⟨slot, hj, rfl⟩
  · rintro ⟨slot, hslot, rfl⟩
    exact hentry hslot

theorem Named.indexOf?_eq_byName (h : s.Named) (x : String) : s.indexOf? x = s.byName[x]? := by
  cases hindex : s.indexOf? x with
  | some i =>
      rw [indexOf?, Array.findIdx?_eq_some_iff_getElem] at hindex
      obtain ⟨hlt, hname, -⟩ := hindex
      exact ((h.byName_eq_some x i).mpr
        ⟨_, Array.getElem?_eq_getElem hlt, by simpa using hname⟩).symm
  | none =>
      rw [indexOf?, Array.findIdx?_eq_none_iff] at hindex
      refine (Option.eq_none_iff_forall_ne_some.mpr fun i hi => ?_).symm
      obtain ⟨slot, hslot, hname⟩ := (h.byName_eq_some x i).mp hi
      have := hindex slot (Array.mem_of_getElem? hslot)
      simp [hname] at this

end Slots

namespace Query

variable {query : Query} {s : Slots} {tags : List Place} {slot : Slot} {i : Nat} {x : String}

/-- The slots of a query are linked as nodes and edges are. -/
theorem linked_of_lower (h : query.lower = .ok s) : ∃ d : Draft, d.slots = s.slots ∧ d.Linked := by
  unfold lower at h
  split at h
  · cases h
  · rename_i d hrun
    obtain rfl := (Except.ok.inj h).symm
    exact ⟨d, rfl, Lowering.linked_of_yields_all hrun⟩

/-- A query that can be lowered has slots with places that they are named after. -/
theorem exists_bears (h : query.lower = .ok s) :
    ∃ tags, query.LowersTo [] s tags ∧ ∀ (i : Nat) (slot : Slot) (place : Place),
      s.slots[i]? = some slot → tags[i]? = some place → slot.Bears place :=
  lower_lowersTo_bears (fun _ ht => absurd ht List.not_mem_nil)
    (fun _ _ _ _ ht => absurd ht List.not_mem_nil) h

namespace LowersTo

variable {types : List ItemType}

theorem exists_slot_of_mem {place : Place} (h : query.LowersTo types s tags) (hplace : place ∈ tags) :
    ∃ (i : Nat) (slot : Slot), tags[i]? = some place ∧ s.slots[i]? = some slot := by
  obtain ⟨i, hi⟩ := List.mem_iff_getElem?.mp hplace
  have hlt : i < s.slots.size := h.length ▸ (List.getElem?_eq_some_iff.mp hi).1
  exact ⟨i, _, hi, Array.getElem?_eq_getElem hlt⟩

/-- Every name that occurs in a query has a slot. -/
theorem mem_tags_of_mem_names (h : query.LowersTo types s tags) (hx : x ∈ query.names) :
    .var (.name x) ∈ tags := by
  obtain ⟨kind, hmember⟩ : ∃ kind, .member (.name x) kind ∈ query.clauses := by
    rcases placed_or_topmost hx with hplaced | htop
    · by_cases hedge : x ∈ query.edgeNames
      · exact ⟨.edge, mem_edgeNames_iff.mp hedge⟩
      · exact exists_member_of_mem_placedNames hplaced hedge
    · exact h.exists_member_of_topmost htop
  exact h.subjects _ (mem_expand_member.mpr hmember)

end LowersTo

/-- Lowering a query gives slots that can be relied on. -/
theorem slots_well_built (h : query.lower = .ok s) : s.WellBuilt query := by
  obtain ⟨tags, hlowers, hbears⟩ := exists_bears h
  obtain ⟨d, hslots, hd⟩ := linked_of_lower h
  have hone : ∀ slot ∈ s.slots, slot.OfOneKind := hslots ▸ hd.ofOneKind
  have hmarked : ∀ slot ∈ s.slots, slot.Marked := hslots ▸ hd.marked
  have hnamed := named_of_lower h
  have hperm : (s.slots.toList.flatMap Slot.outputs).Perm query.shape.positions :=
    hlowers.shape ▸ hlowers.placed
  refine ⟨hnamed, hnamed.byName_eq_some, hnamed.indexOf?_eq_byName,
    fun slot hslot => (hmarked slot hslot).user, fun slot hslot hanonymous => ?_, fun x hx => ?_,
    hlowers.settled, hone, fun i slot role hslot j hj => ?_, ?_, fun slot hslot hkind => ?_,
    hlowers.shape, hperm, hperm.nodup_iff.mpr query.shape.nodup_positions⟩
  · rcases (hmarked slot hslot).made hanonymous with hnumber | ⟨item, hname, -⟩
    · exact Or.inl hnumber
    · obtain ⟨i, hi⟩ := Array.mem_iff_getElem?.mp hslot
      obtain ⟨place, hplace, -⟩ := hlowers.exists_tag hi
      have hslotBears := hbears i slot place hi hplace
      obtain ⟨p, hp, rfl⟩ := hslotBears.eq_item (by simp [hname])
      exact Or.inr ⟨p, hp, hslotBears.1⟩
  · obtain ⟨i, slot, hi, hslot⟩ := hlowers.exists_slot_of_mem (hlowers.mem_tags_of_mem_names hx)
    obtain ⟨hname, hhash, hat⟩ := hbears i slot _ hslot hi
    refine ⟨i, slot, (hnamed.byName_eq_some x i).mpr ⟨slot, hslot, hname⟩, hslot, ?_⟩
    cases hanonymous : slot.anonymous with
    | false => rfl
    | true =>
        rcases (hmarked slot (Array.mem_of_getElem? hslot)).made hanonymous with ⟨k, hk⟩ | ⟨item, hk, -⟩
        · exact absurd (by simp [← hname, hk]) hhash
        · exact absurd (by simp [← hname, hk]) hat
  · obtain ⟨kind, hkind, other, hother, hotherKind⟩ := hd.joins i slot role (hslots ▸ hslot) j hj
    exact ⟨kind, other, hkind, hslots ▸ hother, hotherKind⟩
  · exact hslots ▸ hd.returned
  · obtain ⟨i, hi⟩ := Array.mem_iff_getElem?.mp hslot
    obtain ⟨place, -, hfits⟩ := hlowers.exists_tag hi
    exact hfits.ends (by simp [hkind])

/-- A name, an exact item, an unnamed node, the edges between them, and one edge with two ends. -/
theorem slots_of_record_well_built :
    ∃ s, lower (.record [
        ("left", .nodeFragment (.any (.root .node)) (some "a") [] [(.leadsTo, .nodeType (.root .node)),
          (.joinedWith, .reference "e")]),
        ("middle", .edgeFragment (.any (.root .edge)) (some "e") [] [(.joinedWith, .node ⟨⟨1⟩, .root .node⟩)]),
        ("right", .reference "a")]) = .ok s ∧
      s.WellBuilt (.record [
        ("left", .nodeFragment (.any (.root .node)) (some "a") [] [(.leadsTo, .nodeType (.root .node)),
          (.joinedWith, .reference "e")]),
        ("middle", .edgeFragment (.any (.root .edge)) (some "e") [] [(.joinedWith, .node ⟨⟨1⟩, .root .node⟩)]),
        ("right", .reference "a")]) := by
  obtain ⟨c, hc, -⟩ := exists_of_compiles (.record [
    ("left", .nodeFragment (.any (.root .node)) (some "a") [] [(.leadsTo, .nodeType (.root .node)),
      (.joinedWith, .reference "e")]),
    ("middle", .edgeFragment (.any (.root .edge)) (some "e") [] [(.joinedWith, .node ⟨⟨1⟩, .root .node⟩)]),
    ("right", .reference "a")]) (fun _ => true) (by decide +kernel)
  exact ⟨c.slots, (of_compile hc).1, slots_well_built (of_compile hc).1⟩

end Query

end PatternGraph
