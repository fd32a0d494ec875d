import Mathlib.Data.List.Nodup
import PatternGraph.Query.Rows

/-!
# Filling a row

A row is filled slot by slot: the item of a slot goes to every place recorded on the slot.  A place holds
what was put there last.  So where each place of a shape is recorded on one slot, once, and no other place
is recorded, all places are filled, each with the item of its slot, and nothing is out of range.
-/

namespace PatternGraph

theorem Shape.nodup_positions (shape : Shape) : shape.positions.Nodup := by
  cases shape with
  | single => exact List.nodup_singleton _
  | list length => exact List.nodup_range.map fun i j h => Position.index.inj h
  | record keys ascending =>
      have hkeys : keys.Nodup := ascending.imp fun {a b} hlt heq => by simp [heq] at hlt
      exact hkeys.map fun k k' h => Position.key.inj h

namespace Layout

theorem eq_of_values {α : Type} {a b : Layout α} (hshape : a.shape = b.shape)
    (hvalues : a.values = b.values) : a = b := by
  cases a
  cases b
  cases hshape
  cases hvalues
  rfl

/-- Keys that ascend are known by which keys there are. -/
theorem eq_of_ascending {keys keys' : List String}
    (h : keys.Pairwise fun a b => compare a b = .lt)
    (h' : keys'.Pairwise fun a b => compare a b = .lt)
    (hmem : ∀ k, k ∈ keys ↔ k ∈ keys') : keys = keys' := by
  have hnodup : ∀ {keys : List String}, (keys.Pairwise fun a b => compare a b = .lt) → keys.Nodup :=
    fun hkeys => hkeys.imp fun {a b} hlt heq => by simp [heq] at hlt
  refine ((List.perm_ext_iff_of_nodup (hnodup h) (hnodup h')).mpr hmem).eq_of_pairwise ?_ h h'
  intro a b _ _ hab hba
  have hswap : compare a b = (compare b a).swap := Std.OrientedCmp.eq_swap
  rw [hswap, hba] at hab
  cases hab

/-- Entries with tags, collected tag by tag. -/
theorem perm_flatMap_filter {α β : Type} [BEq β] [LawfulBEq β] {tags : List β} {l : List (α × β)}
    (hnodup : tags.Nodup) (h : ∀ x ∈ l, x.2 ∈ tags) :
    (tags.flatMap fun b => l.filter (·.2 == b)).Perm l := by
  induction tags generalizing l with
  | nil =>
      obtain rfl : l = [] := List.eq_nil_iff_forall_not_mem.mpr fun x hx => List.not_mem_nil (h x hx)
      rfl
  | cons b tags ih =>
      obtain ⟨hb, hnodup⟩ := List.nodup_cons.mp hnodup
      have hothers : ∀ x ∈ l.filter (fun x => !x.2 == b), x.2 ∈ tags := by
        intro x hx
        obtain ⟨hmem, hne⟩ := List.mem_filter.mp hx
        rcases List.mem_cons.mp (h x hmem) with hsame | htags
        · simp [hsame] at hne
        · exact htags
      have hsame : (tags.flatMap fun a => l.filter (·.2 == a)) =
          tags.flatMap fun a => (l.filter fun x => !x.2 == b).filter (·.2 == a) := by
        refine List.flatMap_congr fun a ha => ?_
        rw [List.filter_filter]
        refine List.filter_congr fun x _ => ?_
        by_cases hx : x.2 = a
        · have hne : a ≠ b := fun heq => hb (heq ▸ ha)
          simp [hx, hne]
        · simp [hx]
      rw [List.flatMap_cons, hsame]
      exact ((ih hnodup hothers).append_left _).trans (List.filter_append_perm _ l)

/-- The places of a layout, collected value by value. -/
theorem perm_positionsOf {α : Type} [BEq α] [LawfulBEq α] {layout : Layout α} {tags : List α}
    (hnodup : tags.Nodup) (h : ∀ a ∈ layout.values, a ∈ tags) :
    (tags.flatMap layout.positionsOf).Perm layout.shape.positions := by
  have hplaces : layout.places.map Prod.fst = layout.shape.positions :=
    List.map_fst_zip (Nat.le_of_eq layout.fits.symm)
  have hperm := (perm_flatMap_filter (l := layout.places) hnodup fun place hplace =>
    h _ (List.of_mem_zip hplace).2).map Prod.fst
  rwa [List.map_flatMap, hplaces] at hperm

/-- A value stands where one of its places is in the shape. -/
theorem getElem?_of_mem_positionsOf {α : Type} [BEq α] [LawfulBEq α] {layout : Layout α} {a : α}
    {q : Position} {k : Nat} (hq : q ∈ layout.positionsOf a)
    (hk : layout.shape.positions[k]? = some q) : layout.values[k]? = some a := by
  obtain ⟨⟨q', b⟩, hmem, rfl⟩ := List.mem_map.mp hq
  obtain ⟨hplace, hvalue⟩ := List.mem_filter.mp hmem
  obtain rfl : b = a := eq_of_beq hvalue
  obtain ⟨j, hj⟩ := List.mem_iff_getElem?.mp hplace
  obtain ⟨hposition, hb⟩ := List.getElem?_zip_eq_some.mp hj
  have hlt := (List.getElem?_eq_some_iff.mp hk).1
  rwa [(List.getElem?_inj hlt layout.shape.nodup_positions).mp (hk.trans hposition.symm)]

end Layout

namespace Tray

/-- What has been put in a place. -/
def get (tray : Tray) : Position → Option Item
  | .root => tray.root
  | .index i => tray.list[i]?.join
  | .key k => tray.entries[k]?

variable {tray tray' : Tray} {item : Item} {position : Position} {positions : List Position}

theorem size_put (h : put item tray position = .ok tray') : tray'.list.size = tray.list.size := by
  unfold put at h
  split at h
  · cases h
    rfl
  · split at h
    · cases h
      exact Array.size_setIfInBounds
    · cases h
  · cases h
    rfl

/-- A place holds what is put there, and the other places hold what they held. -/
theorem get_put (h : put item tray position = .ok tray') (q : Position) :
    tray'.get q = if q = position then some item else tray.get q := by
  unfold put at h
  split at h
  · cases h
    cases q <;> simp [get]
  · rename_i i
    split at h
    · rename_i hi
      cases h
      cases q with
      | root => simp [get]
      | key k => simp [get]
      | index j =>
          by_cases hij : i = j
          · subst hij
            simp [get, hi]
          · simp [get, hij, Ne.symm hij]
    · cases h
  · rename_i k
    cases h
    cases q with
    | root => simp [get]
    | index i => simp [get]
    | key k' =>
        simp only [get, Std.ExtTreeMap.getElem?_insert, Std.LawfulEqCmp.compare_eq_iff_eq,
          Position.key.injEq, eq_comm (a := k)]

theorem exists_put (item : Item) (h : ∀ i, position = .index i → i < tray.list.size) :
    ∃ tray', put item tray position = .ok tray' := by
  cases position with
  | root => exact ⟨_, rfl⟩
  | index i => exact ⟨_, if_pos (h i rfl)⟩
  | key k => exact ⟨_, rfl⟩

/-- Putting an item in several places fills them, and leaves the others. -/
theorem of_foldlM_put (h : positions.foldlM (put item) tray = .ok tray') :
    tray'.list.size = tray.list.size ∧
      ∀ q, tray'.get q = if q ∈ positions then some item else tray.get q := by
  induction positions generalizing tray with
  | nil =>
      cases h
      exact ⟨rfl, fun q => (if_neg List.not_mem_nil).symm⟩
  | cons position positions ih =>
      rw [List.foldlM_cons] at h
      cases hput : put item tray position with
      | error fault =>
          rw [hput] at h
          cases h
      | ok between =>
          rw [hput] at h
          obtain ⟨hsize, hget⟩ := ih h
          refine ⟨hsize.trans (size_put hput), fun q => ?_⟩
          rw [hget, get_put hput]
          by_cases hq : q ∈ positions
          · simp [hq]
          · simp [hq]

theorem exists_foldlM_put (item : Item) (h : ∀ i, .index i ∈ positions → i < tray.list.size) :
    ∃ tray', positions.foldlM (put item) tray = .ok tray' := by
  induction positions generalizing tray with
  | nil => exact ⟨tray, rfl⟩
  | cons position positions ih =>
      have hfirst : ∃ tray', put item tray position = .ok tray' :=
        exists_put item fun i hi => h i (hi ▸ List.mem_cons_self)
      obtain ⟨between, hput⟩ := hfirst
      have hrest : ∃ tray', positions.foldlM (put item) between = .ok tray' := by
        refine ih fun i hi => ?_
        rw [size_put hput]
        exact h i (List.mem_cons_of_mem _ hi)
      obtain ⟨tray', htray⟩ := hrest
      refine ⟨tray', ?_⟩
      rw [List.foldlM_cons, hput]
      exact htray

theorem get_empty (shape : Shape) (q : Position) : (empty shape).get q = none := by
  cases shape with
  | single => cases q <;> simp [empty, get]
  | record keys ascending => cases q <;> simp [empty, get]
  | list length =>
      cases q with
      | root => rfl
      | key k => simp [empty, get]
      | index i =>
          simp only [empty, get, Array.getElem?_replicate]
          split <;> rfl

/-- There is room for every place of a list. -/
theorem lt_size_empty {shape : Shape} {j : Nat} (h : .index j ∈ shape.positions) :
    j < (empty shape).list.size := by
  cases shape with
  | single => simp [Shape.positions] at h
  | record keys ascending => simp [Shape.positions] at h
  | list length => simpa [Shape.positions, empty] using h

theorem listed_eq {items : List Item} (i : Nat) : listed (items.map some) i = .ok items := by
  induction items generalizing i with
  | nil => rfl
  | cons item items ih => simp [listed, ih, Except.map]

/-- The values of a record, key by key. -/
theorem values_ofMap {entries : Std.ExtTreeMap String Item} {f : String → Item}
    (h : ∀ k ∈ entries.keys, entries[k]? = some (f k)) :
    (Layout.ofMap entries).values = entries.keys.map f := by
  rw [← Std.ExtTreeMap.map_fst_toList_eq_keys, List.map_map]
  refine List.map_congr_left fun entry hentry => ?_
  have hvalue : entries[entry.1]? = some entry.2 :=
    Std.ExtTreeMap.mem_toList_iff_getElem?_eq_some.mp hentry
  have hkey : entry.1 ∈ entries.keys := by
    rw [← Std.ExtTreeMap.map_fst_toList_eq_keys]
    exact List.mem_map_of_mem hentry
  exact Option.some.inj (hvalue.symm.trans (h entry.1 hkey))

/-- A tray is a row when all places of the shape have been filled, and no other keys. -/
theorem row_eq {shape : Shape} {f : Position → Item}
    (hsize : ∀ length, shape = .list length → tray.list.size = length)
    (hfilled : ∀ p ∈ shape.positions, tray.get p = some (f p))
    (hkeys : ∀ k, (tray.get (.key k)).isSome → .key k ∈ shape.positions) :
    tray.row shape = .ok ⟨shape, shape.positions.map f, by simp [Shape.size]⟩ := by
  cases shape with
  | single =>
      have hroot : tray.root = some (f .root) := hfilled .root List.mem_cons_self
      rw [row, hroot]
      rfl
  | list length =>
      have hlist : tray.list.toList = ((List.range length).map fun i => f (.index i)).map some := by
        refine List.ext_getElem (by simp [hsize length rfl]) fun i hi hi' => ?_
        have hlt : i < length := by simpa using hi'
        have hget : tray.list[i]?.join = some (f (.index i)) :=
          hfilled (.index i) (List.mem_map_of_mem (List.mem_range.mpr hlt))
        have hin : i < tray.list.size := by simpa using hi
        simpa [hin] using hget
      rw [row, hlist, listed_eq]
      refine congrArg Except.ok (Layout.eq_of_values ?_ ?_)
      · simp [Layout.list]
      · simp [Layout.list, Shape.positions]
  | record keys ascending =>
      have hmem : ∀ k, k ∈ tray.entries.keys ↔ k ∈ keys := by
        intro k
        rw [Std.ExtTreeMap.mem_keys, ← Std.ExtTreeMap.isSome_getElem?_iff_mem]
        refine ⟨fun hk => ?_, fun hk => ?_⟩
        · simpa [Shape.positions] using hkeys k hk
        · have hget : tray.entries[k]? = some (f (.key k)) := hfilled (.key k) (List.mem_map_of_mem hk)
          rw [hget]
          rfl
      obtain rfl : tray.entries.keys = keys :=
        Layout.eq_of_ascending Std.ExtTreeMap.ordered_keys ascending hmem
      have hnone : (tray.entries.keys.find? fun key => !tray.entries.contains key) = none := by
        rw [List.find?_eq_none]
        intro k hk
        simpa using Std.ExtTreeMap.mem_keys.mp hk
      rw [row, hnone]
      refine congrArg Except.ok (Layout.eq_of_values rfl ?_)
      refine (values_ofMap fun k hk => ?_).trans (List.map_map.symm)
      exact hfilled (.key k) (List.mem_map_of_mem hk)

theorem length_of_listed {slots : List (Option Item)} {i : Nat} {items : List Item}
    (h : listed slots i = .ok items) : items.length = slots.length := by
  induction slots generalizing i items with
  | nil =>
      cases h
      rfl
  | cons slot slots ih =>
      cases slot with
      | none => cases h
      | some item =>
          rw [listed] at h
          cases hrest : listed slots (i + 1) with
          | error fault =>
              rw [hrest] at h
              cases h
          | ok rest =>
              rw [hrest] at h
              obtain rfl := Except.ok.inj h
              rw [List.length_cons, List.length_cons, ih hrest]

/-- The shape of what has been filled, for a row of a given shape. -/
def filled (tray : Tray) : Shape → Shape
  | .single => .single
  | .list _ => .list tray.list.size
  | .record .. => .record tray.entries.keys Std.ExtTreeMap.ordered_keys

theorem shape_of_row {shape : Shape} {r : Row} (h : tray.row shape = .ok r) :
    r.shape = tray.filled shape := by
  cases shape with
  | single =>
      rw [row] at h
      split at h
      · cases h
        rfl
      · cases h
  | list length =>
      rw [row] at h
      cases hitems : listed tray.list.toList 0 with
      | error fault =>
          rw [hitems] at h
          cases h
      | ok items =>
          rw [hitems] at h
          obtain rfl := Except.ok.inj h
          exact congrArg Shape.list (length_of_listed hitems)
  | record keys ascending =>
      rw [row] at h
      split at h
      · cases h
      · obtain rfl := Except.ok.inj h
        rfl

/-- Which keys have been filled decides about the shape of a record, and not what they hold. -/
theorem filled_congr
    (hsize : tray.list.size = tray'.list.size)
    (hkeys : ∀ k, (tray.get (.key k)).isSome ↔ (tray'.get (.key k)).isSome)
    (shape : Shape) :
    tray.filled shape = tray'.filled shape := by
  cases shape with
  | single => rfl
  | list length => rw [filled, filled, hsize]
  | record keys ascending =>
      have hsame : tray.entries.keys = tray'.entries.keys := by
        refine Layout.eq_of_ascending Std.ExtTreeMap.ordered_keys Std.ExtTreeMap.ordered_keys
          fun k => ?_
        rw [Std.ExtTreeMap.mem_keys, Std.ExtTreeMap.mem_keys,
          ← Std.ExtTreeMap.isSome_getElem?_iff_mem, ← Std.ExtTreeMap.isSome_getElem?_iff_mem]
        exact hkeys k
      simp only [filled, hsame]

end Tray

namespace Slots

variable {row : Bindings} {slots : List Slot} {i : Nat} {tray tray' : Tray}

/-- What is done for one slot before the others are seen to. -/
theorem of_scatter_cons
    {slot : Slot}
    (h : scatter row (slot :: slots) i tray = .ok tray') :
    ∃ between, scatter row slots (i + 1) between = .ok tray' ∧ between.list.size = tray.list.size ∧
      (∀ q ∈ slot.outputs, (lookup row i).isSome) ∧
      ∀ q, between.get q = if q ∈ slot.outputs then lookup row i else tray.get q := by
  rw [scatter] at h
  split at h
  · rename_i hnone
    rw [List.isEmpty_iff] at hnone
    exact ⟨tray, h, rfl, by simp [hnone], by simp [hnone]⟩
  · cases hlookup : lookup row i with
    | none =>
        rw [hlookup] at h
        cases h
    | some item =>
        rw [hlookup] at h
        cases hput : slot.outputs.foldlM (Tray.put item) tray with
        | error fault =>
            simp only [hput, bind, Except.bind] at h
            cases h
        | ok between =>
            simp only [hput, bind, Except.bind] at h
            obtain ⟨hsize, hget⟩ := Tray.of_foldlM_put hput
            exact ⟨between, h, hsize, fun _ _ => rfl, hget⟩

theorem size_of_scatter (h : scatter row slots i tray = .ok tray') :
    tray'.list.size = tray.list.size := by
  induction slots generalizing i tray with
  | nil =>
      cases h
      rfl
  | cons slot slots ih =>
      obtain ⟨between, hrest, hsize, -⟩ := of_scatter_cons h
      exact (ih hrest).trans hsize

/-- The places in which slots are shown are filled, and no others. -/
theorem isSome_get_of_scatter (h : scatter row slots i tray = .ok tray') (q : Position) :
    (tray'.get q).isSome ↔ q ∈ slots.flatMap Slot.outputs ∨ (tray.get q).isSome := by
  induction slots generalizing i tray with
  | nil =>
      cases h
      simp
  | cons slot slots ih =>
      obtain ⟨between, hrest, -, hbound, hget⟩ := of_scatter_cons h
      rw [ih hrest, hget, List.flatMap_cons, List.mem_append]
      by_cases hq : q ∈ slot.outputs
      · simp [hq, hbound q hq]
      · simp [hq]

theorem get_of_scatter_of_not_mem
    {q : Position}
    (h : scatter row slots i tray = .ok tray')
    (hq : q ∉ slots.flatMap Slot.outputs) :
    tray'.get q = tray.get q := by
  induction slots generalizing i tray with
  | nil =>
      cases h
      rfl
  | cons slot slots ih =>
      obtain ⟨between, hrest, -, -, hget⟩ := of_scatter_cons h
      rw [List.flatMap_cons, List.mem_append, not_or] at hq
      rw [ih hrest hq.2, hget, if_neg hq.1]

/-- A place that is recorded on one slot only holds the item of this slot. -/
theorem get_of_scatter_of_mem
    {k : Nat}
    {slot : Slot}
    {q : Position}
    (h : scatter row slots i tray = .ok tray')
    (hnodup : (slots.flatMap Slot.outputs).Nodup)
    (hslot : slots[k]? = some slot)
    (hq : q ∈ slot.outputs) :
    tray'.get q = lookup row (i + k) := by
  induction slots generalizing i tray k with
  | nil => cases hslot
  | cons first slots ih =>
      obtain ⟨between, hrest, -, -, hget⟩ := of_scatter_cons h
      rw [List.flatMap_cons, List.nodup_append] at hnodup
      obtain ⟨-, hnodup, hapart⟩ := hnodup
      cases k with
      | zero =>
          obtain rfl : first = slot := Option.some.inj hslot
          rw [get_of_scatter_of_not_mem hrest fun hmem => hapart q hq q hmem rfl, hget, if_pos hq]
          rfl
      | succ k =>
          rw [ih hrest hnodup hslot, Nat.add_right_comm, Nat.add_assoc]

/-- Slots that are bound can be shown in places that are in range. -/
theorem exists_scatter
    (hbound : ∀ (k : Nat) (slot : Slot), slots[k]? = some slot → slot.outputs ≠ [] →
      ∃ item, lookup row (i + k) = some item)
    (hinside : ∀ j, .index j ∈ slots.flatMap Slot.outputs → j < tray.list.size) :
    ∃ tray', scatter row slots i tray = .ok tray' := by
  induction slots generalizing i tray with
  | nil => exact ⟨tray, rfl⟩
  | cons slot slots ih =>
      have hbound' : ∀ (k : Nat) (slot : Slot), slots[k]? = some slot → slot.outputs ≠ [] →
          ∃ item, lookup row (i + 1 + k) = some item := by
        intro k slot hslot hshown
        rw [Nat.add_assoc, Nat.add_comm 1 k]
        exact hbound (k + 1) slot hslot hshown
      rw [scatter]
      by_cases hnone : slot.outputs = []
      · rw [if_pos (List.isEmpty_iff.mpr hnone)]
        exact ih hbound' fun j hj => hinside j (List.mem_append_right _ hj)
      · rw [if_neg fun hempty => hnone (List.isEmpty_iff.mp hempty)]
        obtain ⟨item, hitem⟩ := hbound 0 slot rfl hnone
        have hfirst : ∃ tray', slot.outputs.foldlM (Tray.put item) tray = .ok tray' :=
          Tray.exists_foldlM_put item fun j hj => hinside j (List.mem_append_left _ hj)
        obtain ⟨between, hput⟩ := hfirst
        have hrest : ∃ tray', scatter row slots (i + 1) between = .ok tray' := by
          refine ih hbound' fun j hj => ?_
          rw [(Tray.of_foldlM_put hput).1]
          exact hinside j (List.mem_append_right _ hj)
        obtain ⟨tray', htray⟩ := hrest
        rw [Nat.add_zero] at hitem
        refine ⟨tray', ?_⟩
        simp only [hitem, hput, bind, Except.bind]
        exact htray

variable {s : Slots}

/-- Whether each place of the rows is recorded on one slot, once, and no other place is recorded. -/
def Placed (s : Slots) : Prop :=
  (s.slots.toList.flatMap Slot.outputs).Perm s.shape.positions

/-- What is shown in a place is shown there by the slot that is listed for it. -/
theorem Placed.exists_slot {q : Position} (h : s.Placed) (hq : q ∈ s.shape.positions) :
    ∃ slot, s.slots.toList[s.slots.toList.findIdx (·.outputs.contains q)]? = some slot ∧
      q ∈ slot.outputs := by
  obtain ⟨slot, hslot, hmem⟩ := List.mem_flatMap.mp (h.mem_iff.mpr hq)
  have hlt : s.slots.toList.findIdx (·.outputs.contains q) < s.slots.toList.length :=
    List.findIdx_lt_length.mpr ⟨slot, hslot, List.contains_iff_mem.mpr hmem⟩
  refine ⟨_, List.getElem?_eq_getElem hlt, List.contains_iff_mem.mp ?_⟩
  exact List.findIdx_getElem (w := hlt)

/-- A row that binds every slot is laid out in the shape, with the items of the slots that are shown. -/
theorem Placed.project_eq (h : s.Placed) (hbound : ∀ i < s.size, ∃ item, lookup row i = some item) :
    s.project row = .ok (s.outputs.map fun i => (lookup row i).getD default) := by
  have hnodup : (s.slots.toList.flatMap Slot.outputs).Nodup := h.nodup_iff.mpr s.shape.nodup_positions
  have hlt : ∀ {k : Nat} {slot : Slot}, s.slots.toList[k]? = some slot → k < s.size :=
    fun hslot => Nat.lt_of_lt_of_eq (List.getElem?_eq_some_iff.mp hslot).1 Array.length_toList
  have hroom : ∀ length, s.shape = .list length → (Tray.empty s.shape).list.size = length := by
    rintro length hshape
    simp [hshape, Tray.empty]
  have hinside : ∀ j, .index j ∈ s.slots.toList.flatMap Slot.outputs →
      j < (Tray.empty s.shape).list.size :=
    fun j hj => Tray.lt_size_empty (h.mem_iff.mp hj)
  obtain ⟨tray, hscatter⟩ := exists_scatter (i := 0) (fun k slot hslot _ => by
    rw [Nat.zero_add]
    exact hbound k (hlt hslot)) hinside
  have hrow : tray.row s.shape = .ok ⟨s.shape, s.shape.positions.map fun q =>
      (lookup row (s.slots.toList.findIdx (·.outputs.contains q))).getD default,
        by simp [Shape.size]⟩ := by
    refine Tray.row_eq (fun length hshape => ?_) (fun q hq => ?_) fun k hk => ?_
    · rw [size_of_scatter hscatter, hroom length hshape]
    · obtain ⟨slot, hslot, hshown⟩ := h.exists_slot hq
      obtain ⟨item, hitem⟩ := hbound _ (hlt hslot)
      rw [get_of_scatter_of_mem hscatter hnodup hslot hshown, Nat.zero_add, hitem]
      rfl
    · rw [isSome_get_of_scatter hscatter, Tray.get_empty] at hk
      exact h.mem_iff.mp (hk.resolve_right nofun)
  simp only [project, hscatter, hrow, bind, Except.bind]
  refine congrArg Except.ok (Layout.eq_of_values rfl ?_)
  change _ = s.outputs.values.map fun i => (lookup row i).getD default
  have hvalues : s.outputs.values =
      s.shape.positions.map fun q => s.slots.toList.findIdx (·.outputs.contains q) := rfl
  rw [hvalues, List.map_map]
  rfl

/-- All that one table of slots shows has one shape. -/
theorem shape_of_project {row' : Bindings} {r r' : Row} (h : s.project row = .ok r)
    (h' : s.project row' = .ok r') : r.shape = r'.shape := by
  have hfilled : ∀ {row : Bindings} {r : Row}, s.project row = .ok r →
      ∃ tray, scatter row s.slots.toList 0 (.empty s.shape) = .ok tray ∧
        r.shape = tray.filled s.shape := by
    intro row r h
    rw [project] at h
    cases hscatter : scatter row s.slots.toList 0 (.empty s.shape) with
    | error fault =>
        rw [hscatter] at h
        cases h
    | ok tray =>
        rw [hscatter] at h
        exact ⟨tray, rfl, Tray.shape_of_row h⟩
  obtain ⟨tray, hscatter, hshape⟩ := hfilled h
  obtain ⟨tray', hscatter', hshape'⟩ := hfilled h'
  rw [hshape, hshape']
  refine Tray.filled_congr ?_ (fun k => ?_) s.shape
  · rw [size_of_scatter hscatter, size_of_scatter hscatter']
  · rw [isSome_get_of_scatter hscatter, isSome_get_of_scatter hscatter']

end Slots

end PatternGraph
