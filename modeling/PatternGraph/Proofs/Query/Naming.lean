import PatternGraph.Proofs.Query.Matches
import Std.Data.String.ToNat

/-!
# The names of slots

A lowering gives every slot a name of its own: a user's name never looks like one that is made up,
and made-up names are told apart by a number or by the item that they are for.  A lowering that fails
does so for a reason that lies in the query.  Both are said by one contract, which every step of a
lowering meets, and which composed lowerings inherit.

As every slot is found under its name, and the slots of a query are well-formed, planning never
fails.
-/

namespace PatternGraph

/-- Whether a draft has told its slots apart, and has names left for the unnamed slots to come. -/
structure Draft.Distinct (d : Draft) : Prop where
  names : (d.slots.toList.map Slot.name).Nodup
  unused : ∀ slot ∈ d.slots, ∀ k, d.unnamed ≤ k → slot.name ≠ "#" ++ toString k

namespace Draft.Distinct

variable {d : Draft}

theorem empty : Draft.empty.Distinct :=
  ⟨List.nodup_nil, by simp [Draft.empty]⟩

/-- Changing a slot in anything but its name. -/
theorem modify (h : d.Distinct) {f : Slot → Slot} (hf : ∀ slot, (f slot).name = slot.name) (i : Nat) :
    Draft.Distinct { d with slots := d.slots.modify i f } := by
  have hsame : (d.slots.modify i f).toList.map Slot.name = d.slots.toList.map Slot.name := by
    rw [Array.toList_modify]
    apply List.ext_getElem?
    intro j
    rw [List.getElem?_map, List.getElem?_map, List.getElem?_modify]
    cases d.slots.toList[j]? with
    | none => rfl
    | some slot =>
        by_cases hj : i = j
        · simp [hj, hf]
        · simp [hj]
  constructor
  · rw [hsame]
    exact h.names
  · intro slot hslot k hk
    have hmem : slot.name ∈ d.slots.toList.map Slot.name := by
      rw [← hsame]
      exact List.mem_map_of_mem (Array.mem_toList_iff.mpr hslot)
    obtain ⟨old, hold, hname⟩ := List.mem_map.mp hmem
    rw [← hname]
    exact h.unused old (Array.mem_toList_iff.mp hold) k hk

/-- Adding a slot with a new name, after which fewer names may be left for unnamed slots. -/
theorem push
    {slot : Slot}
    {unnamed : Nat}
    (h : d.Distinct)
    (hnew : ∀ old ∈ d.slots, old.name ≠ slot.name)
    (hle : d.unnamed ≤ unnamed)
    (hunused : ∀ k, unnamed ≤ k → slot.name ≠ "#" ++ toString k) :
    Draft.Distinct { d with slots := d.slots.push slot, unnamed := unnamed } := by
  constructor
  · rw [Array.toList_push, List.map_append, List.nodup_append]
    refine ⟨h.names, List.nodup_singleton _, ?_⟩
    rintro name hname other hother rfl
    obtain ⟨old, hold, rfl⟩ := List.mem_map.mp hname
    rw [List.map_singleton, List.mem_singleton] at hother
    exact hnew old (Array.mem_toList_iff.mp hold) hother
  · intro other hother k hk
    rcases Array.mem_push.mp hother with hother | rfl
    · exact h.unused other hother k (hle.trans hk)
    · exact hunused k hk

end Draft.Distinct

namespace Lowering

variable {α β : Type} {m : Lowering α} {f : α → Lowering β}

/-- Whether a lowering step tells slots apart, and fails for reasons that lie in the query only. -/
def Proper (m : Lowering α) : Prop :=
  ∀ d : Draft, d.Distinct →
    match m.run d with
    | .ok (_, d') => d'.Distinct
    | .error fault => fault.category ≠ .internalConsistency

namespace Proper

theorem pure (a : α) : Proper (Pure.pure a) :=
  fun _ hd => hd

theorem get : Proper get :=
  fun _ hd => hd

theorem throw {fault : Fault} (hfault : fault.category ≠ .internalConsistency) :
    Proper (throw fault : Lowering α) :=
  fun _ _ => hfault

theorem bind (hm : Proper m) (hf : ∀ a, Proper (f a)) : Proper (m >>= f) := by
  intro d hd
  have hfirst := hm d hd
  rw [StateT.run_bind]
  cases hrun : m.run d with
  | error fault =>
      rw [hrun] at hfirst
      exact hfirst
  | ok r =>
      rw [hrun] at hfirst
      exact hf r.1 r.2 hfirst

theorem update {i : Nat} {change : Slot → Slot} (h : ∀ slot, (change slot).name = slot.name) :
    Proper (Lowering.update i change) :=
  fun _ hd => hd.modify h i

theorem slotAt (i : Nat) : Proper (Lowering.slotAt i) :=
  fun _ hd => hd

end Proper

section Steps

variable (i : Nat) (kind : Kind) (type : ItemType)

theorem checkKind_proper (expected : Option Kind) (found : Kind) (what : String) :
    Proper (checkKind expected found what) := by
  unfold checkKind
  split
  · exact .pure ()
  · split
    · exact .pure ()
    · exact .throw nofun

theorem requireKind_proper : Proper (requireKind i kind) := by
  refine .bind (.slotAt i) fun current => ?_
  split
  · exact .update fun _ => rfl
  · split
    · exact .pure ()
    · exact .throw nofun

theorem narrow_proper : Proper (narrow i type) := by
  refine .bind (requireKind_proper i type.kind) fun _ => .bind (.slotAt i) fun current => ?_
  split
  · exact .update fun _ => rfl
  · split
    · exact .throw nofun
    · exact .update fun _ => rfl

theorem exclude_proper : Proper (exclude i type) := by
  refine .bind (requireKind_proper i type.kind) fun _ => .update fun slot => ?_
  split <;> rfl

theorem pin_proper (item : Item) : Proper (pin i item) := by
  refine .bind (.slotAt i) fun current => ?_
  have hbind : Proper (do
      update i fun slot => { slot with pinned := some item }
      narrow i item.type) :=
    .bind (.update fun _ => rfl) fun _ => narrow_proper i item.type
  split
  · split
    · exact hbind
    · exact .bind (.throw nofun) fun _ => hbind
  · exact hbind

/-- A slot is opened under a name when there is none under it yet. -/
theorem lookup_proper
    {f : Draft → Lowering β}
    {opened : Nat → Lowering β}
    (slot : Slot)
    (hhash : slot.name.toList.head? ≠ some '#')
    (hopened : ∀ i, Proper (opened i))
    (hnone : ∀ d, d.indexOf? slot.name = none → f d = push slot >>= opened)
    (hsome : ∀ d i, d.indexOf? slot.name = some i → Proper (f d)) :
    Proper (get >>= f) := by
  intro d hd
  simp only [StateT.run_bind, StateT.run_get, pure_bind]
  cases hindex : d.indexOf? slot.name with
  | some i => exact hsome d i hindex d hd
  | none =>
      rw [hnone d hindex]
      refine hopened d.slots.size _ (hd.push (fun old hold hsame => ?_) le_rfl fun k _ hk => ?_)
      · obtain ⟨j, hj⟩ := Array.mem_iff_getElem?.mp hold
        exact ne_of_indexOf? hindex hj hsame
      · simp [hk] at hhash

/-- A name that passes the check is not one of those that are made up. -/
theorem checkName_bind_proper
    {name : String}
    {next : Lowering β}
    (hnext : name.toList.head? ≠ some '#' → Proper next) :
    Proper (do
      checkName name
      next) := by
  unfold checkName
  by_cases hblank : Text.isBlank name = true
  · rw [if_pos hblank]
    exact fun _ _ => nofun
  · rw [if_neg hblank]
    by_cases hreserved : name.toList.head? = some '#' ∨ name.toList.head? = some '@'
    · rw [if_pos hreserved]
      exact fun _ _ => nofun
    · rw [if_neg hreserved]
      exact hnext fun hhash => hreserved (Or.inl hhash)

theorem named_proper (name : String) (kind : Option Kind) : Proper (named name kind) := by
  refine checkName_bind_proper fun hhash =>
    lookup_proper (.fresh name (.ofKind? kind) false) hhash Proper.pure (fun d hindex => ?_)
      fun d i hindex => ?_
  · change d.indexOf? name = none at hindex
    rw [hindex, bind_pure]
  · change d.indexOf? name = some i at hindex
    rw [hindex]
    cases kind with
    | none => exact .pure i
    | some kind => exact .bind (requireKind_proper i kind) fun _ => .pure i

theorem pushUnnamed_proper : Proper (pushUnnamed kind) := by
  intro d hd
  refine hd.push (fun old hold => hd.unused old hold d.unnamed le_rfl) (Nat.le_succ _) ?_
  intro k hk hname
  have hsame : toString d.unnamed = toString k := (String.append_right_inj "#").mp hname
  have hnumber : d.unnamed = k := Nat.repr_injective hsame
  exact Nat.not_succ_le_self k (hnumber ▸ hk)

theorem pinned_proper (item : Item) (name : Option String) : Proper (pinned item name) := by
  have hpin : ∀ i, Proper (do
      pin i item
      return i) :=
    fun i => .bind (pin_proper i item) fun _ => .pure i
  cases name with
  | some name => exact .bind (named_proper name _) hpin
  | none =>
      refine lookup_proper (.fresh ("@" ++ item.text) (.ofKind item.kind) true) (by simp [Slot.fresh])
        hpin (fun d hindex => ?_) fun d i hindex => ?_
      · change d.indexOf? ("@" ++ item.text) = none at hindex
        rw [hindex]
      · change d.indexOf? ("@" ++ item.text) = some i at hindex
        rw [hindex]
        exact hpin i

theorem typed_proper (name : Option String) : Proper (typed type name) := by
  have hnarrow : ∀ i, Proper (do
      narrow i type
      return i) :=
    fun i => .bind (narrow_proper i type) fun _ => .pure i
  cases name with
  | some name => exact .bind (named_proper name _) hnarrow
  | none => exact .bind (pushUnnamed_proper _) hnarrow

theorem link_proper (node edge : Nat) (role : Role) : Proper (link node edge role) := by
  cases role with
  | source => exact .bind (.update fun _ => rfl) fun _ => .update fun _ => rfl
  | target => exact .bind (.update fun _ => rfl) fun _ => .update fun _ => rfl
  | endpoint =>
      refine .bind (.update fun _ => rfl) fun _ => .bind (.update fun _ => rfl) fun _ =>
        .bind (.slotAt edge) fun slot => ?_
      split
      · exact .throw nofun
      · exact .pure ()

theorem Proper.compositional : Compositional @Proper where
  pure := .pure
  bind := .bind
  slotAt := .slotAt
  checkKind := checkKind_proper
  requireKind := requireKind_proper
  exclude := exclude_proper
  named := named_proper
  typed := typed_proper
  pinned := pinned_proper
  link := link_proper
  putOff _ := fun _ hd => ⟨hd.names, hd.unused⟩

end Steps

theorem patterns_proper (entries : List (Position × Pattern)) : Proper (patterns entries) := by
  induction entries with
  | nil => exact .pure ()
  | cons entry rest ih =>
      exact .bind (Proper.compositional.pattern none entry.2) fun _ =>
        .bind (.update fun _ => rfl) fun _ => ih

theorem checkSettled_proper : Proper checkSettled := by
  refine .bind .get fun d => ?_
  split
  · exact .throw nofun
  · exact .pure ()

/-- Lowering the patterns of a query tells slots apart, and fails for the query's reasons only. -/
theorem all_proper (entries : List (Position × Pattern)) : Proper (all entries) :=
  .bind (patterns_proper entries) fun _ => .bind .get fun d =>
    .bind (Proper.compositional.resolve d.deferred) fun _ => checkSettled_proper

end Lowering

namespace Slots

variable {s : Slots}

/-- Whether no two slots have the same name. -/
def Named (s : Slots) : Prop :=
  (s.slots.toList.map Slot.name).Nodup

/-- When names are distinct, a slot is found under its name. -/
theorem Named.indexOf?_name
    {i : Nat}
    {slot : Slot}
    (h : s.Named)
    (hslot : s.slots[i]? = some slot) :
    s.indexOf? slot.name = some i := by
  obtain ⟨hi, hget⟩ := Array.getElem?_eq_some_iff.mp hslot
  rw [indexOf?, Array.findIdx?_eq_some_iff_getElem]
  refine ⟨hi, by simp [hget], fun j hj hsame => ?_⟩
  have hij : j = i := by
    have hjlt : j < (s.slots.toList.map Slot.name).length := by simp; omega
    have hilt : i < (s.slots.toList.map Slot.name).length := by simpa using hi
    have hnames : (s.slots.toList.map Slot.name)[j] = (s.slots.toList.map Slot.name)[i] := by
      simpa [hget] using hsame
    exact (List.Nodup.getElem_inj_iff h).mp hnames
  omega

theorem Named.isFound {i : Nat} (h : s.Named) (hi : i < s.size) : s.isFound i = true := by
  have hslot : s.slots[i]? = some s.slots[i] := Array.getElem?_eq_getElem hi
  simp [Slots.isFound, nameOf, hslot, h.indexOf?_name hslot]

theorem WellFormed.linkFault?_eq_none
    {edge : Slot}
    (hs : s.WellFormed)
    (hnames : s.Named)
    (hedge : edge ∈ s.slots) :
    s.linkFault? edge = none := by
  unfold linkFault?
  split
  · rename_i hkind
    obtain ⟨i, hi⟩ := Array.mem_iff_getElem?.mp hedge
    have hnodes : ∀ (role : Role), ∀ n ∈ edge.partners role, s.isFound n = true :=
      fun role n hn => hnames.isFound (hs.linked i edge role hi hkind n hn).lt_size
    rw [Option.map_eq_none_iff, List.find?_eq_none]
    intro n hn
    simp only [List.mem_append, or_assoc] at hn
    have hfound : s.isFound n = true := by
      rcases hn with hn | hn | hn
      · exact hnodes .source n hn
      · exact hnodes .target n hn
      · exact hnodes .endpoint n hn
    simp [hfound]
  · rfl

theorem WellFormed.pairFault?_eq_none
    (hs : s.WellFormed)
    (hnames : s.Named)
    (edge : Nat) :
    s.pairFault? edge = none := by
  cases hslot : s.slots[edge]? with
  | none => simp [pairFault?, hslot]
  | some slot =>
      by_cases hpair : slot.kind = .edge ∧ slot.ends.length = 2
      · have hends : slot.ends.find? (fun linked => !s.isFound linked) = none := by
          rw [List.find?_eq_none]
          intro n hn
          have hnode := hs.linked edge slot .endpoint hslot hpair.1 n hn
          simp [hnames.isFound hnode.lt_size]
        simp [pairFault?, hslot, hpair, hends]
      · simp [pairFault?, hslot, hpair]

/-- Nothing is wrong with a component of slots that are well-formed and told apart. -/
theorem WellFormed.component_fault?_eq_none
    {c : Component}
    (hs : s.WellFormed)
    (hnames : s.Named)
    (hc : c ∈ (Plan.ofSlots s).components) :
    c.fault? s = none := by
  have hcovers := hs.component_covers hc
  obtain ⟨l, hl, hslots⟩ : ∃ l, l < s.size ∧ c.slots = s.forest.classOf s.size l := by
    rw [hs.components_eq, List.mem_map] at hc
    obtain ⟨l, hl, rfl⟩ := hc
    exact ⟨l, (DisjointSet.mem_leaders.mp hl).1, rfl⟩
  have hconnected := hs.connected_classOf hl
  rw [← hslots] at hconnected
  obtain ⟨origin, rest, hcons⟩ := List.exists_cons_of_ne_nil hconnected.nonempty
  have horigin : origin < s.size := hconnected.inside origin (by simp [hcons])
  have hslot : s.slots[origin]? = some s.slots[origin] := Array.getElem?_eq_getElem horigin
  have htype : s.slots[origin].scanType.isNone = false := by
    unfold Slot.scanType
    rcases hs.settled origin horigin with ⟨slot, hslot', hkind⟩ | ⟨slot, hslot', hkind⟩
    all_goals
      obtain rfl : slot = s.slots[origin] := by simpa [hslot] using hslot'.symm
      cases s.slots[origin].type <;> simp [hkind, SlotKind.itemKind]
  have hreached : c.slots.find? (fun slot => !c.reaches slot) = none := by
    rw [List.find?_eq_none]
    intro x hx
    obtain ⟨step, hstep, hbinds⟩ := (Step.mem_boundBy _ x).mp ((hcovers.binds x).mpr hx)
    have hreach : c.reaches x = true := List.any_eq_true.mpr ⟨step, hstep, by simp [hbinds]⟩
    simp [hreach]
  have hpairs : c.slots.findSome? s.pairFault? = none :=
    List.findSome?_eq_none_iff.mpr fun edge _ => hs.pairFault?_eq_none hnames edge
  unfold Component.fault?
  rw [hcons] at hreached hpairs ⊢
  simp only [hslot, htype, hreached, hpairs]
  rfl

/-- Slots that are well-formed and told apart can always be planned. -/
theorem WellFormed.make_eq (hs : s.WellFormed) (hnames : s.Named) :
    Plan.make s = .ok (Plan.ofSlots s) := by
  have hlinks : s.slots.toList.findSome? s.linkFault? = none :=
    List.findSome?_eq_none_iff.mpr fun edge hedge =>
      hs.linkFault?_eq_none hnames (Array.mem_toList_iff.mp hedge)
  have hcomponents : (Plan.ofSlots s).components.findSome? (Component.fault? s) = none :=
    List.findSome?_eq_none_iff.mpr fun c hc => hs.component_fault?_eq_none hnames hc
  simp [Plan.make, Plan.fault?, hlinks, hcomponents]

end Slots

namespace Query

variable {query : Query} {s : Slots}

/-- The slots of a query are told apart by their names. -/
theorem named_of_lower (h : query.lower = .ok s) : s.Named := by
  have hproper := Lowering.all_proper (Layout.places query) .empty .empty
  unfold lower at h
  split at h
  · cases h
  · rename_i d hrun
    rw [hrun] at hproper
    cases h
    exact hproper.names

/-- A query that cannot be lowered is itself at fault. -/
theorem category_of_lower {fault : Fault} (h : query.lower = .error fault) :
    fault.category ≠ .internalConsistency := by
  have hproper := Lowering.all_proper (Layout.places query) .empty .empty
  unfold lower at h
  split at h
  · rename_i fault' hrun
    rw [hrun] at hproper
    cases h
    exact hproper
  · cases h

/-- A query that can be lowered can be planned. -/
theorem make_of_lower (h : query.lower = .ok s) : Plan.make s = .ok (Plan.ofSlots s) :=
  (wellFormed_of_lower h).make_eq (named_of_lower h)

/-- A query that can be lowered compiles. -/
theorem exists_compile_of_lower (h : query.lower = .ok s) :
    ∃ c, query.compile = .ok c ∧ c.slots = s := by
  refine ⟨⟨s, Plan.ofSlots s⟩, ?_, rfl⟩
  simp only [compile, h, make_of_lower h, bind, Except.bind]
  rfl

/-- Compiling a query fails for reasons that lie in the query only. -/
theorem category_of_compile {fault : Fault} (h : query.compile = .error fault) :
    fault.category ≠ .internalConsistency := by
  unfold compile at h
  cases hlower : query.lower with
  | error fault' =>
      rw [hlower] at h
      cases h
      exact category_of_lower hlower
  | ok s =>
      simp only [hlower, make_of_lower hlower, Except.bind, bind] at h
      cases h

end Query

end PatternGraph
