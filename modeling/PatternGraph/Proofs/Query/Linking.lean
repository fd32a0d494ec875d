import PatternGraph.Proofs.Query.Acceptance
import PatternGraph.Proofs.Query.Naming

/-!
# How slots are linked

The slots of a lowered query are the nodes and the edges of a graph, drawn on both sides: a node slot
lists the edge slots that it is linked with, and these list it as often.  While a lowering is under
way some kinds are not known yet and some relations have been put off, so what holds throughout is
said of the draft: links join slots of known and different kinds, and a relation that has been put
off starts at a node slot.  A step may settle a kind and add slots, and takes nothing of that back.
-/

namespace PatternGraph

/-- The other one of the two kinds. -/
def Kind.other : Kind → Kind
  | .node => .edge
  | .edge => .node

theorem Role.opposite_opposite (role : Role) : role.opposite.opposite = role := by
  cases role <;> rfl

theorem Role.opposite_eq_iff {role role' : Role} : role.opposite = role' ↔ role = role'.opposite := by
  cases role <;> cases role' <;> decide

/-- Whether the type, the exact item and the exclusions of a slot are of the slot's kind. -/
structure Slot.OfOneKind (slot : Slot) : Prop where
  type : ∀ t, slot.type = some t → slot.kind = .ofKind t.kind
  pinned : ∀ item, slot.pinned = some item → slot.kind = .ofKind item.kind
  excluded : ∀ t ∈ slot.excluded, slot.kind = .ofKind t.kind

/-- Whether a slot's name is a user's, or else a number or an item of the slot's kind, made up. -/
structure Slot.Marked (slot : Slot) : Prop where
  user : slot.anonymous = false → IsUserName slot.name
  made : slot.anonymous = true → (∃ k : Nat, slot.name = "#" ++ toString k) ∨
    ∃ item : Item, slot.name = "@" ++ item.text ∧ slot.kind = .ofKind item.kind

open Lowering (HasKind Yields)

/-- Whether the slots of a draft are linked as nodes and edges are, on both sides. -/
structure Draft.Linked (d : Draft) : Prop where
  ofOneKind : ∀ slot ∈ d.slots, slot.OfOneKind
  marked : ∀ slot ∈ d.slots, slot.Marked
  joins : ∀ (i : Nat) (slot : Slot) (role : Role), d.slots[i]? = some slot →
    ∀ j ∈ slot.partners role, ∃ kind, slot.kind = .ofKind kind ∧ HasKind j kind.other d
  returned : ∀ (i j : Nat) (a b : Slot) (role : Role), d.slots[i]? = some a → d.slots[j]? = some b →
    (a.partners role.opposite).count j = (b.partners role).count i
  deferred : ∀ entry ∈ d.deferred, HasKind entry.1 .node d ∧ entry.2.1 < d.slots.size

/-- Whether every slot of a draft is still there in another one, with its kind if that is known. -/
structure Draft.Extends (d d' : Draft) : Prop where
  size : d.slots.size ≤ d'.slots.size
  hasKind : ∀ {i : Nat} {kind : Kind}, HasKind i kind d → HasKind i kind d'

/-- Whether a slot may take the place of another one: it is named and linked in the same way. -/
structure Slot.Refines (new old : Slot) : Prop where
  name : new.name = old.name
  anonymous : new.anonymous = old.anonymous
  partners : new.partners = old.partners
  kind : ∀ kind, old.kind = .ofKind kind → new.kind = .ofKind kind
  ofOneKind : new.OfOneKind

/-- Whether a slot is another one that is linked with more slots. -/
structure Slot.Gains (new old : Slot) (more : Role → List Nat) : Prop where
  name : new.name = old.name
  anonymous : new.anonymous = old.anonymous
  kind : new.kind = old.kind
  type : new.type = old.type
  pinned : new.pinned = old.pinned
  excluded : new.excluded = old.excluded
  partners : ∀ role, new.partners role = old.partners role ++ more role

namespace Slot

variable {slot new old : Slot} {more more' : Role → List Nat}

theorem OfOneKind.fresh (name : String) (kind : SlotKind) (anonymous : Bool) :
    (Slot.fresh name kind anonymous).OfOneKind :=
  ⟨nofun, nofun, nofun⟩

theorem Refines.refl (h : slot.OfOneKind) : slot.Refines slot :=
  ⟨rfl, rfl, rfl, fun _ hkind => hkind, h⟩

theorem Marked.refines (h : old.Marked) (hnew : new.Refines old) : new.Marked := by
  refine ⟨fun hanonymous => ?_, fun hanonymous => ?_⟩
  · rw [hnew.name]
    exact h.user (hnew.anonymous ▸ hanonymous)
  · rw [hnew.name]
    rcases h.made (hnew.anonymous ▸ hanonymous) with hnumber | ⟨item, hname, hkind⟩
    · exact Or.inl hnumber
    · exact Or.inr ⟨item, hname, hnew.kind _ hkind⟩

theorem Gains.refl (slot : Slot) : slot.Gains slot fun _ => [] :=
  ⟨rfl, rfl, rfl, rfl, rfl, rfl, fun _ => (List.append_nil _).symm⟩

theorem Gains.congr (h : new.Gains old more) (hmore : ∀ role, more role = more' role) :
    new.Gains old more' :=
  { h with partners := fun role => hmore role ▸ h.partners role }

theorem Gains.trans {middle : Slot} (h : middle.Gains old more) (h' : new.Gains middle more') :
    new.Gains old fun role => more role ++ more' role := by
  refine ⟨h'.name.trans h.name, h'.anonymous.trans h.anonymous, h'.kind.trans h.kind,
    h'.type.trans h.type, h'.pinned.trans h.pinned, h'.excluded.trans h.excluded, fun role => ?_⟩
  rw [h'.partners, h.partners, List.append_assoc]

theorem gains_withPartner (slot : Slot) (role : Role) (i : Nat) :
    (slot.withPartner role i).Gains slot fun role' => if role = role' then [i] else [] :=
  ⟨by simp, by cases role <;> rfl, by simp, by simp, by simp, by simp,
    fun _ => partners_withPartner _ _ _ _⟩

theorem Gains.ofOneKind (h : new.Gains old more) (hold : old.OfOneKind) : new.OfOneKind := by
  refine ⟨fun t ht => ?_, fun item hitem => ?_, fun t ht => ?_⟩
  · exact h.kind.trans (hold.type t (h.type ▸ ht))
  · exact h.kind.trans (hold.pinned item (h.pinned ▸ hitem))
  · exact h.kind.trans (hold.excluded t (h.excluded ▸ ht))

theorem Gains.marked (h : new.Gains old more) (hold : old.Marked) : new.Marked := by
  refine ⟨fun hanonymous => ?_, fun hanonymous => ?_⟩
  · rw [h.name]
    exact hold.user (h.anonymous ▸ hanonymous)
  · rw [h.name, h.kind]
    exact hold.made (h.anonymous ▸ hanonymous)

/-- The kind of a slot that bears the made-up name of an item is that of the item. -/
theorem Marked.kind_of_text {item : Item} (h : slot.Marked) (hname : slot.name = "@" ++ item.text) :
    slot.kind = .ofKind item.kind := by
  cases hanonymous : slot.anonymous with
  | false => exact absurd (by simp [hname]) (h.user hanonymous).2.2
  | true =>
      rcases h.made hanonymous with ⟨k, hnumber⟩ | ⟨other, hother, hkind⟩
      · have := congrArg (fun s : String => s.toList.head?) (hname.symm.trans hnumber)
        simp at this
      · have hid : other.id = item.id :=
          ItemId.text_injective ((String.append_right_inj "@").mp (hother.symm.trans hname))
        rw [hkind]
        cases other <;> cases item <;> first | rfl | cases hid

end Slot

namespace Draft

variable {d d' d'' : Draft} {i : Nat} {kind : Kind} {slot : Slot}

theorem Extends.refl (d : Draft) : d.Extends d :=
  ⟨le_rfl, id⟩

theorem Extends.trans (h : d.Extends d') (h' : d'.Extends d'') : d.Extends d'' :=
  ⟨h.size.trans h'.size, fun hkind => h'.hasKind (h.hasKind hkind)⟩

theorem exists_slot (hi : i < d.slots.size) : ∃ slot, d.slots[i]? = some slot :=
  ⟨_, Array.getElem?_eq_getElem hi⟩

theorem lt_size_of_hasKind (h : HasKind i kind d) : i < d.slots.size := by
  obtain ⟨slot, hslot, -⟩ := h
  exact (Array.getElem?_eq_some_iff.mp hslot).1

/-- A slot is of one kind at most. -/
theorem kind_eq_of_hasKind (h : HasKind i kind d) (hslot : d.slots[i]? = some slot) :
    slot.kind = .ofKind kind := by
  obtain ⟨slot', hslot', hkind⟩ := h
  obtain rfl : slot' = slot := Option.some.inj (hslot'.symm.trans hslot)
  exact hkind

/-- Changing a slot in anything but a kind that is known. -/
theorem extends_modify {f : Slot → Slot}
    (hf : ∀ slot, d.slots[i]? = some slot → ∀ kind, slot.kind = .ofKind kind →
      (f slot).kind = .ofKind kind) :
    d.Extends { d with slots := d.slots.modify i f } := by
  refine ⟨by simp, ?_⟩
  rintro j kind ⟨old, hj, hkind⟩
  by_cases hij : i = j
  · subst hij
    refine ⟨f old, ?_, hf old hj kind hkind⟩
    rw [Array.getElem?_modify, if_pos rfl, hj]
    rfl
  · exact ⟨old, by simp [Array.getElem?_modify, hij, hj], hkind⟩

namespace Linked

theorem empty : Draft.empty.Linked :=
  ⟨by simp [Draft.empty], by simp [Draft.empty], by simp [Draft.empty], by simp [Draft.empty], nofun⟩

/-- Replacing one slot by another that is linked in the same way. -/
theorem modify {f : Slot → Slot} (hd : d.Linked) (hslot : d.slots[i]? = some slot)
    (hf : (f slot).Refines slot) :
    Draft.Linked { d with slots := d.slots.modify i f } ∧
      d.Extends { d with slots := d.slots.modify i f } := by
  have hold : ∀ (j : Nat) (new : Slot), (d.slots.modify i f)[j]? = some new →
      ∃ old, d.slots[j]? = some old ∧ new.Refines old := by
    intro j new hnew
    rw [Lowering.getElem?_modify hslot] at hnew
    split at hnew
    · rename_i hj
      exact ⟨slot, hj ▸ hslot, Option.some.inj hnew ▸ hf⟩
    · exact ⟨new, hnew, .refl (hd.ofOneKind new (Array.mem_of_getElem? hnew))⟩
  have hextends : d.Extends { d with slots := d.slots.modify i f } := by
    refine extends_modify fun old hold kind hkind => ?_
    obtain rfl : slot = old := Option.some.inj (hslot.symm.trans hold)
    exact hf.kind kind hkind
  refine ⟨⟨fun new hmem => ?_, fun new hmem => ?_, fun j new role hnew k hk => ?_,
    fun j k a b role ha hb => ?_, fun entry hentry => ?_⟩, hextends⟩
  · obtain ⟨j, hj⟩ := Array.mem_iff_getElem?.mp hmem
    obtain ⟨old, -, hrefines⟩ := hold j new hj
    exact hrefines.ofOneKind
  · obtain ⟨j, hj⟩ := Array.mem_iff_getElem?.mp hmem
    obtain ⟨old, hslot, hrefines⟩ := hold j new hj
    exact (hd.marked old (Array.mem_of_getElem? hslot)).refines hrefines
  · obtain ⟨old, hj, hrefines⟩ := hold j new hnew
    obtain ⟨kind, hkind, hother⟩ := hd.joins j old role hj k (hrefines.partners ▸ hk)
    exact ⟨kind, hrefines.kind kind hkind, hextends.hasKind hother⟩
  · obtain ⟨a', ha', hrefines⟩ := hold j a ha
    obtain ⟨b', hb', hrefines'⟩ := hold k b hb
    rw [hrefines.partners, hrefines'.partners]
    exact hd.returned j k a' b' role ha' hb'
  · obtain ⟨hnode, hlt⟩ := hd.deferred entry hentry
    exact ⟨hextends.hasKind hnode, hlt.trans_le hextends.size⟩

/-- Adding a slot that is not linked with anything. -/
theorem push (hd : d.Linked) (unnamed : Nat) (hnone : ∀ role, slot.partners role = [])
    (hone : slot.OfOneKind) (hmarked : slot.Marked) :
    Draft.Linked { d with slots := d.slots.push slot, unnamed := unnamed } ∧
      d.Extends { d with slots := d.slots.push slot, unnamed := unnamed } := by
  have hold : ∀ (j : Nat) (new : Slot), (d.slots.push slot)[j]? = some new →
      j = d.slots.size ∧ new = slot ∨ d.slots[j]? = some new := by
    intro j new hnew
    rw [Array.getElem?_push] at hnew
    split at hnew
    · exact Or.inl ⟨‹_›, (Option.some.inj hnew).symm⟩
    · exact Or.inr hnew
  have hextends : d.Extends { d with slots := d.slots.push slot, unnamed := unnamed } := by
    refine ⟨by simp, ?_⟩
    rintro j kind ⟨old, hj, hkind⟩
    have hlt := (Array.getElem?_eq_some_iff.mp hj).1
    refine ⟨old, ?_, hkind⟩
    rw [Array.getElem?_push, if_neg hlt.ne]
    exact hj
  -- Nothing refers to the new slot yet.
  have habsent : ∀ (j : Nat) (old : Slot) (role : Role), d.slots[j]? = some old →
      d.slots.size ∉ old.partners role := by
    intro j old role hj hmem
    obtain ⟨kind, -, hother⟩ := hd.joins j old role hj _ hmem
    exact (lt_size_of_hasKind hother).false
  refine ⟨⟨fun new hmem => ?_, fun new hmem => ?_, fun j new role hnew k hk => ?_,
    fun j k a b role ha hb => ?_, fun entry hentry => ?_⟩, hextends⟩
  · rcases Array.mem_push.mp hmem with hmem | rfl
    · exact hd.ofOneKind new hmem
    · exact hone
  · rcases Array.mem_push.mp hmem with hmem | rfl
    · exact hd.marked new hmem
    · exact hmarked
  · rcases hold j new hnew with ⟨-, rfl⟩ | hj
    · rw [hnone role] at hk
      exact absurd hk List.not_mem_nil
    · obtain ⟨kind, hkind, hother⟩ := hd.joins j new role hj k hk
      exact ⟨kind, hkind, hextends.hasKind hother⟩
  · rcases hold j a ha with ⟨rfl, rfl⟩ | ha' <;> rcases hold k b hb with ⟨rfl, rfl⟩ | hb'
    · rw [hnone, hnone]
    · rw [hnone, List.count_nil, List.count_eq_zero_of_not_mem (habsent k b role hb')]
    · rw [hnone, List.count_nil, List.count_eq_zero_of_not_mem (habsent j a _ ha')]
    · exact hd.returned j k a b role ha' hb'
  · obtain ⟨hnode, hlt⟩ := hd.deferred entry hentry
    exact ⟨hextends.hasKind hnode, hlt.trans_le hextends.size⟩

/-- Putting off a relation of a node slot. -/
theorem putOff {j : Nat} (hd : d.Linked) (hi : HasKind i .node d) (hj : j < d.slots.size) (role : Role) :
    Draft.Linked { d with deferred := d.deferred ++ [(i, j, role)] } := by
  refine ⟨hd.ofOneKind, hd.marked, hd.joins, hd.returned, fun entry hentry => ?_⟩
  rcases List.mem_append.mp hentry with hentry | hentry
  · exact hd.deferred entry hentry
  · rw [List.mem_singleton] at hentry
    subst hentry
    exact ⟨hi, hj⟩

/-- What a slot lists further once a node slot `n` and an edge slot `e` have been linked. -/
def further (n e : Nat) (role : Role) (j : Nat) (role' : Role) : List Nat :=
  (if j = n ∧ role' = role.opposite then [e] else []) ++ if j = e ∧ role' = role then [n] else []

theorem mem_further {n e j k : Nat} {role role' : Role} (h : k ∈ further n e role j role') :
    j = n ∧ k = e ∨ j = e ∧ k = n := by
  rcases List.mem_append.mp h with h | h
  · split at h
    · rename_i hj
      exact Or.inl ⟨hj.1, List.mem_singleton.mp h⟩
    · exact absurd h List.not_mem_nil
  · split at h
    · rename_i hj
      exact Or.inr ⟨hj.1, List.mem_singleton.mp h⟩
    · exact absurd h List.not_mem_nil

/-- A slot lists another one further as often as that one lists it in the opposite role. -/
theorem count_further (n e j k : Nat) (role role' : Role) :
    (further n e role j role'.opposite).count k = (further n e role k role').count j := by
  have hcount : ∀ (p : Prop) [Decidable p] (x y : Nat),
      (if p then [x] else []).count y = if p ∧ x = y then 1 else 0 := by
    intro p _ x y
    by_cases hp : p
    · simp [hp, List.count_singleton]
    · simp [hp]
  have hfrom : (j = n ∧ role'.opposite = role.opposite) ∧ e = k ↔ (k = e ∧ role' = role) ∧ n = j := by
    rw [Role.opposite_eq_iff, Role.opposite_opposite]
    exact ⟨fun h => ⟨⟨h.2.symm, h.1.2⟩, h.1.1.symm⟩, fun h => ⟨⟨h.2.symm, h.1.2⟩, h.1.1.symm⟩⟩
  have hto : (j = e ∧ role'.opposite = role) ∧ n = k ↔ (k = n ∧ role' = role.opposite) ∧ e = j := by
    rw [Role.opposite_eq_iff]
    exact ⟨fun h => ⟨⟨h.2.symm, h.1.2⟩, h.1.1.symm⟩, fun h => ⟨⟨h.2.symm, h.1.2⟩, h.1.1.symm⟩⟩
  simp only [further, List.count_append, hcount, hfrom, hto]
  exact Nat.add_comm _ _

/-- What the slots list after a node slot and an edge slot have been linked. -/
theorem exists_old {n e j : Nat} {role : Role} {new : Slot}
    (hnew : ((d.slots.modify n (Slot.withPartner role.opposite e)).modify e
      (Slot.withPartner role n))[j]? = some new) :
    ∃ old, d.slots[j]? = some old ∧ new.Gains old (further n e role j) := by
  have hmodify : ∀ {slots : Array Slot} {i k : Nat} {role : Role} {new : Slot},
      (slots.modify i (Slot.withPartner role k))[j]? = some new →
        ∃ old, slots[j]? = some old ∧
          new.Gains old fun role' => if j = i ∧ role' = role then [k] else [] := by
    intro slots i k role new hnew
    rw [Array.getElem?_modify] at hnew
    split at hnew
    · rename_i hij
      obtain ⟨old, hold, rfl⟩ := Option.map_eq_some_iff.mp hnew
      refine ⟨old, hold, (old.gains_withPartner role k).congr fun role' => ?_⟩
      simp [hij, eq_comm]
    · rename_i hij
      refine ⟨new, hnew, (Slot.Gains.refl new).congr fun role' => ?_⟩
      simp [Ne.symm hij]
  obtain ⟨middle, hmiddle, hlast⟩ := hmodify hnew
  obtain ⟨old, hold, hfirst⟩ := hmodify hmiddle
  exact ⟨old, hold, hfirst.trans hlast⟩

/-- Linking a node slot with an edge slot. -/
theorem link {n e : Nat} (hd : d.Linked) (hnode : HasKind n .node d) (hedge : HasKind e .edge d)
    (role : Role) :
    let slots := (d.slots.modify n (Slot.withPartner role.opposite e)).modify e
      (Slot.withPartner role n)
    Draft.Linked { d with slots := slots } ∧ d.Extends { d with slots := slots } := by
  intro slots
  have hextends : d.Extends { d with slots := slots } :=
    (extends_modify fun slot _ kind hkind => (slot.kind_withPartner _ _).trans hkind).trans
      (extends_modify fun slot _ kind hkind => (slot.kind_withPartner _ _).trans hkind)
  refine ⟨⟨fun new hmem => ?_, fun new hmem => ?_, fun j new role' hnew k hk => ?_,
    fun j k a b role' ha hb => ?_, fun entry hentry => ?_⟩, hextends⟩
  · obtain ⟨j, hj⟩ := Array.mem_iff_getElem?.mp hmem
    obtain ⟨old, hold, hgains⟩ := exists_old hj
    exact hgains.ofOneKind (hd.ofOneKind old (Array.mem_of_getElem? hold))
  · obtain ⟨j, hj⟩ := Array.mem_iff_getElem?.mp hmem
    obtain ⟨old, hold, hgains⟩ := exists_old hj
    exact hgains.marked (hd.marked old (Array.mem_of_getElem? hold))
  · obtain ⟨old, hold, hgains⟩ := exists_old hnew
    rw [hgains.partners, List.mem_append] at hk
    rw [hgains.kind]
    rcases hk with hk | hk
    · obtain ⟨kind, hkind, hother⟩ := hd.joins j old role' hold k hk
      exact ⟨kind, hkind, hextends.hasKind hother⟩
    · rcases mem_further hk with ⟨rfl, rfl⟩ | ⟨rfl, rfl⟩
      · exact ⟨.node, kind_eq_of_hasKind hnode hold, hextends.hasKind hedge⟩
      · exact ⟨.edge, kind_eq_of_hasKind hedge hold, hextends.hasKind hnode⟩
  · obtain ⟨a', ha', hgains⟩ := exists_old ha
    obtain ⟨b', hb', hgains'⟩ := exists_old hb
    have hold := hd.returned j k a' b' role' ha' hb'
    rw [hgains.partners, hgains'.partners, List.count_append, List.count_append, hold,
      count_further]
  · obtain ⟨hstart, hlt⟩ := hd.deferred entry hentry
    exact ⟨hextends.hasKind hstart, hlt.trans_le hextends.size⟩

end Linked

end Draft

namespace Lowering

variable {α β : Type} {d : Draft} {i j n e : Nat} {kind : Kind} {type : ItemType} {item : Item}
  {slot : Slot} {role : Role} {x : String}

/--
Whether a lowering step, from a draft with slots that are linked as they should be, leaves such a
draft, which extends the one before, and gives a value about which something is known.
-/
def Links (d : Draft) (m : Lowering α) (post : α → Draft → Prop) : Prop :=
  d.Linked → ∀ a d', Yields m d a d' → d'.Linked ∧ d.Extends d' ∧ post a d'

namespace Links

variable {m : Lowering α} {f : α → Lowering β} {mid post post' : α → Draft → Prop}
  {last : β → Draft → Prop}

theorem pure {a : α} (h : post a d) : Links d (pure a) post := by
  intro hd b d' hrun
  obtain ⟨rfl, rfl⟩ := yields_pure.mp hrun
  exact ⟨hd, .refl _, h⟩

theorem bind (hm : Links d m mid) (hf : ∀ a e, d.Extends e → mid a e → Links e (f a) last) :
    Links d (m >>= f) last := by
  intro hd b d' hrun
  obtain ⟨a, e, hfirst, hrest⟩ := yields_bind.mp hrun
  obtain ⟨he, hextends, hmid⟩ := hm hd a e hfirst
  obtain ⟨hd', hextends', hlast⟩ := hf a e hextends hmid he b d' hrest
  exact ⟨hd', hextends.trans hextends', hlast⟩

theorem mono (hm : Links d m post) (hpost : ∀ a e, d.Extends e → post a e → post' a e) :
    Links d m post' := by
  intro hd a d' hrun
  obtain ⟨hd', hextends, hlast⟩ := hm hd a d' hrun
  exact ⟨hd', hextends, hpost a d' hextends hlast⟩

theorem slotAt (i : Nat) : Links d (slotAt i) fun slot e => e = d ∧ d.slots.getD i default = slot := by
  intro hd slot d' hrun
  obtain ⟨hslot, rfl⟩ := yields_slotAt.mp hrun
  exact ⟨hd, .refl _, rfl, hslot⟩

theorem get : Links d get fun a e => a = d ∧ e = d := by
  intro hd a d' hrun
  obtain ⟨rfl, rfl⟩ := yields_get.mp hrun
  exact ⟨hd, .refl _, rfl, rfl⟩

theorem update {f : Slot → Slot} (hslot : d.slots[i]? = some slot) (hf : (f slot).Refines slot) :
    Links d (update i f) fun _ e => e.slots[i]? = some (f slot) := by
  intro hd u d' hrun
  obtain ⟨hd', hextends⟩ := hd.modify hslot hf
  have hset := sets_of_yields_update hslot hrun
  rw [yields_update] at hrun
  subst hrun
  exact ⟨hd', hextends, hset.self⟩

theorem push (hnone : ∀ role, slot.partners role = []) (hone : slot.OfOneKind) (hmarked : slot.Marked) :
    Links d (push slot) fun i e => e.slots[i]? = some slot := by
  intro hd i d' hrun
  obtain ⟨rfl, rfl⟩ := yields_push.mp hrun
  obtain ⟨hd', hextends⟩ := hd.push d.unnamed hnone hone hmarked
  exact ⟨hd', hextends, Array.getElem?_push_size⟩

end Links

/-- A slot of a draft that has the kind that is called for, if one is. -/
def Lands (i : Nat) (expected : Option Kind) (d : Draft) : Prop :=
  i < d.slots.size ∧ ∀ kind ∈ expected, HasKind i kind d

theorem lands_of_hasKind {expected : Option Kind} (h : HasKind i kind d)
    (hexpected : ∀ wanted ∈ expected, wanted = kind) : Lands i expected d :=
  ⟨Draft.lt_size_of_hasKind h, fun wanted hwanted => hexpected wanted hwanted ▸ h⟩

theorem requireKind_links (hi : i < d.slots.size) :
    Links d (requireKind i kind) fun _ e => HasKind i kind e := by
  intro hd u d' hrun
  obtain ⟨slot, hslot⟩ := Draft.exists_slot hi
  have hset := (of_yields_requireKind hslot hrun).2
  simp only [requireKind, yields_bind, yields_slotAt] at hrun
  obtain ⟨_, _, ⟨rfl, rfl⟩, hrun⟩ := hrun
  rw [getD_slots hslot] at hrun
  split at hrun
  · rename_i hnone
    -- A slot of unknown kind has no constraints yet that could be of another kind.
    have hunknown : ∀ kind, slot.kind ≠ .ofKind kind := by
      intro kind hkind
      rw [hkind, itemKind_ofKind] at hnone
      cases hnone
    have hone := hd.ofOneKind slot (Array.mem_of_getElem? hslot)
    have hrefines : ({ slot with kind := .ofKind kind } : Slot).Refines slot := by
      refine ⟨rfl, rfl, funext fun role => by cases role <;> rfl,
        fun known hknown => absurd hknown (hunknown known), fun t ht => ?_, fun p hp => ?_,
        fun t ht => ?_⟩
      · exact absurd (hone.type t ht) (hunknown _)
      · exact absurd (hone.pinned p hp) (hunknown _)
      · exact absurd (hone.excluded t ht) (hunknown _)
    obtain ⟨hd', hextends, hself⟩ := Links.update hslot hrefines hd _ _ hrun
    exact ⟨hd', hextends, _, hself, rfl⟩
  · split at hrun
    · obtain ⟨-, rfl⟩ := yields_pure.mp hrun
      exact ⟨hd, .refl _, _, hset.self, rfl⟩
    · exact absurd hrun not_yields_throw

/-- Narrowing the type of a slot. -/
theorem narrow_links (hi : i < d.slots.size) :
    Links d (narrow i type) fun _ e => HasKind i type.kind e := by
  refine (requireKind_links hi).bind fun _ e _ hkind => (Links.slotAt i).bind ?_
  rintro current e' - ⟨rfl, hcurrent⟩
  obtain ⟨slot, hslot, hslotKind⟩ := hkind
  obtain rfl : slot = current := (getD_slots hslot).symm.trans hcurrent
  intro he
  have hone := he.ofOneKind slot (Array.mem_of_getElem? hslot)
  have hset : ∀ narrowed : ItemType, slot.kind = .ofKind narrowed.kind →
      Links e' (update i fun slot => { slot with type := some narrowed })
        fun _ e => HasKind i type.kind e := by
    intro narrowed hnarrowed
    have hrefines : ({ slot with type := some narrowed } : Slot).Refines slot := by
      refine ⟨rfl, rfl, funext fun role => by cases role <;> rfl, fun _ hkind => hkind, fun t ht => ?_,
        hone.pinned, hone.excluded⟩
      obtain rfl : narrowed = t := Option.some.inj ht
      exact hnarrowed
    exact (Links.update hslot hrefines).mono fun _ e _ hself => ⟨_, hself, hslotKind⟩
  split
  · exact hset type hslotKind he
  · rename_i existing hexisting
    split
    · exact fun _ _ hrun => absurd hrun not_yields_throw
    · rename_i narrowed hnarrowed
      rcases eq_or_eq_of_narrowest hnarrowed with rfl | rfl
      · exact hset existing (hone.type existing hexisting) he
      · exact hset type hslotKind he

theorem exclude_links (hi : i < d.slots.size) :
    Links d (exclude i type) fun _ e => HasKind i type.kind e := by
  refine (requireKind_links hi).bind fun _ e _ hkind he => ?_
  obtain ⟨slot, hslot, hslotKind⟩ := hkind
  have hone := he.ofOneKind slot (Array.mem_of_getElem? hslot)
  have hrefines : (if slot.excluded.contains type then slot
      else { slot with excluded := slot.excluded ++ [type] }).Refines slot := by
    split
    · exact .refl hone
    · refine ⟨rfl, rfl, funext fun role => by cases role <;> rfl, fun _ hkind => hkind, hone.type,
        hone.pinned, fun t ht => ?_⟩
      rcases List.mem_append.mp ht with ht | ht
      · exact hone.excluded t ht
      · rw [List.mem_singleton.mp ht]
        exact hslotKind
  exact (Links.update hslot hrefines).mono
    (fun _ e _ hself => ⟨_, hself, hrefines.kind _ hslotKind⟩) he

theorem excludeAll_links {excluded : List ItemType} (hi : i < d.slots.size) :
    Links d (excludeAll i excluded) fun _ _ => True := by
  induction excluded generalizing d with
  | nil => exact .pure trivial
  | cons t excluded ih =>
      exact (exclude_links hi).bind fun _ e hextends _ => ih (hi.trans_le hextends.size)

/-- Binding a slot to an exact item of its kind. -/
theorem pin_links (hi : HasKind i item.kind d) :
    Links d (pin i item) fun _ e => HasKind i item.kind e := by
  intro hd u d' hrun
  obtain ⟨-, e, rfl, hnarrow⟩ := of_yields_pin hrun
  obtain ⟨slot, hslot, hslotKind⟩ := hi
  have hone := hd.ofOneKind slot (Array.mem_of_getElem? hslot)
  have hrefines : ({ slot with pinned := some item } : Slot).Refines slot := by
    refine ⟨rfl, rfl, funext fun role => by cases role <;> rfl, fun _ hkind => hkind, hone.type,
      fun p hp => ?_, hone.excluded⟩
    obtain rfl : item = p := Option.some.inj hp
    exact hslotKind
  obtain ⟨he, hextends⟩ : Draft.Linked
        { d with slots := d.slots.modify i fun slot => { slot with pinned := some item } } ∧ _ :=
    hd.modify hslot hrefines
  have hlt := (Draft.lt_size_of_hasKind ⟨slot, hslot, hslotKind⟩).trans_le hextends.size
  obtain ⟨hd', hextends', hkind⟩ := narrow_links hlt he u d' hnarrow
  exact ⟨hd', hextends.trans hextends', kind_type item ▸ hkind⟩

/-- A slot that is opened for a name of a user. -/
theorem fresh_marked {expected : Option Kind} (hx : IsUserName x) :
    (Slot.fresh x (.ofKind? expected) false).Marked :=
  ⟨fun _ => hx, nofun⟩

theorem partners_fresh (name : String) (kind : SlotKind) (anonymous : Bool) (role : Role) :
    (Slot.fresh name kind anonymous).partners role = [] := by
  cases role <;> rfl

theorem checkName_links : Links d (checkName x) fun _ e => e = d ∧ IsUserName x := by
  intro hd u d' hrun
  obtain ⟨hx, rfl⟩ := of_yields_checkName hrun
  exact ⟨hd, .refl _, rfl, hx⟩

theorem checkKind_links {expected : Option Kind} (what : String) :
    Links d (checkKind expected kind what) fun _ _ => ∀ wanted ∈ expected, wanted = kind := by
  intro hd u d' hrun
  obtain ⟨rfl, hexpected⟩ := of_yields_checkKind hrun
  exact ⟨hd, .refl _, hexpected⟩

/-- Coming across a name. -/
theorem named_links (x : String) (expected : Option Kind) :
    Links d (named x expected) fun i e => Lands i expected e := by
  refine checkName_links.bind fun _ e _ hx => Links.get.bind ?_
  rintro a e' - ⟨rfl, rfl⟩
  split
  · refine (Links.push (partners_fresh _ _ _) (.fresh _ _ _) (fresh_marked hx.2)).mono
      fun i e _ hslot => ⟨(Array.getElem?_eq_some_iff.mp hslot).1, fun kind hkind => ?_⟩
    obtain rfl := Option.mem_def.mp hkind
    exact ⟨_, hslot, rfl⟩
  · rename_i i hi
    obtain ⟨slot, hslot, -⟩ := exists_of_indexOf? hi
    have hlt := (Array.getElem?_eq_some_iff.mp hslot).1
    cases expected with
    | none => exact .pure ⟨hlt, nofun⟩
    | some kind =>
        exact (requireKind_links hlt).bind fun _ e _ hkind =>
          .pure (lands_of_hasKind hkind fun wanted hwanted => (Option.some.inj hwanted).symm)

/-- Opening the slot of an unnamed pattern. -/
theorem pushUnnamed_links : Links d (pushUnnamed kind) fun i e => HasKind i kind e := by
  intro hd i d' hrun
  simp only [pushUnnamed, yields_bind, yields_modifyGet, yields_push, Prod.mk.injEq] at hrun
  obtain ⟨k, e, ⟨rfl, rfl⟩, rfl, rfl⟩ := hrun
  have hmarked : (Slot.fresh ("#" ++ toString d.unnamed) (.ofKind kind) true).Marked :=
    ⟨nofun, fun _ => Or.inl ⟨d.unnamed, rfl⟩⟩
  obtain ⟨hd', hextends⟩ := hd.push (d.unnamed + 1) (partners_fresh _ _ _) (.fresh _ _ _) hmarked
  exact ⟨hd', hextends, _, Array.getElem?_push_size, rfl⟩

/-- Coming across an exact item. -/
theorem pinned_links (item : Item) (name : Option String) :
    Links d (pinned item name) fun i e => HasKind i item.kind e := by
  have hpin : ∀ (i : Nat) (e : Draft), HasKind i item.kind e → Links e (do pin i item; return i)
      fun i e => HasKind i item.kind e :=
    fun i e hi => (pin_links hi).bind fun _ _ _ hkind => .pure hkind
  cases name with
  | some x => exact (named_links x _).bind fun i e _ hi => hpin i e (hi.2 _ rfl)
  | none =>
      refine Links.get.bind ?_
      rintro a e - ⟨rfl, rfl⟩ he
      split
      · rename_i i hi
        obtain ⟨slot, hslot, hname⟩ := exists_of_indexOf? hi
        have hkind : HasKind i item.kind e :=
          ⟨slot, hslot, (he.marked slot (Array.mem_of_getElem? hslot)).kind_of_text hname⟩
        have hfound : Links e (Pure.pure i) fun j e' => HasKind j item.kind e' := .pure hkind
        exact hfound.bind (fun j e' _ hj => hpin j e' hj) he
      · have hmarked : (Slot.fresh ("@" ++ item.text) (.ofKind item.kind) true).Marked :=
          ⟨nofun, fun _ => Or.inr ⟨item, rfl, rfl⟩⟩
        have hopened : Links e (push (.fresh ("@" ++ item.text) (.ofKind item.kind) true)) _ :=
          .push (partners_fresh _ _ _) (.fresh _ _ _) hmarked
        exact hopened.bind (fun j e' _ hj => hpin j e' ⟨_, hj, rfl⟩) he

/-- Coming across any item of a type. -/
theorem typed_links (type : ItemType) (name : Option String) :
    Links d (typed type name) fun i e => HasKind i type.kind e := by
  have hnarrow : ∀ (i : Nat) (e : Draft), i < e.slots.size →
      Links e (do narrow i type; return i) fun i e => HasKind i type.kind e :=
    fun i e hi => (narrow_links hi).bind fun _ _ _ hkind => .pure hkind
  cases name with
  | some x => exact (named_links x _).bind fun i e _ hi => hnarrow i e hi.1
  | none => exact pushUnnamed_links.bind fun i e _ hi => hnarrow i e (Draft.lt_size_of_hasKind hi)

/-- Linking a node slot with an edge slot. -/
theorem link_links (hn : HasKind n .node d) (he : HasKind e .edge d) (role : Role) :
    Links d (link n e role) fun _ _ => True := by
  intro hd u d' hrun
  obtain ⟨rfl, -⟩ := of_yields_link hrun
  obtain ⟨hd', hextends⟩ := hd.link hn he role
  exact ⟨hd', hextends, trivial⟩

/-- Relating two node slots by an edge slot of its own. -/
theorem companion_links (hn : HasKind n .node d) (role : Role) {other : Lowering Nat}
    (hother : ∀ e, d.Extends e → Links e other fun i e => HasKind i .node e) :
    Links d (do
      let edge ← companion
      link n edge role
      let i ← other
      link i edge role.opposite) fun _ _ => True :=
  (typed_links (.root .edge) none).bind fun _ _ hextends hedge =>
    (link_links (hextends.hasKind hn) hedge role).bind fun _ e' hextends' _ =>
      (hother e' (hextends.trans hextends')).bind fun _ _ hextends'' hi =>
        link_links hi (hextends''.hasKind (hextends'.hasKind hedge)) _

/-- Relating a node slot to a slot that is there. -/
theorem connect_links (hi : HasKind i .node d) (hj : j < d.slots.size) (role : Role) :
    Links d (connect i j role) fun _ _ => True := by
  refine (Links.slotAt j).bind ?_
  rintro slot e - ⟨rfl, hslot⟩
  obtain ⟨found, hfound⟩ := Draft.exists_slot hj
  obtain rfl : found = slot := (getD_slots hfound).symm.trans hslot
  split
  · rename_i hedge
    exact link_links hi ⟨found, hfound, hedge⟩ role
  · refine (requireKind_links hj).bind fun _ e' hextends hnode => ?_
    exact (typed_links (.root .edge) none).bind fun edge e'' hextends' hedge =>
      (link_links (hextends'.hasKind (hextends.hasKind hi)) hedge role).bind
        fun _ _ hextends'' _ =>
          link_links (hextends''.hasKind (hextends'.hasKind hnode)) (hextends''.hasKind hedge) _

/-- Relating a node slot to a name, now or later. -/
theorem relateToName_links (hi : HasKind i .node d) (x : String) (role : Role) :
    Links d (relateToName i x role) fun _ _ => True := by
  refine (named_links x none).bind fun j e hextends hj => (Links.slotAt j).bind ?_
  rintro slot e' - ⟨rfl, -⟩
  split
  · intro he u d' hrun
    rw [yields_modify] at hrun
    subst hrun
    exact ⟨he.putOff (hextends.hasKind hi) hj.1 role, ⟨le_rfl, fun h => h⟩, trivial⟩
  · exact connect_links (hextends.hasKind hi) hj.1 role

theorem nodeBase_links (base : Base NodeType Node) (name : Option String) :
    Links d (nodeBase base name) fun i e => HasKind i .node e := by
  cases base with
  | any type => exact typed_links (.node type) name
  | exactly n => exact pinned_links (.node n) name

theorem edgeBase_links (base : Base EdgeType Edge) (name : Option String) :
    Links d (edgeBase base name) fun i e => HasKind i .edge e := by
  cases base with
  | any type => exact typed_links (.edge type) name
  | exactly e => exact pinned_links (.edge e) name

/-- Relating a node slot to a pattern that lands on a slot of the kind that is called for. -/
theorem relateNode_links
    {p : Pattern}
    {lower : Option Kind → Lowering Nat}
    (hlower : ∀ e kind, Links e (lower (some kind)) fun i e => HasKind i kind e)
    (hi : HasKind i .node d)
    (role : Role) :
    Links d (relateNode i role p lower) fun _ _ => True := by
  by_cases href : ∃ x, p = .reference x
  · obtain ⟨x, rfl⟩ := href
    exact relateToName_links hi x role
  · cases hp : p.isEdge with
    | true =>
        rw [relateNode_of_isEdge role lower hp]
        exact (hlower d .edge).bind fun edge e hextends hedge =>
          link_links (hextends.hasKind hi) hedge role
    | false =>
        rw [relateNode_of_not_isEdge role lower hp fun x hx => href ⟨x, hx⟩]
        exact companion_links hi role fun e _ => hlower e .node

/-- Lowering a fragment, whose base is of the fragment's kind. -/
theorem fragment_links
    {expected : Option Kind}
    {base : Lowering Nat}
    {relate : Nat → Lowering Unit}
    {excluded : List ItemType}
    (hbase : ∀ e, Links e base fun i e => HasKind i kind e)
    (hrelate : ∀ e i, HasKind i kind e → Links e (relate i) fun _ _ => True) :
    Links d (do
      checkKind expected kind "fragment"
      let i ← base
      excludeAll i excluded
      relate i
      return i) (Lands · expected) :=
  (checkKind_links _).bind fun _ e _ hexpected => (hbase e).bind fun i _ _ hi =>
    (excludeAll_links (Draft.lt_size_of_hasKind hi)).bind fun _ e' hextends _ =>
      (hrelate e' i (hextends.hasKind hi)).bind fun _ _ hextends' _ =>
        .pure (lands_of_hasKind (hextends'.hasKind (hextends.hasKind hi)) hexpected)

mutual

/-- Lowering a pattern links slots as they should be, and lands where a kind is called for. -/
theorem pattern_links : ∀ (p : Pattern) (expected : Option Kind) (d : Draft),
    Links d (pattern expected p) (Lands · expected)
  | .nodeType type, expected, d => by
      exact (checkKind_links _).bind fun _ _ _ hexpected =>
        (typed_links (.node type) none).mono fun _ _ _ hi => lands_of_hasKind hi hexpected
  | .edgeType type, expected, d => by
      exact (checkKind_links _).bind fun _ _ _ hexpected =>
        (typed_links (.edge type) none).mono fun _ _ _ hi => lands_of_hasKind hi hexpected
  | .node n, expected, d => by
      exact (checkKind_links _).bind fun _ _ _ hexpected =>
        (pinned_links (.node n) none).mono fun _ _ _ hi => lands_of_hasKind hi hexpected
  | .edge e, expected, d => by
      exact (checkKind_links _).bind fun _ _ _ hexpected =>
        (pinned_links (.edge e) none).mono fun _ _ _ hi => lands_of_hasKind hi hexpected
  | .reference name, expected, d => named_links name expected
  | .nodeFragment base name excluding relations, expected, d =>
      fragment_links (fun _ => nodeBase_links base name) fun e i hi =>
        nodeRelations_links relations i e hi
  | .edgeFragment base name excluding relations, expected, d =>
      fragment_links (fun _ => edgeBase_links base name) fun e i hi =>
        edgeRelations_links relations i e hi

theorem nodeRelations_links : ∀ (relations : List (Relation × Pattern)) (i : Nat) (d : Draft),
    HasKind i .node d → Links d (nodeRelations i relations) fun _ _ => True
  | [], _, _, _ => .pure trivial
  | (relation, p) :: rest, i, d, hi => by
      have hp : ∀ e kind, Links e (pattern (some kind) p) fun i e => HasKind i kind e :=
        fun e kind => (pattern_links p (some kind) e).mono fun _ _ _ hlands => hlands.2 kind rfl
      exact (relateNode_links hp hi _).bind fun _ e hextends _ =>
        nodeRelations_links rest i e (hextends.hasKind hi)

theorem edgeRelations_links : ∀ (relations : List (Relation × Pattern)) (i : Nat) (d : Draft),
    HasKind i .edge d → Links d (edgeRelations i relations) fun _ _ => True
  | [], _, _, _ => .pure trivial
  | (_, p) :: rest, i, d, hi =>
      (pattern_links p (some .node) d).bind fun _ _ hextends hn =>
        (link_links (hn.2 .node rfl) (hextends.hasKind hi) _).bind fun _ e' hextends' _ =>
          edgeRelations_links rest i e' (hextends'.hasKind (hextends.hasKind hi))

end

/-- Recording where a slot is shown. -/
theorem showIn_links (hi : i < d.slots.size) (position : Position) :
    Links d (showIn i position) fun _ _ => True := by
  intro hd
  obtain ⟨slot, hslot⟩ := Draft.exists_slot hi
  have hone := hd.ofOneKind slot (Array.mem_of_getElem? hslot)
  have hrefines : ({ slot with outputs := slot.outputs ++ [position] } : Slot).Refines slot :=
    ⟨rfl, rfl, funext fun role => by cases role <;> rfl, fun _ hkind => hkind, hone.type, hone.pinned,
      hone.excluded⟩
  have hlinks : Links d (showIn i position) fun _ e => e.slots[i]? = some _ :=
    .update hslot hrefines
  exact hlinks.mono (fun _ _ _ _ => trivial) hd

theorem patterns_links (entries : List (Position × Pattern)) :
    Links d (patterns entries) fun _ _ => True := by
  induction entries generalizing d with
  | nil => exact .pure trivial
  | cons entry entries ih =>
      exact (pattern_links entry.2 none d).bind fun _ _ _ hi =>
        (showIn_links hi.1 entry.1).bind fun _ _ _ _ => ih

/-- Taking up the relations that were put off. -/
theorem resolve_links {entries : List (Nat × Nat × Role)}
    (hentries : ∀ entry ∈ entries, HasKind entry.1 .node d ∧ entry.2.1 < d.slots.size) :
    Links d (resolve entries) fun _ _ => True := by
  induction entries generalizing d with
  | nil => exact .pure trivial
  | cons entry entries ih =>
      obtain ⟨hnode, hother⟩ := hentries entry List.mem_cons_self
      refine (connect_links hnode hother _).bind fun _ e hextends _ => ih fun entry' hentry' => ?_
      obtain ⟨hnode', hother'⟩ := hentries entry' (List.mem_cons_of_mem _ hentry')
      exact ⟨hextends.hasKind hnode', hother'.trans_le hextends.size⟩

/-- Lowering all patterns of a query links slots as they should be. -/
theorem linked_of_yields_all
    {entries : List (Position × Pattern)}
    {u : Unit}
    {d' : Draft}
    (hrun : Yields (all entries) .empty u d') :
    d'.Linked := by
  obtain ⟨⟨d, hpatterns, hresolve⟩, -⟩ := of_yields_all hrun
  obtain ⟨hd, -, -⟩ := patterns_links entries .empty () d hpatterns
  exact (resolve_links hd.deferred hd () d' hresolve).1

end Lowering

end PatternGraph
