import PatternGraph.Proofs.Query.Composition
import PatternGraph.Proofs.Query.LoweringSteps

/-!
# Where slots are shown

While a pattern is lowered, slots are opened, found again and linked, and none is shown anywhere.  Only
when the slot of a whole pattern is known is the place of the pattern recorded on it.  So in the end the
places recorded on a slot are those of the patterns that turned out to speak about its item.
-/

namespace PatternGraph

/-- The places recorded on the slot at an index, none if there is no such slot. -/
def Draft.shown (d : Draft) (i : Nat) : List Position :=
  (d.slots.getD i default).outputs

namespace Draft

variable {d : Draft}

theorem shown_of_getElem? {i : Nat} {slot : Slot} (hslot : d.slots[i]? = some slot) :
    d.shown i = slot.outputs := by
  rw [shown, Lowering.getD_slots hslot]

/-- What is recorded on a slot that is replaced, and on the others. -/
theorem shown_modify (f : Slot → Slot) {i : Nat} {slot : Slot} (hslot : d.slots[i]? = some slot)
    (j : Nat) :
    shown { d with slots := d.slots.modify i f } j = if j = i then (f slot).outputs else d.shown j := by
  simp only [shown, Array.getD_eq_getD_getElem?, Lowering.getElem?_modify hslot]
  split <;> rfl

/-- Changing anything else about a slot. -/
theorem shown_modify_of_same (d : Draft) {f : Slot → Slot} (hf : ∀ slot, (f slot).outputs = slot.outputs)
    (i : Nat) :
    shown { d with slots := d.slots.modify i f } = d.shown := by
  funext j
  cases hslot : d.slots[i]? with
  | none =>
      simp only [shown, Array.getD_eq_getD_getElem?, Array.getElem?_modify]
      split
      · rename_i hij
        rw [← hij, hslot]
        rfl
      · rfl
  | some slot =>
      rw [shown_modify f hslot]
      split
      · rename_i hji
        rw [hf, hji, shown_of_getElem? hslot]
      · rfl

/-- A slot that is shown nowhere can be added. -/
theorem shown_push (d : Draft) {slot : Slot} (hslot : slot.outputs = []) (unnamed : Nat) :
    shown { d with slots := d.slots.push slot, unnamed := unnamed } = d.shown := by
  funext j
  simp only [shown, Array.getD_eq_getD_getElem?, Array.getElem?_push]
  split
  · rename_i hj
    rw [hj, Array.getElem?_size]
    exact hslot
  · rfl

end Draft

namespace Lowering

variable {α β : Type} {d d' : Draft}

/-- Whether a step records no places. -/
def Quiet (m : Lowering α) : Prop :=
  ∀ d a d', Yields m d a d' → d'.shown = d.shown

namespace Quiet

variable {m : Lowering α} {f : α → Lowering β}

theorem pure (a : α) : Quiet (Pure.pure a) := by
  intro d b d' hrun
  obtain ⟨-, rfl⟩ := yields_pure.mp hrun
  rfl

theorem throw (fault : Fault) : Quiet (throw fault : Lowering α) :=
  fun _ _ _ hrun => absurd hrun not_yields_throw

theorem get : Quiet get := by
  intro d e d' hrun
  obtain ⟨-, rfl⟩ := yields_get.mp hrun
  rfl

theorem bind (hm : Quiet m) (hf : ∀ a, Quiet (f a)) : Quiet (m >>= f) := by
  intro d b d' hrun
  obtain ⟨a, e, hfirst, hrest⟩ := yields_bind.mp hrun
  exact (hf a e b d' hrest).trans (hm d a e hfirst)

theorem slotAt (i : Nat) : Quiet (slotAt i) := by
  intro d slot d' hrun
  obtain ⟨-, rfl⟩ := yields_slotAt.mp hrun
  rfl

theorem update (i : Nat) {f : Slot → Slot} (hf : ∀ slot, (f slot).outputs = slot.outputs) :
    Quiet (update i f) := by
  intro d u d' hrun
  rw [yields_update] at hrun
  rw [← hrun, d.shown_modify_of_same hf]

theorem push {slot : Slot} (hslot : slot.outputs = []) : Quiet (push slot) := by
  intro d i d' hrun
  obtain ⟨-, rfl⟩ := yields_push.mp hrun
  exact d.shown_push hslot d.unnamed

theorem checkName (name : String) : Quiet (checkName name) := by
  unfold Lowering.checkName
  split
  · exact .throw _
  · split
    · exact .throw _
    · exact .pure ()

theorem checkKind (expected : Option Kind) (found : Kind) (what : String) :
    Quiet (checkKind expected found what) := by
  unfold Lowering.checkKind
  split
  · exact .pure ()
  · split
    · exact .pure ()
    · exact .throw _

theorem requireKind (i : Nat) (kind : Kind) : Quiet (requireKind i kind) := by
  refine .bind (.slotAt i) fun current => ?_
  split
  · exact .update i fun _ => rfl
  · split
    · exact .pure ()
    · exact .throw _

theorem narrow (i : Nat) (type : ItemType) : Quiet (narrow i type) := by
  refine .bind (.requireKind i type.kind) fun _ => .bind (.slotAt i) fun current => ?_
  split
  · exact .update i fun _ => rfl
  · split
    · exact .throw _
    · exact .update i fun _ => rfl

theorem exclude (i : Nat) (type : ItemType) : Quiet (exclude i type) := by
  refine .bind (.requireKind i type.kind) fun _ => .update i fun slot => ?_
  split <;> rfl

theorem named (name : String) (kind : Option Kind) : Quiet (named name kind) := by
  refine .bind (.checkName name) fun _ => .bind .get fun d => ?_
  split
  · exact .push rfl
  · cases kind with
    | none => exact .pure _
    | some kind => exact .bind (.requireKind _ kind) fun _ => .pure _

theorem pushUnnamed (kind : Kind) : Quiet (pushUnnamed kind) := by
  intro d i d' hrun
  simp only [Lowering.pushUnnamed, yields_bind, yields_modifyGet, yields_push, Prod.mk.injEq] at hrun
  obtain ⟨k, e, ⟨rfl, rfl⟩, rfl, rfl⟩ := hrun
  exact d.shown_push rfl (d.unnamed + 1)

theorem pin (i : Nat) (item : Item) : Quiet (pin i item) := by
  have hbind : Quiet (do
      Lowering.update i fun slot => { slot with pinned := some item }
      Lowering.narrow i item.type) :=
    .bind (.update i fun _ => rfl) fun _ => .narrow i item.type
  refine .bind (.slotAt i) fun current => ?_
  split
  · split
    · exact hbind
    · exact .bind (.throw _) fun _ => hbind
  · exact hbind

theorem pinned (item : Item) (name : Option String) : Quiet (pinned item name) := by
  have hpin : ∀ i, Quiet (do
      Lowering.pin i item
      return i) :=
    fun i => .bind (.pin i item) fun _ => .pure i
  cases name with
  | some name => exact .bind (.named name _) hpin
  | none =>
      refine .bind .get fun d => ?_
      split
      · exact .bind (.pure _) hpin
      · exact .bind (.push rfl) hpin

theorem typed (type : ItemType) (name : Option String) : Quiet (typed type name) := by
  have hnarrow : ∀ i, Quiet (do
      Lowering.narrow i type
      return i) :=
    fun i => .bind (.narrow i type) fun _ => .pure i
  cases name with
  | some name => exact .bind (.named name _) hnarrow
  | none => exact .bind (.pushUnnamed _) hnarrow

theorem link (node edge : Nat) (role : Role) : Quiet (link node edge role) := by
  intro d u d' hrun
  obtain ⟨rfl, -⟩ := of_yields_link hrun
  have hsame : ∀ (role : Role) (i : Nat) (slot : Slot),
      (slot.withPartner role i).outputs = slot.outputs := by
    intro role i slot
    cases role <;> rfl
  let linked : Draft := { d with slots := d.slots.modify node (Slot.withPartner role.opposite edge) }
  have hnode : linked.shown = d.shown := d.shown_modify_of_same (hsame role.opposite edge) node
  have hedge := linked.shown_modify_of_same (hsame role node) edge
  exact hedge.trans hnode

theorem putOff (entry : Nat × Nat × Role) :
    Quiet (modify fun draft => { draft with deferred := draft.deferred ++ [entry] }) := by
  intro d u d' hrun
  rw [yields_modify] at hrun
  rw [← hrun]
  rfl

/-- Nothing is shown while patterns are lowered. -/
theorem compositional : Compositional @Quiet :=
  ⟨.pure, .bind, .slotAt, .checkKind, .requireKind, .exclude, .named, .typed, .pinned, .link, .putOff⟩

end Quiet

/-- Recording a place on a slot that there is. -/
theorem shown_of_yields_showIn
    {i : Nat}
    {position : Position}
    {u : Unit}
    (hi : i < d.slots.size)
    (hrun : Yields (showIn i position) d u d')
    (j : Nat) :
    d'.shown j = d.shown j ++ if j = i then [position] else [] := by
  have hslot : d.slots[i]? = some d.slots[i] := Array.getElem?_eq_getElem hi
  rw [showIn, yields_update] at hrun
  rw [← hrun, Draft.shown_modify _ hslot]
  split
  · rename_i hji
    rw [hji, Draft.shown_of_getElem? hslot]
  · rw [List.append_nil]

/-- Where a slot is shown does not matter to what is said of it. -/
theorem showIn_records
    {types : List ItemType}
    {ledger : Ledger}
    {i : Nat}
    {place : Place}
    {position : Position}
    {u : Unit}
    (h : d.Records types ledger)
    (hi : ledger.tags[i]? = some place)
    (hrun : Yields (showIn i position) d u d') :
    d'.Records types ledger := by
  obtain ⟨slot, hslot, hfits, hbears⟩ := h.slot hi
  rw [showIn, yields_update] at hrun
  subst hrun
  have hshown : ({ slot with outputs := slot.outputs ++ [position] } : Slot).Fits types ledger.tags
      ledger.clauses place := by
    refine ⟨hfits.kind, hfits.pinned, hfits.type, hfits.mediates, hfits.given, hfits.excluded,
      fun hkind role => ?_, hfits.ends⟩
    have hpartners := hfits.partners hkind role
    cases role <;> exact hpartners
  rw [← List.append_nil ledger.clauses] at hshown
  have hrecords := update_records (f := fun slot => { slot with outputs := slot.outputs ++ [position] })
    h hi hslot (by simp) (by simp) hshown (hbears.congr rfl rfl)
  rwa [Ledger.add, List.append_nil] at hrecords

end Lowering

end PatternGraph
