import PatternGraph.Proofs.Store.Arrivals

/-!
# Replaying events

The events of a graph can be replayed on a diagram: each adds an item that is not there or removes
one that is, an edge comes only between two nodes that are there, and a node goes only when no edge is
at it any more.  So every state in between is a diagram.  Of each single item the events that replay
say in turn that it has come and that it has gone.
-/

namespace PatternGraph

/-- What some events say of one item, in the order of the events. -/
def changesOf (id : ItemId) (events : List Event) : List Change :=
  (events.filter fun event => event.item.id == id).map Event.change

section Changes

variable {id : ItemId} {events more : List Event}

@[simp]
theorem changesOf_append (id : ItemId) (events more : List Event) :
    changesOf id (events ++ more) = changesOf id events ++ changesOf id more := by
  rw [changesOf, List.filter_append, List.map_append, changesOf, changesOf]

theorem changesOf_cons (id : ItemId) (event : Event) (events : List Event) :
    changesOf id (event :: events) =
      if event.item.id = id then event.change :: changesOf id events else changesOf id events := by
  by_cases hid : event.item.id = id
  · simp [changesOf, hid]
  · simp [changesOf, hid]

theorem length_changesOf (id : ItemId) (events : List Event) :
    (changesOf id events).length = (Store.told events).count id := by
  rw [changesOf, List.length_map, ← List.countP_eq_length_filter, Store.told, List.count,
    List.countP_map]
  rfl

theorem mem_changesOf {change : Change} (h : change ∈ changesOf id events) :
    ∃ event ∈ events, event.change = change := by
  obtain ⟨event, hevent, rfl⟩ := List.mem_map.mp h
  exact ⟨event, (List.mem_filter.mp hevent).1, rfl⟩

theorem changesOf_eq_nil_iff : changesOf id events = [] ↔ id ∉ Store.told events := by
  rw [← List.length_eq_zero_iff, length_changesOf, List.count_eq_zero]

end Changes

/--
Whether changes of one item are possible one after the other when the item is there at first exactly
if `p` holds, and leave it there exactly if `q` holds.
-/
def Alternate : Prop → List Change → Prop → Prop
  | p, [], q => p ↔ q
  | p, change :: changes, q => (p ↔ change = .removed) ∧ Alternate (change = .added) changes q

namespace Alternate

variable {p q r : Prop} {changes more : List Change}

theorem append (h : Alternate p changes q) (h' : Alternate q more r) :
    Alternate p (changes ++ more) r := by
  induction changes generalizing p with
  | nil => rwa [List.nil_append, propext (show p ↔ q from h)]
  | cons change changes ih => exact ⟨h.1, ih h.2⟩

/-- An item that is there in the end has come once more than it has gone, unless it was there. -/
theorem count [Decidable p] [Decidable q] (h : Alternate p changes q) :
    changes.count .added + (if p then 1 else 0) =
      changes.count .removed + (if q then 1 else 0) := by
  induction changes generalizing p with
  | nil => simp [show p ↔ q from h]
  | cons change changes ih =>
      obtain ⟨hp, hrest⟩ := h
      have hcount := ih hrest
      cases change with
      | added =>
          have hnot : ¬p := fun hp' => by simpa using hp.mp hp'
          simp only [List.count_cons, hnot, if_true, if_false] at hcount ⊢
          simpa [Nat.add_right_comm] using hcount
      | removed =>
          have hthere : p := hp.mpr rfl
          simp only [List.count_cons, hthere, if_true] at hcount ⊢
          simp at hcount ⊢
          omega

/-- Neighbouring changes differ. -/
theorem isChain (h : Alternate p changes q) : changes.IsChain (· ≠ ·) := by
  induction changes generalizing p with
  | nil => exact .nil
  | cons change changes ih =>
      cases changes with
      | nil => exact .singleton change
      | cons next changes =>
          refine .cons_cons ?_ (ih h.2)
          rintro rfl
          cases change with
          | added => simpa using h.2.1
          | removed => simpa using h.2.1

/-- An item that is not there at first comes before it goes. -/
theorem head (h : Alternate p changes q) (hp : ¬p) : changes.head? ≠ some .removed := by
  cases changes with
  | nil => simp
  | cons change changes =>
      rintro heq
      exact hp (h.1.mpr (Option.some.inj heq))

/-- An item that has changed is there in the end exactly if its last change says so. -/
theorem getLast_cons {change : Change} (h : Alternate p (change :: changes) q) :
    (change :: changes).getLast? = some .added ↔ q := by
  induction changes generalizing p change with
  | nil =>
      rw [List.getLast?_singleton, Option.some.injEq]
      exact h.2
  | cons next changes ih =>
      rw [List.getLast?_cons_cons]
      exact ih h.2

/-- An item that is not there at first is there in the end exactly if its last change says so. -/
theorem getLast (h : Alternate p changes q) (hp : ¬p) : changes.getLast? = some .added ↔ q := by
  cases changes with
  | nil => simpa [Alternate, hp] using h
  | cons change changes => exact h.getLast_cons

/-- An item that always changes in the same way changes at most once. -/
theorem length_le_one
    (h : Alternate p changes q)
    (change : Change)
    (hsame : ∀ other ∈ changes, other = change) :
    changes.length ≤ 1 := by
  cases changes with
  | nil => exact Nat.zero_le 1
  | cons first changes =>
      cases changes with
      | nil => exact Nat.le_refl 1
      | cons second changes =>
          have hne := (List.isChain_cons_cons.mp h.isChain).1
          exact absurd ((hsame first (by simp)).trans (hsame second (by simp)).symm) hne

end Alternate

namespace Diagram

/-- Whether an event is possible in a diagram and leads from it to another one. -/
inductive Turns : Diagram → Event → Diagram → Prop
  | addNode (d : Diagram) (n : Node) (habsent : n.id ∉ d.nodes) :
      Turns d ⟨.added, .node n⟩ (d.addNode n)
  | addEdge (d : Diagram) (e : Edge) (ends : Ends) (habsent : e.id ∉ d.wires)
      (hends : ends.source ∈ d.nodes ∧ ends.target ∈ d.nodes) :
      Turns d ⟨.added, .edge e⟩ (d.addEdge e ends hends)
  | removeEdge (d : Diagram) (w : Wire) (hpresent : d.wires[w.edge.id]? = some w) :
      Turns d ⟨.removed, .edge w.edge⟩ (d.dropEdge w.edge.id)
  | removeNode (d : Diagram) (n : Node) (hpresent : d.nodes[n.id]? = some n)
      (hfree : d.edgesAt n.id = []) :
      Turns d ⟨.removed, .node n⟩ (d.dropNode n.id)

/-- Whether events are possible one after the other and lead from a diagram to another one. -/
inductive Replays : Diagram → List Event → Diagram → Prop
  | nil (d : Diagram) : Replays d [] d
  | cons {d d' d'' : Diagram} {event : Event} {events : List Event} (hturn : d.Turns event d')
      (hrest : Replays d' events d'') : Replays d (event :: events) d''

variable {d d' d'' : Diagram} {event : Event} {events more : List Event}

/-- An event adds what is not there and removes what is there, and nothing else comes or goes. -/
theorem Turns.includes (h : d.Turns event d') :
    (d.Includes event.item.id ↔ event.change = .removed) ∧
      (d'.Includes event.item.id ↔ event.change = .added) ∧
      ∀ id, id ≠ event.item.id → (d'.Includes id ↔ d.Includes id) := by
  cases h with
  | addNode n habsent =>
      refine ⟨?_, ?_, fun id hid => ?_⟩
      · simpa [Item.id, Includes] using habsent
      · simp [Item.id, includes_addNode]
      · rw [includes_addNode]
        exact or_iff_left hid
  | addEdge e ends habsent hends =>
      refine ⟨?_, ?_, fun id hid => ?_⟩
      · simpa [Item.id, Includes] using habsent
      · simp [Item.id, includes_addEdge]
      · rw [includes_addEdge]
        exact or_iff_left hid
  | removeEdge w hpresent =>
      refine ⟨?_, ?_, fun id hid => ?_⟩
      · simp [Item.id, Includes, Std.ExtTreeMap.mem_iff_isSome_getElem?, hpresent]
      · simp [Item.id, includes_dropEdge]
      · rw [includes_dropEdge]
        exact and_iff_left hid
  | removeNode n hpresent hfree =>
      refine ⟨?_, ?_, fun id hid => ?_⟩
      · simp [Item.id, Includes, Std.ExtTreeMap.mem_iff_isSome_getElem?, hpresent]
      · simp [Item.id, includes_dropNode]
      · rw [includes_dropNode, hfree]
        exact and_iff_left ⟨hid, by simp⟩

namespace Replays

theorem single (h : d.Turns event d') : d.Replays [event] d' :=
  .cons h (.nil d')

theorem append (h : d.Replays events d') (h' : d'.Replays more d'') :
    d.Replays (events ++ more) d'' := by
  induction h with
  | nil => exact h'
  | cons hturn hrest ih => exact .cons hturn (ih h')

/-- Of each item the events say in turn that it has come and that it has gone. -/
theorem alternate (h : d.Replays events d') (id : ItemId) :
    Alternate (d.Includes id) (changesOf id events) (d'.Includes id) := by
  induction h with
  | nil d => exact Iff.rfl
  | @cons d d' d'' event events hturn hrest ih =>
      obtain ⟨hbefore, hafter, hothers⟩ := hturn.includes
      rw [changesOf_cons]
      split
      · rename_i hid
        subst hid
        rw [propext hafter] at ih
        exact ⟨hbefore, ih⟩
      · rename_i hid
        rwa [propext (hothers id (Ne.symm hid))] at ih

/-- Events that all add or all remove name each item once at most. -/
theorem nodup_of_change
    (h : d.Replays events d')
    (change : Change)
    (hsame : ∀ event ∈ events, event.change = change) :
    (Store.told events).Nodup := by
  refine List.nodup_iff_count_le_one.mpr fun id => ?_
  rw [← length_changesOf]
  refine (h.alternate id).length_le_one change fun other hother => ?_
  obtain ⟨event, hevent, rfl⟩ := mem_changesOf hother
  exact hsame event hevent

/-- Events that name each item once at most name those that have come or gone altogether. -/
theorem mem_told_iff
    (h : d.Replays events d')
    (hnodup : (Store.told events).Nodup)
    (id : ItemId) :
    id ∈ Store.told events ↔ ¬(d.Includes id ↔ d'.Includes id) := by
  have hcount := List.nodup_iff_count_le_one.mp hnodup id
  have halternate := h.alternate id
  rw [← length_changesOf] at hcount
  cases hchanges : changesOf id events with
  | nil =>
      rw [hchanges] at halternate
      exact iff_of_false (changesOf_eq_nil_iff.mp hchanges) (not_not_intro halternate)
  | cons change changes =>
      rw [hchanges] at halternate hcount
      obtain rfl : changes = [] := List.length_eq_zero_iff.mp (by simpa using hcount)
      have hmem : id ∈ Store.told events := by
        by_contra hnot
        rw [changesOf_eq_nil_iff.mpr hnot] at hchanges
        cases hchanges
      obtain ⟨hbefore, hafter⟩ : (d.Includes id ↔ change = .removed) ∧
        (change = .added ↔ d'.Includes id) := halternate
      refine iff_of_true hmem ?_
      rw [hbefore, ← hafter]
      cases change <;> simp

/-- Events that all add or all remove are none if nothing has come or gone. -/
theorem eq_nil
    (h : d.Replays events d')
    (change : Change)
    (hchange : ∀ event ∈ events, event.change = change)
    (hsame : ∀ id, d.Includes id ↔ d'.Includes id) :
    events = [] := by
  have hnone : Store.told events = [] := List.eq_nil_iff_forall_not_mem.mpr fun id hid =>
    (h.mem_told_iff (h.nodup_of_change change hchange) id).mp hid (hsame id)
  exact List.map_eq_nil_iff.mp hnone

/-- An index is as it was if and only if there are no events that all add or all remove. -/
theorem index_eq_iff
    {index index' : Index}
    (h : d.Replays events d')
    (hd : index.Represents d)
    (hd' : index'.Represents d')
    (change : Change)
    (hchange : ∀ event ∈ events, event.change = change) :
    index' = index ↔ events = [] := by
  constructor
  · rintro rfl
    exact h.eq_nil change hchange fun id => by rw [← hd.includes_iff, hd'.includes_iff]
  · rintro rfl
    cases h
    exact hd'.unique hd

/-- What is there stays there while events only add. -/
theorem keeps
    {id : ItemId}
    (h : d.Replays events d')
    (hadded : ∀ event ∈ events, event.change = .added)
    (hin : d.Includes id) :
    d'.Includes id := by
  induction h with
  | nil => exact hin
  | @cons d d' d'' event events hturn hrest ih =>
      refine ih (fun event hevent => hadded event (List.mem_cons_of_mem _ hevent)) ?_
      obtain ⟨-, hafter, hothers⟩ := hturn.includes
      by_cases hid : id = event.item.id
      · exact hid ▸ hafter.mpr (hadded event List.mem_cons_self)
      · exact (hothers id hid).mpr hin

/-- Removing listed edges that are there. -/
theorem dropEdges
    {edges : List Edge}
    (hpresent : ∀ e ∈ edges, ∃ w, d.wires[e.id]? = some w ∧ w.edge = e)
    (hnodup : (edges.map Edge.id).Nodup) :
    d.Replays (edges.map fun e => ⟨.removed, .edge e⟩)
      (d.keepWires fun id _ => !(edges.map Edge.id).contains id) := by
  induction edges generalizing d with
  | nil =>
      rw [List.map_nil, List.map_nil, d.keepWires_nil]
      exact .nil d
  | cons e edges ih =>
      obtain ⟨w, hw, rfl⟩ := hpresent e List.mem_cons_self
      rw [List.map_cons, List.nodup_cons] at hnodup
      obtain ⟨hfresh, hnodup⟩ := hnodup
      rw [List.map_cons, List.map_cons, ← d.keepWires_dropEdge]
      refine .cons (.removeEdge d w hw) (ih (fun f hf => ?_) hnodup)
      have hne : f.id ≠ w.edge.id := fun heq => hfresh (heq ▸ List.mem_map_of_mem hf)
      rw [getElem?_dropEdge, if_neg hne]
      exact hpresent f (List.mem_cons_of_mem _ hf)

/-- Removing a node after the edges at it. -/
theorem dropNode {n : Node} (hpresent : d.nodes[n.id]? = some n) :
    d.Replays (Store.removalEvents n (d.edgesAt n.id)) (d.dropNode n.id) := by
  have hedges : ∀ e ∈ d.edgesAt n.id, ∃ w, d.wires[e.id]? = some w ∧ w.edge = e := by
    intro e he
    obtain ⟨k, w, hw, -, rfl⟩ := (d.mem_edgesAt n.id e).mp he
    rw [d.edge_id k w hw]
    exact ⟨w, hw, rfl⟩
  have hnodup : ((d.edgesAt n.id).map Edge.id).Nodup := by
    refine List.Pairwise.map _ (fun e f hlt => ?_) (d.ordered_edgesAt n.id)
    rintro heq
    rw [heq] at hlt
    exact Nat.lt_irrefl _ hlt
  let bare := d.keepWires fun id _ => !((d.edgesAt n.id).map Edge.id).contains id
  have hbare : ∀ id : EdgeId, bare.wires[id]? = d.wires[id]?.filter fun w : Wire => !w.ends.touch n.id := by
    intro id
    rw [getElem?_keepWires]
    cases hw : d.wires[id]? with
    | none => rfl
    | some w =>
        have hmem := d.mem_ids_edgesAt n.id id
        simp only [hw, Option.some.injEq, exists_eq_left'] at hmem
        simp [Option.filter, hmem]
  have hfree : bare.edgesAt n.id = [] := by
    refine List.eq_nil_iff_forall_not_mem.mpr fun e he => ?_
    obtain ⟨k, w, hw, htouch, -⟩ := (bare.mem_edgesAt n.id e).mp he
    rw [hbare, Option.filter_eq_some_iff] at hw
    simp [htouch] at hw
  have hdrop : bare.dropNode n.id = d.dropNode n.id := by
    refine Diagram.ext rfl fun id => ?_
    rw [Diagram.dropNode, Diagram.dropNode, Std.ExtTreeMap.getElem?_filter',
      Std.ExtTreeMap.getElem?_filter', hbare]
    cases d.wires[id]? with
    | none => rfl
    | some w => cases htouch : w.ends.touch n.id <;> simp [Option.filter, htouch]
  rw [← hdrop]
  exact (dropEdges hedges hnodup).append (single (.removeNode bare n hpresent hfree))

end Replays

end Diagram

end PatternGraph
