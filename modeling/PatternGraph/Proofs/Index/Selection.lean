import PatternGraph.Index.Selector
import PatternGraph.Proofs.Index.Refinement

/-!
# Selecting and taking out many at once

What a selector picks from neighbourhoods is what a look at every edge and its ends would pick.
Taking the picked edges out one after the other leaves those that are not picked, and taking nodes
out, each with the edges that are still at it, leaves the other nodes and the edges between them.
-/

namespace PatternGraph

namespace Selector

/-- Whether a selector names no node, mixes directed and undirected nodes, or has too many. -/
def Refused (s : Selector) : Prop :=
  (s.source = none ∧ s.target = none ∧ s.either = []) ∨
    ((s.source ≠ none ∨ s.target ≠ none) ∧ s.either ≠ []) ∨ 2 < s.either.length

instance (s : Selector) : Decidable s.Refused :=
  inferInstanceAs (Decidable (_ ∨ _))

variable {s : Selector} {index : Index} {g : Diagram}

theorem directed_iff : s.directed = true ↔ s.source ≠ none ∨ s.target ≠ none := by
  rw [directed, Bool.or_eq_true, Option.isSome_iff_ne_none, Option.isSome_iff_ne_none]

theorem validate_eq_ok (h : ¬s.Refused) : s.validate = .ok () := by
  rw [Refused, not_or, not_or] at h
  obtain ⟨hempty, hmixed, hcrowded⟩ := h
  rw [← directed_iff] at hmixed
  have hnamed : ¬(¬s.directed = true ∧ s.either = []) := by
    rw [directed_iff]
    rintro ⟨hnone, heither⟩
    rw [not_or, not_not, not_not] at hnone
    exact hempty ⟨hnone.1, hnone.2, heither⟩
  rw [validate, if_neg hmixed, if_neg hnamed, if_neg hcrowded]

theorem exists_validate_eq_error (h : s.Refused) : ∃ fault, s.validate = .error fault := by
  rw [Refused, ← directed_iff] at h
  unfold validate
  split
  · exact ⟨_, rfl⟩
  · split
    · exact ⟨_, rfl⟩
    · split
      · exact ⟨_, rfl⟩
      · rename_i hmixed hempty hcrowded
        rcases h with ⟨hsource, htarget, heither⟩ | h | h
        · exact absurd ⟨by simp [directed, hsource, htarget], heither⟩ hempty
        · exact absurd h hmixed
        · exact absurd h hcrowded

/-- A selector that is not refused is directed, or has one or two nodes for either end. -/
theorem shape_of_not_refused (h : ¬s.Refused) :
    (s.source ≠ none ∨ s.target ≠ none) ∧ s.either = [] ∨
      s.source = none ∧ s.target = none ∧ ((∃ a, s.either = [a]) ∨ ∃ a b, s.either = [a, b]) := by
  rw [Refused, not_or, not_or] at h
  obtain ⟨hempty, hmixed, hcrowded⟩ := h
  by_cases hdirected : s.source ≠ none ∨ s.target ≠ none
  · exact Or.inl ⟨hdirected, by_contra fun hne => hmixed ⟨hdirected, hne⟩⟩
  · rw [not_or, not_not, not_not] at hdirected
    refine Or.inr ⟨hdirected.1, hdirected.2, ?_⟩
    match heither : s.either with
    | [] => exact absurd ⟨hdirected.1, hdirected.2, heither⟩ hempty
    | [a] => exact Or.inl ⟨a, rfl⟩
    | [a, b] => exact Or.inr ⟨a, b, rfl⟩
    | a :: b :: c :: rest => exact absurd (by simp [heither]) hcrowded

/-- The part of a look at one edge that is about its ends. -/
def touches (s : Selector) (ends : Ends) : Bool :=
  match s.either with
  | [] => s.source.all (· == ends.source) && s.target.all (· == ends.target)
  | [a] => ends.source == a || ends.target == a
  | [a, b] => ends == ⟨a, b⟩ || ends == ⟨b, a⟩
  | _ => false

theorem accepts_eq (edge : Edge) (ends : Ends) :
    s.accepts edge ends = (s.touches ends && s.type.all edge.type.isA) :=
  rfl

/-- The edges that the named nodes have in common are those with the right ends. -/
theorem mem_candidates (hs : ¬s.Refused) (h : index.Represents g) (e : EdgeId) :
    e ∈ s.candidates index ↔ ∃ w, g.wires[e]? = some w ∧ s.touches w.ends = true := by
  obtain ⟨source, target, either, type⟩ := s
  have hout := fun a => (h.mem_incidenceOf a e).1
  have hin := fun a => (h.mem_incidenceOf a e).2
  cases hw : g.wires[e]? with
  | none =>
      simp only [hw, reduceCtorEq, false_and, exists_false] at hout hin
      rcases shape_of_not_refused hs with ⟨hdirected, rfl⟩ | ⟨rfl, rfl, ⟨a, rfl⟩ | ⟨a, b, rfl⟩⟩
      · cases source <;> cases target <;> simp_all [candidates]
      · simp [candidates, Incidence.all, hout, hin]
      · simp [candidates, hout, hin]
  | some w =>
      simp only [hw, Option.some.injEq, exists_eq_left'] at hout hin
      rcases shape_of_not_refused hs with ⟨hdirected, rfl⟩ | ⟨rfl, rfl, ⟨a, rfl⟩ | ⟨a, b, rfl⟩⟩
      · have hout' : ∀ a, e ∈ (index.incidenceOf a).outgoing ↔ a = w.ends.source :=
          fun a => (hout a).trans eq_comm
        have hin' : ∀ a, e ∈ (index.incidenceOf a).incoming ↔ a = w.ends.target :=
          fun a => (hin a).trans eq_comm
        cases source with
        | none =>
            cases target with
            | none => simp at hdirected
            | some b => simp [candidates, touches, hin']
        | some a => cases target <;> simp [candidates, touches, hout', hin']
      · simp [candidates, Incidence.all, hout, hin, touches]
      · obtain ⟨edge, tail, head⟩ := w
        simp [candidates, hout, hin, touches]

/-- A selector that is not refused picks the edges that a look at every edge would pick. -/
theorem exists_select (hs : ¬s.Refused) (h : index.Represents g) :
    ∃ ids, s.select index = .ok ids ∧
      ∀ e, e ∈ ids ↔ ∃ w, g.wires[e]? = some w ∧ s.accepts w.edge w.ends = true := by
  refine ⟨(s.candidates index).toList.filter (s.admits index), ?_, fun e => ?_⟩
  · rw [select, validate_eq_ok hs]
    rfl
  · have hadmits : ∀ w, g.wires[e]? = some w → s.admits index e = s.type.all w.edge.type.isA := by
      intro w hw
      rw [admits]
      cases s.type with
      | none => rfl
      | some t => simp [h.edges, hw]
    rw [List.mem_filter, Std.ExtTreeSet.mem_toList, mem_candidates hs h]
    constructor
    · rintro ⟨⟨w, hw, htouches⟩, htype⟩
      exact ⟨w, hw, by rw [accepts_eq, htouches, ← hadmits w hw, htype, Bool.and_self]⟩
    · rintro ⟨w, hw, haccepts⟩
      rw [accepts_eq, Bool.and_eq_true] at haccepts
      exact ⟨⟨w, hw, haccepts.1⟩, (hadmits w hw).trans haccepts.2⟩

theorem exists_select_eq_error (hs : s.Refused) (index : Index) :
    ∃ fault, s.select index = .error fault := by
  obtain ⟨fault, hfault⟩ := exists_validate_eq_error hs
  exact ⟨fault, by rw [select, hfault]; rfl⟩

end Selector

namespace Diagram

variable {g : Diagram}

/-- Keeps the nodes that pass a test, and the edges both of whose ends are kept. -/
def keepNodes (g : Diagram) (keep : Node → Bool) : Diagram where
  nodes := g.nodes.filter fun _ n => keep n
  wires := g.wires.filter fun _ w =>
    g.nodes[w.ends.source]?.any keep && g.nodes[w.ends.target]?.any keep
  node_id := by
    intro id n hn
    rw [Std.ExtTreeMap.getElem?_filter', Option.filter_eq_some_iff] at hn
    exact g.node_id id n hn.1
  edge_id := (g.keepWires _).edge_id
  closed := by
    intro e w hw
    rw [Std.ExtTreeMap.getElem?_filter', Option.filter_eq_some_iff, Bool.and_eq_true,
      Option.any_eq_true, Option.any_eq_true] at hw
    obtain ⟨-, ⟨m, hm, hkeep⟩, n, hn, hkeep'⟩ := hw
    simp only [Std.ExtTreeMap.mem_iff_isSome_getElem?, Std.ExtTreeMap.getElem?_filter']
    exact ⟨by simp [hm, hkeep], by simp [hn, hkeep']⟩

/-- Taking out listed edges leaves those that are not listed. -/
theorem foldl_dropEdge (g : Diagram) {ids : List EdgeId} {keep : Wire → Bool}
    (hids : ∀ e, e ∈ ids ↔ ∃ w, g.wires[e]? = some w ∧ keep w = false) :
    ids.foldl dropEdge g = g.keepWires fun _ w => keep w := by
  have hfold : ∀ (ids : List EdgeId) (g : Diagram),
      ids.foldl dropEdge g = g.keepWires fun e _ => !ids.contains e := by
    intro ids
    induction ids with
    | nil => exact fun g => g.keepWires_nil.symm
    | cons id ids ih => exact fun g => (ih _).trans (g.keepWires_dropEdge id ids)
  rw [hfold]
  refine Diagram.ext rfl fun e => ?_
  rw [getElem?_keepWires, getElem?_keepWires]
  cases hw : g.wires[e]? with
  | none => rfl
  | some w =>
      have hmem : e ∈ ids ↔ keep w = false := by simp [hids, hw]
      cases hkeep : keep w with
      | true => simp [Option.filter, hkeep, hmem]
      | false => simp [Option.filter, hkeep, hmem]

/-- What is left once listed nodes have been taken out, each with the edges at it. -/
theorem getElem?_foldl_dropNode (g : Diagram) (ids : List NodeId) :
    (∀ id : NodeId, (ids.foldl dropNode g).nodes[id]? = if id ∈ ids then none else g.nodes[id]?) ∧
      ∀ e : EdgeId, (ids.foldl dropNode g).wires[e]? =
        g.wires[e]?.filter fun w => !ids.any w.ends.touch := by
  induction ids generalizing g with
  | nil =>
      refine ⟨fun id => by simp, fun e => ?_⟩
      cases hw : g.wires[e]? <;> simp [hw, Option.filter]
  | cons n ids ih =>
      obtain ⟨hnodes, hwires⟩ := ih (g.dropNode n)
      refine ⟨fun id => ?_, fun e => ?_⟩
      · rw [List.foldl_cons, hnodes, dropNode, getElem?_erase_eq]
        by_cases hid : id = n
        · simp [hid]
        · simp [hid]
      · rw [List.foldl_cons, hwires, dropNode, Std.ExtTreeMap.getElem?_filter']
        cases g.wires[e]? with
        | none => rfl
        | some w => cases htouch : w.ends.touch n <;> simp [Option.filter, htouch]

/-- Taking out the nodes that fail a test leaves the others with the edges between them. -/
theorem foldl_dropNode (g : Diagram) {ids : List NodeId} {keep : Node → Bool}
    (hids : ∀ id, id ∈ ids ↔ ∃ n, g.nodes[id]? = some n ∧ keep n = false) :
    ids.foldl dropNode g = g.keepNodes keep := by
  obtain ⟨hnodes, hwires⟩ := g.getElem?_foldl_dropNode ids
  have hmem : ∀ (id : NodeId) (n : Node), g.nodes[id]? = some n → (id ∈ ids ↔ keep n = false) := by
    intro id n hn
    simp [hids, hn]
  refine Diagram.ext (Std.ExtTreeMap.ext_getElem? fun id => ?_) fun e => ?_
  · rw [hnodes, keepNodes, Std.ExtTreeMap.getElem?_filter']
    cases hn : g.nodes[id]? with
    | none => simp
    | some n =>
        cases hkeep : keep n with
        | true => simp [Option.filter, hmem id n hn, hkeep]
        | false => simp [Option.filter, hmem id n hn, hkeep]
  · rw [hwires, keepNodes, Std.ExtTreeMap.getElem?_filter']
    cases hw : g.wires[e]? with
    | none => rfl
    | some w =>
        obtain ⟨hsource, htarget⟩ := g.closed e w hw
        obtain ⟨m, hm⟩ := Option.isSome_iff_exists.mp (Std.ExtTreeMap.mem_iff_isSome_getElem?.mp hsource)
        obtain ⟨n, hn⟩ := Option.isSome_iff_exists.mp (Std.ExtTreeMap.mem_iff_isSome_getElem?.mp htarget)
        have htouch : ids.any w.ends.touch = true ↔ keep m = false ∨ keep n = false := by
          rw [← hmem _ m hm, ← hmem _ n hn, List.any_eq_true]
          simp only [Ends.touch, Bool.or_eq_true, beq_iff_eq]
          constructor
          · rintro ⟨id, hid, rfl | rfl⟩
            · exact Or.inl hid
            · exact Or.inr hid
          · rintro (hid | hid)
            · exact ⟨_, hid, Or.inl rfl⟩
            · exact ⟨_, hid, Or.inr rfl⟩
        have hsame : (!ids.any w.ends.touch) = (keep m && keep n) := by
          rw [Bool.eq_iff_iff, Bool.not_eq_true', ← Bool.not_eq_true, htouch]
          cases keep m <;> cases keep n <;> simp
        simp [Option.filter, hsame, hm, hn]

end Diagram

end PatternGraph
