import PatternGraph.Proofs.Store.Drawn
import PatternGraph.Proofs.Store.Rewiring

/-!
# What a preflight refuses

A preflight refuses some nodes exactly when they draw along a detached node that remembers an edge
without both ends.  It looks at the wiring that it finds.  Wiring an edge anew between two of the nodes
takes nothing that dangles elsewhere away, and only the former wiring of that edge can have dangled
before without dangling afterwards.
-/

namespace PatternGraph.Store

variable {store : Store} {roots : List Node}

/-- Whether some nodes draw along a detached node that remembers an edge without both ends. -/
def Dangles (store : Store) (roots : List Node) : Prop :=
  ∃ n e, store.Drawn (· ∈ store.edges) (roots.map fun n => .node n.id) (.node n.id) ∧
    store.graphOfNode n = none ∧ e ∈ store.pendingEdges n ∧ store.endpoints? e = none

theorem mem_pendingEdges {n : Node} {e : Edge} :
    e ∈ store.pendingEdges n ↔ e ∈ (store.nodeState n).pending ∧ e.id ∈ store.edges := by
  rw [pendingEdges, List.mem_filter, Std.ExtTreeMap.mem_iff_contains]

section Walk

/-- An inspection that refuses has come to an edge without both ends. -/
theorem exists_of_inspect_error
    {node : Node}
    {seen : Std.ExtTreeSet NodeId}
    {edges : List Edge}
    {stack : List Node}
    {fault : Fault}
    (h : store.inspect node seen edges stack = .error fault) :
    ∃ e ∈ edges, store.endpoints? e = none ∧ fault = .danglingEdge e.id node.id := by
  induction edges generalizing stack with
  | nil => cases h
  | cons e edges ih =>
      rw [inspect] at h
      split at h
      · rename_i hends
        exact ⟨e, List.mem_cons_self, hends, (Except.error.inj h).symm⟩
      · obtain ⟨f, hf, hfault⟩ := ih h
        exact ⟨f, List.mem_cons_of_mem _ hf, hfault⟩

/-- An inspection stacks only detached ends of the edges that it looks at. -/
theorem mem_of_inspect
    {node n : Node}
    {seen : Std.ExtTreeSet NodeId}
    {edges : List Edge}
    {stack stack' : List Node}
    (h : store.inspect node seen edges stack = .ok stack')
    (hn : n ∈ stack') :
    n ∈ stack ∨ store.graphOfNode n = none ∧ ∃ e ∈ edges,
      (store.edgeState e).source = some n ∨ (store.edgeState e).target = some n := by
  induction edges generalizing stack with
  | nil =>
      obtain rfl := Except.ok.inj h
      exact Or.inl hn
  | cons e edges ih =>
      rw [inspect] at h
      split at h
      · cases h
      · rename_i s t hends
        obtain ⟨hsource, htarget⟩ := (store.endpoints?_eq_some_iff e s t).mp hends
        rcases ih h with hn | ⟨hfree, f, hf, hend⟩
        · rcases List.mem_append.mp hn with hfound | hn
          · obtain ⟨hend, hfree⟩ := List.mem_filter.mp (List.mem_filter.mp hfound).1
            refine Or.inr ⟨Option.isNone_iff_eq_none.mp hfree, e, List.mem_cons_self, ?_⟩
            rcases List.mem_pair.mp hend with rfl | rfl
            · exact Or.inr htarget
            · exact Or.inl hsource
          · exact Or.inl hn
        · exact Or.inr ⟨hfree, f, List.mem_cons_of_mem _ hf, hend⟩

/-- A walk that refuses has come to a node that is drawn along and remembers a dangling edge. -/
theorem dangles_of_survey_error
    (roots : List Node)
    {fuel : Nat}
    {seen : Std.ExtTreeSet NodeId}
    {stack : List Node}
    {fault : Fault}
    (h : store.survey fuel seen stack = .error fault)
    (hstack : ∀ n ∈ stack, store.graphOfNode n = none ∧
      store.Drawn (· ∈ store.edges) (roots.map fun n => .node n.id) (.node n.id)) :
    store.Dangles roots := by
  induction fuel generalizing seen stack with
  | zero => cases h
  | succ fuel ih =>
      cases stack with
      | nil => cases h
      | cons n stack =>
          obtain ⟨hfree, hdrawn⟩ := hstack n List.mem_cons_self
          have hrest := fun m hm => hstack m (List.mem_cons_of_mem n hm)
          rw [survey] at h
          split at h
          · exact ih h hrest
          · dsimp only at h
            split at h
            · rename_i hinspect
              obtain ⟨e, he, hends, -⟩ := exists_of_inspect_error hinspect
              exact ⟨n, e, hdrawn, hfree, he, hends⟩
            · rename_i stack' hinspect
              refine ih h fun m hm => ?_
              rcases mem_of_inspect hinspect hm with hm | ⟨hfree', e, he, hend⟩
              · exact hrest m hm
              · obtain ⟨hpending, halive⟩ := mem_pendingEdges.mp he
                have he := hdrawn.remembered hfree hpending halive
                exact ⟨hfree', hend.elim he.source he.target⟩

end Walk

/-- A preflight accepts some nodes if and only if nothing dangles that they draw along. -/
theorem preflight_eq_ok_iff (store : Store) (roots : List Node) :
    store.preflight roots = .ok () ↔ ¬store.Dangles roots := by
  constructor
  · rintro h ⟨n, e, hdrawn, hfree, he, hnone⟩
    obtain ⟨hpending, halive⟩ := mem_pendingEdges.mp he
    obtain ⟨s, t, hends⟩ := endpoints_of_preflight h (hdrawn.remembered hfree hpending halive)
    rw [hnone] at hends
    cases hends
  · intro hnot
    cases h : store.preflight roots with
    | ok accepted => rfl
    | error fault =>
        rw [preflight] at h
        refine absurd (dangles_of_survey_error roots h fun n hn => ?_) hnot
        obtain ⟨hroot, hfree⟩ := List.mem_filter.mp (List.mem_reverse.mp hn)
        exact ⟨Option.isNone_iff_eq_none.mp hfree, .root (List.mem_map_of_mem hroot)⟩

/-- A preflight refuses some nodes if and only if something dangles that they draw along. -/
theorem preflight_eq_error_iff (store : Store) (roots : List Node) :
    (∃ fault, store.preflight roots = .error fault) ↔ store.Dangles roots := by
  rw [← not_iff_not, ← preflight_eq_ok_iff]
  cases store.preflight roots with
  | ok accepted => simp
  | error fault => simp

section Rewired

variable {e : Edge} {a b : Node}

theorem graphOfNode_rewire (store : Store) (e : Edge) (a b n : Node) :
    (store.rewire e a b).graphOfNode n = store.graphOfNode n := by
  have hrewires := Rewires.rewire store e a b
  rw [home_node, home_node, home, home, living, living, hrewires.owner, hrewires.graphs]

theorem endpoints?_rewire_of_ne {f : Edge} (hne : f.id ≠ e.id) :
    (store.rewire e a b).endpoints? f = store.endpoints? f := by
  rw [endpoints?, endpoints?, (Rewires.rewire store e a b).other f hne]

theorem ne_of_endpoints?_rewire {f : Edge} (h : (store.rewire e a b).endpoints? f = none) :
    f.id ≠ e.id := by
  intro hid
  obtain ⟨hsource, htarget⟩ := store.source_rewire e a b
  have hends := ((store.rewire e a b).endpoints?_eq_some_iff e a b).mpr ⟨hsource, htarget⟩
  rw [endpoints?, edgeState, hid] at h
  rw [endpoints?, edgeState, h] at hends
  cases hends

/-- What two nodes draw along once an edge joins them, they have drawn along before. -/
theorem Drawn.of_rewire
    {id : ItemId}
    (h : (store.rewire e a b).Drawn (· ∈ (store.rewire e a b).edges) [.node a.id, .node b.id] id) :
    id = .edge e.id ∨ store.Drawn (· ∈ store.edges) [.node a.id, .node b.id] id := by
  have hrewires := Rewires.rewire store e a b
  obtain ⟨hsource, htarget⟩ := store.source_rewire e a b
  induction h with
  | root hid => exact Or.inr (.root hid)
  | @remembered n f hn hfree hf halive ih =>
      by_cases hid : f.id = e.id
      · exact Or.inl (congrArg ItemId.edge hid)
      · have hn' := ih.resolve_left ItemId.noConfusion
        rw [graphOfNode_rewire] at hfree
        have hf' := (hrewires.pending n f hf).resolve_right fun hsame => hid (congrArg _ hsame.1)
        exact Or.inr (hn'.remembered hfree hf' (((hrewires.alive f.id).mp halive).resolve_right hid))
  | @source f n hf hn ih =>
      by_cases hid : f.id = e.id
      · rw [edgeState, hid, ← edgeState, hsource] at hn
        obtain rfl := Option.some.inj hn
        exact Or.inr (.root (by simp))
      · rw [hrewires.other f hid] at hn
        exact Or.inr ((ih.resolve_left fun hsame => hid (ItemId.edge.inj hsame)).source hn)
  | @target f n hf hn ih =>
      by_cases hid : f.id = e.id
      · rw [edgeState, hid, ← edgeState, htarget] at hn
        obtain rfl := Option.some.inj hn
        exact Or.inr (.root (by simp))
      · rw [hrewires.other f hid] at hn
        exact Or.inr ((ih.resolve_left fun hsame => hid (ItemId.edge.inj hsame)).target hn)

/-- Two nodes that do not draw an edge along draw the same items along once it joins them. -/
theorem Drawn.rewire
    {id : ItemId}
    (h : store.Drawn (· ∈ store.edges) [.node a.id, .node b.id] id)
    (hout : ¬store.Drawn (· ∈ store.edges) [.node a.id, .node b.id] (.edge e.id)) :
    (store.rewire e a b).Drawn (· ∈ (store.rewire e a b).edges) [.node a.id, .node b.id] id := by
  have hrewires := Rewires.rewire store e a b
  have hne : ∀ {f : Edge}, store.Drawn (· ∈ store.edges) [.node a.id, .node b.id] (.edge f.id) →
      f.id ≠ e.id := fun hf hid => hout (hid ▸ hf)
  induction h with
  | root hid => exact .root hid
  | @remembered n f hn hfree hf halive ih =>
      have hid := hne (hn.remembered hfree hf halive)
      refine .remembered ih ((store.graphOfNode_rewire e a b n).trans hfree)
        (hrewires.remembers n f (fun hsame => hid (congrArg _ hsame)) hf)
        ((hrewires.alive f.id).mpr (Or.inl halive))
  | @source f n hf hn ih => exact .source ih ((congrArg _ (hrewires.other f (hne hf))).trans hn)
  | @target f n hf hn ih => exact .target ih ((congrArg _ (hrewires.other f (hne hf))).trans hn)

/-- What dangles once an edge joins two nodes has dangled before. -/
theorem Dangles.of_rewire (h : (store.rewire e a b).Dangles [a, b]) : store.Dangles [a, b] := by
  obtain ⟨n, f, hdrawn, hfree, hf, hends⟩ := h
  have hrewires := Rewires.rewire store e a b
  have hid := ne_of_endpoints?_rewire hends
  obtain ⟨hpending, halive⟩ := mem_pendingEdges.mp hf
  refine ⟨n, f, (Drawn.of_rewire hdrawn).resolve_left ItemId.noConfusion,
    (store.graphOfNode_rewire e a b n).symm.trans hfree, mem_pendingEdges.mpr ⟨?_, ?_⟩,
    (endpoints?_rewire_of_ne hid).symm.trans hends⟩
  · exact (hrewires.pending n f hpending).resolve_right fun hsame => hid (congrArg _ hsame.1)
  · exact ((hrewires.alive f.id).mp halive).resolve_right hid

/-- What dangles still dangles once an edge joins two nodes that have not drawn it along. -/
theorem Dangles.rewire
    (h : store.Dangles [a, b])
    (hout : ¬store.Drawn (· ∈ store.edges) [.node a.id, .node b.id] (.edge e.id)) :
    (store.rewire e a b).Dangles [a, b] := by
  obtain ⟨n, f, hdrawn, hfree, hf, hends⟩ := h
  have hrewires := Rewires.rewire store e a b
  obtain ⟨hpending, halive⟩ := mem_pendingEdges.mp hf
  have hid : f.id ≠ e.id := fun hid => hout (hid ▸ hdrawn.remembered hfree hpending halive)
  refine ⟨n, f, Drawn.rewire hdrawn hout, (store.graphOfNode_rewire e a b n).trans hfree,
    mem_pendingEdges.mpr ⟨?_, ?_⟩, (endpoints?_rewire_of_ne hid).trans hends⟩
  · exact hrewires.remembers n f (fun hsame => hid (congrArg _ hsame)) hpending
  · exact (hrewires.alive f.id).mpr (Or.inl halive)

end Rewired

end PatternGraph.Store
