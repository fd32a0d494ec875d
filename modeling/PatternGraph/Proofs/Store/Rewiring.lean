import PatternGraph.Proofs.Store.Arrivals

/-!
# Wiring an edge anew

Every way of wiring an edge gives it new ends, has its former ends forget it unless they are still
ends of it, and has its new ends remember it as far as they are detached.  What nodes remember of
other edges, all owners and the contents of all graphs stay as they are.
-/

namespace PatternGraph.Store

variable {store store' : Store} {e : Edge}

/-- Whether a node is an end of an edge. -/
def Touches (store : Store) (e : Edge) (n : Node) : Prop :=
  (∃ s, (store.edgeState e).source = some s ∧ s.id = n.id) ∨
    ∃ t, (store.edgeState e).target = some t ∧ t.id = n.id

/-- Whether an edge has been given ends among some nodes, and nothing else has been wired. -/
structure Rewires (store : Store) (e : Edge) (given : List Node) (store' : Store) : Prop where
  graphs : store'.graphs = store.graphs
  owner : ∀ id, store'.owner id = store.owner id
  alive : ∀ id, id ∈ store'.edges ↔ id ∈ store.edges ∨ id = e.id
  other : ∀ f, f.id ≠ e.id → store'.edgeState f = store.edgeState f
  source : ∀ n, (store'.edgeState e).source = some n →
    n ∈ given ∨ (store.edgeState e).source = some n
  target : ∀ n, (store'.edgeState e).target = some n →
    n ∈ given ∨ (store.edgeState e).target = some n
  pending : ∀ m f, f ∈ (store'.nodeState m).pending →
    f ∈ (store.nodeState m).pending ∨
      f = e ∧ store.graphOfNode m = none ∧ ∃ n ∈ given, n.id = m.id
  remembers : ∀ m f, f ≠ e → f ∈ (store.nodeState m).pending → f ∈ (store'.nodeState m).pending
  nodup : ∀ m, (store.nodeState m).pending.Nodup → (store'.nodeState m).pending.Nodup
  touches : (∀ m, e ∈ (store.nodeState m).pending → store.Touches e m) →
    ∀ m, e ∈ (store'.nodeState m).pending → store'.Touches e m
  nodeCount : store'.nodeCount = store.nodeCount
  edgeCount : store'.edgeCount = store.edgeCount
  graphCount : store'.graphCount = store.graphCount

/-- Whether only what nodes remember of one edge has changed. -/
structure Recalls (store : Store) (e : Edge) (store' : Store) : Prop where
  graphs : store'.graphs = store.graphs
  edges : store'.edges = store.edges
  owner : ∀ m, (store'.nodeState m).owner = (store.nodeState m).owner
  nodup : ∀ m, (store.nodeState m).pending.Nodup → (store'.nodeState m).pending.Nodup
  nodeCount : store'.nodeCount = store.nodeCount
  edgeCount : store'.edgeCount = store.edgeCount
  graphCount : store'.graphCount = store.graphCount

namespace Recalls

variable {store'' : Store}

theorem refl (store : Store) (e : Edge) : store.Recalls e store :=
  ⟨rfl, rfl, fun _ => rfl, fun _ h => h, rfl, rfl, rfl⟩

theorem trans (h : store.Recalls e store') (h' : store'.Recalls e store'') :
    store.Recalls e store'' :=
  ⟨h'.graphs.trans h.graphs, h'.edges.trans h.edges, fun m => (h'.owner m).trans (h.owner m),
    fun m hm => h'.nodup m (h.nodup m hm), h'.nodeCount.trans h.nodeCount,
    h'.edgeCount.trans h.edgeCount, h'.graphCount.trans h.graphCount⟩

theorem edgeState_eq (h : store.Recalls e store') (f : Edge) :
    store'.edgeState f = store.edgeState f := by
  rw [edgeState, edgeState, h.edges]

theorem graphOfNode_eq (h : store.Recalls e store') (m : Node) :
    store'.graphOfNode m = store.graphOfNode m := by
  rw [graphOfNode, graphOfNode, living, living, h.owner, h.graphs]

theorem updateNode
    (n : Node)
    (change : NodeState → NodeState)
    (howner : (change (store.nodeState n)).owner = (store.nodeState n).owner)
    (hnodup : (store.nodeState n).pending.Nodup → (change (store.nodeState n)).pending.Nodup) :
    store.Recalls e (store.updateNode n change) := by
  refine ⟨rfl, rfl, fun m => ?_, fun m hm => ?_, rfl, rfl, rfl⟩
  · rw [nodeState_updateNode]
    split
    · rename_i hid
      rw [howner, nodeState, nodeState, hid]
    · rfl
  · rw [nodeState_updateNode]
    split
    · rename_i hid
      refine hnodup ?_
      rwa [nodeState, ← hid]
    · exact hm

theorem unregister (store : Store) (e : Edge) (n : Node) : store.Recalls e (store.unregister e n) :=
  updateNode n _ rfl fun h => h.sublist List.filter_sublist

theorem register (store : Store) (e : Edge) (n : Node) : store.Recalls e (store.register e n) := by
  rw [Store.register]
  split
  · exact refl store e
  · refine updateNode n _ ?_ fun h => ?_
    · split
      · rfl
      · rfl
    · split
      · exact h
      · rename_i hnot
        refine List.nodup_append'.mpr ⟨h, List.nodup_singleton e, ?_⟩
        intro f hf hfe
        obtain rfl := List.mem_singleton.mp hfe
        exact hnot (List.contains_iff_mem.mpr hf)

theorem releaseEnd (store : Store) (e : Edge) (former : Option Node) :
    store.Recalls e (store.releaseEnd e former) := by
  unfold Store.releaseEnd
  split
  · exact refl store e
  · dsimp only
    split
    · exact refl store e
    · exact unregister store e _

end Recalls

section Remembering

theorem mem_pending_unregister (store : Store) (e f : Edge) (n m : Node) :
    f ∈ ((store.unregister e n).nodeState m).pending ↔
      f ∈ (store.nodeState m).pending ∧ ¬(f = e ∧ n.id = m.id) := by
  rw [pending_unregister]
  split
  · rename_i hid
    simp [hid]
  · rename_i hid
    simp [Ne.symm hid]

theorem mem_pending_register (store : Store) (e f : Edge) (n m : Node) :
    f ∈ ((store.register e n).nodeState m).pending ↔
      f ∈ (store.nodeState m).pending ∨
        f = e ∧ store.graphOfNode m = none ∧ n.id = m.id := by
  rw [register]
  by_cases hid : m.id = n.id
  · have hgraph : store.graphOfNode m = store.graphOfNode n := by
      rw [home_node, home_node, hid]
    have hstate : store.nodeState m = store.nodeState n := by
      rw [nodeState, nodeState, hid]
    cases hn : store.graphOfNode n with
    | some g => simp [hgraph, hn]
    | none =>
        rw [if_neg (by simp), nodeState_updateNode, if_pos hid, hgraph, hn, hstate]
        split
        · rename_i hcontains
          refine (or_iff_left_of_imp ?_).symm
          rintro ⟨rfl, -⟩
          exact List.contains_iff_mem.mp hcontains
        · simp [hid]
  · have hsame : (if (store.graphOfNode n).isSome = true then store
        else store.updateNode n fun state =>
          if state.pending.contains e = true then state
          else { state with pending := state.pending ++ [e] }).nodeState m =
        store.nodeState m := by
      split
      · rfl
      · rw [nodeState_updateNode, if_neg hid]
    rw [hsame]
    simp [Ne.symm hid]

theorem mem_pending_releaseEnd (store : Store) (e f : Edge) (former : Option Node) (m : Node) :
    f ∈ ((store.releaseEnd e former).nodeState m).pending ↔
      f ∈ (store.nodeState m).pending ∧ ¬(f = e ∧ ∃ n, former = some n ∧ n.id = m.id ∧
        ¬((store.edgeState e).source = some n ∨ (store.edgeState e).target = some n)) := by
  unfold releaseEnd
  split
  · simp
  · rename_i n
    dsimp only
    split
    · rename_i hstill
      refine (and_iff_left ?_).symm
      rintro ⟨-, n', hn', -, hnot⟩
      obtain rfl := Option.some.inj hn'
      exact hnot hstill
    · rename_i hstill
      rw [mem_pending_unregister]
      refine and_congr_right fun _ => not_congr (and_congr_right fun _ =>
        ⟨fun hid => ⟨n, rfl, hid, hstill⟩, ?_⟩)
      rintro ⟨n', hn', hid, -⟩
      obtain rfl := Option.some.inj hn'
      exact hid

/-- Several nodes come to remember an edge. -/
theorem registers
    (e : Edge)
    (given : List Node)
    (store : Store) :
    store.Recalls e (given.foldl (fun store n => store.register e n) store) ∧
      ∀ m f, f ∈ ((given.foldl (fun store n => store.register e n) store).nodeState m).pending ↔
        f ∈ (store.nodeState m).pending ∨
          f = e ∧ store.graphOfNode m = none ∧ ∃ n ∈ given, n.id = m.id := by
  induction given generalizing store with
  | nil => exact ⟨.refl store e, by simp⟩
  | cons n given ih =>
      have hfirst := Recalls.register store e n
      obtain ⟨hrecalls, hmem⟩ := ih (store.register e n)
      refine ⟨hfirst.trans hrecalls, fun m f => ?_⟩
      rw [List.foldl_cons, hmem, mem_pending_register, hfirst.graphOfNode_eq]
      simp only [List.mem_cons, exists_eq_or_imp]
      tauto

/-- Several former ends forget an edge. -/
theorem releases
    (e : Edge)
    (formers : List (Option Node))
    (store : Store) :
    store.Recalls e (formers.foldl (fun store former => store.releaseEnd e former) store) ∧
      ∀ m f,
        f ∈ ((formers.foldl (fun store former => store.releaseEnd e former) store).nodeState m).pending ↔
          f ∈ (store.nodeState m).pending ∧ ¬(f = e ∧ ∃ n, some n ∈ formers ∧ n.id = m.id ∧
            ¬((store.edgeState e).source = some n ∨ (store.edgeState e).target = some n)) := by
  induction formers generalizing store with
  | nil => exact ⟨.refl store e, by simp⟩
  | cons former formers ih =>
      have hfirst := Recalls.releaseEnd store e former
      obtain ⟨hrecalls, hmem⟩ := ih (store.releaseEnd e former)
      refine ⟨hfirst.trans hrecalls, fun m f => ?_⟩
      rw [List.foldl_cons, hmem, mem_pending_releaseEnd, hfirst.edgeState_eq, and_assoc]
      refine and_congr_right fun _ => ?_
      rw [← not_or, ← and_or_left]
      refine not_congr (and_congr_right fun _ => ⟨?_, ?_⟩)
      · rintro (⟨n, rfl, hn⟩ | ⟨n, hn, hstill⟩)
        · exact ⟨n, List.mem_cons_self, hn⟩
        · exact ⟨n, List.mem_cons_of_mem _ hn, hstill⟩
      · rintro ⟨n, hn, hstill⟩
        rcases List.mem_cons.mp hn with heq | hn
        · exact Or.inl ⟨n, heq.symm, hstill⟩
        · exact Or.inr ⟨n, hn, hstill⟩

end Remembering

namespace Rewires

/-- An edge is wired anew when it gets new ends, and its former ends are released. -/
theorem of_change
    (store : Store)
    (e : Edge)
    (change : EdgeState → EdgeState)
    (formers : List (Option Node))
    (given : List Node)
    (howner : (change (store.edgeState e)).owner = (store.edgeState e).owner)
    (hsource : (change (store.edgeState e)).source = (store.edgeState e).source ∨
      (store.edgeState e).source ∈ formers ∧
        ∃ n ∈ given, (change (store.edgeState e)).source = some n)
    (htarget : (change (store.edgeState e)).target = (store.edgeState e).target ∨
      (store.edgeState e).target ∈ formers ∧
        ∃ n ∈ given, (change (store.edgeState e)).target = some n)
    (hgiven : ∀ n ∈ given, (change (store.edgeState e)).source = some n ∨
      (change (store.edgeState e)).target = some n) :
    store.Rewires e given
      (given.foldl (fun store n => store.register e n)
        (formers.foldl (fun store former => store.releaseEnd e former)
          (store.updateEdge e change))) := by
  obtain ⟨hreleases, hreleased⟩ := releases e formers (store.updateEdge e change)
  obtain ⟨hregisters, hregistered⟩ := registers e given
    (formers.foldl (fun store former => store.releaseEnd e former) (store.updateEdge e change))
  have hrecalls := hreleases.trans hregisters
  have hstate : ∀ f, (given.foldl (fun store n => store.register e n)
      (formers.foldl (fun store former => store.releaseEnd e former)
        (store.updateEdge e change))).edgeState f =
      if f.id = e.id then change (store.edgeState e) else store.edgeState f := fun f =>
    (hrecalls.edgeState_eq f).trans (store.edgeState_updateEdge e f change)
  have hgraph : ∀ m, (formers.foldl (fun store former => store.releaseEnd e former)
      (store.updateEdge e change)).graphOfNode m = store.graphOfNode m :=
    fun m => hreleases.graphOfNode_eq m
  refine ⟨hrecalls.graphs, fun id => ?_, fun id => ?_, fun f hf => ?_, fun n hn => ?_,
    fun n hn => ?_, fun m f hf => ?_, fun m f hne hf => ?_, fun m hm => hrecalls.nodup m hm,
    fun htouches m hm => ?_, hrecalls.nodeCount, hrecalls.edgeCount, hrecalls.graphCount⟩
  · cases id with
    | node id => exact hrecalls.owner ⟨id, default⟩
    | edge id =>
        rw [Store.owner, hrecalls.edges]
        have howners := store.owner_updateEdge e change (.edge id)
        rw [Store.owner] at howners
        rw [howners]
        split
        · rename_i heq
          rw [howner, heq]
          rfl
        · rfl
  · rw [hrecalls.edges, updateEdge, Std.ExtTreeMap.mem_insert, Std.LawfulEqCmp.compare_eq_iff_eq,
      or_comm, eq_comm]
  · rw [hstate, if_neg hf]
  · rw [hstate, if_pos rfl] at hn
    rcases hsource with hsame | ⟨-, n', hn', hnew⟩
    · exact Or.inr (hsame ▸ hn)
    · exact Or.inl (Option.some.inj (hnew.symm.trans hn) ▸ hn')
  · rw [hstate, if_pos rfl] at hn
    rcases htarget with hsame | ⟨-, n', hn', hnew⟩
    · exact Or.inr (hsame ▸ hn)
    · exact Or.inl (Option.some.inj (hnew.symm.trans hn) ▸ hn')
  · rcases (hregistered m f).mp hf with hf | ⟨rfl, hdetached, hamong⟩
    · exact Or.inl ((hreleased m f).mp hf).1
    · exact Or.inr ⟨rfl, (hgraph m).symm.trans hdetached, hamong⟩
  · exact (hregistered m f).mpr (Or.inl ((hreleased m f).mpr ⟨hf, fun hsame => hne hsame.1⟩))
  · rw [Touches, hstate, if_pos rfl]
    rcases (hregistered m e).mp hm with hm | ⟨-, -, n, hn, hid⟩
    · obtain ⟨hbefore, hkept⟩ := (hreleased m e).mp hm
      rw [edgeState_updateEdge, if_pos rfl] at hkept
      -- An end that has been replaced and is still remembered must be the other end by now.
      rcases htouches m hbefore with ⟨s, hs, hid⟩ | ⟨t, ht, hid⟩
      · rcases hsource with hsame | ⟨hformer, -⟩
        · exact Or.inl ⟨s, hsame.trans hs, hid⟩
        · by_contra hno
          refine hkept ⟨rfl, s, hs ▸ hformer, hid, ?_⟩
          rintro (h | h)
          · exact hno (Or.inl ⟨s, h, hid⟩)
          · exact hno (Or.inr ⟨s, h, hid⟩)
      · rcases htarget with hsame | ⟨hformer, -⟩
        · exact Or.inr ⟨t, hsame.trans ht, hid⟩
        · by_contra hno
          refine hkept ⟨rfl, t, ht ▸ hformer, hid, ?_⟩
          rintro (h | h)
          · exact hno (Or.inl ⟨t, h, hid⟩)
          · exact hno (Or.inr ⟨t, h, hid⟩)
    · rcases hgiven n hn with h | h
      · exact Or.inl ⟨n, h, hid⟩
      · exact Or.inr ⟨n, h, hid⟩

theorem setSource {n : Node} (h : store.setSource e n = .ok store') :
    store.Rewires e [n] store' ∧ store.graphOfEdge e = none := by
  rw [Store.setSource] at h
  split at h
  · cases h
  · rename_i hdetached
    obtain rfl := Except.ok.inj h
    refine ⟨?_, by simpa using hdetached⟩
    exact of_change store e (fun state => { state with source := some n })
      [(store.edgeState e).source] [n] rfl (Or.inr (by simp)) (Or.inl rfl) (by simp)

theorem setTarget {n : Node} (h : store.setTarget e n = .ok store') :
    store.Rewires e [n] store' ∧ store.graphOfEdge e = none := by
  rw [Store.setTarget] at h
  split at h
  · cases h
  · rename_i hdetached
    obtain rfl := Except.ok.inj h
    refine ⟨?_, by simpa using hdetached⟩
    exact of_change store e (fun state => { state with target := some n })
      [(store.edgeState e).target] [n] rfl (Or.inl rfl) (Or.inr (by simp)) (by simp)

theorem rewire (store : Store) (e : Edge) (s t : Node) :
    store.Rewires e [s, t] (store.rewire e s t) :=
  of_change store e (fun state => { state with source := some s, target := some t })
    [(store.edgeState e).source, (store.edgeState e).target] [s, t] rfl (Or.inr (by simp))
    (Or.inr (by simp)) (by simp)

end Rewires

theorem source_rewire (store : Store) (e : Edge) (s t : Node) :
    ((store.rewire e s t).edgeState e).source = some s ∧
      ((store.rewire e s t).edgeState e).target = some t := by
  have hrecalls : (store.updateEdge e fun state =>
      { state with source := some s, target := some t }).Recalls e (store.rewire e s t) :=
    ((Recalls.releaseEnd _ e _).trans (Recalls.releaseEnd _ e _)).trans
      ((Recalls.register _ e s).trans (Recalls.register _ e t))
  rw [hrecalls.edgeState_eq, edgeState_updateEdge, if_pos rfl]
  exact ⟨rfl, rfl⟩

end PatternGraph.Store
