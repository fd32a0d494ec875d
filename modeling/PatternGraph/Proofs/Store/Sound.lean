import PatternGraph.Proofs.Store.Ageing

/-!
# Sound and wired stores

In a sound store the owner that is kept with an item and the contents of the graphs say the same, and
nothing is said of items that have not been created.  A sound store is wired if, in addition, the
graphs record the ends that their edges have, and detached nodes remember only detached edges that
they are ends of.  Every change of a store keeps it sound as long as no item is put into a graph that
another graph includes, and keeps it wired as long as no edge of a graph is wired anew.
-/

namespace PatternGraph

/-- The types that the items of a history have, or will have once they are created. -/
structure Catalogue where
  node : NodeId → NodeType
  edge : EdgeId → EdgeType

namespace Store

variable {c : Catalogue} {store store' : Store} {graph : GraphId} {e : Edge}

/-- Whether a node has been created with the type it has. -/
def KnowsNode (c : Catalogue) (store : Store) (n : Node) : Prop :=
  n.type = c.node n.id ∧ n.id.number ≤ store.nodeCount

/-- Whether an edge has been created with the type it has. -/
def KnowsEdge (c : Catalogue) (store : Store) (e : Edge) : Prop :=
  e.type = c.edge e.id ∧ e.id.number ≤ store.edgeCount

theorem KnowsEdge.eq_of_id {d : Edge} (hd : store.KnowsEdge c d) (he : store.KnowsEdge c e)
    (hid : d.id = e.id) : d = e := by
  have htype : d.type = e.type := by rw [hd.1, he.1, hid]
  cases d
  cases e
  simp_all

theorem KnowsNode.eq_of_id {m n : Node} (hm : store.KnowsNode c m) (hn : store.KnowsNode c n)
    (hid : m.id = n.id) : m = n := by
  have htype : m.type = n.type := by rw [hm.1, hn.1, hid]
  cases m
  cases n
  simp_all

theorem KnowsNode.mono {n : Node} (h : store.KnowsNode c n)
    (hcount : store.nodeCount ≤ store'.nodeCount) : store'.KnowsNode c n :=
  ⟨h.1, h.2.trans hcount⟩

theorem KnowsEdge.mono (h : store.KnowsEdge c e)
    (hcount : store.edgeCount ≤ store'.edgeCount) : store'.KnowsEdge c e :=
  ⟨h.1, h.2.trans hcount⟩

/-- Whether an item has been created. -/
def Issued (store : Store) : ItemId → Prop
  | .node id => id.number ≤ store.nodeCount
  | .edge id => id.number ≤ store.edgeCount

/-- Whether owners and contents agree, and nothing is said of what has not been created. -/
structure Sound (c : Catalogue) (store : Store) : Prop extends store.Pristine where
  represented : ∀ g, ∃ d, (store.index g).Represents d
  housed : ∀ g ∈ store.graphs, ∀ id, store.owner id = some g ↔ (store.index g).Includes id
  contained : ∀ g (id : EdgeId), id ∈ (store.index g).edges → id ∈ store.edges
  numbered : ∀ id g, store.owner id = some g → g.number ≤ store.graphCount
  source : ∀ e n, (store.edgeState e).source = some n → store.KnowsNode c n
  target : ∀ e n, (store.edgeState e).target = some n → store.KnowsNode c n
  pending : ∀ n, ∀ e ∈ (store.nodeState n).pending, store.KnowsEdge c e

/-- Whether graphs record the ends of their edges, and nodes remember what they should. -/
structure Wired (store : Store) : Prop where
  ends : ∀ g (e : Edge), e.id ∈ (store.index g).edges → ∃ s t,
    (store.edgeState e).source = some s ∧ (store.edgeState e).target = some t ∧
      (store.index g).ends[e.id]? = some ⟨s.id, t.id⟩
  nodup : ∀ n, (store.nodeState n).pending.Nodup
  detached : ∀ n, ∀ e ∈ (store.nodeState n).pending, e.id ∈ store.edges →
    store.graphOfEdge e = none ∧ store.Touches e n
  attached : ∀ n, store.graphOfNode n ≠ none → (store.nodeState n).pending = []

theorem sound_empty : Store.empty.Sound c where
  node := fun _ _ => NodeState.blank_default
  edge := fun _ _ => EdgeState.blank_default
  graph := fun _ _ h => absurd h Std.ExtTreeMap.not_mem_empty
  represented := fun _ => ⟨.empty, Index.represents_empty⟩
  housed := fun _ h => absurd h Std.ExtTreeMap.not_mem_empty
  contained := fun _ id h => absurd h (Index.not_includes_empty (.edge id))
  numbered := by
    intro id g h
    cases id <;> cases h
  source := by
    intro e n h
    cases h
  target := by
    intro e n h
    cases h
  pending := fun n e h => by cases h

theorem wired_empty : Store.empty.Wired where
  ends := fun _ e h => absurd h (Index.not_includes_empty (.edge e.id))
  nodup := fun _ => List.nodup_nil
  detached := fun n e h => by cases h
  attached := fun _ h => absurd rfl h

namespace Sound

theorem home_eq_some_iff (h : store.Sound c) (id : ItemId) :
    store.home id = some graph ↔ (store.index graph).Includes id := by
  rw [Store.home_eq_some_iff]
  constructor
  · rintro ⟨howner, hgraph⟩
    exact (h.housed graph hgraph id).mp howner
  · intro hincludes
    have hgraph := mem_graphs_of_includes hincludes
    exact ⟨(h.housed graph hgraph id).mpr hincludes, hgraph⟩

/-- An item is in at most one graph. -/
theorem unique
    {g g' : GraphId}
    {id : ItemId}
    (h : store.Sound c)
    (hg : (store.index g).Includes id)
    (hg' : (store.index g').Includes id) :
    g = g' := by
  rw [← h.home_eq_some_iff] at hg hg'
  exact Option.some.inj (hg.symm.trans hg')

theorem issued_of_includes
    {id : ItemId}
    (h : store.Sound c)
    (hid : (store.index graph).Includes id) :
    store.Issued id := by
  have howner := ((Store.home_eq_some_iff store id).mp ((h.home_eq_some_iff id).mpr hid)).1
  by_contra hnot
  cases id with
  | node id =>
      have hblank := (h.node ⟨id, default⟩ (Nat.lt_of_not_le hnot)).owner
      cases hblank.symm.trans howner
  | edge id =>
      have hblank := (h.edge ⟨id, default⟩ (Nat.lt_of_not_le hnot)).owner
      cases hblank.symm.trans howner

theorem loses
    {events : List Event}
    (h : store.Sound c)
    (hloses : store.Loses graph events store') :
    store'.Sound c := by
  have hedge : ∀ e, (store.edgeState e).Blank → (store'.edgeState e).Blank := by
    intro e hblank
    refine ⟨?_, (hloses.source e).trans hblank.source, (hloses.target e).trans hblank.target⟩
    refine (hloses.owner (.edge e.id)).trans ?_
    split
    · rfl
    · exact hblank.owner
  refine ⟨⟨fun n hn => ⟨?_, ?_⟩, fun e he => ?_, fun g hg hmem => ?_⟩, hloses.represented,
    fun g hg id => ?_, fun g id hid => ?_, fun id g hid => ?_, fun e n hn => ?_, fun e n hn => ?_,
    fun n e he => ?_⟩
  · rw [hloses.nodeCount] at hn
    refine (hloses.owner (.node n.id)).trans ?_
    split
    · rfl
    · exact (h.node n hn).owner
  · rw [hloses.nodeCount] at hn
    exact (hloses.pending n).trans (h.node n hn).pending
  · rw [hloses.edgeCount] at he
    exact hedge e (h.edge e he)
  · rw [hloses.graphCount] at hg
    exact h.graph g hg ((hloses.graphs g).mp hmem)
  · rw [hloses.owner, hloses.includes, ← h.housed g ((hloses.graphs g).mp hg) id]
    split
    · rename_i htold
      refine iff_of_false (by simp) ?_
      rintro ⟨howner, hstays⟩
      have hhome := (h.home_eq_some_iff id).mpr (hloses.members id htold)
      rw [Store.home_eq_some_iff, howner, Option.some.injEq] at hhome
      exact hstays ⟨hhome.1, htold⟩
    · rename_i htold
      simp [htold]
  · exact (hloses.alive id).mpr (Or.inl (h.contained g id ((hloses.includes g (.edge id)).mp hid).1))
  · rw [hloses.owner] at hid
    rw [hloses.graphCount]
    split at hid
    · cases hid
    · exact h.numbered id g hid
  · rw [hloses.source] at hn
    exact (h.source e n hn).mono hloses.nodeCount.ge
  · rw [hloses.target] at hn
    exact (h.target e n hn).mono hloses.nodeCount.ge
  · rw [hloses.pending] at he
    exact (h.pending n e he).mono hloses.edgeCount.ge

/-- Putting an item into a graph is sound if no other graph includes it. -/
theorem gains
    {item : ItemId}
    (h : store.Sound c)
    (hgains : store.Gains graph item store')
    (hgraph : graph ∈ store.graphs)
    (hissued : store.Issued item)
    (hfree : ∀ g, store.home item = some g → g = graph) :
    store'.Sound c := by
  have hgraphs : ∀ g, g ∈ store'.graphs ↔ g ∈ store.graphs := fun g =>
    (hgains.graphs g).trans (or_iff_right_of_imp fun heq => heq ▸ hgraph)
  refine ⟨⟨fun n hn => ⟨?_, ?_⟩, fun e he => ⟨?_, ?_, ?_⟩, fun g hg hmem => ?_⟩, hgains.represented,
    fun g hg id => ?_, fun g id hid => ?_, fun id g hid => ?_, fun e n hn => ?_, fun e n hn => ?_,
    fun n e he => ?_⟩
  · rw [hgains.nodeCount] at hn
    refine (hgains.owner (.node n.id)).trans ?_
    rw [if_neg]
    · exact (h.node n hn).owner
    · rintro rfl
      exact Nat.not_lt_of_le hissued hn
  · rw [hgains.nodeCount] at hn
    have hsublist := hgains.pending n
    rw [(h.node n hn).pending] at hsublist
    exact List.sublist_nil.mp hsublist
  · rw [hgains.edgeCount] at he
    refine (hgains.owner (.edge e.id)).trans ?_
    rw [if_neg]
    · exact (h.edge e he).owner
    · rintro rfl
      exact Nat.not_lt_of_le hissued he
  · rw [hgains.edgeCount] at he
    exact (hgains.source e).trans (h.edge e he).source
  · rw [hgains.edgeCount] at he
    exact (hgains.target e).trans (h.edge e he).target
  · rw [hgains.graphCount] at hg
    exact h.graph g hg ((hgraphs g).mp hmem)
  · have hbefore := (hgraphs g).mp hg
    rw [hgains.owner, hgains.includes, ← h.housed g hbefore id]
    split
    · rename_i hid
      subst hid
      constructor
      · intro heq
        exact Or.inr ⟨(Option.some.inj heq).symm, rfl⟩
      · rintro (howner | ⟨rfl, -⟩)
        · rw [hfree g ((Store.home_eq_some_iff store id).mpr ⟨howner, hbefore⟩)]
        · rfl
    · rename_i hid
      simp [hid]
  · rcases (hgains.includes g (.edge id)).mp hid with hid | ⟨-, hid⟩
    · exact (hgains.alive id).mpr (Or.inl (h.contained g id hid))
    · exact (hgains.alive id).mpr (Or.inr hid)
  · rw [hgains.owner] at hid
    rw [hgains.graphCount]
    split at hid
    · obtain rfl := Option.some.inj hid
      exact Nat.le_of_not_lt fun hlt => h.graph _ hlt hgraph
    · exact h.numbered id g hid
  · rw [hgains.source] at hn
    exact (h.source e n hn).mono hgains.nodeCount.ge
  · rw [hgains.target] at hn
    exact (h.target e n hn).mono hgains.nodeCount.ge
  · exact (h.pending n e ((hgains.pending n).subset he)).mono hgains.edgeCount.ge

theorem rewires
    {given : List Node}
    (h : store.Sound c)
    (hrewires : store.Rewires e given store')
    (he : store.KnowsEdge c e)
    (hgiven : ∀ n ∈ given, store.KnowsNode c n) :
    store'.Sound c := by
  have hindex : ∀ g, store'.index g = store.index g := fun g => by
    rw [index, index, hrewires.graphs]
  have hstate : ∀ f, f.id = e.id → store'.edgeState f = store'.edgeState e ∧
      store.edgeState f = store.edgeState e := by
    intro f hf
    exact ⟨by rw [edgeState, edgeState, hf], by rw [edgeState, edgeState, hf]⟩
  refine ⟨⟨fun n hn => ⟨?_, ?_⟩, fun f hf => ?_, fun g hg hmem => ?_⟩, fun g => ?_,
    fun g hg id => ?_, fun g id hid => ?_, fun id g hid => ?_, fun f n hn => ?_, fun f n hn => ?_,
    fun n f hf => ?_⟩
  · rw [hrewires.nodeCount] at hn
    exact (hrewires.owner (.node n.id)).trans (h.node n hn).owner
  · rw [hrewires.nodeCount] at hn
    refine List.eq_nil_iff_forall_not_mem.mpr fun f hf => ?_
    rcases hrewires.pending n f hf with hf | ⟨-, -, m, hm, hid⟩
    · rw [(h.node n hn).pending] at hf
      cases hf
    · rw [← hid] at hn
      exact Nat.not_lt_of_le (hgiven m hm).2 hn
  · rw [hrewires.edgeCount] at hf
    have hne : f.id ≠ e.id := by
      intro heq
      rw [heq] at hf
      exact Nat.not_lt_of_le he.2 hf
    rw [hrewires.other f hne]
    exact h.edge f hf
  · rw [hrewires.graphCount] at hg
    rw [hrewires.graphs] at hmem
    exact h.graph g hg hmem
  · rw [hindex]
    exact h.represented g
  · rw [hrewires.owner, hindex]
    rw [hrewires.graphs] at hg
    exact h.housed g hg id
  · rw [hindex] at hid
    exact (hrewires.alive id).mpr (Or.inl (h.contained g id hid))
  · rw [hrewires.owner] at hid
    rw [hrewires.graphCount]
    exact h.numbered id g hid
  · by_cases hid : f.id = e.id
    · rw [(hstate f hid).1] at hn
      rcases hrewires.source n hn with hn | hn
      · exact (hgiven n hn).mono hrewires.nodeCount.ge
      · exact (h.source e n hn).mono hrewires.nodeCount.ge
    · rw [hrewires.other f hid] at hn
      exact (h.source f n hn).mono hrewires.nodeCount.ge
  · by_cases hid : f.id = e.id
    · rw [(hstate f hid).1] at hn
      rcases hrewires.target n hn with hn | hn
      · exact (hgiven n hn).mono hrewires.nodeCount.ge
      · exact (h.target e n hn).mono hrewires.nodeCount.ge
    · rw [hrewires.other f hid] at hn
      exact (h.target f n hn).mono hrewires.nodeCount.ge
  · rcases hrewires.pending n f hf with hf | ⟨rfl, -⟩
    · exact (h.pending n f hf).mono hrewires.edgeCount.ge
    · exact he.mono hrewires.edgeCount.ge

theorem ages (h : store.Sound c) (hages : store.Ages store') : store'.Sound c := by
  have hrepresented : ∀ g, ∃ d, (store'.index g).Represents d := by
    intro g
    rcases hages.index_cases g with ⟨-, hsame⟩ | hempty
    · rw [hsame]
      exact h.represented g
    · rw [hempty]
      exact ⟨.empty, Index.represents_empty⟩
  refine ⟨hages.pristine, hrepresented, fun g hg id => ?_, hages.contained h.contained,
    fun id g hid => ?_, fun e n hn => ?_, fun e n hn => ?_, fun n e he => ?_⟩
  · constructor
    · intro howner
      have hbefore := hages.owner_of_owner howner
      obtain ⟨hmem, hsame⟩ := hages.graph g (h.numbered id g hbefore) hg
      rw [hsame]
      exact (h.housed g hmem id).mp hbefore
    · intro hincludes
      rcases hages.index_cases g with ⟨hmem, hsame⟩ | hempty
      · rw [hsame] at hincludes
        have hbefore := (h.housed g hmem id).mpr hincludes
        have hissued := h.issued_of_includes hincludes
        cases id with
        | node id =>
            rw [← hbefore]
            exact congrArg NodeState.owner (hages.node ⟨id, default⟩ hissued)
        | edge id =>
            rw [← hsame] at hincludes
            have hmem' := hages.contained h.contained g id hincludes
            rw [← hbefore]
            exact congrArg EdgeState.owner (hages.edge ⟨id, default⟩ hissued hmem').2
      · rw [hempty] at hincludes
        exact absurd hincludes (Index.not_includes_empty id)
  · exact (h.numbered id g (hages.owner_of_owner hid)).trans hages.graphCount
  · rcases hages.edgeState_cases e with ⟨-, hsame⟩ | hblank
    · rw [hsame] at hn
      exact (h.source e n hn).mono hages.nodeCount
    · cases hblank.source.symm.trans hn
  · rcases hages.edgeState_cases e with ⟨-, hsame⟩ | hblank
    · rw [hsame] at hn
      exact (h.target e n hn).mono hages.nodeCount
    · cases hblank.target.symm.trans hn
  · rcases hages.nodeState_cases n with ⟨-, hsame⟩ | hblank
    · rw [hsame] at he
      exact (h.pending n e he).mono hages.edgeCount
    · rw [hblank.pending] at he
      cases he

end Sound

/-- Whatever is at home in a store that has aged was at home there before. -/
theorem Ages.home_of_home
    {id : ItemId}
    (hages : store.Ages store')
    (hsound : store.Sound c)
    (hid : store'.home id = some graph) :
    store.home id = some graph := by
  rw [home_eq_some_iff] at hid ⊢
  have howner := hages.owner_of_owner hid.1
  exact ⟨howner, (hages.graph graph (hsound.numbered id graph howner) hid.2).1⟩

namespace Wired

theorem loses
    {events : List Event}
    (h : store.Wired)
    (hsound : store.Sound c)
    (hloses : store.Loses graph events store') :
    store'.Wired := by
  have hhome : ∀ id g, store'.home id = some g → store.home id = some g := by
    intro id g hid
    rw [home_eq_some_iff, hloses.owner, hloses.graphs] at hid
    rw [home_eq_some_iff]
    split at hid
    · cases hid.1
    · exact hid
  refine ⟨fun g e he => ?_, fun n => ?_, fun n e he halive => ?_, fun n hn => ?_⟩
  · obtain ⟨s, t, hs, ht, hends⟩ := h.ends g e ((hloses.includes g (.edge e.id)).mp he).1
    exact ⟨s, t, (hloses.source e).trans hs, (hloses.target e).trans ht,
      (hloses.ends g e.id he).trans hends⟩
  · rw [hloses.pending]
    exact h.nodup n
  · rw [hloses.pending] at he
    have hbefore : e.id ∈ store.edges := by
      rcases (hloses.alive e.id).mp halive with hmem | htold
      · exact hmem
      · exact hsound.contained graph e.id (hloses.members _ htold)
    obtain ⟨hdetached, htouches⟩ := h.detached n e he hbefore
    refine ⟨?_, ?_⟩
    · rw [home_edge] at hdetached ⊢
      exact Option.eq_none_iff_forall_ne_some.mpr fun g hg => by
        rw [hhome _ g hg] at hdetached
        cases hdetached
    · rw [Touches, hloses.source, hloses.target]
      exact htouches
  · rw [hloses.pending]
    refine h.attached n fun hnone => hn ?_
    rw [home_node] at hnone ⊢
    exact Option.eq_none_iff_forall_ne_some.mpr fun g hg => by
      rw [hhome _ g hg] at hnone
      cases hnone

/-- Where an item has come into a graph that was there, all others are at home where they were. -/
theorem home_of_gains
    {item : ItemId}
    (hgains : store.Gains graph item store')
    (hgraph : graph ∈ store.graphs)
    (id : ItemId) :
    store'.home id = if id = item then some graph else store.home id := by
  have hgraphs : ∀ g, g ∈ store'.graphs ↔ g ∈ store.graphs := fun g =>
    (hgains.graphs g).trans (or_iff_right_of_imp fun heq => heq ▸ hgraph)
  refine Option.ext fun g => ?_
  rw [home_eq_some_iff, hgains.owner, hgraphs]
  split
  · rw [Option.some.injEq, and_iff_left_of_imp]
    rintro rfl
    exact hgraph
  · rw [home_eq_some_iff]

theorem settles
    {n : Node}
    (h : store.Wired)
    (hgains : store.Gains graph (.node n.id) store')
    (hgraph : graph ∈ store.graphs)
    (hpending : ∀ m, (store'.nodeState m).pending =
      if m.id = n.id then [] else (store.nodeState m).pending) :
    store'.Wired := by
  have hhome := home_of_gains hgains hgraph
  refine ⟨fun g e he => ?_, fun m => (h.nodup m).sublist (hgains.pending m),
    fun m e he halive => ?_, fun m hm => ?_⟩
  · have hbefore := ((hgains.includes g (.edge e.id)).mp he).resolve_right (by simp)
    obtain ⟨s, t, hs, ht, hends⟩ := h.ends g e hbefore
    exact ⟨s, t, (hgains.source e).trans hs, (hgains.target e).trans ht,
      (hgains.ends g e.id hbefore).trans hends⟩
  · have hmem : e.id ∈ store.edges := ((hgains.alive e.id).mp halive).resolve_right (by simp)
    obtain ⟨hdetached, htouches⟩ := h.detached m e ((hgains.pending m).subset he) hmem
    refine ⟨?_, ?_⟩
    · rw [home_edge, hhome, if_neg (by simp)]
      exact hdetached
    · rw [Touches, hgains.source, hgains.target]
      exact htouches
  · rw [hpending]
    split
    · rfl
    · rename_i hid
      refine h.attached m ?_
      rwa [home_node, hhome, if_neg (by simpa using hid)] at hm

theorem joins
    {s t : Node}
    (h : store.Wired)
    (hsound : store.Sound c)
    (hgains : store.Gains graph (.edge e.id) store')
    (hgraph : graph ∈ store.graphs)
    (hknown : store.KnowsEdge c e)
    (halive : e.id ∈ store.edges)
    (hdetached : store.graphOfEdge e = none)
    (hsource : (store.edgeState e).source = some s)
    (htarget : (store.edgeState e).target = some t)
    (hends : (store'.index graph).ends[e.id]? = some ⟨s.id, t.id⟩)
    (hpending : ∀ m, (store'.nodeState m).pending =
      if m.id = s.id ∨ m.id = t.id then (store.nodeState m).pending.filter (· != e)
      else (store.nodeState m).pending) :
    store'.Wired := by
  have hhome := home_of_gains hgains hgraph
  refine ⟨fun g f hf => ?_, fun m => (h.nodup m).sublist (hgains.pending m),
    fun m f hf hmem => ?_, fun m hm => ?_⟩
  · rcases (hgains.includes g (.edge f.id)).mp hf with hbefore | ⟨rfl, hid⟩
    · obtain ⟨s, t, hs, ht, hends⟩ := h.ends g f hbefore
      exact ⟨s, t, (hgains.source f).trans hs, (hgains.target f).trans ht,
        (hgains.ends g f.id hbefore).trans hends⟩
    · have hid : f.id = e.id := by simpa using hid
      have hstate : store.edgeState f = store.edgeState e := by rw [edgeState, edgeState, hid]
      refine ⟨s, t, ?_, ?_, hid ▸ hends⟩
      · rw [hgains.source, hstate, hsource]
      · rw [hgains.target, hstate, htarget]
  · have hbefore := (hgains.pending m).subset hf
    have hmem' : f.id ∈ store.edges := by
      rcases (hgains.alive f.id).mp hmem with hmem | hid
      · exact hmem
      · rwa [ItemId.edge.inj hid]
    obtain ⟨hfree, htouches⟩ := h.detached m f hbefore hmem'
    have hne : f ≠ e := by
      -- Both ends of the edge that has come in forget it.
      rintro rfl
      have hend : m.id = s.id ∨ m.id = t.id := by
        rcases htouches with ⟨n, hn, hid⟩ | ⟨n, hn, hid⟩
        · rw [hsource] at hn
          exact Or.inl (by rw [← hid, Option.some.inj hn])
        · rw [htarget] at hn
          exact Or.inr (by rw [← hid, Option.some.inj hn])
      rw [hpending, if_pos hend] at hf
      simp at hf
    refine ⟨?_, ?_⟩
    · rw [home_edge, hhome, if_neg]
      · exact hfree
      · intro hid
        exact hne ((hsound.pending m f hbefore).eq_of_id hknown (ItemId.edge.inj hid))
    · rw [Touches, hgains.source, hgains.target]
      exact htouches
  · rw [home_node, hhome, if_neg (by simp)] at hm
    have hsublist := hgains.pending m
    rw [h.attached m hm] at hsublist
    exact List.sublist_nil.mp hsublist

theorem rewires
    {given : List Node}
    (h : store.Wired)
    (hsound : store.Sound c)
    (hrewires : store.Rewires e given store')
    (hknown : store.KnowsEdge c e)
    (halive : e.id ∈ store.edges)
    (hdetached : store.graphOfEdge e = none) :
    store'.Wired := by
  have hindex : ∀ g, store'.index g = store.index g := fun g => by
    rw [index, index, hrewires.graphs]
  have hhome : ∀ id, store'.home id = store.home id := fun id => by
    rw [home, home, living, living, hrewires.owner, hrewires.graphs]
  refine ⟨fun g f hf => ?_, fun m => hrewires.nodup m (h.nodup m), fun m f hf hmem => ?_,
    fun m hm => ?_⟩
  · rw [hindex] at hf ⊢
    have hne : f.id ≠ e.id := by
      intro hid
      rw [hid] at hf
      have hhome := (hsound.home_eq_some_iff (.edge e.id)).mpr hf
      rw [home_edge, hhome] at hdetached
      cases hdetached
    rw [hrewires.other f hne]
    exact h.ends g f hf
  · by_cases hfe : f = e
    · subst hfe
      refine ⟨?_, hrewires.touches (fun m hm => (h.detached m f hm halive).2) m hf⟩
      rw [home_edge, hhome]
      exact hdetached
    · have hbefore := (hrewires.pending m f hf).resolve_right fun hnew => hfe hnew.1
      have hne : f.id ≠ e.id := fun hid =>
        hfe ((hsound.pending m f hbefore).eq_of_id hknown hid)
      have hmem' := ((hrewires.alive f.id).mp hmem).resolve_right hne
      obtain ⟨hfree, htouches⟩ := h.detached m f hbefore hmem'
      refine ⟨?_, ?_⟩
      · rw [home_edge, hhome]
        exact hfree
      · rw [Touches, hrewires.other f hne]
        exact htouches
  · rw [home_node, hhome] at hm
    refine List.eq_nil_iff_forall_not_mem.mpr fun f hf => ?_
    rcases hrewires.pending m f hf with hf | ⟨-, hnone, -⟩
    · rw [h.attached m hm] at hf
      cases hf
    · exact hm hnone

theorem ages (h : store.Wired) (hsound : store.Sound c) (hages : store.Ages store') :
    store'.Wired := by
  have hhome : ∀ id g, store'.home id = some g → store.home id = some g :=
    fun _ _ => hages.home_of_home hsound
  refine ⟨fun g e he => ?_, fun n => ?_, fun n e he halive => ?_, fun n hn => ?_⟩
  · have hmem := hages.contained hsound.contained g e.id he
    rcases hages.index_cases g with ⟨-, hsame⟩ | hempty
    · rw [hsame] at he ⊢
      have hissued : store.Issued (.edge e.id) := hsound.issued_of_includes he
      rw [(hages.edge e hissued hmem).2]
      exact h.ends g e he
    · rw [hempty] at he
      exact absurd he (Index.not_includes_empty (.edge e.id))
  · rcases hages.nodeState_cases n with ⟨-, hsame⟩ | hblank
    · rw [hsame]
      exact h.nodup n
    · rw [hblank.pending]
      exact List.nodup_nil
  · rcases hages.nodeState_cases n with ⟨-, hsame⟩ | hblank
    · rw [hsame] at he
      obtain ⟨hmem, hstate⟩ := hages.edge e (hsound.pending n e he).2 halive
      obtain ⟨hdetached, htouches⟩ := h.detached n e he hmem
      refine ⟨?_, ?_⟩
      · rw [home_edge] at hdetached ⊢
        exact Option.eq_none_iff_forall_ne_some.mpr fun g hg => by
          rw [hhome _ g hg] at hdetached
          cases hdetached
      · rw [Touches, hstate]
        exact htouches
    · rw [hblank.pending] at he
      cases he
  · rcases hages.nodeState_cases n with ⟨-, hsame⟩ | hblank
    · rw [hsame]
      refine h.attached n fun hnone => hn ?_
      rw [home_node] at hnone ⊢
      exact Option.eq_none_iff_forall_ne_some.mpr fun g hg => by
        rw [hhome _ g hg] at hnone
        cases hnone
    · exact hblank.pending

end Wired

end Store

end PatternGraph
