import PatternGraph.Proofs.Store.Drawn
import PatternGraph.Proofs.Store.Moves

/-!
# How far an attachment has come

`Underway` says what has been done of an attachment and what is still due: the graph has gained only
items that the roots draw along, everything that these items draw along is in the graph, due or let
go, and other graphs have lost only what is drawn along and the edges at it.  Doing what is due keeps
this, and so does letting go of what is not due.
-/

namespace PatternGraph

namespace Store

variable {c : Catalogue} {first store store' : Store} {g : GraphId} {roots due due' : List ItemId}

/-- Whether an edge is in a graph or due to come into it. -/
def Secured (store : Store) (g : GraphId) (due : List ItemId) (id : EdgeId) : Prop :=
  id ∈ (store.index g).edges ∨ .edge id ∈ due

/--
Whether a graph has gained items that some roots draw along in the store of the start, with nothing
missing but what is due.
-/
structure Underway (first : Store) (g : GraphId) (roots due : List ItemId) (store : Store) :
    Prop where
  nodeCount : first.nodeCount ≤ store.nodeCount
  edgeCount : first.edgeCount ≤ store.edgeCount
  graphCount : first.graphCount ≤ store.graphCount
  kept : ∀ id, (first.index g).Includes id → (store.index g).Includes id
  gained : ∀ id, (store.index g).Includes id →
    (first.index g).Includes id ∨ first.Drawn (store.Secured g due) roots id
  drawn : ∀ id ∈ due, first.Drawn (store.Secured g due) roots id
  rooted : ∀ id ∈ roots, (store.index g).Includes id ∨ id ∈ due
  followed : ∀ n : Node, n.id ∈ (store.index g).nodes → first.graphOfNode n = none →
    ∀ e ∈ (first.nodeState n).pending, store.Secured g due e.id ∨ e.id ∉ store.edges
  graphs : ∀ k ∈ store.graphs, k ≠ g → k.number ≤ first.graphCount → k ∈ first.graphs
  others : ∀ k id, k ≠ g → (store.index k).Includes id → (first.index k).Includes id
  lost : ∀ k ∈ store.graphs, k ≠ g → ∀ id, (first.index k).Includes id →
    (store.index k).Includes id ∨ first.Drawn (store.Secured g due) roots id ∨
      ∃ (e : Edge) (n : Node), id = .edge e.id ∧ first.Touches e n ∧
        first.Drawn (store.Secured g due) roots (.node n.id)
  alive : ∀ e : Edge, e.id ∈ store.edges → e.id.number ≤ first.edgeCount → e.id ∈ first.edges
  source : ∀ e : Edge, e.id ∈ store.edges →
    (store.edgeState e).source = (first.edgeState e).source
  target : ∀ e : Edge, e.id ∈ store.edges →
    (store.edgeState e).target = (first.edgeState e).target
  pending : ∀ n : Node, n.id ∉ (store.index g).nodes →
    (store.nodeState n).pending = (first.nodeState n).pending

namespace Underway

/-- In the beginning the roots are due. -/
theorem start (h : first.Sound c) : first.Underway g roots roots first where
  nodeCount := Nat.le_refl _
  edgeCount := Nat.le_refl _
  graphCount := Nat.le_refl _
  kept := fun _ hid => hid
  gained := fun _ hid => Or.inl hid
  drawn := fun _ hid => .root hid
  rooted := fun _ hid => Or.inr hid
  followed := by
    intro n hn hfree
    have hhome := (h.home_eq_some_iff (.node n.id)).mpr hn
    rw [← home_node, hfree] at hhome
    cases hhome
  graphs := fun _ hk _ _ => hk
  others := fun _ _ _ hid => hid
  lost := fun _ _ _ _ hid => Or.inl hid
  alive := fun _ he _ => he
  source := fun _ _ => rfl
  target := fun _ _ => rfl
  pending := fun _ _ => rfl

/-- What is drawn along is still drawn along when no edge is secured less. -/
theorem drawn_mono
    {id : ItemId}
    (hid : first.Drawn (store.Secured g due) roots id)
    (hsecured : ∀ id, store.Secured g due id → store'.Secured g due' id) :
    first.Drawn (store'.Secured g due') roots id :=
  hid.mono fun _ e _ => hsecured e.id

/-- What is in the graph need not be due, and what is drawn along may be. -/
theorem redue
    (h : first.Underway g roots due store)
    (hkeep : ∀ id ∈ due, (store.index g).Includes id ∨ id ∈ due')
    (hdrawn : (∀ id ∈ due, first.Drawn (store.Secured g due') roots id) →
      ∀ id ∈ due', first.Drawn (store.Secured g due') roots id) :
    first.Underway g roots due' store := by
  have hsecured : ∀ id, store.Secured g due id → store.Secured g due' id := by
    rintro id (hid | hid)
    · exact Or.inl hid
    · exact hkeep _ hid
  have hmono : ∀ id, first.Drawn (store.Secured g due) roots id →
      first.Drawn (store.Secured g due') roots id := fun _ hid => drawn_mono hid hsecured
  refine { h with
    gained := fun id hid => (h.gained id hid).imp_right (hmono id)
    drawn := hdrawn fun id hid => hmono id (h.drawn id hid)
    rooted := fun id hid => ?_
    followed := fun n hn hfree e he => (h.followed n hn hfree e he).imp_left (hsecured e.id)
    lost := fun k hk hne id hid => ?_ }
  · rcases h.rooted id hid with hin | hdue
    · exact Or.inl hin
    · exact hkeep id hdue
  · rcases h.lost k hk hne id hid with hin | hdrawn | ⟨e, n, heq, htouches, hn⟩
    · exact Or.inl hin
    · exact Or.inr (Or.inl (hmono id hdrawn))
    · exact Or.inr (Or.inr ⟨e, n, heq, htouches, hmono _ hn⟩)

/-- Something that is due comes into the graph. -/
theorem gains
    {item : ItemId}
    (h : first.Underway g roots due store)
    (hgains : store.Gains g item store')
    (hitem : item ∈ due)
    (halive : ∀ id, item = .edge id → id ∈ store.edges)
    (hfollowed : ∀ n : Node, item = .node n.id → first.graphOfNode n = none →
      ∀ e ∈ (first.nodeState n).pending, store.Secured g due e.id ∨ e.id ∉ store.edges)
    (hpending : ∀ n : Node, n.id ∉ (store'.index g).nodes →
      (store'.nodeState n).pending = (store.nodeState n).pending) :
    first.Underway g roots due store' := by
  have hedges : ∀ id, id ∈ store'.edges ↔ id ∈ store.edges := fun id =>
    (hgains.alive id).trans (or_iff_left_of_imp fun heq => halive id heq.symm)
  have hsecured : ∀ id, store.Secured g due id → store'.Secured g due id := by
    rintro id (hid | hid)
    · exact Or.inl ((hgains.includes g (.edge id)).mpr (Or.inl hid))
    · exact Or.inr hid
  have hmono : ∀ id, first.Drawn (store.Secured g due) roots id →
      first.Drawn (store'.Secured g due) roots id := fun _ hid => drawn_mono hid hsecured
  refine ⟨hgains.nodeCount ▸ h.nodeCount, hgains.edgeCount ▸ h.edgeCount,
    hgains.graphCount ▸ h.graphCount, fun id hid => ?_, fun id hid => ?_,
    fun id hid => hmono id (h.drawn id hid), fun id hid => ?_, fun n hn hfree e he => ?_,
    fun k hk hne => h.graphs k (((hgains.graphs k).mp hk).resolve_left hne) hne,
    fun k id hne hid => ?_, fun k hk hne id hid => ?_, fun e he => ?_, fun e he => ?_,
    fun e he => ?_, fun n hn => ?_⟩
  · exact (hgains.includes g id).mpr (Or.inl (h.kept id hid))
  · rcases (hgains.includes g id).mp hid with hid | ⟨-, rfl⟩
    · exact (h.gained id hid).imp_right (hmono id)
    · exact Or.inr (hmono _ (h.drawn _ hitem))
  · exact (h.rooted id hid).imp_left fun hin => (hgains.includes g id).mpr (Or.inl hin)
  · have hsettled : store.Secured g due e.id ∨ e.id ∉ store.edges := by
      rcases (hgains.includes g (.node n.id)).mp hn with hin | ⟨-, heq⟩
      · exact h.followed n hin hfree e he
      · exact hfollowed n heq.symm hfree e he
    rcases hsettled with hsecure | hgone
    · exact Or.inl (hsecured e.id hsecure)
    · exact Or.inr fun hmem => hgone ((hedges e.id).mp hmem)
  · rcases (hgains.includes k id).mp hid with hid | ⟨heq, -⟩
    · exact h.others k id hne hid
    · exact absurd heq hne
  · have hk' : k ∈ store.graphs := ((hgains.graphs k).mp hk).resolve_left hne
    rcases h.lost k hk' hne id hid with hin | hdrawn | ⟨e, n, heq, htouches, hn⟩
    · exact Or.inl ((hgains.includes k id).mpr (Or.inl hin))
    · exact Or.inr (Or.inl (hmono id hdrawn))
    · exact Or.inr (Or.inr ⟨e, n, heq, htouches, hmono _ hn⟩)
  · exact h.alive e ((hedges e.id).mp he)
  · exact (hgains.source e).trans (h.source e ((hedges e.id).mp he))
  · exact (hgains.target e).trans (h.target e ((hedges e.id).mp he))
  · rw [hpending n hn]
    exact h.pending n fun hin => hn ((hgains.includes g (.node n.id)).mpr (Or.inl hin))

/-- Something that is due leaves another graph, with the edges at it. -/
theorem loses
    {k : GraphId}
    {events : List Event}
    (h : first.Underway g roots due store)
    (hloses : store.Loses k events store')
    (hne : k ≠ g)
    (hcontained : ∀ g (id : EdgeId), id ∈ (store.index g).edges → id ∈ store.edges)
    (htold : ∀ id ∈ told events, id ∈ due ∨ ∃ (e : Edge) (n : Node), id = .edge e.id ∧
      first.Touches e n ∧ .node n.id ∈ due) :
    first.Underway g roots due store' := by
  have hincludes : ∀ id, (store'.index g).Includes id ↔ (store.index g).Includes id := fun id =>
    (hloses.includes g id).trans (and_iff_left fun hlost => hne hlost.1.symm)
  have hedges : ∀ id, id ∈ store'.edges ↔ id ∈ store.edges := fun id =>
    (hloses.alive id).trans
      (or_iff_left_of_imp fun htold => hcontained k id (hloses.members _ htold))
  have hsecured : ∀ id, store.Secured g due id ↔ store'.Secured g due id := fun id =>
    or_congr_left (hincludes (.edge id)).symm
  have hmono : ∀ id, first.Drawn (store.Secured g due) roots id →
      first.Drawn (store'.Secured g due) roots id := fun _ hid =>
    drawn_mono hid fun id => (hsecured id).mp
  refine ⟨hloses.nodeCount ▸ h.nodeCount, hloses.edgeCount ▸ h.edgeCount,
    hloses.graphCount ▸ h.graphCount, fun id hid => (hincludes id).mpr (h.kept id hid),
    fun id hid => ?_, fun id hid => hmono id (h.drawn id hid), fun id hid => ?_,
    fun n hn hfree e he => ?_, fun j hj => h.graphs j ((hloses.graphs j).mp hj),
    fun j id hj hid => ?_, fun j hj hne' id hid => ?_, fun e he => ?_,
    fun e he => ?_, fun e he => ?_, fun n hn => ?_⟩
  · exact (h.gained id ((hincludes id).mp hid)).imp_right (hmono id)
  · exact (h.rooted id hid).imp_left (hincludes id).mpr
  · rcases h.followed n ((hincludes (.node n.id)).mp hn) hfree e he with hsecure | hgone
    · exact Or.inl ((hsecured e.id).mp hsecure)
    · exact Or.inr fun hmem => hgone ((hedges e.id).mp hmem)
  · exact h.others j id hj ((hloses.includes j id).mp hid).1
  · rcases h.lost j ((hloses.graphs j).mp hj) hne' id hid with hin | hdrawn | ⟨e, n, heq, hn⟩
    · by_cases hleft : j = k ∧ id ∈ told events
      · rcases htold id hleft.2 with hdue | ⟨e, n, heq, htouches, hn⟩
        · exact Or.inr (Or.inl (hmono id (h.drawn id hdue)))
        · exact Or.inr (Or.inr ⟨e, n, heq, htouches, hmono _ (h.drawn _ hn)⟩)
      · exact Or.inl ((hloses.includes j id).mpr ⟨hin, hleft⟩)
    · exact Or.inr (Or.inl (hmono id hdrawn))
    · exact Or.inr (Or.inr ⟨e, n, heq, hn.1, hmono _ hn.2⟩)
  · exact h.alive e ((hedges e.id).mp he)
  · exact (hloses.source e).trans (h.source e ((hedges e.id).mp he))
  · exact (hloses.target e).trans (h.target e ((hedges e.id).mp he))
  · exact (hloses.pending n).trans (h.pending n fun hin => hn ((hincludes (.node n.id)).mpr hin))

/-- Things are created, or let go that are not due. -/
theorem ages
    (h : first.Underway g roots due store)
    (hfirst : first.Sound c)
    (hsound : store.Sound c)
    (hages : store.Ages store')
    (hmem : g ∈ store.graphs)
    (hgraph : g ∈ store'.graphs) :
    first.Underway g roots due store' := by
  have hindex : store'.index g = store.index g := by
    refine (hages.graph g (Nat.le_of_not_lt fun hnew => ?_) hgraph).2
    exact hsound.graph g hnew hmem
  have hsecured : ∀ id, store.Secured g due id → store'.Secured g due id := fun id hid => by
    rwa [Secured, hindex]
  have hmono : ∀ id, first.Drawn (store.Secured g due) roots id →
      first.Drawn (store'.Secured g due) roots id := fun _ hid => drawn_mono hid hsecured
  -- An edge is there as it was, or new and blank.
  have hedge : ∀ e : Edge, e.id ∈ store'.edges →
      e.id ∈ store.edges ∧ store'.edgeState e = store.edgeState e ∨
        store.edgeCount < e.id.number ∧ (store'.edgeState e).Blank := by
    intro e he
    rcases Nat.lt_or_ge store.edgeCount e.id.number with hnew | hold
    · exact Or.inr ⟨hnew, hages.newEdge e hnew⟩
    · exact Or.inl (hages.edge e hold he)
  refine ⟨h.nodeCount.trans hages.nodeCount, h.edgeCount.trans hages.edgeCount,
    h.graphCount.trans hages.graphCount, fun id hid => hindex ▸ h.kept id hid, fun id hid => ?_,
    fun id hid => hmono id (h.drawn id hid), fun id hid => hindex ▸ h.rooted id hid,
    fun n hn hfree e he => ?_,
    fun k hk hne hold => h.graphs k (hages.graph k (hold.trans h.graphCount) hk).1 hne hold,
    fun k id hne hid => ?_, fun k hk hne id hid => ?_,
    fun e he hold => ?_, fun e he => ?_, fun e he => ?_, fun n hn => ?_⟩
  · rw [hindex] at hid
    exact (h.gained id hid).imp_right (hmono id)
  · rw [hindex] at hn
    rcases h.followed n hn hfree e he with hsecure | hgone
    · exact Or.inl (hsecured e.id hsecure)
    · exact Or.inr fun hmem => hgone
        (hages.edge e ((hfirst.pending n e he).2.trans h.edgeCount) hmem).1
  · rcases hages.index_cases k with ⟨-, hsame⟩ | hempty
    · rw [hsame] at hid
      exact h.others k id hne hid
    · rw [hempty] at hid
      exact absurd hid (Index.not_includes_empty id)
  · rcases Nat.lt_or_ge store.graphCount k.number with hnew | hold
    · rw [index_of_not_mem (hfirst.graph k (Nat.lt_of_le_of_lt h.graphCount hnew))] at hid
      exact absurd hid (Index.not_includes_empty id)
    · obtain ⟨hk', hsame⟩ := hages.graph k hold hk
      rcases h.lost k hk' hne id hid with hin | hdrawn | ⟨e, n, heq, htouches, hn⟩
      · exact Or.inl (hsame ▸ hin)
      · exact Or.inr (Or.inl (hmono id hdrawn))
      · exact Or.inr (Or.inr ⟨e, n, heq, htouches, hmono _ hn⟩)
  · exact h.alive e (hages.edge e (hold.trans h.edgeCount) he).1 hold
  · rcases hedge e he with ⟨hmem, hsame⟩ | ⟨hnew, hblank⟩
    · rw [hsame]
      exact h.source e hmem
    · rw [hblank.source, (hfirst.edge e (Nat.lt_of_le_of_lt h.edgeCount hnew)).source]
  · rcases hedge e he with ⟨hmem, hsame⟩ | ⟨hnew, hblank⟩
    · rw [hsame]
      exact h.target e hmem
    · rw [hblank.target, (hfirst.edge e (Nat.lt_of_le_of_lt h.edgeCount hnew)).target]
  · rw [hindex] at hn
    rcases Nat.lt_or_ge store.nodeCount n.id.number with hnew | hold
    · rw [(hages.newNode n hnew).pending,
        (hfirst.node n (Nat.lt_of_le_of_lt h.nodeCount hnew)).pending]
    · rw [hages.node n hold]
      exact h.pending n hn

end Underway

end Store

end PatternGraph
