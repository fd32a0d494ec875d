import PatternGraph.Proofs.Store.Attaching

/-!
# Before an attachment starts

Between the beginning of a command and the start of its attachment the store may drift: handlers
create things and let go of things, and an edge that is to be connected leaves the graph that it is in
and is wired anew.  `Connects` says all of this that the attachment has to know.  If a preflight has
accepted the ends of the edge before, the attachment may start after it.
-/

namespace PatternGraph

namespace Store

variable {c : Catalogue} {roots : List ItemId}

/-- Whether only some items have left graphs, apart from what has been created and let go. -/
structure Drifts (left : ItemId → Prop) (store store' : Store) : Prop where
  edgeCount : store.edgeCount ≤ store'.edgeCount
  graphCount : store.graphCount ≤ store'.graphCount
  included : ∀ k id, (store'.index k).Includes id → (store.index k).Includes id
  kept : ∀ k ∈ store'.graphs, ∀ id, (store.index k).Includes id →
    (store'.index k).Includes id ∨ left id
  graphs : ∀ k ∈ store'.graphs, k.number ≤ store.graphCount → k ∈ store.graphs
  pending : ∀ n : Node, (store'.nodeState n).pending = (store.nodeState n).pending
  alive : ∀ e : Edge, e.id ∈ store'.edges → e.id.number ≤ store.edgeCount → e.id ∈ store.edges
  source : ∀ e : Edge, e.id ∈ store'.edges ∨ store'.edgeCount < e.id.number →
    (store'.edgeState e).source = (store.edgeState e).source
  target : ∀ e : Edge, e.id ∈ store'.edges ∨ store'.edgeCount < e.id.number →
    (store'.edgeState e).target = (store.edgeState e).target

/-- A graph that includes something has been created. -/
theorem Pristine.number_le_of_includes
    {store : Store}
    {k : GraphId}
    {id : ItemId}
    (h : store.Pristine)
    (hid : (store.index k).Includes id) :
    k.number ≤ store.graphCount :=
  Nat.le_of_not_lt fun hnew => h.graph k hnew (mem_graphs_of_includes hid)

namespace Drifts

variable {left : ItemId → Prop} {store store' store'' : Store}

theorem trans
    (h : store.Drifts left store')
    (h' : store'.Drifts left store'')
    (hpristine : store.Pristine) :
    store.Drifts left store'' := by
  have hremains : ∀ e : Edge, e.id ∈ store''.edges ∨ store''.edgeCount < e.id.number →
      e.id ∈ store'.edges ∨ store'.edgeCount < e.id.number := by
    rintro e (he | hnew)
    · rcases Nat.lt_or_ge store'.edgeCount e.id.number with hnew | hold
      · exact Or.inr hnew
      · exact Or.inl (h'.alive e he hold)
    · exact Or.inr (Nat.lt_of_le_of_lt h'.edgeCount hnew)
  refine ⟨h.edgeCount.trans h'.edgeCount, h.graphCount.trans h'.graphCount,
    fun k id hid => h.included k id (h'.included k id hid), fun k hk id hid => ?_,
    fun k hk hold => h.graphs k (h'.graphs k hk (hold.trans h.graphCount)) hold,
    fun n => (h'.pending n).trans (h.pending n),
    fun e he hold => h.alive e (h'.alive e he (hold.trans h.edgeCount)) hold,
    fun e he => (h'.source e he).trans (h.source e (hremains e he)),
    fun e he => (h'.target e he).trans (h.target e (hremains e he))⟩
  have hk' := h'.graphs k hk ((hpristine.number_le_of_includes hid).trans h.graphCount)
  rcases h.kept k hk' id hid with hin | hleft
  · exact h'.kept k hk id hin
  · exact Or.inr hleft

theorem of_ages (h : store.Ages store') (hpristine : store.Pristine) :
    store.Drifts left store' := by
  have hends : ∀ e : Edge, e.id ∈ store'.edges ∨ store'.edgeCount < e.id.number →
      (store'.edgeState e).source = (store.edgeState e).source ∧
        (store'.edgeState e).target = (store.edgeState e).target := by
    intro e he
    rcases Nat.lt_or_ge store.edgeCount e.id.number with hnew | hold
    · rw [(h.newEdge e hnew).source, (h.newEdge e hnew).target, (hpristine.edge e hnew).source,
        (hpristine.edge e hnew).target]
      exact ⟨rfl, rfl⟩
    · have hmem := he.resolve_right (Nat.not_lt_of_le (hold.trans h.edgeCount))
      rw [(h.edge e hold hmem).2]
      exact ⟨rfl, rfl⟩
  refine ⟨h.edgeCount, h.graphCount, fun k id hid => ?_, fun k hk id hid => Or.inl ?_,
    fun k hk hold => (h.graph k hold hk).1, fun n => ?_,
    fun e he hold => (h.edge e hold he).1, fun e he => (hends e he).1, fun e he => (hends e he).2⟩
  · rcases h.index_cases k with ⟨-, hsame⟩ | hempty
    · exact hsame ▸ hid
    · rw [hempty] at hid
      exact absurd hid (Index.not_includes_empty id)
  · rwa [(h.graph k (hpristine.number_le_of_includes hid) hk).2]
  · rcases Nat.lt_or_ge store.nodeCount n.id.number with hnew | hold
    · rw [(h.newNode n hnew).pending, (hpristine.node n hnew).pending]
    · rw [h.node n hold]

/-- A store drifts nowhere without something being done. -/
theorem refl (h : store.Pristine) : store.Drifts (fun _ => False) store :=
  of_ages (.refl h) h

theorem of_loses
    {k : GraphId}
    {events : List Event}
    (h : store.Loses k events store')
    (hcontained : ∀ g (id : EdgeId), id ∈ (store.index g).edges → id ∈ store.edges)
    (htold : ∀ id ∈ told events, left id) :
    store.Drifts left store' := by
  refine ⟨h.edgeCount.ge, h.graphCount.ge, fun j id hid => ((h.includes j id).mp hid).1,
    fun j _ id hid => ?_, fun j hj _ => (h.graphs j).mp hj, h.pending,
    fun e he _ => ((h.alive e.id).mp he).elim (fun hmem => hmem)
      fun hlost => hcontained k _ (h.members _ hlost),
    fun e _ => h.source e, fun e _ => h.target e⟩
  by_cases hlost : j = k ∧ id ∈ told events
  · exact Or.inr (htold id hlost.2)
  · exact Or.inl ((h.includes j id).mpr ⟨hid, hlost⟩)

end Drifts

/-- An edge that is drawn along is a root, or is remembered and counts. -/
theorem Drawn.edge_cases
    {store : Store}
    {counts : EdgeId → Prop}
    {id : ItemId}
    {k : EdgeId}
    (h : store.Drawn counts roots id)
    (hid : id = .edge k) :
    .edge k ∈ roots ∨ counts k := by
  cases h with
  | root hroot => exact Or.inl (hid ▸ hroot)
  | remembered hn hfree he hcounts => exact Or.inr (ItemId.edge.inj hid ▸ hcounts)
  | source he hn => cases hid
  | target he hn => cases hid

/-- A node that remembers an edge is detached. -/
theorem Wired.free_of_pending
    {store : Store}
    {n : Node}
    {e : Edge}
    (h : store.Wired)
    (he : e ∈ (store.nodeState n).pending) :
    store.graphOfNode n = none := by
  by_contra hattached
  rw [h.attached n hattached] at he
  cases he

/-- Whether an edge has left the graph that it was in and been wired anew, with drift in between. -/
structure Connects (base : Store) (e : Edge) (source target : Node) (first : Store) : Prop where
  edgeCount : base.edgeCount ≤ first.edgeCount
  graphCount : base.graphCount ≤ first.graphCount
  included : ∀ k id, (first.index k).Includes id → (base.index k).Includes id
  kept : ∀ k ∈ first.graphs, ∀ id, (base.index k).Includes id →
    (first.index k).Includes id ∨ id = .edge e.id
  graphs : ∀ k ∈ first.graphs, k.number ≤ base.graphCount → k ∈ base.graphs
  pending : ∀ (n : Node) (f : Edge), f ≠ e →
    (f ∈ (first.nodeState n).pending ↔ f ∈ (base.nodeState n).pending)
  remains : ∀ f : Edge, f.id ≠ e.id → f.id ∈ first.edges ∨ first.edgeCount < f.id.number →
    f.id ∈ base.edges ∨ base.edgeCount < f.id.number
  ends : ∀ f : Edge, f.id ≠ e.id → f.id ∈ first.edges ∨ first.edgeCount < f.id.number →
    (first.edgeState f).source = (base.edgeState f).source ∧
      (first.edgeState f).target = (base.edgeState f).target
  given : e.id ∈ first.edges →
    (first.edgeState e).source = some source ∧ (first.edgeState e).target = some target

namespace Connects

variable {base moment first : Store} {e : Edge} {source target : Node}

/-- An edge with both ends need not be connected. -/
theorem refl (hends : base.endpoints? e = some (source, target)) :
    base.Connects e source target base where
  edgeCount := Nat.le_refl _
  graphCount := Nat.le_refl _
  included := fun _ _ hid => hid
  kept := fun _ _ _ hid => Or.inl hid
  graphs := fun _ hk _ => hk
  pending := fun _ _ _ => Iff.rfl
  remains := fun _ _ hf => hf
  ends := fun _ _ _ => ⟨rfl, rfl⟩
  given := fun _ => (base.endpoints?_eq_some_iff e source target).mp hends

theorem of_rewire
    (hdrifts : base.Drifts (· = .edge e.id) moment)
    (hdrifts' : (moment.rewire e source target).Drifts (fun _ => False) first)
    (hpristine : base.Pristine) :
    base.Connects e source target first := by
  have hrewires := Rewires.rewire moment e source target
  have hindex : ∀ k, (moment.rewire e source target).index k = moment.index k := fun k => by
    rw [index, index, hrewires.graphs]
  have hgraphs : ∀ k ∈ first.graphs, k.number ≤ base.graphCount → k ∈ moment.graphs := by
    intro k hk hold
    rw [← hrewires.graphs]
    exact hdrifts'.graphs k hk (hrewires.graphCount ▸ hold.trans hdrifts.graphCount)
  have hcount : (moment.rewire e source target).edgeCount = moment.edgeCount := hrewires.edgeCount
  -- What has not been let go by the start had not been let go when the edge was wired.
  have hmoment : ∀ f : Edge, f.id ≠ e.id → f.id ∈ first.edges ∨ first.edgeCount < f.id.number →
      f.id ∈ moment.edges ∨ moment.edgeCount < f.id.number := by
    rintro f hne (hf | hnew)
    · rcases Nat.lt_or_ge moment.edgeCount f.id.number with hnew | hold
      · exact Or.inr hnew
      · have hmem := hdrifts'.alive f hf (hcount.symm ▸ hold)
        exact Or.inl (((hrewires.alive f.id).mp hmem).resolve_right hne)
    · exact Or.inr (Nat.lt_of_le_of_lt (hcount ▸ hdrifts'.edgeCount) hnew)
  refine ⟨hdrifts.edgeCount.trans (hcount ▸ hdrifts'.edgeCount),
    hdrifts.graphCount.trans (hrewires.graphCount ▸ hdrifts'.graphCount),
    fun k id hid => hdrifts.included k id (hindex k ▸ hdrifts'.included k id hid),
    fun k hk id hid => ?_, fun k hk hold => hdrifts.graphs k (hgraphs k hk hold) hold,
    fun n f hne => ?_, fun f hne hf => ?_, fun f hne hf => ?_, fun he => ?_⟩
  · have hk' := hgraphs k hk (hpristine.number_le_of_includes hid)
    rcases hdrifts.kept k hk' id hid with hin | hroot
    · exact Or.inl ((hdrifts'.kept k hk id (hindex k ▸ hin)).resolve_right not_false)
    · exact Or.inr hroot
  · rw [hdrifts'.pending n, ← hdrifts.pending n]
    constructor
    · intro hmem
      exact (hrewires.pending n f hmem).resolve_right fun heq => hne heq.1
    · exact hrewires.remembers n f hne
  · rcases hmoment f hne hf with hmem | hnew
    · rcases Nat.lt_or_ge base.edgeCount f.id.number with hnew | hold
      · exact Or.inr hnew
      · exact Or.inl (hdrifts.alive f hmem hold)
    · exact Or.inr (Nat.lt_of_le_of_lt hdrifts.edgeCount hnew)
  · rw [hdrifts'.source f hf, hdrifts'.target f hf, hrewires.other f hne]
    exact ⟨hdrifts.source f (hmoment f hne hf), hdrifts.target f (hmoment f hne hf)⟩
  · rw [hdrifts'.source e (Or.inl he), hdrifts'.target e (Or.inl he)]
    exact moment.source_rewire e source target

/-- What a connected edge draws along, its ends have drawn along before, apart from the edge. -/
theorem drawn_cases
    {id : ItemId}
    (h : base.Connects e source target first)
    (hsound : base.Sound c)
    (hwired : base.Wired)
    (halive : e.id ∈ first.edges)
    (hid : first.Drawn (· ∈ first.edges) [.edge e.id] id) :
    id = .edge e.id ∨ base.Drawn (· ∈ base.edges) ([source, target].map fun n => .node n.id) id := by
  have hsame : ∀ f : Edge, ItemId.edge f.id = .edge e.id → first.edgeState f = first.edgeState e :=
    fun f hid => by rw [edgeState, edgeState, ItemId.edge.inj hid]
  have hthere : ∀ f : Edge, f.id ≠ e.id → first.Drawn (· ∈ first.edges) [.edge e.id] (.edge f.id) →
      f.id ∈ first.edges := by
    intro f hne hf
    refine (hf.edge_cases rfl).resolve_left fun hroot => hne ?_
    exact ItemId.edge.inj (List.mem_singleton.mp hroot)
  induction hid with
  | root hroot => exact Or.inl (List.mem_singleton.mp hroot)
  | @remembered n f hn hfree hf hmem ih =>
      by_cases hid : f.id = e.id
      · exact Or.inl (congrArg ItemId.edge hid)
      · have hf' := (h.pending n f fun heq => hid (heq ▸ rfl)).mp hf
        have hold := (hsound.pending n f hf').2
        have hmem' := (h.remains f hid (Or.inl hmem)).resolve_right (Nat.not_lt_of_le hold)
        have hn' := ih.resolve_left fun heq => ItemId.noConfusion heq
        exact Or.inr (.remembered hn' (hwired.free_of_pending hf') hf' hmem')
  | @source f n hf hn ih =>
      rcases ih with hid | hdrawn
      · rw [hsame f hid, (h.given halive).1] at hn
        exact Or.inr (.root (by simp [Option.some.inj hn]))
      · by_cases hid : f.id = e.id
        · rw [hsame f (congrArg ItemId.edge hid), (h.given halive).1] at hn
          exact Or.inr (.root (by simp [Option.some.inj hn]))
        · rw [(h.ends f hid (Or.inl (hthere f hid hf))).1] at hn
          exact Or.inr (.source hdrawn hn)
  | @target f n hf hn ih =>
      rcases ih with hid | hdrawn
      · rw [hsame f hid, (h.given halive).2] at hn
        exact Or.inr (.root (by simp [Option.some.inj hn]))
      · by_cases hid : f.id = e.id
        · rw [hsame f (congrArg ItemId.edge hid), (h.given halive).2] at hn
          exact Or.inr (.root (by simp [Option.some.inj hn]))
        · rw [(h.ends f hid (Or.inl (hthere f hid hf))).2] at hn
          exact Or.inr (.target hdrawn hn)

/-- The attachment of a connected edge may start if a preflight has accepted its ends. -/
theorem starts
    (h : base.Connects e source target first)
    (hsound : base.Sound c)
    (hwired : base.Wired)
    (hpreflight : base.preflight [source, target] = .ok ())
    (hfirst : first.Sound c)
    (hfirstWired : first.Wired)
    (hissued : first.Issued (.edge e.id))
    (halive : e.id ∈ first.edges) :
    Attachment.Starts c [.edge e.id] first := by
  refine ⟨hfirst, hfirstWired, fun root hroot => List.mem_singleton.mp hroot ▸ hissued,
    fun f hf => ?_⟩
  by_cases hid : f.id = e.id
  · refine ⟨source, target, (first.endpoints?_eq_some_iff f source target).mpr ?_⟩
    rw [edgeState, hid]
    exact h.given halive
  · have hdrawn := (h.drawn_cases hsound hwired halive hf).resolve_left fun heq =>
      hid (ItemId.edge.inj heq)
    have hmem := (hf.edge_cases rfl).resolve_left fun hroot =>
      hid (ItemId.edge.inj (List.mem_singleton.mp hroot))
    obtain ⟨s, t, hends⟩ := endpoints_of_preflight hpreflight hdrawn
    refine ⟨s, t, (first.endpoints?_eq_some_iff f s t).mpr ?_⟩
    obtain ⟨hsource, htarget⟩ := h.ends f hid (Or.inl hmem)
    rw [hsource, htarget]
    exact (base.endpoints?_eq_some_iff f s t).mp hends

end Connects

end Store

end PatternGraph
