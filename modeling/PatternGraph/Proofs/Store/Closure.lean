import PatternGraph.Proofs.Store.Drifting

/-!
# What an attachment amounts to

Once nothing is due any more, an attachment amounts to what `Closes` says of the stores before and
after the command: the graph has gained exactly what the roots draw along in the wiring that the command
installs, and every other graph has lost exactly that and the edges at it.
-/

namespace PatternGraph

namespace Store

variable {c : Catalogue} {g : GraphId} {roots : List ItemId}

/-- The items that have arrived through some roots, by the remembered edges that are still there. -/
def Arrived (installed after : Store) (roots : List ItemId) (id : ItemId) : Prop :=
  installed.Drawn (· ∈ after.edges) roots id

/--
Whether a graph has gained what some roots draw along in the installed wiring, at the cost of the
other graphs, and nothing else has happened to graphs and edges that are still there.
-/
structure Closes (before installed : Store) (g : GraphId) (roots : List ItemId) (after : Store) :
    Prop where
  graph : ∀ id, (after.index g).Includes id ↔
    (before.index g).Includes id ∨ installed.Arrived after roots id
  others : ∀ k ∈ after.graphs, k ≠ g → ∀ id, (after.index k).Includes id ↔
    (before.index k).Includes id ∧ ¬installed.Arrived after roots id ∧
      ¬∃ (e : Edge) (n : Node), id = .edge e.id ∧ before.Touches e n ∧
        installed.Arrived after roots (.node n.id)
  loosened : ∀ k, k ≠ g → ∀ e : Edge, (before.index k).Includes (.edge e.id) →
    ¬(after.index k).Includes (.edge e.id) → ¬installed.Arrived after roots (.edge e.id) →
    after.graphOfEdge e = none
  ends : ∀ e : Edge, e.id ∈ after.edges →
    (after.edgeState e).source = (installed.edgeState e).source ∧
      (after.edgeState e).target = (installed.edgeState e).target
  pending : ∀ n : Node, installed.Arrived after roots (.node n.id) →
    (after.nodeState n).pending = []
  alive : ∀ e : Edge, e.id ∈ after.edges → e.id.number ≤ installed.edgeCount →
    e.id ∈ installed.edges

/-- What has arrived is what the roots drew along in the beginning, if no edge has been let go. -/
theorem Closes.arrived_iff
    {before installed after : Store}
    (h : before.Closes installed g roots after)
    (hissued : ∀ n : Node, ∀ e ∈ (installed.nodeState n).pending,
      e.id.number ≤ installed.edgeCount)
    (hkept : ∀ id ∈ installed.edges, id ∈ after.edges)
    (id : ItemId) :
    installed.Arrived after roots id ↔ installed.Drawn (· ∈ installed.edges) roots id :=
  ⟨fun hid => hid.mono fun n e he hmem => h.alive e hmem (hissued n e he),
    fun hid => hid.mono fun _ e _ hmem => hkept e.id hmem⟩

/--
Whether an attachment starts from where a command has begun: the roots may have left other graphs,
and the wiring is what the command installs.
-/
structure Prepares (before installed : Store) (g : GraphId) (roots : List ItemId)
    (first : Store) : Prop where
  edgeCount : installed.edgeCount ≤ first.edgeCount
  graphCount : before.graphCount ≤ first.graphCount
  graph : ∀ id, (before.index g).Includes id → (first.index g).Includes id
  included : ∀ k id, (first.index k).Includes id → (before.index k).Includes id
  kept : ∀ k ∈ first.graphs, ∀ id, (before.index k).Includes id →
    (first.index k).Includes id ∨ id ∈ roots
  touches : ∀ e : Edge, .edge e.id ∉ roots → e.id ∈ first.edges →
    ∀ n, first.Touches e n ↔ before.Touches e n
  source : ∀ e : Edge, e.id ∈ first.edges ∨ first.edgeCount < e.id.number →
    (first.edgeState e).source = (installed.edgeState e).source
  target : ∀ e : Edge, e.id ∈ first.edges ∨ first.edgeCount < e.id.number →
    (first.edgeState e).target = (installed.edgeState e).target
  remembers : ∀ (n : Node) (e : Edge), .edge e.id ∉ roots →
    (first.graphOfNode n = none ∧ e ∈ (first.nodeState n).pending ↔
      installed.graphOfNode n = none ∧ e ∈ (installed.nodeState n).pending)
  alive : ∀ e : Edge, e.id ∈ first.edges → e.id.number ≤ installed.edgeCount →
    e.id ∈ installed.edges

theorem touches_congr
    {store store' : Store}
    {e : Edge}
    (hsource : (store'.edgeState e).source = (store.edgeState e).source)
    (htarget : (store'.edgeState e).target = (store.edgeState e).target)
    (n : Node) :
    store'.Touches e n ↔ store.Touches e n := by
  rw [Touches, Touches, hsource, htarget]

namespace Prepares

variable {before base first : Store}

/-- An attachment starts where the command has begun, after some drift. -/
theorem of_drifts
    (hdrifts : before.Drifts (fun _ => False) first)
    (hbefore : before.Wired)
    (hfirst : first.Wired)
    (hgraph : g ∈ first.graphs) :
    before.Prepares before g roots first where
  edgeCount := hdrifts.edgeCount
  graphCount := hdrifts.graphCount
  graph := fun id hid => (hdrifts.kept g hgraph id hid).resolve_right not_false
  included := hdrifts.included
  kept := fun k hk id hid => (hdrifts.kept k hk id hid).imp_right False.elim
  touches := fun e _ he =>
    touches_congr (hdrifts.source e (Or.inl he)) (hdrifts.target e (Or.inl he))
  source := hdrifts.source
  target := hdrifts.target
  remembers := by
    intro n e _
    constructor
    · rintro ⟨-, he⟩
      rw [hdrifts.pending n] at he
      exact ⟨hbefore.free_of_pending he, he⟩
    · rintro ⟨-, he⟩
      rw [← hdrifts.pending n] at he
      exact ⟨hfirst.free_of_pending he, he⟩
  alive := hdrifts.alive

/-- An attachment starts once its edge has been connected. -/
theorem of_connects
    {e : Edge}
    {source target : Node}
    (hdrifts : before.Drifts (fun _ => False) base)
    (hconnects : base.Connects e source target first)
    (hbefore : before.Pristine)
    (hbase : base.Wired)
    (hfirst : first.Wired)
    (halive : e.id ∈ first.edges)
    (hgraph : g ∈ first.graphs)
    (hout : e.id ∉ (before.index g).edges) :
    before.Prepares (base.rewire e source target) g [.edge e.id] first := by
  have hinstalls := Rewires.rewire base e source target
  have hgiven := base.source_rewire e source target
  have hkept : ∀ k ∈ first.graphs, ∀ id, (before.index k).Includes id →
      (first.index k).Includes id ∨ id = .edge e.id := by
    intro k hk id hid
    have hnumber := (hbefore.number_le_of_includes hid).trans hdrifts.graphCount
    have hin := (hdrifts.kept k (hconnects.graphs k hk hnumber) id hid).resolve_right not_false
    exact hconnects.kept k hk id hin
  have hsame : ∀ f : Edge, f.id = e.id → ∀ store : Store, store.edgeState f = store.edgeState e :=
    fun f hid store => by rw [edgeState, edgeState, hid]
  refine ⟨hinstalls.edgeCount.trans_le hconnects.edgeCount,
    hdrifts.graphCount.trans hconnects.graphCount, fun id hid => ?_,
    fun k id hid => hdrifts.included k id (hconnects.included k id hid),
    fun k hk id hid => (hkept k hk id hid).imp_right List.mem_singleton.mpr,
    fun f hf hmem n => ?_, fun f hf => ?_, fun f hf => ?_, fun n f hf => ?_,
    fun f hmem hold => (hinstalls.alive f.id).mpr ?_⟩
  · rcases hkept g hgraph id hid with hin | rfl
    · exact hin
    · exact absurd hid hout
  · have hne : f.id ≠ e.id := fun hid => hf (hid ▸ List.mem_singleton_self _)
    obtain ⟨hsource, htarget⟩ := hconnects.ends f hne (Or.inl hmem)
    have hbase := hconnects.remains f hne (Or.inl hmem)
    exact touches_congr (hsource.trans (hdrifts.source f hbase))
      (htarget.trans (hdrifts.target f hbase)) n
  · by_cases hid : f.id = e.id
    · rw [hsame f hid, hsame f hid, (hconnects.given halive).1, hgiven.1]
    · rw [(hconnects.ends f hid hf).1, hinstalls.other f hid]
  · by_cases hid : f.id = e.id
    · rw [hsame f hid, hsame f hid, (hconnects.given halive).2, hgiven.2]
    · rw [(hconnects.ends f hid hf).2, hinstalls.other f hid]
  · have hne : f ≠ e := fun heq => hf (heq ▸ List.mem_singleton_self _)
    constructor
    · rintro ⟨-, hmem⟩
      have hmem' := (hconnects.pending n f hne).mp hmem
      refine ⟨?_, hinstalls.remembers n f hne hmem'⟩
      have hfree := hbase.free_of_pending hmem'
      rw [home_node, home, living] at hfree ⊢
      rwa [hinstalls.owner, hinstalls.graphs]
    · rintro ⟨-, hmem⟩
      have hmem' := (hconnects.pending n f hne).mpr
        ((hinstalls.pending n f hmem).resolve_right fun heq => hne heq.1)
      exact ⟨hfirst.free_of_pending hmem', hmem'⟩
  · by_cases hid : f.id = e.id
    · exact Or.inr hid
    · refine Or.inl ((hconnects.remains f hid (Or.inl hmem)).resolve_right (Nat.not_lt_of_le ?_))
      rwa [hinstalls.edgeCount] at hold

end Prepares

/-- Stores with the same wiring draw the same items along. -/
theorem Drawn.transfer
    {store store' : Store}
    {counts : EdgeId → Prop}
    {id : ItemId}
    (h : store.Drawn counts roots id)
    (hremembers : ∀ (n : Node) (e : Edge), .edge e.id ∉ roots →
      store.graphOfNode n = none ∧ e ∈ (store.nodeState n).pending →
        store'.graphOfNode n = none ∧ e ∈ (store'.nodeState n).pending)
    (hends : ∀ e : Edge, .edge e.id ∈ roots ∨ counts e.id →
      (store.edgeState e).source = (store'.edgeState e).source ∧
        (store.edgeState e).target = (store'.edgeState e).target) :
    store'.Drawn counts roots id := by
  induction h with
  | root hid => exact .root hid
  | @remembered n e hn hfree he hcounts ih =>
      by_cases hroot : .edge e.id ∈ roots
      · exact .root hroot
      · obtain ⟨hfree', he'⟩ := hremembers n e hroot ⟨hfree, he⟩
        exact .remembered ih hfree' he' hcounts
  | @source e n he hn ih =>
      exact .source ih ((hends e (he.edge_cases rfl)).1.symm.trans hn)
  | @target e n he hn ih =>
      exact .target ih ((hends e (he.edge_cases rfl)).2.symm.trans hn)

/-- The ends of an edge of a graph are in the graph. -/
theorem Wired.mem_nodes_of_touches
    {store : Store}
    {e : Edge}
    {n : Node}
    (h : store.Wired)
    (hrepresented : ∀ g, ∃ d, (store.index g).Represents d)
    (he : e.id ∈ (store.index g).edges)
    (htouches : store.Touches e n) :
    n.id ∈ (store.index g).nodes := by
  obtain ⟨d, hd⟩ := hrepresented g
  obtain ⟨s, t, hs, ht, hends⟩ := h.ends g e he
  rw [hd.ends, Option.map_eq_some_iff] at hends
  obtain ⟨w, hw, hends⟩ := hends
  have hclosed := d.closed e.id w hw
  rw [hends] at hclosed
  rw [Std.ExtTreeMap.mem_iff_isSome_getElem?, hd.nodes, ← Std.ExtTreeMap.mem_iff_isSome_getElem?]
  rcases htouches with ⟨s', hs', hid⟩ | ⟨t', ht', hid⟩
  · rw [hs] at hs'
    rw [← hid, ← Option.some.inj hs']
    exact hclosed.1
  · rw [ht] at ht'
    rw [← hid, ← Option.some.inj ht']
    exact hclosed.2

section Amounting

variable {before installed first after : Store}

/-- When nothing is due any more, all that the roots draw along has come into the graph. -/
theorem Underway.includes_of_drawn
    {id : ItemId}
    (h : first.Underway g roots [] after)
    (hsound : after.Sound c)
    (hwired : after.Wired)
    (hid : first.Drawn (· ∈ after.edges) roots id) :
    (after.index g).Includes id := by
  have hend : ∀ (e : Edge) (n : Node), (after.index g).Includes (.edge e.id) →
      after.Touches e n → (after.index g).Includes (.node n.id) := fun e n he htouches =>
    hwired.mem_nodes_of_touches hsound.represented he htouches
  induction hid with
  | root hroot => exact (h.rooted _ hroot).resolve_right List.not_mem_nil
  | @remembered n e hn hfree he halive ih =>
      rcases h.followed n ih hfree e he with hsecured | hgone
      · exact hsecured.resolve_right List.not_mem_nil
      · exact absurd halive hgone
  | @source e n he hn ih =>
      exact hend e n ih (Or.inl ⟨n, (h.source e (hsound.contained g e.id ih)).trans hn, rfl⟩)
  | @target e n he hn ih =>
      exact hend e n ih (Or.inr ⟨n, (h.target e (hsound.contained g e.id ih)).trans hn, rfl⟩)

/-- What is still there was there in the beginning, or has been created since. -/
theorem Underway.remains
    {due : List ItemId}
    {e : Edge}
    (h : first.Underway g roots due after)
    (he : e.id ∈ after.edges) :
    e.id ∈ first.edges ∨ first.edgeCount < e.id.number := by
  rcases Nat.lt_or_ge first.edgeCount e.id.number with hnew | hold
  · exact Or.inr hnew
  · exact Or.inl (h.alive e he hold)

/-- What the roots draw along where the attachment starts is what arrives in the installed wiring. -/
theorem Prepares.drawn_iff
    (h : before.Prepares installed g roots first)
    (hremains : ∀ e : Edge, e.id ∈ after.edges → e.id ∈ first.edges ∨ first.edgeCount < e.id.number)
    (hroots : ∀ e : Edge, .edge e.id ∈ roots → e.id ∈ first.edges)
    (id : ItemId) :
    first.Drawn (· ∈ after.edges) roots id ↔ installed.Arrived after roots id := by
  have hends : ∀ e : Edge, .edge e.id ∈ roots ∨ e.id ∈ after.edges →
      (first.edgeState e).source = (installed.edgeState e).source ∧
        (first.edgeState e).target = (installed.edgeState e).target := by
    intro e he
    have hthere := he.elim (fun hroot => Or.inl (hroots e hroot)) (hremains e)
    exact ⟨h.source e hthere, h.target e hthere⟩
  constructor
  · intro hid
    exact hid.transfer (fun n e he => (h.remembers n e he).mp) hends
  · intro hid
    refine Drawn.transfer hid (fun n e he => (h.remembers n e he).mpr) fun e he => ?_
    exact ⟨(hends e he).1.symm, (hends e he).2.symm⟩

/-- When nothing is due any more, what is secured has arrived. -/
theorem Underway.arrived_of_secured
    {id : ItemId}
    (h : first.Underway g roots [] after)
    (hprepares : before.Prepares installed g roots first)
    (hsound : after.Sound c)
    (hroots : ∀ e : Edge, .edge e.id ∈ roots → e.id ∈ first.edges)
    (hid : first.Drawn (after.Secured g []) roots id) :
    installed.Arrived after roots id := by
  refine (hprepares.drawn_iff (fun _ => h.remains) hroots id).mp (hid.mono fun n e _ he => ?_)
  exact hsound.contained g e.id (he.resolve_right List.not_mem_nil)

/-- Another graph has lost what has arrived and the edges at it, and nothing else. -/
theorem Underway.others_iff
    {k : GraphId}
    {id : ItemId}
    (h : first.Underway g roots [] after)
    (hprepares : before.Prepares installed g roots first)
    (hbefore : before.Sound c)
    (hfirst : first.Sound c)
    (hsound : after.Sound c)
    (hwired : after.Wired)
    (hroots : ∀ e : Edge, .edge e.id ∈ roots → e.id ∈ first.edges)
    (harrived : ∀ id, installed.Arrived after roots id → (after.index g).Includes id)
    (hk : k ∈ after.graphs)
    (hne : k ≠ g) :
    (after.index k).Includes id ↔
      (before.index k).Includes id ∧ ¬installed.Arrived after roots id ∧
        ¬∃ (e : Edge) (n : Node), id = .edge e.id ∧ before.Touches e n ∧
          installed.Arrived after roots (.node n.id) := by
  constructor
  · intro hid
    have hid' := h.others k id hne hid
    have hnot : ¬installed.Arrived after roots id := fun hin =>
      hne (hsound.unique hid (harrived id hin))
    refine ⟨hprepares.included k id hid', hnot, ?_⟩
    -- an edge that has stayed has both ends in its graph, so none of them has arrived elsewhere
    rintro ⟨e, n, rfl, htouches, hn⟩
    have hroot : .edge e.id ∉ roots := fun hroot => hnot (.root hroot)
    have halive := hsound.contained k e.id hid
    have htouches' := (hprepares.touches e hroot (hfirst.contained k e.id hid') n).mpr htouches
    have hend : (after.index k).Includes (.node n.id) :=
      hwired.mem_nodes_of_touches hsound.represented hid
        ((touches_congr (h.source e halive) (h.target e halive) n).mpr htouches')
    exact hne (hsound.unique hend (harrived _ hn))
  · rintro ⟨hid, hnot, hnone⟩
    have hnumber := (hbefore.number_le_of_includes hid).trans hprepares.graphCount
    rcases hprepares.kept k (h.graphs k hk hne hnumber) id hid with hid' | hroot
    · rcases h.lost k hk hne id hid' with hafter | hdrawn | ⟨e, n, rfl, htouches, hn⟩
      · exact hafter
      · exact absurd (h.arrived_of_secured hprepares hsound hroots hdrawn) hnot
      · have hroot : .edge e.id ∉ roots := fun hroot => hnot (.root hroot)
        have htouches' := (hprepares.touches e hroot (hfirst.contained k e.id hid') n).mp htouches
        exact absurd ⟨e, n, rfl, htouches', h.arrived_of_secured hprepares hsound hroots hn⟩ hnone
    · exact absurd (.root hroot) hnot

/-- When nothing is due any more, the attachment amounts to what the command is about. -/
theorem Underway.closes
    (h : first.Underway g roots [] after)
    (hprepares : before.Prepares installed g roots first)
    (hbefore : before.Sound c)
    (hfirst : first.Sound c)
    (hsound : after.Sound c)
    (hwired : after.Wired)
    (hroots : ∀ e : Edge, .edge e.id ∈ roots → e.id ∈ first.edges) :
    before.Closes installed g roots after := by
  have hin : ∀ id, installed.Arrived after roots id → (after.index g).Includes id := fun id hid =>
    h.includes_of_drawn hsound hwired
      ((hprepares.drawn_iff (fun _ => h.remains) hroots id).mpr hid)
  have hgraph : ∀ id, (after.index g).Includes id ↔
      (before.index g).Includes id ∨ installed.Arrived after roots id := by
    intro id
    constructor
    · intro hid
      exact (h.gained id hid).imp (hprepares.included g id)
        (h.arrived_of_secured hprepares hsound hroots)
    · rintro (hid | hid)
      · exact h.kept id (hprepares.graph id hid)
      · exact hin id hid
  refine ⟨hgraph, fun k hk hne id =>
      h.others_iff hprepares hbefore hfirst hsound hwired hroots hin hk hne,
    fun k hne e he hlost hnot => ?_, fun e he => ?_, fun n hn => ?_, fun e he hold =>
      hprepares.alive e (h.alive e he (hold.trans hprepares.edgeCount)) hold⟩
  · -- an edge that has left its graph and is in some graph has arrived, or has not left
    by_contra hhome
    obtain ⟨j, hj⟩ := Option.ne_none_iff_exists'.mp hhome
    have hincludes : (after.index j).Includes (.edge e.id) :=
      (hsound.home_eq_some_iff (.edge e.id)).mp hj
    by_cases hjg : j = g
    · subst hjg
      rcases (hgraph (.edge e.id)).mp hincludes with hbeforehand | harrived
      · exact hne (hbefore.unique he hbeforehand)
      · exact hnot harrived
    · have hbeforehand := hprepares.included j _ (h.others j _ hjg hincludes)
      exact hlost (hbefore.unique he hbeforehand ▸ hincludes)
  · rw [h.source e he, h.target e he]
    exact ⟨hprepares.source e (h.remains he), hprepares.target e (h.remains he)⟩
  · have hhome : after.graphOfNode n = some g :=
      (hsound.home_eq_some_iff (.node n.id)).mpr (hin _ hn)
    exact hwired.attached n (by simp [hhome])

end Amounting

end Store

end PatternGraph
