import PatternGraph.Proofs.Store.Moves
import PatternGraph.Proofs.Store.Replay

/-!
# Events tell exactly what happens

The events that come of a removal, and of a job of an attachment, can be replayed on the content that
the graph had: they lead to the content that it has afterwards, while all other graphs stay as they
are.  For a job this needs that what it puts in has not come into a graph since it left the one that
it was in.
-/

namespace PatternGraph

variable {c : Catalogue}

namespace Store

/--
Whether a store has changed in the content of one graph only, the events lead from its old content to
its new one, and all of them tell that items have come or all that items have gone.
-/
structure Logs (store : Store) (graph : GraphId) (events : List Event) (store' : Store) : Prop where
  count : store'.graphCount = store.graphCount
  graphs : ∀ g, g ∈ store'.graphs ↔ g ∈ store.graphs
  others : ∀ other, other ≠ graph → store'.index other = store.index other
  replays : ∀ d, (store.index graph).Represents d → ∃ d', (store'.index graph).Represents d' ∧
    d.Replays events d'
  alike : ∃ change, ∀ event ∈ events, event.change = change

namespace Logs

variable {store store' store'' : Store} {graph : GraphId} {events : List Event}

theorem of_keepsGraphs (h : store.KeepsGraphs store') (graph : GraphId) :
    store.Logs graph [] store' := by
  refine ⟨h.count, fun g => by rw [h.graphs], fun other _ => h.index_eq other,
    fun d hd => ⟨d, ?_, .nil d⟩, .added, by simp⟩
  rwa [h.index_eq]

theorem keeping (h : store.Logs graph events store') (h' : store'.KeepsGraphs store'') :
    store.Logs graph events store'' := by
  refine ⟨h'.count.trans h.count, fun g => by rw [h'.graphs, h.graphs],
    fun other hother => (h'.index_eq other).trans (h.others other hother), fun d hd => ?_, h.alike⟩
  rw [h'.index_eq]
  exact h.replays d hd

theorem setIndex
    {change : Change}
    (index : Index)
    (hgraph : graph ∈ store.graphs)
    (h : ∀ d, (store.index graph).Represents d → ∃ d', index.Represents d' ∧ d.Replays events d')
    (hchange : ∀ event ∈ events, event.change = change) :
    store.Logs graph events (store.setIndex graph index) := by
  refine ⟨rfl, fun g => ?_, fun other hother => index_setIndex_of_ne store index hother,
    fun d hd => ?_, change, hchange⟩
  · rw [mem_graphs_setIndex]
    exact or_iff_right_of_imp fun heq => heq ▸ hgraph
  · rw [index_setIndex_self]
    exact h d hd

theorem takeNode {node : NodeId} (h : store.takeNode graph node = some (events, store')) :
    store.Logs graph events store' := by
  have hremoved := (Removes.node h).change_eq
  rw [Store.takeNode, Option.map_eq_some_iff] at h
  obtain ⟨⟨n, edges, index⟩, hremove, heq⟩ := h
  obtain ⟨rfl, rfl⟩ := Prod.mk.inj heq
  have hgraph : graph ∈ store.graphs := by
    obtain ⟨m, hm, -⟩ := Option.map_eq_some_iff.mp hremove
    have hincludes : (store.index graph).Includes (.node node) :=
      Std.ExtTreeMap.mem_iff_isSome_getElem?.mpr (by simp [hm])
    exact mem_graphs_of_includes hincludes
  refine (setIndex index hgraph (fun d hd => ?_) hremoved).keeping
    ((KeepsGraphs.disownEdges edges _).trans (KeepsGraphs.updateNode _ n _))
  rcases hd.removeNode node with ⟨-, hnone⟩ | ⟨n', index', hn, hsome, hindex⟩
  · rw [hnone] at hremove
    cases hremove
  · rw [hsome] at hremove
    cases hremove
    obtain rfl : n.id = node := d.node_id node n hn
    exact ⟨_, hindex, .dropNode hn⟩

theorem takeEdge {edge : EdgeId} (h : store.takeEdge graph edge = some (events, store')) :
    store.Logs graph events store' := by
  have hremoved := (Removes.edge h).change_eq
  rw [Store.takeEdge, Option.map_eq_some_iff] at h
  obtain ⟨⟨e, index⟩, hremove, heq⟩ := h
  obtain ⟨rfl, rfl⟩ := Prod.mk.inj heq
  have hgraph : graph ∈ store.graphs := by
    obtain ⟨f, hf, -⟩ := Option.map_eq_some_iff.mp hremove
    have hincludes : (store.index graph).Includes (.edge edge) :=
      Std.ExtTreeMap.mem_iff_isSome_getElem?.mpr (by simp [hf])
    exact mem_graphs_of_includes hincludes
  refine (setIndex index hgraph (fun d hd => ?_) hremoved).keeping (KeepsGraphs.updateEdge _ e _)
  rcases hd.removeEdge edge with ⟨-, hnone⟩ | ⟨w, index', hw, hsome, hindex⟩
  · rw [hnone] at hremove
    cases hremove
  · rw [hsome] at hremove
    cases hremove
    obtain rfl : w.edge.id = edge := d.edge_id edge w hw
    exact ⟨_, hindex, .single (.removeEdge d w hw)⟩

end Logs

theorem Removes.logs
    {store store' : Store}
    {graph : GraphId}
    {events : List Event}
    (h : store.Removes graph events store') :
    store.Logs graph events store' := by
  induction h with
  | refl store => exact .of_keepsGraphs (.refl store) graph
  | node h => exact .takeNode h
  | edge h => exact .takeEdge h
  | trans h h' ih ih' =>
      refine ⟨ih'.count.trans ih.count, fun g => (ih'.graphs g).trans (ih.graphs g),
        fun other hother => (ih'.others other hother).trans (ih.others other hother),
        fun d hd => ?_, .removed, (h.trans h').change_eq⟩
      obtain ⟨d', hd', hreplays⟩ := ih.replays d hd
      obtain ⟨d'', hd'', hreplays'⟩ := ih'.replays d' hd'
      exact ⟨d'', hd'', hreplays.append hreplays'⟩

section OneGraph

variable {store store' store'' : Store} {g graph : GraphId} {events : List Event}

/-- Whether a graph has not been let go: it has not been created yet, or it is there. -/
def Spares (store : Store) (g : GraphId) : Prop :=
  store.graphCount < g.number ∨ g ∈ store.graphs

/--
Whether events, all of them arrivals or all of them departures, lead from the content that a graph had
to the one that it has, unless it has been let go.
-/
structure Follows (store : Store) (g : GraphId) (events : List Event) (store' : Store) : Prop where
  spares : store'.Spares g → store.Spares g
  replays : store'.Spares g → ∀ d, (store.index g).Represents d →
    ∃ d', (store'.index g).Represents d' ∧ d.Replays events d'
  alike : ∃ change, ∀ event ∈ events, event.change = change

namespace Follows

theorem still
    (hspares : store'.Spares g → store.Spares g)
    (hindex : store'.Spares g → store'.index g = store.index g) :
    store.Follows g [] store' :=
  ⟨hspares, fun hg d hd => ⟨d, hindex hg ▸ hd, .nil d⟩, .added, by simp⟩

theorem refl (store : Store) (g : GraphId) : store.Follows g [] store :=
  still id fun _ => rfl

theorem of_keepsGraphs (h : store.KeepsGraphs store') (g : GraphId) :
    store.Follows g [] store' := by
  refine still (fun hg => ?_) fun _ => h.index_eq g
  rwa [Spares, h.graphs, h.count] at hg

/-- While a store ages, the graphs that are not let go keep their content. -/
theorem ages (h : store.Ages store') (hpristine : store.Pristine) (g : GraphId) :
    store.Follows g [] store' := by
  rcases Nat.lt_or_ge store.graphCount g.number with hnew | hold
  · refine still (fun _ => Or.inl hnew) fun _ => ?_
    rw [h.newGraph g hnew, index_of_not_mem (hpristine.graph g hnew)]
  · have hmem : store'.Spares g → g ∈ store'.graphs := fun hg =>
      hg.resolve_left fun hlt => Nat.not_le_of_lt (Nat.lt_of_le_of_lt h.graphCount hlt) hold
    exact still (fun hg => Or.inr (h.graph g hold (hmem hg)).1) fun hg =>
      (h.graph g hold (hmem hg)).2

theorem of_logs (h : store.Logs graph events store') (g : GraphId) :
    store.Follows g (if graph = g then events else []) store' := by
  have hspares : store'.Spares g → store.Spares g := by
    rw [Spares, Spares, h.count, h.graphs]
    exact id
  by_cases hg : graph = g
  · rw [if_pos hg]
    subst hg
    exact ⟨hspares, fun _ => h.replays, h.alike⟩
  · rw [if_neg hg]
    exact still hspares fun _ => h.others g (Ne.symm hg)

/-- Nothing has happened to the graph before. -/
theorem before
    (h : store.Follows g [] store')
    (h' : store'.Follows g events store'') :
    store.Follows g events store'' := by
  refine ⟨fun hg => h.spares (h'.spares hg), fun hg d hd => ?_, h'.alike⟩
  obtain ⟨d', hd', hnone⟩ := h.replays (h'.spares hg) d hd
  cases hnone
  exact h'.replays hg d hd'

/-- Nothing has happened to the graph afterwards. -/
theorem afterwards
    (h : store.Follows g events store')
    (h' : store'.Follows g [] store'') :
    store.Follows g events store'' := by
  refine ⟨fun hg => h.spares (h'.spares hg), fun hg d hd => ?_, h.alike⟩
  obtain ⟨d', hd', hreplays⟩ := h.replays (h'.spares hg) d hd
  obtain ⟨d'', hd'', hnone⟩ := h'.replays hg d' hd'
  cases hnone
  exact ⟨d', hd'', hreplays⟩

/-- A graph to which nothing has happened has the content that it had. -/
theorem index_eq
    (h : store.Follows g [] store')
    (hspares : store'.Spares g)
    (hrepresented : ∃ d, (store.index g).Represents d) :
    store'.index g = store.index g := by
  obtain ⟨d, hd⟩ := hrepresented
  obtain ⟨d', hd', hnone⟩ := h.replays hspares d hd
  cases hnone
  exact hd'.unique hd

/-- Nothing is told of a graph that has the content that it had. -/
theorem eq_nil
    (h : store.Follows g events store')
    (hspares : store'.Spares g)
    (hrepresented : ∃ d, (store.index g).Represents d)
    (hindex : store'.index g = store.index g) :
    events = [] := by
  obtain ⟨d, hd⟩ := hrepresented
  obtain ⟨d', hd', hreplays⟩ := h.replays hspares d hd
  obtain ⟨change, hchange⟩ := h.alike
  exact (hreplays.index_eq_iff hd hd' change hchange).mp hindex

end Follows

/--
Whether what some events say of one item leads from whether a graph had the item to whether it has it,
and is nothing if that is the same, unless the graph has been let go.
-/
structure Recounts (store : Store) (g : GraphId) (id : ItemId) (events : List Event)
    (store' : Store) : Prop where
  spares : store'.Spares g → store.Spares g
  turns : store'.Spares g →
    Alternate ((store.index g).Includes id) (changesOf id events) ((store'.index g).Includes id)
  quiet : store'.Spares g → ((store.index g).Includes id ↔ (store'.index g).Includes id) →
    changesOf id events = []

namespace Follows

variable {id : ItemId}

theorem recounts
    (h : store.Follows g events store')
    (hrepresented : ∃ d, (store.index g).Represents d)
    (id : ItemId) :
    store.Recounts g id events store' := by
  obtain ⟨d, hd⟩ := hrepresented
  refine ⟨h.spares, fun hg => ?_, fun hg hsame => ?_⟩ <;>
    obtain ⟨d', hd', hreplays⟩ := h.replays hg d hd
  · rw [propext (hd.includes_iff id), propext (hd'.includes_iff id)]
    exact hreplays.alternate id
  · -- events that all tell the same name each item that has come or gone, and no other one
    obtain ⟨change, hchange⟩ := h.alike
    have htold := hreplays.mem_told_iff (hreplays.nodup_of_change change hchange) id
    rw [← hd.includes_iff, ← hd'.includes_iff] at htold
    exact changesOf_eq_nil_iff.mpr fun hmem => htold.mp hmem hsame

/-- Events about other items say nothing of an item, whatever else they say. -/
theorem recounts_other
    (h : store.Follows g [] store')
    (hrepresented : ∃ d, (store.index g).Represents d)
    (hother : id ∉ told events) :
    store.Recounts g id events store' := by
  have hnone := changesOf_eq_nil_iff.mpr hother
  refine ⟨h.spares, fun hg => ?_, fun _ _ => hnone⟩
  rw [hnone, h.index_eq hg hrepresented]
  exact Iff.rfl

end Follows

end OneGraph

end Store

namespace Attachment

variable {a a' : Attachment} {store store' : Store} {job : Job} {departure : Option Departure}

/--
Whether the next job puts a node in that has come into a graph since it left the one it was in, be it
another graph or the very one that it is to be put into, or an edge that another graph includes.
-/
def Forestalled (a : Attachment) (store : Store) : Prop :=
  match a.jobs with
  | .settle n :: _ => ∃ g, store.graphOfNode n = some g
  | _ => a.Overtaken store

instance (a : Attachment) (store : Store) : Decidable (a.Overtaken store) := by
  have hmoved : ∀ (home : Option GraphId) (g : GraphId), Decidable (∃ h, home = some h ∧ h ≠ g) :=
    fun home g => decidable_of_iff (home.any (· ≠ g) = true) (by cases home <;> simp)
  unfold Overtaken
  split <;> infer_instance

instance (a : Attachment) (store : Store) : Decidable (a.Forestalled store) := by
  have hhome : ∀ home : Option GraphId, Decidable (∃ h, home = some h) :=
    fun home => decidable_of_iff (home.isSome = true) Option.isSome_iff_exists
  unfold Forestalled
  split <;> infer_instance

theorem Overtaken.forestalled (h : a.Overtaken store) : a.Forestalled store := by
  rw [Overtaken] at h
  rw [Forestalled]
  split at h
  · rename_i n jobs heq
    obtain ⟨g, hg, -⟩ := h
    rw [heq]
    exact ⟨g, hg⟩
  · rename_i e source target jobs heq
    rw [heq]
    dsimp only
    rw [Overtaken, heq]
    exact h
  · exact h.elim

/-- Whether the next job puts a node into a graph once more that has come into it meanwhile. -/
def Repeats (a : Attachment) (store : Store) (g : GraphId) (id : ItemId) : Prop :=
  match a.jobs with
  | .settle n :: _ => a.graph = g ∧ .node n.id = id ∧ store.graphOfNode n = some g
  | _ => False

instance (a : Attachment) (store : Store) (g : GraphId) (id : ItemId) :
    Decidable (a.Repeats store g id) := by
  unfold Repeats
  split <;> infer_instance

/-- A node that is in no other graph has come into the very graph that it is to be put into. -/
theorem Forestalled.settles
    (h : a.Forestalled store)
    (hfree : ¬a.Overtaken store) :
    ∃ n jobs, a.jobs = .settle n :: jobs ∧ store.graphOfNode n = some a.graph := by
  rw [Forestalled] at h
  split at h
  · rename_i n jobs hjobs
    obtain ⟨g, hg⟩ := h
    refine ⟨n, jobs, hjobs, ?_⟩
    rw [Overtaken, hjobs] at hfree
    by_contra hother
    exact hfree ⟨g, hg, fun heq => hother (heq ▸ hg)⟩
  · exact absurd h hfree

/-- Putting a node in that is there already does nothing to any graph. -/
theorem settle_logs_nil
    {n : Node}
    (a : Attachment)
    (hgraph : a.graph ∈ store.graphs)
    (hin : n.id ∈ (store.index a.graph).nodes) :
    store.Logs a.graph [] (a.settle store n).1 := by
  have hindexed : (store.index a.graph).nodes.contains n.id = true :=
    Std.ExtTreeMap.mem_iff_contains.mp hin
  have hsettle : (a.settle store n).1 =
      (store.setIndex a.graph ((store.index a.graph).insertNode n).2).updateNode n fun state =>
        { state with owner := some a.graph, pending := [] } := rfl
  rw [hsettle, Index.insertNode, if_pos hindexed]
  have hnone : ∀ event ∈ ([] : List Event), event.change = .added := by simp
  exact (Store.Logs.setIndex _ hgraph (fun d hd => ⟨d, hd, .nil d⟩) hnone).keeping (.updateNode _ n _)

theorem settle_logs
    {n : Node}
    (a : Attachment)
    (hgraph : a.graph ∈ store.graphs)
    (habsent : n.id ∉ (store.index a.graph).nodes) :
    store.Logs a.graph [⟨.added, .node n⟩] (a.settle store n).1 := by
  have hsettle : (a.settle store n).1 =
      (store.setIndex a.graph ((store.index a.graph).insertNode n).2).updateNode n fun state =>
        { state with owner := some a.graph, pending := [] } := rfl
  rw [hsettle]
  refine (Store.Logs.setIndex _ hgraph (fun d hd => ?_) (List.forall_mem_singleton.mpr rfl)).keeping
    (.updateNode _ n _)
  have hn : n.id ∉ d.nodes := by rwa [← hd.nodes]
  exact ⟨_, (hd.insertNode n hn).2, .single (.addNode d n hn)⟩

theorem join_logs
    {e : Edge}
    {source target : Node}
    (hjoin : a.join store e source target = .ok (store', a'))
    (hgraph : a.graph ∈ store.graphs)
    (habsent : e.id ∉ (store.index a.graph).edges) :
    store.Logs a.graph [⟨.added, .edge e⟩] store' := by
  obtain ⟨hsource, htarget⟩ := ends_of_join hjoin habsent
  rw [join] at hjoin
  cases hinsert : (store.index a.graph).insertEdge e ⟨source.id, target.id⟩ with
  | error fault =>
      rw [hinsert] at hjoin
      cases hjoin
  | ok inserted =>
      rw [hinsert] at hjoin
      obtain ⟨rfl, rfl⟩ := Prod.mk.inj (Except.ok.inj hjoin)
      refine (Store.Logs.setIndex _ hgraph (fun d hd => ?_) (List.forall_mem_singleton.mpr rfl)).keeping
        (.ownEdge _ a.graph e)
      have he : e.id ∉ d.wires := by rwa [← hd.mem_edges]
      rw [hd.nodes] at hsource htarget
      obtain ⟨index', hsome, hindex⟩ := hd.insertEdge e ⟨source.id, target.id⟩ he ⟨hsource, htarget⟩
      rw [hsome] at hinsert
      cases hinsert
      exact ⟨_, hindex, .single (.addEdge d e _ he ⟨hsource, htarget⟩)⟩

/--
Whether a job has added to the graph that receives items and has gathered the events that tell of it, or
has taken items out of another graph, the events of which are handed over.
-/
def Accounts (a : Attachment) (store store' : Store) (a' : Attachment) : Option Departure → Prop
  | none => ∃ events, a'.events = events.reverse ++ a.events ∧
      store.Logs a.graph events store' ∧ ∀ event ∈ events, event.change = .added
  | some d => a'.events = a.events ∧ d.graph ≠ a.graph ∧ store.Logs d.graph d.events store' ∧
      ∀ event ∈ d.events, event.change = .removed

theorem Moves.accounts
    {jobs : List Job}
    (hmoves : ({ a with jobs := jobs } : Attachment).Moves store job store' a' departure)
    (hsound : store.Sound c)
    (hgraph : a.graph ∈ store.graphs)
    (hjobs : a.jobs = job :: jobs)
    (hfree : ¬a.Forestalled store) :
    a.Accounts store store' a' departure := by
  have hstill : ∀ jobs : List Job, a.Accounts store store { a with jobs := jobs } none := fun _ =>
    ⟨[], rfl, .of_keepsGraphs (.refl store) a.graph, by simp⟩
  have hsettle : ∀ n : Node, store.graphOfNode n ≠ some a.graph →
      a.Accounts store (({ a with jobs := jobs } : Attachment).settle store n).1
        (({ a with jobs := jobs } : Attachment).settle store n).2 none := by
    intro n hn
    refine ⟨[⟨.added, .node n⟩], rfl, settle_logs _ hgraph fun hin => hn ?_, by simp⟩
    exact (hsound.home_eq_some_iff (.node n.id)).mpr hin
  have hother : ∀ {id : ItemId} {previous : GraphId},
      store.owner id ≠ some a.graph → store.home id = some previous → previous ≠ a.graph := by
    rintro id previous howned hhome rfl
    exact howned ((store.home_eq_some_iff id).mp hhome).1
  cases hmoves with
  | passNode n howned => exact hstill _
  | passEdge e howned => exact hstill _
  | passJoin e source target howned => exact hstill _
  | enter n howned hnone => exact hsettle n (by rw [hnone]; simp)
  | settle n => exact hsettle n fun hin => hfree (by
      rw [Attachment.Forestalled, hjobs]
      exact ⟨a.graph, hin⟩)
  | leaveNode n howned hhome hremove =>
      have hremoves := Store.Removes.removeNode hremove
      exact ⟨rfl, hother howned hhome, hremoves.logs, hremoves.change_eq⟩
  | unfold e howned hends hnone => exact hstill _
  | leaveEdge e howned hends hhome hremove =>
      have hremoves := Store.Removes.removeEdge hremove
      exact ⟨rfl, hother howned hhome, hremoves.logs, hremoves.change_eq⟩
  | join e source target howned hjoin =>
      obtain rfl := join_eq_ok hjoin
      have hlogs := join_logs hjoin hgraph fun hin =>
        howned ((hsound.housed a.graph hgraph (.edge e.id)).mpr hin)
      exact ⟨[⟨.added, .edge e⟩], rfl, hlogs, by simp⟩

end Attachment

end PatternGraph
