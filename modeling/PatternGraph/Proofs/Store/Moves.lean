import PatternGraph.Proofs.Store.Sound

/-!
# What a job does

A job of an attachment passes over an item that is in the graph already, puts a node or an edge in,
has an item leave the graph that it is in, or replaces an edge by its ends and itself.  Each of these
keeps the store sound as long as the item that is put in is not in another graph by then.
-/

namespace PatternGraph

/-- The item that a job is about. -/
def Job.item : Job → ItemId
  | .node n | .settle n => .node n.id
  | .edge e | .join e _ _ => .edge e.id

/-- Whether a job is about items that have been created. -/
def Job.Known (c : Catalogue) (store : Store) : Job → Prop
  | .node n | .settle n => store.KnowsNode c n
  | .edge e => store.KnowsEdge c e
  | .join e source target =>
    store.KnowsEdge c e ∧ store.KnowsNode c source ∧ store.KnowsNode c target

theorem Job.Known.mono
    {c : Catalogue}
    {store store' : Store}
    {job : Job}
    (h : job.Known c store)
    (hnodes : store.nodeCount ≤ store'.nodeCount)
    (hedges : store.edgeCount ≤ store'.edgeCount) :
    job.Known c store' := by
  cases job with
  | node n => exact Store.KnowsNode.mono h hnodes
  | settle n => exact Store.KnowsNode.mono h hnodes
  | edge e => exact Store.KnowsEdge.mono h hedges
  | join e source target =>
      exact ⟨Store.KnowsEdge.mono h.1 hedges, Store.KnowsNode.mono h.2.1 hnodes,
        Store.KnowsNode.mono h.2.2 hnodes⟩

/--
Whether a job can be done without harm: its edge is there, and what it puts in is detached or in the
graph already and has the ends it is put in with.
-/
def Job.Fits (graph : GraphId) (store : Store) : Job → Prop
  | .node _ => True
  | .settle n => store.graphOfNode n = none ∨ store.graphOfNode n = some graph
  | .edge e => e.id ∈ store.edges
  | .join e source target => e.id ∈ store.edges ∧
    (store.graphOfEdge e = none ∨ store.graphOfEdge e = some graph) ∧
    (store.edgeState e).source = some source ∧ (store.edgeState e).target = some target

theorem Job.Fits.mono
    {graph : GraphId}
    {store store' : Store}
    {job : Job}
    (h : job.Fits graph store)
    (halive : ∀ id, job.item = .edge id → id ∈ store.edges → id ∈ store'.edges)
    (hhome : ∀ id, store'.home id = none ∨ store'.home id = store.home id ∨
      store'.home id = some graph)
    (hends : ∀ e : Edge, job.item = .edge e.id → e.id ∈ store'.edges →
      (store'.edgeState e).source = (store.edgeState e).source ∧
        (store'.edgeState e).target = (store.edgeState e).target) :
    job.Fits graph store' := by
  have hstays : ∀ id, store.home id = none ∨ store.home id = some graph →
      store'.home id = none ∨ store'.home id = some graph := by
    intro id hid
    rcases hhome id with hnone | hsame | hsome
    · exact Or.inl hnone
    · rwa [hsame]
    · exact Or.inr hsome
  cases job with
  | node n => trivial
  | settle n => exact hstays (.node n.id) h
  | edge e => exact halive e.id rfl h
  | join e source target =>
      obtain ⟨hmem, hhome, hsource, htarget⟩ := h
      have hmem' := halive e.id rfl hmem
      obtain ⟨hsameSource, hsameTarget⟩ := hends e rfl hmem'
      exact ⟨hmem', hstays (.edge e.id) hhome, hsameSource.trans hsource,
        hsameTarget.trans htarget⟩

namespace Attachment

variable {c : Catalogue} {a a' : Attachment} {store store' : Store} {job : Job}
  {departure : Option Departure}

/-- What a job does to a store, with the attachment that is left and the graph that was left. -/
inductive Moves (a : Attachment) (store : Store) :
    Job → Store → Attachment → Option Departure → Prop
  | passNode (n : Node) (howned : store.owner (.node n.id) = some a.graph) :
      Moves a store (.node n) store a none
  | passEdge (e : Edge) (howned : store.owner (.edge e.id) = some a.graph) :
      Moves a store (.edge e) store a none
  | passJoin (e : Edge) (source target : Node) (howned : store.owner (.edge e.id) = some a.graph) :
      Moves a store (.join e source target) store a none
  | enter (n : Node) (howned : store.owner (.node n.id) ≠ some a.graph)
      (hfree : store.graphOfNode n = none) :
      Moves a store (.node n) (a.settle store n).1 (a.settle store n).2 none
  | settle (n : Node) :
      Moves a store (.settle n) (a.settle store n).1 (a.settle store n).2 none
  | leaveNode (n : Node) {previous : GraphId} {events : List Event} {store' : Store}
      (howned : store.owner (.node n.id) ≠ some a.graph)
      (hhome : store.graphOfNode n = some previous)
      (hremove : store.removeNode previous n = .ok (events, store')) :
      Moves a store (.node n) store' { a with jobs := .settle n :: a.jobs } (some ⟨previous, events⟩)
  | unfold (e : Edge) {source target : Node}
      (howned : store.owner (.edge e.id) ≠ some a.graph)
      (hends : store.endpoints? e = some (source, target))
      (hfree : store.graphOfEdge e = none) :
      Moves a store (.edge e) store
        { a with jobs := .node source :: .node target :: .join e source target :: a.jobs } none
  | leaveEdge (e : Edge) {source target : Node} {previous : GraphId} {events : List Event}
      {store' : Store}
      (howned : store.owner (.edge e.id) ≠ some a.graph)
      (hends : store.endpoints? e = some (source, target))
      (hhome : store.graphOfEdge e = some previous)
      (hremove : store.removeEdge previous e = .ok (events, store')) :
      Moves a store (.edge e) store'
        { a with jobs := .node source :: .node target :: .join e source target :: a.jobs }
        (some ⟨previous, events⟩)
  | join (e : Edge) (source target : Node) {store' : Store} {a' : Attachment}
      (howned : store.owner (.edge e.id) ≠ some a.graph)
      (hjoin : a.join store e source target = .ok (store', a')) :
      Moves a store (.join e source target) store' a' none

theorem moves_of_perform (h : a.perform store job = .ok (store', a', departure)) :
    a.Moves store job store' a' departure := by
  cases job with
  | node n =>
      rw [perform] at h
      split at h
      · rename_i howned
        cases h
        exact .passNode n ((store.ownsNode_iff n).mp howned)
      · rename_i howned
        rw [store.ownsNode_iff n] at howned
        split at h
        · rename_i hfree
          cases h
          exact .enter n howned hfree
        · rename_i previous hhome
          cases hremove : store.removeNode previous n with
          | error fault =>
              rw [hremove] at h
              cases h
          | ok removed =>
              rw [hremove] at h
              cases h
              exact .leaveNode n howned hhome hremove
  | settle n =>
      rw [perform] at h
      cases h
      exact .settle n
  | edge e =>
      rw [perform] at h
      split at h
      · rename_i howned
        cases h
        exact .passEdge e ((store.ownsEdge_iff e).mp howned)
      · rename_i howned
        rw [store.ownsEdge_iff e] at howned
        split at h
        · cases h
        · rename_i source target hends
          dsimp only at h
          split at h
          · rename_i hfree
            cases h
            exact .unfold e howned hends hfree
          · rename_i previous hhome
            cases hremove : store.removeEdge previous e with
            | error fault =>
                rw [hremove] at h
                cases h
            | ok removed =>
                rw [hremove] at h
                cases h
                exact .leaveEdge e howned hends hhome hremove
  | join e source target =>
      rw [perform] at h
      split at h
      · rename_i howned
        cases h
        exact .passJoin e source target ((store.ownsEdge_iff e).mp howned)
      · rename_i howned
        rw [store.ownsEdge_iff e] at howned
        cases hjoin : a.join store e source target with
        | error fault =>
            rw [hjoin] at h
            cases h
        | ok joined =>
            rw [hjoin] at h
            cases h
            exact .join e source target howned hjoin

theorem join_eq_ok {e : Edge} {source target : Node}
    (h : a.join store e source target = .ok (store', a')) :
    a' = { a with events := ⟨.added, .edge e⟩ :: a.events } := by
  rw [Attachment.join] at h
  cases hinsert : (store.index a.graph).insertEdge e ⟨source.id, target.id⟩ with
  | error fault =>
      rw [hinsert] at h
      cases h
  | ok inserted =>
      rw [hinsert] at h
      cases h
      rfl

/-- Whether the next job puts an item in that another graph includes. -/
def Overtaken (a : Attachment) (store : Store) : Prop :=
  match a.jobs with
  | .settle n :: _ => ∃ g, store.graphOfNode n = some g ∧ g ≠ a.graph
  | .join e source target :: _ =>
    source.id ∈ (store.index a.graph).nodes ∧ target.id ∈ (store.index a.graph).nodes ∧
      store.owner (.edge e.id) ≠ some a.graph ∧ ∃ g, store.graphOfEdge e = some g ∧ g ≠ a.graph
  | _ => False

/-- Once an edge has been put in, its ends are there. -/
theorem ends_of_join
    {e : Edge}
    {source target : Node}
    (h : a.join store e source target = .ok (store', a'))
    (habsent : e.id ∉ (store.index a.graph).edges) :
    source.id ∈ (store.index a.graph).nodes ∧ target.id ∈ (store.index a.graph).nodes := by
  rw [Attachment.join] at h
  have hcontains : ¬(store.index a.graph).edges.contains e.id = true := by
    rwa [← Std.ExtTreeMap.mem_iff_contains]
  rw [Index.insertEdge, if_neg hcontains] at h
  split at h
  · rename_i hends
    exact ⟨Std.ExtTreeMap.mem_iff_contains.mpr hends.1,
      Std.ExtTreeMap.mem_iff_contains.mpr hends.2⟩
  · cases h

namespace Moves

/-- A job puts an item in, takes some out of another graph, or leaves the store as it is. -/
theorem store_cases
    (hmoves : a.Moves store job store' a' departure)
    (hrepresented : ∀ g, ∃ d, (store.index g).Represents d) :
    store' = store ∨ store.Gains a.graph job.item store' ∨
      ∃ g events, departure = some ⟨g, events⟩ ∧ store.Loses g events store' := by
  cases hmoves with
  | passNode n howned => exact Or.inl rfl
  | passEdge e howned => exact Or.inl rfl
  | passJoin e source target howned => exact Or.inl rfl
  | enter n howned hfree => exact Or.inr (Or.inl (a.settle_gains n hrepresented).1)
  | settle n => exact Or.inr (Or.inl (a.settle_gains n hrepresented).1)
  | leaveNode n howned hhome hremove =>
      exact Or.inr (Or.inr ⟨_, _, rfl, (Store.Loses.removeNode hrepresented hremove).1⟩)
  | unfold e howned hends hfree => exact Or.inl rfl
  | leaveEdge e howned hends hhome hremove =>
      exact Or.inr (Or.inr ⟨_, _, rfl, (Store.Loses.removeEdge hrepresented hremove).1⟩)
  | join e source target howned hjoin =>
      exact Or.inr (Or.inl (join_gains hrepresented hjoin).1)

theorem graph_eq (hmoves : a.Moves store job store' a' departure) : a'.graph = a.graph := by
  cases hmoves with
  | join e source target howned hjoin => rw [join_eq_ok hjoin]
  | _ => rfl

/--
A job changes the graph that receives items, and adds the events that tell of it to those gathered
so far, or it changes a graph that items leave, and hands over the events that tell of that.
-/
theorem tells (hmoves : a.Moves store job store' a' departure) :
    match departure with
    | none => ∃ events, a'.events = events ++ a.events ∧ store.Tells a.graph events store'
    | some d => a'.events = a.events ∧ store.Tells d.graph d.events store' := by
  have hstill : ∃ events, a.events = events ++ a.events ∧ store.Tells a.graph events store :=
    ⟨[], rfl, .of_keepsGraphs (.refl store) a.graph⟩
  cases hmoves with
  | passNode n howned => exact hstill
  | passEdge e howned => exact hstill
  | passJoin e source target howned => exact hstill
  | enter n howned hfree => exact ⟨_, rfl, a.settle_tells store n⟩
  | settle n => exact ⟨_, rfl, a.settle_tells store n⟩
  | leaveNode n howned hhome hremove => exact ⟨rfl, (Store.Removes.removeNode hremove).tells⟩
  | unfold e howned hends hfree => exact hstill
  | leaveEdge e howned hends hhome hremove =>
      exact ⟨rfl, (Store.Removes.removeEdge hremove).tells⟩
  | join e source target howned hjoin =>
      obtain ⟨htells, hevents⟩ := a.join_tells hjoin
      exact ⟨_, hevents, htells⟩

/-- A job is replaced by jobs about items that have been created. -/
theorem known
    (hmoves : a.Moves store job store' a' departure)
    (hsound : store.Sound c)
    (hjob : job.Known c store)
    (hjobs : ∀ other ∈ a.jobs, other.Known c store) :
    ∀ other ∈ a'.jobs, other.Known c store := by
  have hsettle : ∀ n : Node, ∀ other ∈ (a.settle store n).2.jobs, other.Known c store := by
    intro n other hother
    rcases List.mem_append.mp hother with hother | hother
    · obtain ⟨e, he, rfl⟩ := List.mem_map.mp hother
      exact hsound.pending n e (List.mem_filter.mp he).1
    · exact hjobs other hother
  have hunfold : ∀ (e : Edge) (source target : Node), store.KnowsEdge c e →
      store.endpoints? e = some (source, target) →
      ∀ other ∈ Job.node source :: .node target :: .join e source target :: a.jobs,
        other.Known c store := by
    intro e source target he hends other hother
    obtain ⟨hsource, htarget⟩ := (store.endpoints?_eq_some_iff e source target).mp hends
    have hsource := hsound.source e source hsource
    have htarget := hsound.target e target htarget
    simp only [List.mem_cons] at hother
    rcases hother with rfl | rfl | rfl | hother
    · exact hsource
    · exact htarget
    · exact ⟨he, hsource, htarget⟩
    · exact hjobs other hother
  cases hmoves with
  | passNode n howned => exact hjobs
  | passEdge e howned => exact hjobs
  | passJoin e source target howned => exact hjobs
  | enter n howned hfree => exact hsettle n
  | settle n => exact hsettle n
  | leaveNode n howned hhome hremove =>
      intro other hother
      rcases List.mem_cons.mp hother with rfl | hother
      · exact hjob
      · exact hjobs other hother
  | unfold e howned hends hfree => exact hunfold e _ _ hjob hends
  | leaveEdge e howned hends hhome hremove => exact hunfold e _ _ hjob hends
  | join e source target howned hjoin =>
      rw [join_eq_ok hjoin]
      exact hjobs

/-- A store stays sound when no other graph includes what is put in. -/
theorem sound
    {jobs : List Job}
    (hmoves : ({ a with jobs := jobs } : Attachment).Moves store job store' a' departure)
    (hsound : store.Sound c)
    (hgraph : a.graph ∈ store.graphs)
    (hjob : job.Known c store)
    (hjobs : a.jobs = job :: jobs)
    (hfree : ¬a.Overtaken store) :
    store'.Sound c := by
  have hsettle : ∀ n : Node, store.KnowsNode c n →
      (∀ g, store.graphOfNode n = some g → g = a.graph) →
      (({ a with jobs := jobs } : Attachment).settle store n).1.Sound c := by
    intro n hn hhome
    exact hsound.gains (settle_gains { a with jobs := jobs } n hsound.represented).1 hgraph hn.2 hhome
  rw [Overtaken, hjobs] at hfree
  cases hmoves with
  | passNode n howned => exact hsound
  | passEdge e howned => exact hsound
  | passJoin e source target howned => exact hsound
  | enter n howned hnone =>
      refine hsettle n hjob fun g hg => ?_
      rw [hnone] at hg
      cases hg
  | settle n =>
      refine hsettle n hjob fun g hg => ?_
      by_contra hne
      exact hfree ⟨g, hg, hne⟩
  | leaveNode n howned hhome hremove =>
      exact hsound.loses (Store.Loses.removeNode hsound.represented hremove).1
  | unfold e howned hends hnone => exact hsound
  | leaveEdge e howned hends hhome hremove =>
      exact hsound.loses (Store.Loses.removeEdge hsound.represented hremove).1
  | join e source target howned hjoin =>
      have habsent : e.id ∉ (store.index a.graph).edges := fun he =>
        howned ((hsound.housed a.graph hgraph (.edge e.id)).mpr he)
      obtain ⟨hsource, htarget⟩ := ends_of_join hjoin habsent
      refine hsound.gains (join_gains hsound.represented hjoin).1 hgraph hjob.1.2 fun g hg => ?_
      by_contra hne
      exact hfree ⟨hsource, htarget, howned, g, hg, hne⟩

end Moves

theorem not_overtaken
    (hfits : ∀ job ∈ a.jobs, job.Fits a.graph store) :
    ¬a.Overtaken store := by
  intro hovertaken
  rw [Overtaken] at hovertaken
  split at hovertaken
  · rename_i n jobs heq
    obtain ⟨g, hg, hne⟩ := hovertaken
    have hfit : Job.Fits a.graph store (.settle n) := hfits _ (heq ▸ List.mem_cons_self)
    rcases hfit with hnone | hsome
    · rw [hnone] at hg
      cases hg
    · rw [hsome] at hg
      exact hne (Option.some.inj hg).symm
  · rename_i e source target jobs heq
    obtain ⟨-, -, -, g, hg, hne⟩ := hovertaken
    have hfit : Job.Fits a.graph store (.join e source target) := hfits _ (heq ▸ List.mem_cons_self)
    rcases hfit.2.1 with hnone | hsome
    · rw [hnone] at hg
      cases hg
    · rw [hsome] at hg
      exact hne (Option.some.inj hg).symm
  · exact hovertaken

namespace Moves

theorem wired
    {jobs : List Job}
    (hmoves : ({ a with jobs := jobs } : Attachment).Moves store job store' a' departure)
    (hsound : store.Sound c)
    (hwired : store.Wired)
    (hgraph : a.graph ∈ store.graphs)
    (hjob : job.Known c store)
    (hfit : job.Fits a.graph store) :
    store'.Wired := by
  have hsettle : ∀ n : Node, (({ a with jobs := jobs } : Attachment).settle store n).1.Wired := by
    intro n
    obtain ⟨hgains, hpending⟩ := settle_gains { a with jobs := jobs } n hsound.represented
    exact hwired.settles hgains hgraph hpending
  cases hmoves with
  | passNode n howned => exact hwired
  | passEdge e howned => exact hwired
  | passJoin e source target howned => exact hwired
  | enter n howned hnone => exact hsettle n
  | settle n => exact hsettle n
  | leaveNode n howned hhome hremove =>
      exact hwired.loses hsound (Store.Loses.removeNode hsound.represented hremove).1
  | unfold e howned hends hnone => exact hwired
  | leaveEdge e howned hends hhome hremove =>
      exact hwired.loses hsound (Store.Loses.removeEdge hsound.represented hremove).1
  | join e source target howned hjoin =>
      obtain ⟨hmem, hhome, hsource, htarget⟩ := hfit
      have habsent : e.id ∉ (store.index a.graph).edges := fun he =>
        howned ((hsound.housed a.graph hgraph (.edge e.id)).mpr he)
      have hdetached : store.graphOfEdge e = none :=
        hhome.resolve_right fun hsome => howned ((store.home_eq_some_iff (.edge e.id)).mp hsome).1
      obtain ⟨hgains, hends, hpending⟩ := join_gains hsound.represented hjoin
      exact hwired.joins hsound hgains hgraph hjob.1 hmem hdetached hsource htarget (hends habsent)
        fun m => hpending m source target
          ((store.endpoints?_eq_some_iff e source target).mpr ⟨hsource, htarget⟩)

/-- Where items are at home after a job. -/
theorem home_cases
    (hmoves : a.Moves store job store' a' departure)
    (hrepresented : ∀ g, ∃ d, (store.index g).Represents d)
    (hgraph : a.graph ∈ store.graphs)
    (id : ItemId) :
    store'.home id = none ∨ store'.home id = store.home id ∨ store'.home id = some a.graph := by
  rcases hmoves.store_cases hrepresented with rfl | hgains | ⟨g, events, -, hloses⟩
  · exact Or.inr (Or.inl rfl)
  · rw [Store.Wired.home_of_gains hgains hgraph]
    split
    · exact Or.inr (Or.inr rfl)
    · exact Or.inr (Or.inl rfl)
  · rw [Store.home, hloses.owner]
    split
    · exact Or.inl rfl
    · refine Or.inr (Or.inl (Option.ext fun h => ?_))
      rw [Store.living_eq_some_iff, Store.home_eq_some_iff, hloses.graphs]

/-- A job wires no edge. -/
theorem ends_eq
    (hmoves : a.Moves store job store' a' departure)
    (hrepresented : ∀ g, ∃ d, (store.index g).Represents d)
    (e : Edge) :
    (store'.edgeState e).source = (store.edgeState e).source ∧
      (store'.edgeState e).target = (store.edgeState e).target := by
  rcases hmoves.store_cases hrepresented with rfl | hgains | ⟨g, events, -, hloses⟩
  · exact ⟨rfl, rfl⟩
  · exact ⟨hgains.source e, hgains.target e⟩
  · exact ⟨hloses.source e, hloses.target e⟩

/-- A job lets go of no edge. -/
theorem keepsEdge
    {id : EdgeId}
    (hmoves : a.Moves store job store' a' departure)
    (hrepresented : ∀ g, ∃ d, (store.index g).Represents d)
    (hmem : id ∈ store.edges) :
    id ∈ store'.edges := by
  rcases hmoves.store_cases hrepresented with rfl | hgains | ⟨g, events, -, hloses⟩
  · exact hmem
  · exact (hgains.alive id).mpr (Or.inl hmem)
  · exact (hloses.alive id).mpr (Or.inl hmem)

/-- A job leaves jobs that can be done without harm. -/
theorem fits
    (hmoves : a.Moves store job store' a' departure)
    (hrepresented : ∀ g, ∃ d, (store.index g).Represents d)
    (hgraph : a.graph ∈ store.graphs)
    (hfit : job.Fits a.graph store)
    (hfits : ∀ other ∈ a.jobs, other.Fits a.graph store) :
    ∀ other ∈ a'.jobs, other.Fits a.graph store' := by
  have hkeep : ∀ other : Job, other.Fits a.graph store → other.Fits a.graph store' :=
    fun other hother => hother.mono (fun id _ hmem => hmoves.keepsEdge hrepresented hmem)
      (hmoves.home_cases hrepresented hgraph) fun e _ _ => hmoves.ends_eq hrepresented e
  have hsettle : ∀ n : Node, ∀ other ∈ (a.settle store n).2.jobs, other.Fits a.graph store := by
    intro n other hother
    rcases List.mem_append.mp hother with hother | hother
    · obtain ⟨e, he, rfl⟩ := List.mem_map.mp hother
      exact Std.ExtTreeMap.mem_iff_contains.mpr (List.mem_filter.mp he).2
    · exact hfits other hother
  cases hmoves with
  | passNode n howned => exact hfits
  | passEdge e howned => exact hfits
  | passJoin e source target howned => exact hfits
  | enter n howned hnone => exact fun other hother => hkeep other (hsettle n other hother)
  | settle n => exact fun other hother => hkeep other (hsettle n other hother)
  | leaveNode n howned hhome hremove =>
      intro other hother
      rcases List.mem_cons.mp hother with rfl | hother
      · left
        obtain ⟨hloses, htold, -⟩ := Store.Loses.removeNode hrepresented hremove
        rw [Store.home_node, Store.home, hloses.owner, if_pos htold]
        rfl
      · exact hkeep other (hfits other hother)
  | unfold e howned hends hnone =>
      obtain ⟨hsource, htarget⟩ := (store.endpoints?_eq_some_iff e _ _).mp hends
      intro other hother
      simp only [List.mem_cons] at hother
      rcases hother with rfl | rfl | rfl | hother
      · trivial
      · trivial
      · exact ⟨hfit, Or.inl hnone, hsource, htarget⟩
      · exact hfits other hother
  | leaveEdge e howned hends hhome hremove =>
      obtain ⟨hsource, htarget⟩ := (store.endpoints?_eq_some_iff e _ _).mp hends
      obtain ⟨hloses, htold⟩ := Store.Loses.removeEdge hrepresented hremove
      intro other hother
      simp only [List.mem_cons] at hother
      rcases hother with rfl | rfl | rfl | hother
      · trivial
      · trivial
      · refine ⟨(hloses.alive e.id).mpr (Or.inl hfit), Or.inl ?_, (hloses.source e).trans hsource,
          (hloses.target e).trans htarget⟩
        rw [Store.home_edge, Store.home, hloses.owner, if_pos ((htold _).mpr rfl)]
        rfl
      · exact hkeep other (hfits other hother)
  | join e source target howned hjoin =>
      rw [join_eq_ok hjoin]
      exact fun other hother => hkeep other (hfits other hother)

end Moves

/-- An item that has been overtaken is put into a second graph. -/
theorem doubled_of_overtaken
    {jobs : List Job}
    (hsound : store.Sound c)
    (hjobs : a.jobs = job :: jobs)
    (hovertaken : a.Overtaken store) :
    ∃ store' a', ({ a with jobs := jobs } : Attachment).perform store job = .ok (store', a', none) ∧
      ∃ g, g ∈ store.graphs ∧ g ≠ a.graph ∧ (store'.index g).Includes job.item ∧
        (store'.index a.graph).Includes job.item := by
  rw [Overtaken, hjobs] at hovertaken
  cases job with
  | node n => exact hovertaken.elim
  | edge e => exact hovertaken.elim
  | settle n =>
      obtain ⟨g, hg, hne⟩ := hovertaken
      have hgains := (settle_gains { a with jobs := jobs } n hsound.represented).1
      refine ⟨_, _, rfl, g, ((store.home_eq_some_iff (.node n.id)).mp hg).2, hne, ?_, ?_⟩
      · exact (hgains.includes g _).mpr (Or.inl ((hsound.home_eq_some_iff (.node n.id)).mp hg))
      · exact (hgains.includes a.graph _).mpr (Or.inr ⟨rfl, rfl⟩)
  | join e source target =>
      obtain ⟨hsource, htarget, howned, g, hg, hne⟩ := hovertaken
      obtain ⟨⟨store', a'⟩, hjoin⟩ :=
        join_isOk { a with jobs := jobs } hsound.represented e hsource htarget
      have hgains := (join_gains hsound.represented hjoin).1
      refine ⟨store', a', ?_, g, ((store.home_eq_some_iff (.edge e.id)).mp hg).2, hne, ?_, ?_⟩
      · have howned' : ¬store.ownsEdge a.graph e = true := by rwa [Store.ownsEdge_iff]
        rw [perform, if_neg howned', hjoin]
        rfl
      · exact (hgains.includes g _).mpr (Or.inl ((hsound.home_eq_some_iff (.edge e.id)).mp hg))
      · exact (hgains.includes a.graph _).mpr (Or.inr ⟨rfl, rfl⟩)

end Attachment

end PatternGraph
