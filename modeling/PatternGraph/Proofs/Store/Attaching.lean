import Mathlib.Data.Finset.Card
import PatternGraph.Proofs.Store.Underway

/-!
# Attachments underway

The jobs of an attachment are what is due of it.  A job keeps the attachment underway, and it does not
fail if all edges that the roots draw along have both ends, because the ends of an edge come before the
edge.  The jobs come to an end, as every job either brings in one more of the nodes that there are or
leaves less to be done.
-/

namespace PatternGraph

namespace Store

variable {store : Store} {g : GraphId}

/-- A node leaves a graph that includes it. -/
theorem removeNode_isOk
    {n : Node}
    (hrepresented : ∀ g, ∃ d, (store.index g).Represents d)
    (hn : n.id ∈ (store.index g).nodes) :
    ∃ removed, store.removeNode g n = .ok removed := by
  obtain ⟨d, hd⟩ := hrepresented g
  rw [Std.ExtTreeMap.mem_iff_isSome_getElem?, hd.nodes] at hn
  rcases hd.removeNode n.id with ⟨hnone, -⟩ | ⟨m, index, -, hsome, -⟩
  · rw [hnone] at hn
    cases hn
  · rw [removeNode, takeNode, hsome]
    exact ⟨_, rfl⟩

/-- An edge leaves a graph that includes it. -/
theorem removeEdge_isOk
    {e : Edge}
    (hrepresented : ∀ g, ∃ d, (store.index g).Represents d)
    (he : e.id ∈ (store.index g).edges) :
    ∃ removed, store.removeEdge g e = .ok removed := by
  obtain ⟨d, hd⟩ := hrepresented g
  rw [hd.mem_edges, Std.ExtTreeMap.mem_iff_isSome_getElem?] at he
  rcases hd.removeEdge e.id with ⟨hnone, -⟩ | ⟨w, index, -, hsome, -⟩
  · rw [hnone] at he
    cases he
  · rw [removeEdge, takeEdge, hsome]
    exact ⟨_, rfl⟩

/-- How many of the first so many nodes are not in a graph. -/
def absent (store : Store) (g : GraphId) (count : Nat) : Nat :=
  ((Finset.range (count + 1)).filter fun k => (⟨k⟩ : NodeId) ∉ (store.index g).nodes).card

theorem absent_congr
    {store' : Store}
    {count : Nat}
    (h : ∀ id, id ∈ (store'.index g).nodes ↔ id ∈ (store.index g).nodes) :
    store'.absent g count = store.absent g count := by
  simp [absent, h]

theorem absent_lt
    {store' : Store}
    {count : Nat}
    {id : NodeId}
    (h : ∀ id, id ∈ (store.index g).nodes → id ∈ (store'.index g).nodes)
    (hbefore : id ∉ (store.index g).nodes)
    (hafter : id ∈ (store'.index g).nodes)
    (hcount : id.number ≤ count) :
    store'.absent g count < store.absent g count := by
  refine Finset.card_lt_card ((Finset.ssubset_iff_of_subset fun k hk => ?_).mpr ⟨id.number, ?_, ?_⟩)
  · obtain ⟨hrange, hout⟩ := Finset.mem_filter.mp hk
    exact Finset.mem_filter.mpr ⟨hrange, fun hin => hout (h _ hin)⟩
  · exact Finset.mem_filter.mpr ⟨Finset.mem_range.mpr (Nat.lt_succ_of_le hcount), hbefore⟩
  · exact fun hmem => (Finset.mem_filter.mp hmem).2 hafter

end Store

/-- How many steps a job may take, apart from those of the edges that nodes bring along. -/
def Job.weight : Job → Nat
  | .edge _ => 6
  | .node _ => 2
  | .settle _ | .join .. => 1

namespace Attachment

variable {c : Catalogue} {first store store' : Store} {roots : List ItemId}
  {a a' : Attachment} {job : Job} {jobs : List Job} {departure : Option Departure}

/-- How many steps the jobs may take. -/
def weight (a : Attachment) : Nat :=
  (a.jobs.map Job.weight).sum

/-- Whether the ends of all edges to be put in are there, or brought in by earlier jobs. -/
def Supplied (there : NodeId → Prop) : List Job → Prop
  | [] => True
  | .node n :: jobs | .settle n :: jobs => Supplied (fun id => id = n.id ∨ there id) jobs
  | .edge _ :: jobs => Supplied there jobs
  | .join _ source target :: jobs => there source.id ∧ there target.id ∧ Supplied there jobs

theorem Supplied.mono
    {there there' : NodeId → Prop}
    (h : Supplied there jobs)
    (hthere : ∀ id, there id → there' id) :
    Supplied there' jobs := by
  induction jobs generalizing there there' with
  | nil => trivial
  | cons job jobs ih =>
      cases job with
      | node n => exact ih h fun id hid => hid.imp_right (hthere id)
      | settle n => exact ih h fun id hid => hid.imp_right (hthere id)
      | edge e => exact ih h hthere
      | join e source target => exact ⟨hthere _ h.1, hthere _ h.2.1, ih h.2.2 hthere⟩

theorem Supplied.edges
    {there : NodeId → Prop}
    (h : Supplied there jobs)
    (edges : List Edge) :
    Supplied there (edges.map .edge ++ jobs) := by
  induction edges with
  | nil => exact h
  | cons e edges ih => exact ih

/-- Whether an attachment may start: the store is in order, and what roots draw along is wired. -/
structure Starts (c : Catalogue) (roots : List ItemId) (first : Store) : Prop where
  sound : first.Sound c
  wired : first.Wired
  issued : ∀ root ∈ roots, first.Issued root
  complete : ∀ e : Edge, first.Drawn (· ∈ first.edges) roots (.edge e.id) →
    ∃ s t, first.endpoints? e = some (s, t)

/-- Whether an attachment is underway, with its jobs due and the ends of its edges supplied. -/
structure Underway (first : Store) (roots : List ItemId) (a : Attachment) (store : Store) :
    Prop where
  due : first.Underway a.graph roots (a.jobs.map Job.item) store
  supplied : Supplied (· ∈ (store.index a.graph).nodes) a.jobs

namespace Underway

/-- An attachment goes on when its next job is about an item that is in the graph already. -/
theorem pass
    (hdue : first.Underway a.graph roots (job.item :: a.jobs.map Job.item) store)
    (hin : (store.index a.graph).Includes job.item) :
    first.Underway a.graph roots (a.jobs.map Job.item) store := by
  refine hdue.redue (fun id hid => ?_) fun hdrawn id hid => hdrawn id (List.mem_cons_of_mem _ hid)
  rcases List.mem_cons.mp hid with rfl | hid
  · exact Or.inl hin
  · exact Or.inr hid

/-- A node is put in, and the edges that it remembers become due. -/
theorem settle
    {n : Node}
    (hfirstWired : first.Wired)
    (hsound : store.Sound c)
    (hwired : store.Wired)
    (hdue : first.Underway a.graph roots (.node n.id :: a.jobs.map Job.item) store)
    (hsupplied : Supplied (fun id => id = n.id ∨ id ∈ (store.index a.graph).nodes) a.jobs) :
    (a.settle store n).2.Underway first roots (a.settle store n).1 := by
  obtain ⟨hgains, hpending⟩ := settle_gains a n hsound.represented
  let carried : List ItemId := (store.pendingEdges n).map fun e => .edge e.id
  -- A node that is in the graph remembers nothing, and any other node what it has always remembered.
  have hremembers : ∀ e ∈ (store.nodeState n).pending,
      n.id ∉ (store.index a.graph).nodes ∧ e ∈ (first.nodeState n).pending := by
    intro e he
    have hout : n.id ∉ (store.index a.graph).nodes := by
      intro hin
      have hhome : store.graphOfNode n = some a.graph :=
        (hsound.home_eq_some_iff (.node n.id)).mpr hin
      rw [hwired.attached n (by simp [hhome])] at he
      cases he
    exact ⟨hout, hdue.pending n hout ▸ he⟩
  have hmore : first.Underway a.graph roots
      (.node n.id :: (carried ++ a.jobs.map Job.item)) store := by
    refine hdue.redue (fun id hid => Or.inr ?_) fun hdrawn id hid => ?_
    · rcases List.mem_cons.mp hid with rfl | hid
      · exact List.mem_cons_self
      · exact List.mem_cons_of_mem _ (List.mem_append_right _ hid)
    · simp only [List.mem_cons, List.mem_append] at hid
      rcases hid with rfl | hid | hid
      · exact hdrawn _ List.mem_cons_self
      · obtain ⟨e, he, rfl⟩ := List.mem_map.mp hid
        have hfirstly := (hremembers e (List.mem_filter.mp he).1).2
        have hfree : first.graphOfNode n = none := by
          by_contra hattached
          rw [hfirstWired.attached n hattached] at hfirstly
          cases hfirstly
        exact .remembered (hdrawn _ List.mem_cons_self) hfree hfirstly
          (Or.inr (List.mem_cons_of_mem _ (List.mem_append_left _ hid)))
      · exact hdrawn _ (List.mem_cons_of_mem _ hid)
  have hgained : first.Underway a.graph roots
      (.node n.id :: (carried ++ a.jobs.map Job.item)) (a.settle store n).1 := by
    refine hmore.gains hgains List.mem_cons_self (fun id heq => by cases heq)
      (fun m hm hfree e he => ?_) fun m hm => ?_
    · by_cases hin : m.id ∈ (store.index a.graph).nodes
      · exact hmore.followed m hin hfree e he
      · by_cases halive : e.id ∈ store.edges
        · refine Or.inl (Or.inr (List.mem_cons_of_mem _ (List.mem_append_left _ ?_)))
          refine List.mem_map.mpr ⟨e, List.mem_filter.mpr ⟨?_, ?_⟩, rfl⟩
          · have hsame := hdue.pending m hin
            rw [Store.nodeState, ← ItemId.node.inj hm] at hsame
            rw [Store.nodeState, hsame]
            exact he
          · exact Std.ExtTreeMap.mem_iff_contains.mp halive
        · exact Or.inr halive
    · rw [hpending, if_neg]
      intro heq
      exact hm ((hgains.includes a.graph (.node m.id)).mpr (Or.inr ⟨rfl, by rw [heq]⟩))
  have hin : ((a.settle store n).1.index a.graph).Includes (.node n.id) :=
    (hgains.includes a.graph _).mpr (Or.inr ⟨rfl, rfl⟩)
  refine ⟨?_, ?_⟩
  · have hjobs : (a.settle store n).2.jobs.map Job.item = carried ++ a.jobs.map Job.item := by
      simp [Attachment.settle, carried, Job.item, Function.comp_def]
    rw [hjobs]
    refine hgained.redue (fun id hid => ?_) fun hdrawn id hid =>
      hdrawn id (List.mem_cons_of_mem _ hid)
    rcases List.mem_cons.mp hid with rfl | hid
    · exact Or.inl hin
    · exact Or.inr hid
  · refine Supplied.edges (hsupplied.mono fun id hid => ?_) _
    rcases hid with rfl | hid
    · exact hin
    · exact (hgains.includes a.graph (.node id)).mpr (Or.inl hid)

/-- An edge is replaced by its ends and itself. -/
theorem unfold
    {e : Edge}
    {source target : Node}
    (hdue : first.Underway a.graph roots (.edge e.id :: a.jobs.map Job.item) store)
    (hsupplied : Supplied (· ∈ (store.index a.graph).nodes) a.jobs)
    (halive : e.id ∈ store.edges)
    (hends : store.endpoints? e = some (source, target)) :
    ({ a with jobs := .node source :: .node target :: .join e source target :: a.jobs } :
      Attachment).Underway first roots store := by
  obtain ⟨hsource, htarget⟩ := (store.endpoints?_eq_some_iff e source target).mp hends
  refine ⟨hdue.redue (fun id hid => Or.inr ?_) fun hdrawn id hid => ?_, ?_⟩
  · exact List.mem_cons_of_mem _ (List.mem_cons_of_mem _ hid)
  · have he := hdrawn _ List.mem_cons_self
    simp only [List.map_cons, List.mem_cons, Job.item] at hid
    rcases hid with rfl | rfl | rfl | hid
    · exact .source he ((hdue.source e halive).symm.trans hsource)
    · exact .target he ((hdue.target e halive).symm.trans htarget)
    · exact he
    · exact hdrawn _ (List.mem_cons_of_mem _ hid)
  · refine ⟨Or.inr (Or.inl rfl), Or.inl rfl, hsupplied.mono fun id hid => Or.inr (Or.inr hid)⟩

/-- An edge is put in between its ends. -/
theorem join
    {e : Edge}
    {source target : Node}
    (hsound : store.Sound c)
    (hdue : first.Underway a.graph roots (.edge e.id :: a.jobs.map Job.item) store)
    (hsupplied : Supplied (· ∈ (store.index a.graph).nodes) (.join e source target :: a.jobs))
    (halive : e.id ∈ store.edges)
    (hends : store.endpoints? e = some (source, target))
    (hjoin : a.join store e source target = .ok (store', a')) :
    a'.Underway first roots store' := by
  obtain ⟨hgains, -, hpending⟩ := join_gains hsound.represented hjoin
  obtain ⟨hsource, htarget, hrest⟩ := hsupplied
  have hgained : first.Underway a.graph roots (.edge e.id :: a.jobs.map Job.item) store' := by
    refine hdue.gains hgains List.mem_cons_self (fun id hid => ItemId.edge.inj hid ▸ halive) nofun
      fun m hm => ?_
    rw [hpending m source target hends, if_neg]
    have hout : m.id ∉ (store.index a.graph).nodes := fun hin =>
      hm ((hgains.includes a.graph (.node m.id)).mpr (Or.inl hin))
    rintro (heq | heq)
    · exact hout (heq ▸ hsource)
    · exact hout (heq ▸ htarget)
  rw [join_eq_ok hjoin]
  refine ⟨hgained.redue (fun id hid => ?_) fun hdrawn id hid =>
    hdrawn id (List.mem_cons_of_mem _ hid), hrest.mono fun id hid =>
      (hgains.includes a.graph (.node id)).mpr (Or.inl hid)⟩
  rcases List.mem_cons.mp hid with rfl | hid
  · exact Or.inl ((hgains.includes a.graph _).mpr (Or.inr ⟨rfl, rfl⟩))
  · exact Or.inr hid

/-- Things are created, or let go that are not due. -/
theorem ages
    (h : a.Underway first roots store)
    (hstarts : Starts c roots first)
    (hsound : store.Sound c)
    (hages : store.Ages store')
    (hmem : a.graph ∈ store.graphs)
    (hgraph : a.graph ∈ store'.graphs) :
    a.Underway first roots store' ∧
      store'.absent a.graph first.nodeCount = store.absent a.graph first.nodeCount := by
  have hindex : store'.index a.graph = store.index a.graph := by
    refine (hages.graph a.graph (Nat.le_of_not_lt fun hnew => ?_) hgraph).2
    exact hsound.graph a.graph hnew hmem
  refine ⟨⟨h.due.ages hstarts.sound hsound hages hmem hgraph, ?_⟩, ?_⟩
  · rw [hindex]
    exact h.supplied
  · rw [Store.absent, Store.absent, hindex]

/-- A job keeps an attachment underway. -/
theorem moves
    (h : a.Underway first roots store)
    (hstarts : Starts c roots first)
    (hsound : store.Sound c)
    (hwired : store.Wired)
    (hgraph : a.graph ∈ store.graphs)
    (hjobs : a.jobs = job :: jobs)
    (hfit : job.Fits a.graph store)
    (hmoves : ({ a with jobs := jobs } : Attachment).Moves store job store' a' departure) :
    a'.Underway first roots store' := by
  obtain ⟨hdue, hsupplied⟩ := h
  rw [hjobs] at hdue hsupplied
  have hincludes : ∀ id, store.owner id = some a.graph → (store.index a.graph).Includes id :=
    fun id howned => (hsound.housed a.graph hgraph id).mp howned
  have hother : ∀ id k, store.owner id ≠ some a.graph → store.home id = some k → k ≠ a.graph := by
    rintro id k howned hhome rfl
    exact howned ((store.home_eq_some_iff id).mp hhome).1
  cases hmoves with
  | passNode n howned =>
      have hin := hincludes _ howned
      have hrest : Supplied (fun id => id = n.id ∨ id ∈ (store.index a.graph).nodes) jobs :=
        hsupplied
      refine ⟨pass (a := { a with jobs := jobs }) hdue hin, hrest.mono fun id hid => ?_⟩
      rcases hid with rfl | hid
      · exact hin
      · exact hid
  | passEdge e howned =>
      exact ⟨pass (a := { a with jobs := jobs }) hdue (hincludes _ howned), hsupplied⟩
  | passJoin e source target howned =>
      exact ⟨pass (a := { a with jobs := jobs }) hdue (hincludes _ howned), hsupplied.2.2⟩
  | enter n howned hfree =>
      exact settle (a := { a with jobs := jobs }) hstarts.wired hsound hwired hdue hsupplied
  | settle n =>
      exact settle (a := { a with jobs := jobs }) hstarts.wired hsound hwired hdue hsupplied
  | @leaveNode n previous events store' howned hhome hremove =>
      obtain ⟨hloses, -, hnode, hedge⟩ := Store.Loses.removeNode hsound.represented hremove
      have hne := hother (.node n.id) previous howned hhome
      have hrest : Supplied (fun id => id = n.id ∨ id ∈ (store.index a.graph).nodes) jobs :=
        hsupplied
      refine ⟨hdue.loses hloses hne hsound.contained fun id hid => ?_,
        hrest.mono fun id hid => ?_⟩
      · cases id with
        | node id => exact Or.inl (hnode id hid ▸ List.mem_cons_self)
        | edge id =>
            have hmem : (⟨id, default⟩ : Edge).id ∈ (store.index previous).edges :=
              hloses.members _ hid
            have halive := hsound.contained previous _ hmem
            obtain ⟨s, t, hs, ht, hends⟩ := hwired.ends previous ⟨id, default⟩ hmem
            obtain ⟨ends, hends', htouch⟩ := (hedge id).mp hid
            obtain rfl := Option.some.inj (hends.symm.trans hends')
            refine Or.inr ⟨⟨id, default⟩, n, rfl, ?_, List.mem_cons_self⟩
            rw [Ends.touch, Bool.or_eq_true, beq_iff_eq, beq_iff_eq] at htouch
            rcases htouch with heq | heq
            · exact Or.inl ⟨s, (hdue.source _ halive).symm.trans hs, heq⟩
            · exact Or.inr ⟨t, (hdue.target _ halive).symm.trans ht, heq⟩
      · refine hid.imp_right fun hin => (hloses.includes a.graph (.node id)).mpr ⟨hin, ?_⟩
        exact fun hleft => hne hleft.1.symm
  | unfold e howned hends hfree =>
      exact unfold (a := { a with jobs := jobs }) hdue hsupplied hfit hends
  | @leaveEdge e source target previous events store' howned hends hhome hremove =>
      obtain ⟨hloses, htold⟩ := Store.Loses.removeEdge hsound.represented hremove
      have hne := hother (.edge e.id) previous howned hhome
      have hdue' := hdue.loses hloses hne hsound.contained fun id hid =>
        Or.inl ((htold id).mp hid ▸ List.mem_cons_self)
      refine unfold (a := { a with jobs := jobs }) hdue' (hsupplied.mono fun id hid => ?_)
        ((hloses.alive e.id).mpr (Or.inl hfit)) ?_
      · exact (hloses.includes a.graph (.node id)).mpr ⟨hid, fun hleft => hne hleft.1.symm⟩
      · rw [store'.endpoints?_eq_some_iff, hloses.source, hloses.target]
        exact (store.endpoints?_eq_some_iff e source target).mp hends
  | join e source target howned hjoin =>
      obtain ⟨halive, -, hends⟩ := hfit
      exact join (a := { a with jobs := jobs }) hsound hdue hsupplied halive
        ((store.endpoints?_eq_some_iff e source target).mpr hends) hjoin

/-- No job fails if all edges that the roots draw along have both ends. -/
theorem perform_isOk
    (h : a.Underway first roots store)
    (hstarts : Starts c roots first)
    (hsound : store.Sound c)
    (hjobs : a.jobs = job :: jobs)
    (hfits : ∀ job ∈ a.jobs, job.Fits a.graph store) :
    ∃ done, ({ a with jobs := jobs } : Attachment).perform store job = .ok done := by
  obtain ⟨hdue, hsupplied⟩ := h
  have hfit := hfits job (hjobs ▸ List.mem_cons_self)
  cases job with
  | node n =>
      rw [perform]
      split
      · exact ⟨_, rfl⟩
      · split
        · exact ⟨_, rfl⟩
        · rename_i previous hhome
          obtain ⟨removed, hremoved⟩ := Store.removeNode_isOk hsound.represented
            ((hsound.home_eq_some_iff (.node n.id)).mp hhome)
          rw [hremoved]
          exact ⟨_, rfl⟩
  | settle n => exact ⟨_, rfl⟩
  | edge e =>
      rw [perform]
      split
      · exact ⟨_, rfl⟩
      · have hdrawn : first.Drawn (· ∈ first.edges) roots (.edge e.id) := by
          have hitem : ItemId.edge e.id ∈ a.jobs.map Job.item :=
            hjobs ▸ List.mem_cons_self
          refine (hdue.drawn _ hitem).mono fun n f hf hsecured => ?_
          refine hdue.alive f ?_ (hstarts.sound.pending n f hf).2
          rcases hsecured with hin | hjob
          · exact hsound.contained a.graph f.id hin
          · obtain ⟨other, hother, heq⟩ := List.mem_map.mp hjob
            have hfit := hfits other hother
            cases other with
            | node | settle => cases heq
            | edge e => exact ItemId.edge.inj heq ▸ hfit
            | join e source target => exact ItemId.edge.inj heq ▸ hfit.1
        obtain ⟨s, t, hends⟩ := hstarts.complete e hdrawn
        have hends' : store.endpoints? e = some (s, t) := by
          rw [store.endpoints?_eq_some_iff, hdue.source e hfit, hdue.target e hfit]
          exact (first.endpoints?_eq_some_iff e s t).mp hends
        rw [hends']
        dsimp only
        split
        · exact ⟨_, rfl⟩
        · rename_i previous hhome
          obtain ⟨removed, hremoved⟩ := Store.removeEdge_isOk hsound.represented
            ((hsound.home_eq_some_iff (.edge e.id)).mp hhome)
          rw [hremoved]
          exact ⟨_, rfl⟩
  | join e source target =>
      rw [perform]
      split
      · exact ⟨_, rfl⟩
      · rw [hjobs] at hsupplied
        obtain ⟨joined, hjoin⟩ := join_isOk { a with jobs := jobs } hsound.represented e
          hsupplied.1 hsupplied.2.1
        rw [hjoin]
        exact ⟨_, rfl⟩

/-- A job brings in one more node, or leaves less to be done. -/
theorem dwindles
    (h : a.Underway first roots store)
    (hstarts : Starts c roots first)
    (hsound : store.Sound c)
    (hwired : store.Wired)
    (hjobs : a.jobs = job :: jobs)
    (hmoves : ({ a with jobs := jobs } : Attachment).Moves store job store' a' departure) :
    store'.absent a.graph first.nodeCount < store.absent a.graph first.nodeCount ∨
      store'.absent a.graph first.nodeCount = store.absent a.graph first.nodeCount ∧
        a'.weight < a.weight := by
  have hweight : a.weight = job.weight + (jobs.map Job.weight).sum := by
    rw [weight, hjobs, List.map_cons, List.sum_cons]
  rw [hweight]
  have hsettle : ∀ n : Node, job.item = .node n.id → 0 < job.weight →
      let settled := ({ a with jobs := jobs } : Attachment).settle store n
      settled.1.absent a.graph first.nodeCount < store.absent a.graph first.nodeCount ∨
        settled.1.absent a.graph first.nodeCount = store.absent a.graph first.nodeCount ∧
          settled.2.weight < job.weight + (jobs.map Job.weight).sum := by
    intro n hitem hpositive
    have hgains := (settle_gains { a with jobs := jobs } n hsound.represented).1
    have hincludes := fun id => hgains.includes a.graph (.node id)
    by_cases hin : n.id ∈ (store.index a.graph).nodes
    · refine Or.inr ⟨Store.absent_congr fun id => (hincludes id).trans ?_, ?_⟩
      · refine or_iff_left_of_imp ?_
        rintro ⟨-, heq⟩
        exact ItemId.node.inj heq ▸ hin
      · have hhome : store.graphOfNode n = some a.graph :=
          (hsound.home_eq_some_iff (.node n.id)).mpr hin
        have hnone : store.pendingEdges n = [] := by
          rw [Store.pendingEdges, hwired.attached n (by simp [hhome]), List.filter_nil]
        simpa [Attachment.settle, weight, hnone] using hpositive
    · have hdrawn := h.due.drawn job.item (by simp [hjobs])
      rw [hitem] at hdrawn
      exact Or.inl (Store.absent_lt (fun id hid => (hincludes id).mpr (Or.inl hid)) hin
        ((hincludes n.id).mpr (Or.inr ⟨rfl, rfl⟩)) (hdrawn.issued hstarts.sound hstarts.issued))
  have hloses : ∀ {k : GraphId} {events : List Event} {id : ItemId},
      store.owner id ≠ some a.graph → store.home id = some k → store.Loses k events store' →
      store'.absent a.graph first.nodeCount = store.absent a.graph first.nodeCount := by
    intro k events id howned hhome hloses
    refine Store.absent_congr fun m => (hloses.includes a.graph (.node m)).trans
      (and_iff_left fun hleft => howned ?_)
    rw [hleft.1]
    exact ((store.home_eq_some_iff id).mp hhome).1
  cases hmoves with
  | passNode n howned => exact Or.inr ⟨rfl, by simp [weight, Job.weight]⟩
  | passEdge e howned => exact Or.inr ⟨rfl, by simp [weight, Job.weight]⟩
  | passJoin e source target howned => exact Or.inr ⟨rfl, by simp [weight, Job.weight]⟩
  | enter n howned hfree => exact hsettle n rfl Nat.two_pos
  | settle n => exact hsettle n rfl Nat.one_pos
  | leaveNode n howned hhome hremove =>
      exact Or.inr ⟨hloses howned hhome (Store.Loses.removeNode hsound.represented hremove).1,
        by simp [weight, Job.weight]⟩
  | unfold e howned hends hfree =>
      refine Or.inr ⟨rfl, ?_⟩
      simp only [weight, Job.weight, List.map_cons, List.sum_cons]
      omega
  | leaveEdge e howned hends hhome hremove =>
      refine Or.inr ⟨hloses howned hhome (Store.Loses.removeEdge hsound.represented hremove).1, ?_⟩
      simp only [weight, Job.weight, List.map_cons, List.sum_cons]
      omega
  | join e source target howned hjoin =>
      have hgains := (join_gains hsound.represented hjoin).1
      refine Or.inr ⟨Store.absent_congr fun id =>
        (hgains.includes a.graph (.node id)).trans (or_iff_left (by simp)), ?_⟩
      rw [join_eq_ok hjoin]
      simp [weight, Job.weight]

end Underway

end Attachment

end PatternGraph
