import PatternGraph.Proofs.Session.Connecting

/-!
# What bringing items in amounts to

A command that brings an item into a graph that does not include it yet comes to an end, whatever
has been wired to what.  If it succeeds, the graph has gained the least set of items that contains
the root and is closed under going from a detached node to the edges that it remembers and from an
edge to its ends; every other graph has lost what belongs to this set and the edges at its nodes.
-/

namespace PatternGraph

variable {ρ : Type} {c : Catalogue} {interpret : Interpreter ρ}

/--
Whether a command brings a root into a graph: a node, an edge that is wired already, or an edge
between two nodes, given or created.  The wiring from which the root draws along what comes with it
is the installed one.
-/
inductive Command.Attaches (store : Store) : Command ρ → GraphId → ItemId → Store → Prop
  | node (g : GraphId) (n : Node) : Attaches store (.addNode g n) g (.node n.id) store
  | wired (g : GraphId) (e : Edge) (hout : e.id ∉ (store.index g).edges) :
      Attaches store (.insertEdge g e) g (.edge e.id) store
  | given (g : GraphId) (source target : Node) (e : Edge) (as : Option String)
      (hout : e.id ∉ (store.index g).edges) :
      Attaches store (.addEdge g source target (some e) as) g (.edge e.id)
        (store.rewire e source target)
  | created (g : GraphId) (source target : Node) (as : Option String) :
      Attaches store (.addEdge g source target none as) g
        (.edge (store.createEdge (.root .edge) .null).1.id)
        ((store.createEdge (.root .edge) .null).2.rewire
          (store.createEdge (.root .edge) .null).1 source target)

namespace Session

variable {s : Session ρ} {cmd : Command ρ} {g : GraphId} {root : ItemId} {installed : Store}

/-- A command that brings a root in is refused, or closes the graph. -/
theorem attaches_ends
    (htidy : s.Tidy)
    (hidle : s.tasks = [])
    (hsound : s.store.Sound c)
    (hwired : s.store.Wired)
    (hgenuine : cmd.Genuine c s.store)
    (hattaches : cmd.Attaches s.store g root installed)
    (hcalm : Calm c interpret (s.begin cmd).release) :
    (∃ store fault, s.begin cmd = ({ s with store := store } : Session ρ).fail fault) ∨
      Succeeds interpret (fun store => g ∈ store.graphs →
        s.store.Closes installed g [root] store) (s.begin cmd).release := by
  cases hattaches with
  | node g n =>
      exact (addNode_ends htidy hidle hsound hwired hgenuine.1 hgenuine.2 hcalm).imp_left
        fun ⟨fault, hfail⟩ => ⟨s.store, fault, hfail⟩
  | wired g e hout =>
      refine (insertEdge_ends htidy hidle hsound hwired hgenuine.1 hgenuine.2.1 hgenuine.2.2
        hcalm).imp (fun ⟨fault, hfail⟩ => ⟨s.store, fault, hfail⟩) fun hends => ?_
      exact hends.mono fun store hcloses => hcloses hout
  | given g source target e as hout =>
      refine (addGivenEdge_ends hidle hsound (.refl hsound.toPristine) hsound hwired
        hgenuine.1 hcalm).imp
        (fun ⟨fault, hfail⟩ => ⟨s.store, fault, hfail⟩) fun hends => ?_
      exact hends.mono fun store hcloses => hcloses hout
  | created g source target as =>
      exact (addCreatedEdge_ends hidle hsound hwired hgenuine.1 hcalm).imp_left
        fun ⟨fault, hfail⟩ => ⟨_, fault, hfail⟩

/-- The wiring that a genuine command installs is sound. -/
theorem attaches_sound
    (hsound : s.store.Sound c)
    (hgenuine : cmd.Genuine c s.store)
    (hattaches : cmd.Attaches s.store g root installed) :
    installed.Sound c := by
  cases hattaches with
  | node g n => exact hsound
  | wired g e hout => exact hsound
  | given g source target e as hout =>
      obtain ⟨-, hedge, hsource, htarget⟩ := hgenuine
      exact hsound.rewires (.rewire s.store e source target) hedge.1 (by simp [hsource, htarget])
  | created g source target as =>
      obtain ⟨-, htype, hsource, htarget⟩ := hgenuine
      have hgrows := Store.Grows.createEdge hsound.toPristine (.root .edge) .null
      refine (hsound.ages hgrows.toAges).rewires (.rewire _ _ source target) ⟨htype, Nat.le_refl _⟩ ?_
      simp [hsource.mono hgrows.nodeCount, htarget.mono hgrows.nodeCount]

theorem request_eq_run
    {request : ρ}
    (hreads : interpret s.names request = .ok cmd)
    (fuel : Nat) :
    Session.request interpret fuel s request =
      (({ s with log := [] } : Session ρ).begin cmd).release.run interpret fuel := by
  rw [Session.request, issueRequest]
  dsimp only
  rw [hreads]

/-- A client may begin a command in a calm session of which nothing is in progress. -/
theorem History.calm_request
    {past : List (Session ρ)}
    {request : ρ}
    (h : History c (fun cmd => ¬cmd.Mutates) past s)
    (hidle : s.idle = true)
    (hreads : interpret s.names request = .ok cmd)
    (hgenuine : cmd.Genuine c s.store)
    (habides : ∀ fuel, (Session.request interpret 0 s request).Abides c (fun cmd => ¬cmd.Mutates)
      interpret fuel) :
    Calm c interpret (({ s with log := [] } : Session ρ).begin cmd).release := by
  have hnext := h.request interpret request hidle fun cmd' hcmd' => by
    rw [Interpreter.reads, hreads] at hcmd'
    rwa [List.mem_singleton.mp hcmd']
  have hcalm := hnext.calm habides
  rw [issueRequest] at hcalm
  dsimp only at hcalm
  rwa [hreads] at hcalm

/--
In every history whose handlers do not mutate, a command that brings a root into a graph comes to an
end.  If it succeeds and the graph is still there, the graph has gained the least set of items that
contains the root and whatever detached nodes remember and edges end at, other graphs have lost this
set and the edges at its nodes, and nothing else has happened to what is still there.
-/
theorem History.attachment_closes
    {past : List (Session ρ)}
    (h : History c (fun cmd => ¬cmd.Mutates) past s)
    (interpret : Interpreter ρ)
    (request : ρ)
    (hidle : s.idle = true)
    (hreads : interpret s.names request = .ok cmd)
    (hgenuine : cmd.Genuine c s.store)
    (hattaches : cmd.Attaches s.store g root installed)
    (habides : ∀ fuel, (Session.request interpret 0 s request).Abides c (fun cmd => ¬cmd.Mutates)
      interpret fuel) :
    (∃ fuel, (Session.request interpret fuel s request).idle = true) ∧
      ∀ fuel t, t = Session.request interpret fuel s request → t.idle = true →
        t.outcome.failed = false → g ∈ t.store.graphs →
          s.store.Closes installed g [root] t.store ∧
            ((∀ id ∈ installed.edges, id ∈ t.store.edges) → ∀ id,
              installed.Arrived t.store [root] id ↔
                installed.Drawn (· ∈ installed.edges) [root] id) := by
  have hcalm := h.calm_request hidle hreads hgenuine habides
  have htasks := List.isEmpty_iff.mp hidle
  have htidy := h.tidy.working [] [] s.outcome
  simp only [request_eq_run hreads]
  rcases attaches_ends (s := { s with log := [] }) htidy htasks h.poised.1.sound h.poised.2.wired
    hgenuine hattaches hcalm with ⟨store, fault, hfail⟩ | hends
  · have hdone : (({ s with log := [] } : Session ρ).begin cmd).release.idle = true := by
      rw [idle, tasks_release, hfail]
      exact hidle
    have hfailed : (({ s with log := [] } : Session ρ).begin cmd).release.outcome.failed = true := by
      rw [outcome_release, hfail]
      rfl
    refine ⟨⟨0, hdone⟩, fun fuel t ht hnot hoks => ?_⟩
    rw [ht, run_of_idle hdone, hfailed] at hoks
    cases hoks
  · obtain ⟨fuel, hfuel, -⟩ := hends.exists_fuel
    refine ⟨⟨fuel, hfuel⟩, fun fuel t ht hdone _ hmem => ?_⟩
    rw [ht] at hdone hmem ⊢
    have hcloses := (Eventually.of_idle hends hdone).2 hmem
    exact ⟨hcloses, hcloses.arrived_iff fun n e he =>
      ((attaches_sound h.poised.1.sound hgenuine hattaches).pending n e he).2⟩

/-- Commands that put two connected nodes into the second of two graphs, beside a detached node. -/
def settling : List (Command Unit) :=
  [.createGraph "g", .createGraph "h", .createNode "a" (.root .node) .null,
    .createNode "b" (.root .node) .null, .createNode "c" (.root .node) .null,
    .createEdgeBetween "e" (.root .edge) ⟨⟨2⟩, .root .node⟩ ⟨⟨3⟩, .root .node⟩,
    .addNode ⟨2⟩ ⟨⟨2⟩, .root .node⟩]

theorem settling_history :
    ∃ past, History plainCatalogue (fun cmd => ¬cmd.Mutates) past
      (settling.foldl (carryOut 30) .empty) := by
  have hissue : MayIssue plainCatalogue (fun cmd => ¬cmd.Mutates) 30 settling .empty := by
    decide +kernel
  obtain ⟨later, hsettled⟩ := History.empty.carriedOut hissue
  exact ⟨_, hsettled⟩

/--
A detached node that comes into a graph draws along an edge and its other end, which another graph
has to let go of together with a further edge.
-/
theorem node_draws_neighbour_along :
    ∃ (past : List (Session Unit)) (s t : Session Unit),
      History plainCatalogue (fun cmd => ¬cmd.Mutates) past s ∧ t.idle = true ∧
        s.store.graphOfNode ⟨⟨2⟩, .root .node⟩ = some ⟨2⟩ ∧
        s.store.graphOfEdge ⟨⟨1⟩, .root .edge⟩ = some ⟨2⟩ ∧
        t.store.graphOfNode ⟨⟨2⟩, .root .node⟩ = some ⟨1⟩ ∧
        t.store.graphOfEdge ⟨⟨1⟩, .root .edge⟩ = none ∧
        t.store.graphOfEdge ⟨⟨2⟩, .root .edge⟩ = some ⟨1⟩ ∧
        s.store.Closes s.store ⟨1⟩ [.node ⟨1⟩] t.store := by
  let first : Node := ⟨⟨1⟩, .root .node⟩
  let second : Node := ⟨⟨2⟩, .root .node⟩
  let adding : Interpreter Unit := fun _ _ => .ok (.addNode ⟨1⟩ first)
  obtain ⟨past, hsettled⟩ := settling_history
  have hwired := hsettled.issued (.createEdgeBetween "f" (.root .edge) first second)
    (by decide +kernel) () (by decide +kernel)
  have hclosed := (hwired.attachment_closes adding () (by decide +kernel) rfl (by decide +kernel)
    (.node ⟨1⟩ first) (abides_of_idle 40 (by decide +kernel) (by decide +kernel))).2 40 _ rfl
    (by decide +kernel) (by decide +kernel) (by decide +kernel)
  exact ⟨_, _, _, hwired, by decide +kernel, by decide +kernel, by decide +kernel,
    by decide +kernel, by decide +kernel, by decide +kernel, hclosed.1⟩

end Session

end PatternGraph
