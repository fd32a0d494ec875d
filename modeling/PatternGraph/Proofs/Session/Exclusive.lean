import PatternGraph.Proofs.Session.Orderly

/-!
# Items in at most one graph

Handlers run between the departure of an item from one graph and its arrival in another one, and
nothing is checked again afterwards.  An item is in at most one graph at all times exactly if no
handler has put it into a further graph in between.
-/

namespace PatternGraph

variable {ρ : Type} {c : Catalogue}

namespace Session

variable {permits : Command ρ → Prop} {past : List (Session ρ)} {s : Session ρ}

/-- Whether every item is in at most one graph. -/
def Exclusive (s : Session ρ) : Prop :=
  ∀ id g h, (s.store.index g).Includes id → (s.store.index h).Includes id → g = h

theorem Orderly.exclusive (h : Orderly c s) : s.Exclusive :=
  fun _ _ _ hg hh => h.sound.unique hg hh

theorem orderly_empty : Orderly c (.empty : Session ρ) :=
  ⟨Store.sound_empty, fun _ h => absurd h List.not_mem_nil⟩

theorem Orderly.request
    {interpret : Interpreter ρ}
    {request : ρ}
    (h : Orderly c s)
    (hgenuine : ∀ cmd ∈ interpret.reads s.names request, cmd.Genuine c s.store) :
    Orderly c ({ s with log := [] }.issueRequest interpret request).release := by
  have hcleared : Orderly c { s with log := [] } := ⟨h.sound, h.ready⟩
  exact (hcleared.leads (issueRequest_leads hcleared.sound hgenuine)).release

namespace History

/-- Whatever graph is there is held. -/
theorem held
    {g : GraphId}
    (h : History c permits past s)
    (hg : g ∈ s.store.graphs) :
    s.holdsGraph g = true := by
  have hrelease : ∀ t : Session ρ, g ∈ t.release.store.graphs → t.release.holdsGraph g = true := by
    intro t ht
    rw [holdsGraph_release]
    exact ((t.mem_graphs_release g).mp ht).2
  induction h with
  | empty => exact absurd hg Std.ExtTreeMap.not_mem_empty
  | request => exact hrelease _ hg
  | @step past s interpret h hgenuine ih =>
      rw [Session.step] at hg ⊢
      cases htasks : s.tasks with
      | nil =>
          rw [htasks] at hg
          exact ih hg
      | cons task rest =>
          rw [htasks] at hg
          exact hrelease _ hg

/-- A history in which no task has been overtaken is orderly. -/
theorem orderly
    (h : History c permits past s)
    (hfree : ∀ t ∈ past, ¬t.Overtaken) :
    Orderly c s := by
  induction h with
  | empty => exact orderly_empty
  | request interpret request h hidle hgenuine ih =>
      exact (ih fun t ht => hfree t (List.mem_cons_of_mem _ ht)).request hgenuine
  | step interpret h hgenuine ih =>
      exact (ih fun t ht => hfree t (List.mem_cons_of_mem _ ht)).step (hfree _ List.mem_cons_self)
        fun cmd hcmd => (hgenuine cmd hcmd).1

/-- Once a task has been overtaken, an item is in two graphs. -/
theorem not_exclusive_step
    (h : History c permits past s)
    (horderly : Orderly c s)
    (hovertaken : s.Overtaken)
    (interpret : Interpreter ρ) :
    ¬(s.step interpret).Exclusive := by
  intro hexclusive
  rw [Overtaken] at hovertaken
  split at hovertaken
  · rename_i a ending rest htasks
    cases hjobs : a.jobs with
    | nil =>
        rw [Attachment.Overtaken, hjobs] at hovertaken
        exact hovertaken
    | cons job jobs =>
        obtain ⟨store, a', hperform, g, hg, hne, hother, hhere⟩ :=
          Attachment.doubled_of_overtaken horderly.sound hjobs hovertaken
        have hgraph : a'.graph = a.graph := (Attachment.moves_of_perform hperform).graph_eq
        have hready : (Task.attach a ending : Task ρ).Ready c s.store :=
          horderly.ready _ (htasks ▸ List.mem_cons_self)
        let t : Session ρ := { s with store := store, tasks := .attach a' ending :: rest }
        have hstep : s.step interpret = t.release := by
          rw [Session.step, htasks]
          dsimp only
          unfold perform
          dsimp only
          rw [hjobs]
          dsimp only
          rw [hperform]
          rfl
        -- The step changes neither names nor queries, and its task works on the same graphs.
        have hholds : ∀ k, t.holdsGraph k = s.holdsGraph k := by
          intro k
          rw [holdsGraph, holdsGraph]
          simp [t, htasks, Task.graphs, hgraph]
        have hkept : ∀ k, k ∈ s.store.graphs → (store.index k).Includes job.item →
            (t.release.store.index k).Includes job.item := by
          intro k hk hincludes
          have hmem : k ∈ t.release.store.graphs := by
            refine (t.mem_graphs_release k).mpr ⟨Store.mem_graphs_of_includes hincludes, ?_⟩
            rw [hholds]
            exact h.held hk
          rw [t.index_release hmem]
          exact hincludes
        rw [hstep] at hexclusive
        exact hne (hexclusive job.item g a.graph (hkept g hg hother) (hkept _ hready.1 hhere))
  · exact hovertaken

/--
Every item is in at most one graph, now and at all times before, exactly if no attachment has been
about to put in an item that handlers have put into another graph since it left the one it was in.
-/
theorem exclusive_iff (h : History c permits past s) :
    (∀ t ∈ s :: past, t.Exclusive) ↔ ∀ t ∈ past, ¬t.Overtaken := by
  constructor
  · intro hexclusive
    induction h with
    | empty => exact fun t ht => absurd ht List.not_mem_nil
    | @request past s interpret request h hidle hgenuine ih =>
        have hbefore := ih fun t ht => hexclusive t (List.mem_cons_of_mem _ ht)
        intro t ht
        rcases List.mem_cons.mp ht with rfl | ht
        · rw [Overtaken, List.isEmpty_iff.mp hidle]
          exact id
        · exact hbefore t ht
    | @step past s interpret h hgenuine ih =>
        have hbefore := ih fun t ht => hexclusive t (List.mem_cons_of_mem _ ht)
        intro t ht
        rcases List.mem_cons.mp ht with rfl | ht
        · intro hovertaken
          exact h.not_exclusive_step (h.orderly hbefore) hovertaken interpret
            (hexclusive _ List.mem_cons_self)
        · exact hbefore t ht
  · intro hfree
    induction h with
    | empty =>
        intro t ht
        obtain rfl := List.mem_singleton.mp ht
        exact (orderly_empty (c := c)).exclusive
    | request interpret request h hidle hgenuine ih =>
        intro t ht
        rcases List.mem_cons.mp ht with rfl | ht
        · exact ((History.request interpret request h hidle hgenuine).orderly hfree).exclusive
        · exact ih (fun t ht => hfree t (List.mem_cons_of_mem _ ht)) t ht
    | step interpret h hgenuine ih =>
        intro t ht
        rcases List.mem_cons.mp ht with rfl | ht
        · exact ((History.step interpret h hgenuine).orderly hfree).exclusive
        · exact ih (fun t ht => hfree t (List.mem_cons_of_mem _ ht)) t ht

end History

/-- All types are root types. -/
def plainCatalogue : Catalogue :=
  ⟨fun _ => .root .node, fun _ => .root .edge⟩

/--
A node is added to a third graph while it is in a first one, upon whose loss of it a subscriber adds
the node to a second one.
-/
theorem reentrant_transfer :
    ∃ (past : List (Session Unit)) (s : Session Unit),
      History plainCatalogue (fun _ => True) past s ∧ s.idle = true ∧
        (s.store.index ⟨2⟩).Includes (.node ⟨1⟩) ∧ (s.store.index ⟨3⟩).Includes (.node ⟨1⟩) := by
  let node : Node := ⟨⟨1⟩, .root .node⟩
  let reentrant : Interpreter Unit := fun _ _ => .ok (.addNode ⟨2⟩ node)
  have hfirst : History plainCatalogue (fun _ => True) _ _ :=
    (History.empty : History plainCatalogue (fun _ => True) [] (.empty : Session Unit)).issued
      (.createGraph "g") rfl () trivial
  have hsecond := hfirst.issued (.createGraph "h") (by decide +kernel) () trivial
  have hthird := hsecond.issued (.createGraph "k") (by decide +kernel) () trivial
  have hnode := hthird.issued (.createNode "a" (.root .node) .null) (by decide +kernel) () rfl
  have hadd := hnode.issued (.addNode ⟨1⟩ node) (by decide +kernel) () (by decide +kernel)
  obtain ⟨later, hadded⟩ := hadd.run reentrant 10 (by decide +kernel)
  have hsubscribe := hadded.issued (.subscribe "s" ⟨1⟩ (some .removed) none 1 [()])
    (by decide +kernel) () trivial
  have hmove := hsubscribe.issued (.addNode ⟨3⟩ node) (by decide +kernel) ()
    (by decide +kernel)
  obtain ⟨later', hmoved⟩ := hmove.run reentrant 30 (by decide +kernel)
  exact ⟨_, _, hmoved, by decide +kernel,
    Std.ExtTreeMap.mem_iff_contains.mpr (by decide +kernel),
    Std.ExtTreeMap.mem_iff_contains.mpr (by decide +kernel)⟩

/-- In that run the attachment to the third graph has been overtaken. -/
theorem overtaken_after_reentry :
    ∃ (past : List (Session Unit)) (s : Session Unit),
      History plainCatalogue (fun _ => True) past s ∧ s.idle = true ∧
        ∃ t ∈ past, t.Overtaken := by
  obtain ⟨past, s, h, hidle, htwo, hthree⟩ := reentrant_transfer
  refine ⟨past, s, h, hidle, ?_⟩
  by_contra hnone
  have hexclusive := h.exclusive_iff.mpr fun t ht hovertaken => hnone ⟨t, ht, hovertaken⟩
  cases hexclusive s List.mem_cons_self _ _ _ htwo hthree

/-- After that run the node is in two graphs, and nothing is in progress. -/
theorem item_in_two_graphs :
    ∃ (past : List (Session Unit)) (s : Session Unit),
      History plainCatalogue (fun _ => True) past s ∧ s.idle = true ∧ ¬s.Exclusive := by
  obtain ⟨past, s, h, hidle, htwo, hthree⟩ := reentrant_transfer
  refine ⟨past, s, h, hidle, fun hexclusive => ?_⟩
  cases hexclusive _ _ _ htwo hthree

end Session

end PatternGraph
