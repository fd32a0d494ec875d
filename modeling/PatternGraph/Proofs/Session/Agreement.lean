import PatternGraph.Proofs.Session.Poised

/-!
# Items and graphs agree

Owners, ends and what nodes remember are kept with the items, while membership is kept with the
graphs.  In every history whose handlers do not mutate the two agree at all times.
-/

namespace PatternGraph

variable {ρ : Type} {c : Catalogue}

/-- Whether what is kept with the items agrees with the contents of the graphs. -/
structure Store.Agrees (c : Catalogue) (store : Store) : Prop where
  node : ∀ n g, store.graphOfNode n = some g ↔ g ∈ store.graphs ∧ n.id ∈ (store.index g).nodes
  edge : ∀ e g, store.graphOfEdge e = some g ↔ g ∈ store.graphs ∧ e.id ∈ (store.index g).edges
  alone : ∀ id g h, (store.index g).Includes id → (store.index h).Includes id → g = h
  ends : ∀ e g, store.graphOfEdge e = some g → ∃ source target,
    store.endpoints? e = some (source, target) ∧
      (store.index g).ends[e.id]? = some ⟨source.id, target.id⟩
  attached : ∀ n, store.graphOfNode n ≠ none → store.pendingEdges n = []
  nodup : ∀ n, (store.nodeState n).pending.Nodup
  detached : ∀ n, store.KnowsNode c n → ∀ e ∈ store.pendingEdges n,
    store.graphOfEdge e = none ∧
      ((store.edgeState e).source = some n ∨ (store.edgeState e).target = some n)

theorem Store.Sound.agrees
    {store : Store}
    (h : store.Sound c)
    (hwired : store.Wired) :
    store.Agrees c := by
  have hhome : ∀ id g, store.home id = some g ↔ g ∈ store.graphs ∧ (store.index g).Includes id := by
    intro id g
    rw [h.home_eq_some_iff]
    exact ⟨fun hid => ⟨mem_graphs_of_includes hid, hid⟩, fun hid => hid.2⟩
  refine ⟨fun n g => hhome (.node n.id) g, fun e g => hhome (.edge e.id) g,
    fun _ _ _ hg hh => h.unique hg hh, fun e g he => ?_, fun n hn => ?_, hwired.nodup,
    fun n hn e he => ?_⟩
  · obtain ⟨s, t, hs, ht, hends⟩ := hwired.ends g e ((hhome (.edge e.id) g).mp he).2
    exact ⟨s, t, (store.endpoints?_eq_some_iff e s t).mpr ⟨hs, ht⟩, hends⟩
  · rw [pendingEdges, hwired.attached n hn, List.filter_nil]
  · obtain ⟨hmem, halive⟩ := List.mem_filter.mp he
    obtain ⟨hdetached, htouches⟩ :=
      hwired.detached n e hmem (Std.ExtTreeMap.mem_iff_contains.mpr halive)
    refine ⟨hdetached, htouches.imp ?_ ?_⟩
    · rintro ⟨s, hs, hid⟩
      rwa [(h.source e s hs).eq_of_id hn hid] at hs
    · rintro ⟨t, ht, hid⟩
      rwa [(h.target e t ht).eq_of_id hn hid] at ht

namespace Session

variable {past : List (Session ρ)} {s : Session ρ}

theorem poised_empty : (.empty : Session ρ).Poised :=
  .collects Store.wired_empty fun _ h => absurd h List.not_mem_nil

/-- A request that a client makes while nothing is in progress leaves a session poised. -/
theorem Poised.request
    {interpret : Interpreter ρ}
    {request : ρ}
    (h : s.Poised)
    (horderly : Orderly c s)
    (hidle : s.idle = true)
    (hgenuine : ∀ cmd ∈ interpret.reads s.names request, cmd.Genuine c s.store) :
    ({ s with log := [] }.issueRequest interpret request).release.Poised := by
  have hcleared : Orderly c { s with log := [] } := ⟨horderly.sound, horderly.ready⟩
  refine Poised.release ?_ (hcleared.leads (issueRequest_leads hcleared.sound hgenuine))
  rcases issueRequest_cases interpret { s with log := [] } request with
    ⟨refusal, heq⟩ | ⟨cmd, hcmd, heq⟩
  · rw [heq]
    exact h.aside rfl rfl
  · rw [heq]
    exact Poised.begin (c := c) horderly.sound h.wired (List.isEmpty_iff.mp hidle)
      (hgenuine cmd hcmd)

namespace History

/-- A history whose handlers do not mutate is orderly and poised. -/
theorem poised (h : History c (fun cmd => ¬cmd.Mutates) past s) : Orderly c s ∧ s.Poised := by
  induction h with
  | empty => exact ⟨orderly_empty, poised_empty⟩
  | request interpret request h hidle hgenuine ih =>
      exact ⟨ih.1.request hgenuine, ih.2.request ih.1 hidle hgenuine⟩
  | step interpret h hgenuine ih =>
      obtain ⟨horderly, hpoised⟩ := ih
      exact ⟨horderly.step hpoised.not_overtaken fun cmd hcmd => (hgenuine cmd hcmd).1,
        hpoised.step horderly hgenuine⟩

/-- A history whose handlers do not mutate is never overtaken. -/
theorem not_overtaken (h : History c (fun cmd => ¬cmd.Mutates) past s) :
    ∀ t ∈ past, ¬t.Overtaken := by
  induction h with
  | empty => exact fun _ ht => absurd ht List.not_mem_nil
  | request interpret request h hidle hgenuine ih =>
      exact List.forall_mem_cons.mpr ⟨h.poised.2.not_overtaken, ih⟩
  | step interpret h hgenuine ih => exact List.forall_mem_cons.mpr ⟨h.poised.2.not_overtaken, ih⟩

/--
In every history whose handlers do not mutate, what items keep of their graphs, their ends and the
edges wired to them agrees with the contents of the graphs.
-/
theorem items_agree (h : History c (fun cmd => ¬cmd.Mutates) past s) : s.store.Agrees c :=
  h.poised.1.sound.agrees h.poised.2.wired

end History

/-- Two wired nodes come into one graph, and then one of them goes to another graph. -/
theorem agrees_after_transfer :
    ∃ (past : List (Session Unit)) (s : Session Unit),
      History plainCatalogue (fun cmd => ¬cmd.Mutates) past s ∧ s.idle = true ∧
        s.store.graphOfNode ⟨⟨1⟩, .root .node⟩ = some ⟨2⟩ ∧
        s.store.graphOfNode ⟨⟨2⟩, .root .node⟩ = some ⟨1⟩ ∧
        s.store.graphOfEdge ⟨⟨1⟩, .root .edge⟩ = none ∧ s.store.Agrees plainCatalogue := by
  let first : Node := ⟨⟨1⟩, .root .node⟩
  let second : Node := ⟨⟨2⟩, .root .node⟩
  let silent : Interpreter Unit := fun _ _ => .error .malformed
  have hone := (History.empty : History plainCatalogue (fun cmd => ¬cmd.Mutates) []
    (.empty : Session Unit)).issued (.createGraph "g") rfl () trivial
  have htwo := hone.issued (.createGraph "h") (by decide +kernel) () trivial
  have hfirst := htwo.issued (.createNode "a" (.root .node) .null) (by decide +kernel) () rfl
  have hsecond := hfirst.issued (.createNode "b" (.root .node) .null) (by decide +kernel) ()
    rfl
  have hedge := hsecond.issued (.createEdgeBetween "e" (.root .edge) first second)
    (by decide +kernel) () (by decide +kernel)
  have hadd := hedge.issued (.addNode ⟨1⟩ first) (by decide +kernel) () (by decide +kernel)
  obtain ⟨later, hadded⟩ := hadd.run silent 30 (by decide +kernel)
  have hmove := hadded.issued (.addNode ⟨2⟩ first) (by decide +kernel) ()
    (by decide +kernel)
  obtain ⟨later', hmoved⟩ := hmove.run silent 30 (by decide +kernel)
  exact ⟨_, _, hmoved, by decide +kernel, by decide +kernel, by decide +kernel, by decide +kernel,
    hmoved.items_agree⟩

end Session

end PatternGraph
