import PatternGraph.Proofs.Session.Closing
import PatternGraph.Proofs.Session.Observing
import PatternGraph.Proofs.Store.Dangling

/-!
# When two nodes cannot be joined

A command that joins two nodes by a given edge fails exactly when something dangles in the wiring that
it finds.  Whatever dangles in the wiring that it would install dangles there too.  The converse holds
for an edge that the two nodes do not draw along: the former wiring of an edge that they do draw along
counts although the command is about to replace it.
-/

namespace PatternGraph

variable {ρ : Type} {c : Catalogue} {interpret : Interpreter ρ}

namespace Store

variable {before after : Store} {g : GraphId} {a b : Node} {e : Edge}

/-- An edge that has come into a graph has its installed ends there. -/
theorem Closes.ends_of_rewire
    (h : before.Closes (before.rewire e a b) g [.edge e.id] after)
    (hsound : after.Sound c)
    (hwired : after.Wired) :
    (after.index g).ends[e.id]? = some ⟨a.id, b.id⟩ := by
  have hin : e.id ∈ (after.index g).edges :=
    (h.graph (.edge e.id)).mpr (Or.inr (.root (List.mem_singleton_self _)))
  obtain ⟨s, t, hs, ht, hends⟩ := hwired.ends g e hin
  obtain ⟨hsource, htarget⟩ := h.ends e (hsound.contained g e.id hin)
  obtain ⟨ha, hb⟩ := before.source_rewire e a b
  rw [hsource, ha] at hs
  rw [htarget, hb] at ht
  rw [hends, ← Option.some.inj hs, ← Option.some.inj ht]

end Store

namespace Session

variable {s : Session ρ} {g : GraphId} {a b : Node} {e : Edge} {as : Option String}

/-- A graph does not include an edge that it does not own. -/
theorem not_mem_of_not_owned
    (hsound : s.store.Sound c)
    (hgraph : g ∈ s.store.graphs)
    (hout : s.store.ownsEdge g e = false) :
    e.id ∉ (s.store.index g).edges := by
  intro hin
  have howned := (s.store.ownsEdge_iff e).mpr ((hsound.housed g hgraph (.edge e.id)).mpr hin)
  rw [hout] at howned
  cases howned

/--
In every history whose handlers do not mutate, a command that joins two nodes by an edge of which the
graph is not the owner comes to an end.  It fails if and only if the two nodes draw along a detached
node that remembers an edge without both ends, in the wiring before the command, and otherwise the
edge joins them.  If this is so in the wiring after the command, it is so before; and if it is so
before, it is so after unless the two nodes draw the edge along itself.
-/
theorem History.joining_fails_iff
    {past : List (Session ρ)}
    (h : History c (fun cmd => ¬cmd.Mutates) past s)
    (interpret : Interpreter ρ)
    (request : ρ)
    (hidle : s.idle = true)
    (hreads : interpret s.names request = .ok (.addEdge g a b (some e) as))
    (hgenuine : (Command.addEdge g a b (some e) as : Command ρ).Genuine c s.store)
    (hout : s.store.ownsEdge g e = false)
    (habides : ∀ fuel, (Session.request interpret 0 s request).Abides c (fun cmd => ¬cmd.Mutates)
      interpret fuel) :
    (∃ fuel, (Session.request interpret fuel s request).idle = true) ∧
      (∀ fuel t, t = Session.request interpret fuel s request → t.idle = true →
        (t.outcome.failed = true ↔ s.store.Dangles [a, b]) ∧
          (t.outcome.failed = false → g ∈ t.store.graphs →
            (t.store.index g).ends[e.id]? = some ⟨a.id, b.id⟩)) ∧
      ((s.store.rewire e a b).Dangles [a, b] → s.store.Dangles [a, b]) ∧
      (s.store.Dangles [a, b] → (s.store.rewire e a b).Dangles [a, b] ∨
        s.store.Drawn (· ∈ s.store.edges) [.node a.id, .node b.id] (.edge e.id)) := by
  have hcalm := h.calm_request hidle hreads hgenuine habides
  have htasks := List.isEmpty_iff.mp hidle
  have htidy := h.tidy.working [] [] s.outcome
  have hsound := h.poised.1.sound
  have hwirings : (s.store.Dangles [a, b] → (s.store.rewire e a b).Dangles [a, b] ∨
      s.store.Drawn (· ∈ s.store.edges) [.node a.id, .node b.id] (.edge e.id)) := fun hdangles =>
    or_iff_not_imp_right.mpr hdangles.rewire
  simp only [request_eq_run hreads]
  let begun := (({ s with log := [] } : Session ρ).begin (.addEdge g a b (some e) as)).release
  cases hpreflight : s.store.preflight [a, b] with
  | error fault =>
      have hdangles := (s.store.preflight_eq_error_iff [a, b]).mp ⟨fault, hpreflight⟩
      have hfail : begun = (({ s with log := [] } : Session ρ).fail fault).release :=
        congrArg release (addEdge_of_refused hout hpreflight)
      have hdone : begun.idle = true := by
        rw [hfail, idle, tasks_release]
        exact hidle
      have hfailed : begun.outcome.failed = true := by
        rw [hfail, outcome_release]
        rfl
      refine ⟨⟨0, hdone⟩, fun fuel t ht _ => ?_, .of_rewire, hwirings⟩
      rw [ht, run_of_idle hdone]
      refine ⟨iff_of_true hfailed hdangles, fun hok => ?_⟩
      rw [hfailed] at hok
      cases hok
  | ok accepted =>
      have hnot := (s.store.preflight_eq_ok_iff [a, b]).mp hpreflight
      have hends := addAcceptedEdge_ends (s := { s with log := [] }) htasks hsound
        (.refl hsound.toPristine) hsound h.poised.2.wired hout hpreflight hcalm
      obtain ⟨fuel, hfuel, -⟩ := hends.exists_fuel
      refine ⟨⟨fuel, hfuel⟩, fun fuel t ht hdone => ?_, .of_rewire, hwirings⟩
      rw [ht] at hdone ⊢
      obtain ⟨hok, hcloses⟩ := Eventually.of_idle hends hdone
      refine ⟨iff_of_false (Bool.eq_false_iff.mp hok) hnot, fun _ hmem => ?_⟩
      have hlast := hcalm.run fuel
      exact (hcloses (not_mem_of_not_owned hsound hgenuine.1 hout) hmem).ends_of_rewire
        hlast.orderly.sound hlast.poised.wired

/-- Commands that make a graph, two detached nodes to be joined in it, and a third. -/
def apart : List (Command Unit) :=
  [.createGraph "g", .createNode "a" (.root .node) .null, .createNode "b" (.root .node) .null,
    .createNode "c" (.root .node) .null, .createEdge "e" (.root .edge) .null]

theorem apart_history :
    ∃ past, History plainCatalogue (fun cmd => ¬cmd.Mutates) past
      (apart.foldl (carryOut 30) .empty) := by
  have hissue : MayIssue plainCatalogue (fun cmd => ¬cmd.Mutates) 30 apart .empty := by
    decide +kernel
  obtain ⟨later, hapart⟩ := History.empty.carriedOut hissue
  exact ⟨_, hapart⟩

/-- An edge that has been wired to a third node joins two nodes all the same. -/
theorem joins_by_edge_wired_elsewhere :
    ∃ (past : List (Session Unit)) (s t : Session Unit),
      History plainCatalogue (fun cmd => ¬cmd.Mutates) past s ∧ t.idle = true ∧
        (s.store.edgeState ⟨⟨1⟩, .root .edge⟩).source = some ⟨⟨3⟩, .root .node⟩ ∧
        (t.outcome.failed = true ↔
          s.store.Dangles [⟨⟨1⟩, .root .node⟩, ⟨⟨2⟩, .root .node⟩]) ∧
        t.outcome.failed = false ∧
        (t.store.index ⟨1⟩).ends[(⟨1⟩ : EdgeId)]? = some ⟨⟨1⟩, ⟨2⟩⟩ := by
  let first : Node := ⟨⟨1⟩, .root .node⟩
  let second : Node := ⟨⟨2⟩, .root .node⟩
  let edge : Edge := ⟨⟨1⟩, .root .edge⟩
  let joining : Interpreter Unit := fun _ _ => .ok (.addEdge ⟨1⟩ first second (some edge) none)
  obtain ⟨past, hapart⟩ := apart_history
  have hwired := hapart.issued (.setSource edge ⟨⟨3⟩, .root .node⟩) (by decide +kernel) ()
    (by decide +kernel)
  obtain ⟨hfails, hends⟩ := (hwired.joining_fails_iff joining () (by decide +kernel) rfl
    (by decide +kernel) (by decide +kernel)
    (abides_of_idle 40 (by decide +kernel) (by decide +kernel))).2.1 40 _ rfl (by decide +kernel)
  exact ⟨_, _, _, hwired, by decide +kernel, by decide +kernel, hfails, by decide +kernel,
    hends (by decide +kernel) (by decide +kernel)⟩

/--
An edge of which one of two nodes is the only end cannot join them, although nothing dangles in the
wiring in which it joins them.
-/
theorem not_joined_by_half_wired_edge :
    ∃ (past : List (Session Unit)) (s t : Session Unit),
      History plainCatalogue (fun cmd => ¬cmd.Mutates) past s ∧ s.idle = true ∧
        s.store.ownsEdge ⟨1⟩ ⟨⟨1⟩, .root .edge⟩ = false ∧
        t = Session.request (fun _ _ => .ok (.addEdge ⟨1⟩ ⟨⟨1⟩, .root .node⟩ ⟨⟨2⟩, .root .node⟩
          (some ⟨⟨1⟩, .root .edge⟩) none)) 40 s () ∧
        t.idle = true ∧ t.outcome.failed = true ∧
        ¬(s.store.rewire ⟨⟨1⟩, .root .edge⟩ ⟨⟨1⟩, .root .node⟩ ⟨⟨2⟩, .root .node⟩).Dangles
          [⟨⟨1⟩, .root .node⟩, ⟨⟨2⟩, .root .node⟩] := by
  obtain ⟨past, hapart⟩ := apart_history
  have hwired := hapart.issued (.setSource ⟨⟨1⟩, .root .edge⟩ ⟨⟨1⟩, .root .node⟩)
    (by decide +kernel) () (by decide +kernel)
  refine ⟨_, _, _, hwired, by decide +kernel, by decide +kernel, rfl, by decide +kernel,
    by decide +kernel, (Store.preflight_eq_ok_iff _ _).mp (by decide +kernel)⟩

end Session

end PatternGraph
