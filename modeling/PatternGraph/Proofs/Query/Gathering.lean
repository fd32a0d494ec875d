import Mathlib.Data.List.Nodup
import PatternGraph.Query.Rows

/-!
# What a visitor keeps

Whatever a search finds, and wherever it stops, what each verdict of its visitor keeps is true of what has
been gathered in the end.  So the rows of a query on any content differ in the identities of their items,
and all of them show what its slots are bound to.
-/

namespace PatternGraph

variable {σ : Type}

/-- Whether what has been gathered so far is as it should be, unless the visitor fails the search. -/
def Verdict.Keeps (P : σ → Prop) : Verdict σ → Prop
  | .next acc | .halt acc => P acc
  | .fail _ => True

/-- Whether what has been gathered so far is as it should be, unless the search has failed. -/
def Progress.Keeps (P : σ → Prop) : Progress σ → Prop
  | .halted acc _ _ | .exhausted acc _ => P acc
  | .failed .. => True

theorem Progress.Keeps.within {P : σ → Prop} {progress : Progress σ} (h : progress.Keeps P)
    (mark : Mark) : (progress.within mark).Keeps P := by
  cases progress <;> exact h

theorem Progress.Keeps.restoring {P : σ → Prop} {progress : Progress σ} (h : progress.Keeps P)
    (saved : Bindings) : (progress.restoring saved).Keeps P := by
  cases progress <;> exact h

namespace Search

variable {s : Slots} {index : Index} {P : σ → Prop} {visit : σ → Bindings → Verdict σ}

theorem tryEach_keeps
    {below : σ → Bindings → Progress σ}
    (hbelow : ∀ acc row, P acc → (below acc row).Keeps P)
    (slot : Nat)
    (candidates : List Item)
    (moves : List Move)
    (rest : List Item)
    (acc : σ)
    (row : Bindings)
    (hacc : P acc) :
    (tryEach below slot candidates moves rest acc row).Keeps P := by
  induction rest generalizing acc row with
  | nil => exact hacc
  | cons item rest ih =>
      have hitem := hbelow acc (row.setIfInBounds slot (some item)) hacc
      rw [tryEach]
      cases hprogress : below acc (row.setIfInBounds slot (some item)) with
      | exhausted acc' row' =>
          rw [hprogress] at hitem
          exact ih acc' row' hitem
      | halted acc' row' marks =>
          rw [hprogress] at hitem
          exact hitem.within _
      | failed acc' fault => trivial

theorem descend_keeps
    (hvisit : ∀ acc row, P acc → (visit acc row).Keeps P)
    (moves : List Move)
    (acc : σ)
    (row : Bindings)
    (hacc : P acc) :
    (descend s index visit moves acc row).Keeps P := by
  induction moves generalizing acc row with
  | nil =>
      have hrow := hvisit acc row hacc
      rw [descend]
      cases hverdict : visit acc row with
      | next acc' =>
          rw [hverdict] at hrow
          exact hrow
      | halt acc' =>
          rw [hverdict] at hrow
          exact hrow
      | fail fault => trivial
  | cons move moves ih =>
      cases move with
      | enter => exact (ih acc row hacc).restoring row
      | stop => exact hacc
      | step step =>
          rw [descend]
          cases step.expand s index row with
          | error fault => trivial
          | ok expansion =>
              cases expansion with
              | bind slot candidates =>
                  exact tryEach_keeps (fun acc row => ih acc row) slot candidates moves candidates acc row
                    hacc
              | check holds =>
                  cases holds with
                  | true => exact ih acc row hacc
                  | false => exact hacc

end Search

namespace Harvest

variable {s : Slots} {harvest : Harvest}

/-- Whether the rows of a harvest are rows of matches and differ in their identities. -/
structure Tidy (s : Slots) (harvest : Harvest) : Prop where
  shown : ∀ row ∈ harvest.rows, ∃ bindings, s.project bindings = .ok row
  distinct : (harvest.rows.map Row.ids).Nodup
  seen : ∀ row ∈ harvest.rows, row.ids ∈ harvest.seen

theorem Tidy.add {row : Row} (h : harvest.Tidy s) (hshown : ∃ bindings, s.project bindings = .ok row)
    (hnew : row.ids ∉ harvest.seen) : (harvest.add row).Keeps (Tidy s) := by
  have htidy : ∀ wanted, Tidy s ⟨harvest.seen.insert row.ids, row :: harvest.rows, wanted⟩ := by
    refine fun wanted => ⟨List.forall_mem_cons.mpr ⟨hshown, h.shown⟩, ?_, ?_⟩
    · rw [List.map_cons, List.nodup_cons]
      refine ⟨fun hmem => ?_, h.distinct⟩
      obtain ⟨former, hformer, hids⟩ := List.mem_map.mp hmem
      exact hnew (hids ▸ h.seen former hformer)
    · refine List.forall_mem_cons.mpr ⟨Std.ExtTreeSet.mem_insert_self, fun former hformer => ?_⟩
      exact Std.ExtTreeSet.mem_insert.mpr (Or.inr (h.seen former hformer))
  unfold Harvest.add
  dsimp only
  split
  · exact htidy none
  · split
    · exact htidy _
    · exact htidy _

theorem Tidy.gather (h : harvest.Tidy s) (row : Bindings) : (gather s harvest row).Keeps (Tidy s) := by
  rw [Harvest.gather]
  cases hproject : s.project row with
  | error fault => trivial
  | ok found =>
      dsimp only
      split
      · exact h
      · rename_i hnew
        exact h.add ⟨row, hproject⟩ fun hmem => hnew (Std.ExtTreeSet.contains_iff_mem.mpr hmem)

end Harvest

namespace CompiledQuery

variable {c : CompiledQuery} {index : Index} {rows : List Row}

/-- The rows of a query are rows of matches, and differ in their identities. -/
theorem tidy_of_collect (h : c.collect index = .ok rows) :
    (∀ row ∈ rows, ∃ bindings, c.slots.project bindings = .ok row) ∧ (rows.map Row.ids).Nodup := by
  have hkeeps : (Search.descend c.slots index (Harvest.gather c.slots) c.plan.moves ⟨∅, [], none⟩
      (Search.noBindings c.slots)).Keeps (Harvest.Tidy c.slots) :=
    Search.descend_keeps (fun harvest row hharvest => hharvest.gather row) c.plan.moves _ _
      ⟨by simp, by simp, by simp⟩
  have htidy : ∀ harvest : Harvest, harvest.Tidy c.slots → harvest.rows.reverse = rows →
      (∀ row ∈ rows, ∃ bindings, c.slots.project bindings = .ok row) ∧ (rows.map Row.ids).Nodup := by
    rintro harvest htidy rfl
    exact ⟨fun row hrow => htidy.shown row (List.mem_reverse.mp hrow), by
      rw [List.map_reverse, List.nodup_reverse]
      exact htidy.distinct⟩
  rw [collect, Search.start] at h
  split at h
  · rename_i hprogress
    rw [hprogress] at hkeeps
    exact htidy _ hkeeps (Except.ok.inj h)
  · rename_i hprogress
    rw [hprogress] at hkeeps
    exact htidy _ hkeeps (Except.ok.inj h)
  · cases h

end CompiledQuery

end PatternGraph
