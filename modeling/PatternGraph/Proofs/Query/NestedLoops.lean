import PatternGraph.Query.Search

/-!
# A search as nested loops

Read plainly, the moves of a plan are nested loops: a binding step runs what follows once for each
of its candidates, and a check lets it run or not.  A search that keeps its bindings in one array
and is steered by a visitor shows the visitor exactly the matches of the loops, in the same order,
as long as no slot is bound twice; it ends with the fault that the loops meet first.
-/

namespace PatternGraph

namespace Matches

/-- The matches of two searches one after the other; after a fault there are no more. -/
def followedBy (first second : Matches) : Matches :=
  match first.fault with
  | some _ => first
  | none => ⟨first.found ++ second.found, second.fault⟩

/-- The matches of the searches below each value of a list. -/
def inTurn {α : Type} (below : α → Matches) : List α → Matches
  | [] => ⟨[], none⟩
  | a :: rest => (below a).followedBy (inTurn below rest)

end Matches

/-- How a search ends. -/
inductive Conclusion (σ : Type) where
  | done (acc : σ)
  | halted (acc : σ)
  | failed (acc : σ) (fault : Fault)

namespace Conclusion

variable {σ : Type}

/-- Goes on after a conclusion that was neither stopped nor failed. -/
def andThen : Conclusion σ → (σ → Conclusion σ) → Conclusion σ
  | .done acc, next => next acc
  | conclusion, _ => conclusion

end Conclusion

namespace Progress

variable {σ : Type}

/-- How a search ends, without its bindings and marks. -/
def conclusion : Progress σ → Conclusion σ
  | .halted acc _ _ => .halted acc
  | .failed acc fault => .failed acc fault
  | .exhausted acc _ => .done acc

@[simp]
theorem conclusion_restoring (saved : Bindings) (progress : Progress σ) :
    (progress.restoring saved).conclusion = progress.conclusion := by
  cases progress <;> rfl

/-- Whether a search that has tried everything leaves the given bindings. -/
def Leaves (progress : Progress σ) (row : Bindings) : Prop :=
  ∀ acc row', progress = .exhausted acc row' → row' = row

end Progress

namespace Matches

variable {σ : Type}

/-- Shows the matches of a search to a visitor, one after the other. -/
def feed (visit : σ → Bindings → Verdict σ) (fault : Option Fault) : List Bindings → σ → Conclusion σ
  | [], acc =>
    match fault with
    | some fault => .failed acc fault
    | none => .done acc
  | row :: rest, acc =>
    match visit acc row with
    | .next acc => feed visit fault rest acc
    | .halt acc => .halted acc
    | .fail fault => .failed acc fault

/-- Shows the matches of a search to a visitor, and then its fault. -/
def shownTo (m : Matches) (visit : σ → Bindings → Verdict σ) (acc : σ) : Conclusion σ :=
  feed visit m.fault m.found acc

theorem feed_append (visit : σ → Bindings → Verdict σ) (fault : Option Fault)
    (before after : List Bindings) (acc : σ) :
    feed visit fault (before ++ after) acc =
      (feed visit none before acc).andThen (feed visit fault after) := by
  induction before generalizing acc with
  | nil => rfl
  | cons row before ih =>
      rw [List.cons_append, feed, feed]
      cases visit acc row with
      | next acc => exact ih acc
      | halt acc => rfl
      | fail fault => rfl

theorem feed_some_andThen (visit : σ → Bindings → Verdict σ) (fault : Fault)
    (rows : List Bindings) (next : σ → Conclusion σ) (acc : σ) :
    (feed visit (some fault) rows acc).andThen next = feed visit (some fault) rows acc := by
  induction rows generalizing acc with
  | nil => rfl
  | cons row rows ih =>
      rw [feed]
      cases visit acc row with
      | next acc => exact ih acc
      | halt acc => rfl
      | fail fault => rfl

theorem shownTo_followedBy (visit : σ → Bindings → Verdict σ) (first second : Matches) (acc : σ) :
    (first.followedBy second).shownTo visit acc =
      (first.shownTo visit acc).andThen (second.shownTo visit) := by
  obtain ⟨found, fault⟩ := first
  cases fault with
  | none => exact feed_append visit second.fault found second.found acc
  | some fault => exact (feed_some_andThen visit fault found _ acc).symm

end Matches

namespace Search

variable {σ : Type} {s : Slots} {index : Index}

/-- The matches of the moves that are left, as nested loops. -/
def loops (s : Slots) (index : Index) : List Move → Bindings → Matches
  | [], row => ⟨[row], none⟩
  | .enter :: moves, row => loops s index moves row
  | .stop :: _, _ => ⟨[], none⟩
  | .step step :: moves, row =>
    match step.expand s index row with
    | .error fault => ⟨[], some fault⟩
    | .ok (.check true) => loops s index moves row
    | .ok (.check false) => ⟨[], none⟩
    | .ok (.bind slot candidates) =>
      Matches.inTurn (fun item => loops s index moves (row.setIfInBounds slot (some item)))
        candidates

end Search

/-- The slot that a move binds. -/
def Move.binds : Move → Option Nat
  | .step s => s.binds
  | .enter | .stop => none

/-- Whether no slot is bound twice, and none is bound already. -/
structure Search.Fresh (moves : List Move) (row : Bindings) : Prop where
  once : (moves.filterMap Move.binds).Nodup
  free : ∀ slot ∈ moves.filterMap Move.binds, ∀ item, row[slot]? ≠ some (some item)

namespace Search

variable {σ : Type} {s : Slots} {index : Index}

/-- A step that offers candidates binds the slot that it says. -/
theorem binds_of_expand_eq_bind
    {step : Step}
    {row : Bindings}
    {slot : Nat}
    {candidates : List Item}
    (h : step.expand s index row = .ok (.bind slot candidates)) :
    step.binds = some slot := by
  cases step with
  | scanNodes x type =>
      simp only [Step.expand, Except.bind, bind, pure, Except.pure] at h
      cases hslot : s.slotAt x <;> simp_all [Step.binds]
  | scanEdges x type =>
      simp only [Step.expand, Except.bind, bind, pure, Except.pure] at h
      cases hslot : s.slotAt x <;> simp_all [Step.binds]
  | traverse origin x c =>
      simp only [Step.expand, Except.bind, bind, pure, Except.pure] at h
      cases hslot : s.slotAt x with
      | error fault => simp [hslot] at h
      | ok found =>
          by_cases horigin : origin = c.node
          · cases hnode : s.boundNode row origin <;> simp_all [Step.binds]
          · cases hedge : s.boundEdge row origin <;> simp_all [Step.binds]
  | check c =>
      simp only [Step.expand, Except.bind, bind, pure, Except.pure] at h
      cases hnode : s.boundNode row c.node with
      | error fault => simp [hnode] at h
      | ok node => cases hedge : s.boundEdge row c.edge <;> simp_all
  | checkPair edge a b =>
      simp only [Step.expand, Except.bind, bind, pure, Except.pure] at h
      cases hedge : s.boundEdge row edge with
      | error fault => simp [hedge] at h
      | ok e =>
          cases ha : s.boundNode row a with
          | error fault => simp [hedge, ha] at h
          | ok m => cases hb : s.boundNode row b <;> simp_all

theorem setIfInBounds_none {row : Bindings} {slot : Nat}
    (hfree : ∀ item, row[slot]? ≠ some (some item)) :
    row.setIfInBounds slot none = row := by
  apply Array.ext_getElem?
  intro i
  by_cases hi : slot = i
  · subst hi
    rw [Array.getElem?_setIfInBounds_self]
    split
    · rename_i hlt
      cases hvalue : row[slot]? with
      | none =>
          rw [Array.getElem?_eq_none_iff] at hvalue
          omega
      | some value =>
          cases value with
          | none => rfl
          | some item => exact absurd hvalue (hfree item)
    · rename_i hge
      rw [Array.getElem?_eq_none (Nat.le_of_not_lt hge)]
  · rw [Array.getElem?_setIfInBounds_ne hi]

theorem Fresh.tail {move : Move} {moves : List Move} {row : Bindings}
    (h : Fresh (move :: moves) row) : Fresh moves row := by
  constructor
  · have honce := h.once
    rw [List.filterMap_cons] at honce
    split at honce
    · exact honce
    · exact honce.of_cons
  · intro slot hslot
    apply h.free
    rw [List.filterMap_cons]
    split
    · exact hslot
    · exact List.mem_cons_of_mem _ hslot

/-- After a binding step the later moves are still fresh. -/
theorem Fresh.bind {step : Step} {moves : List Move} {row : Bindings} {slot : Nat}
    (h : Fresh (.step step :: moves) row) (hbinds : step.binds = some slot) (item : Item) :
    Fresh moves (row.setIfInBounds slot (some item)) := by
  refine ⟨h.tail.once, fun later hlater => ?_⟩
  have honce := h.once
  rw [List.filterMap_cons_some (by exact hbinds), List.nodup_cons] at honce
  have hne : slot ≠ later := by
    rintro rfl
    exact honce.1 hlater
  rw [Array.getElem?_setIfInBounds_ne hne]
  exact h.tail.free later hlater

/-- Trying the candidates of a slot shows the matches below each of them in turn. -/
theorem tryEach_spec
    {visit : σ → Bindings → Verdict σ}
    {below : σ → Bindings → Progress σ}
    {matchesBelow : Item → Matches}
    {slot : Nat}
    {row : Bindings}
    (hbelow : ∀ item acc,
      (below acc (row.setIfInBounds slot (some item))).conclusion =
          (matchesBelow item).shownTo visit acc ∧
        (below acc (row.setIfInBounds slot (some item))).Leaves
          (row.setIfInBounds slot (some item)))
    (candidates : List Item)
    (moves : List Move)
    (rest : List Item)
    (acc : σ)
    (current : Bindings)
    (hcurrent : ∀ value, current.setIfInBounds slot value = row.setIfInBounds slot value) :
    (tryEach below slot candidates moves rest acc current).conclusion =
        (Matches.inTurn matchesBelow rest).shownTo visit acc ∧
      (tryEach below slot candidates moves rest acc current).Leaves
        (row.setIfInBounds slot none) := by
  induction rest generalizing acc current with
  | nil =>
      refine ⟨rfl, ?_⟩
      rintro acc' row' heq
      rw [tryEach, Progress.exhausted.injEq] at heq
      rw [← heq.2, hcurrent]
  | cons item rest ih =>
      obtain ⟨hconclusion, hleaves⟩ := hbelow item acc
      rw [tryEach, hcurrent, Matches.inTurn, Matches.shownTo_followedBy, ← hconclusion]
      cases hprogress : below acc (row.setIfInBounds slot (some item)) with
      | exhausted acc' row' =>
          have hrow := hleaves acc' row' hprogress
          subst hrow
          exact ih acc' _ fun value => by simp
      | halted acc' row' marks =>
          refine ⟨rfl, ?_⟩
          rintro acc'' row'' heq
          cases heq
      | failed acc' fault =>
          refine ⟨rfl, ?_⟩
          rintro acc'' row'' heq
          cases heq

/-- A search shows a visitor what nested loops find, and cleans up its bindings. -/
theorem descend_spec
    (visit : σ → Bindings → Verdict σ)
    (moves : List Move)
    (acc : σ)
    (row : Bindings)
    (hfresh : Fresh moves row) :
    (descend s index visit moves acc row).conclusion = (loops s index moves row).shownTo visit acc ∧
      (descend s index visit moves acc row).Leaves row := by
  induction moves generalizing acc row with
  | nil =>
      rw [descend, loops, Matches.shownTo, Matches.feed]
      cases visit acc row with
      | next acc' =>
          refine ⟨rfl, ?_⟩
          rintro acc'' row'' heq
          cases heq
          rfl
      | halt acc' =>
          refine ⟨rfl, ?_⟩
          rintro acc'' row'' heq
          cases heq
      | fail fault =>
          refine ⟨rfl, ?_⟩
          rintro acc'' row'' heq
          cases heq
  | cons move moves ih =>
      cases move with
      | enter =>
          obtain ⟨hconclusion, -⟩ := ih acc row hfresh.tail
          rw [descend, loops, Progress.conclusion_restoring]
          refine ⟨hconclusion, ?_⟩
          rintro acc' row' heq
          cases hprogress : descend s index visit moves acc row with
          | exhausted acc'' row'' =>
              rw [hprogress] at heq
              cases heq
              rfl
          | halted acc'' row'' marks =>
              rw [hprogress] at heq
              cases heq
          | failed acc'' fault =>
              rw [hprogress] at heq
              cases heq
      | stop =>
          refine ⟨rfl, ?_⟩
          rintro acc' row' heq
          cases heq
          rfl
      | step step =>
          rw [descend, loops]
          cases hexpand : step.expand s index row with
          | error fault =>
              refine ⟨rfl, ?_⟩
              rintro acc' row' heq
              cases heq
          | ok expansion =>
              have hrest : Fresh moves row := hfresh.tail
              cases expansion with
              | check holds =>
                  cases holds with
                  | true => exact ih acc row hrest
                  | false =>
                      refine ⟨rfl, ?_⟩
                      rintro acc' row' heq
                      cases heq
                      rfl
              | bind slot candidates =>
                  have hbinds := binds_of_expand_eq_bind hexpand
                  have hfree : ∀ item, row[slot]? ≠ some (some item) :=
                    hfresh.free slot (by simp [Move.binds, hbinds])
                  have hbelow := fun item acc => ih acc _ (hfresh.bind hbinds item)
                  have htried :=
                    tryEach_spec hbelow candidates moves candidates acc row fun value => rfl
                  rwa [setIfInBounds_none hfree] at htried

end Search

namespace Matches

variable {σ : Type}

/-- Gathering all matches of a search gives the list of the loops. -/
theorem ofProgress_gather
    {progress : Progress (List Bindings)}
    {m : Matches}
    (h : progress.conclusion = m.shownTo (fun found row => .next (row :: found)) []) :
    ofProgress id progress = m := by
  have hfeed : ∀ (fault : Option Fault) (rows found : List Bindings),
      feed (fun found row => .next (row :: found)) fault rows found =
        match fault with
        | some fault => .failed (rows.reverse ++ found) fault
        | none => .done (rows.reverse ++ found) := by
    intro fault rows
    induction rows with
    | nil =>
        intro found
        cases fault <;> rfl
    | cons row rows ih =>
        intro found
        have hrest := ih (row :: found)
        rw [feed]
        cases fault <;> simpa using hrest
  obtain ⟨rows, fault⟩ := m
  rw [shownTo, hfeed] at h
  cases fault with
  | none =>
      cases progress with
      | exhausted acc row =>
          cases h
          simp [ofProgress]
      | halted acc row marks => cases h
      | failed acc fault => cases h
  | some fault =>
      cases progress with
      | exhausted acc row => cases h
      | halted acc row marks => cases h
      | failed acc fault =>
          cases h
          simp [ofProgress]

/-- Gathering the first matches of a search that does not fail gives a prefix of the list. -/
theorem ofProgress_gather_first
    {progress : Progress Catch}
    {rows : List Bindings}
    {limit : Nat}
    (hlimit : limit ≠ 0)
    (h : progress.conclusion = shownTo ⟨rows, none⟩ gather ⟨[], limit⟩) :
    ofProgress Catch.found progress = ⟨rows.take limit, none⟩ := by
  have hfeed : ∀ (rows found : List Bindings) (wanted : Nat), wanted ≠ 0 →
      ∃ acc, acc.found = (rows.take wanted).reverse ++ found ∧
        (feed gather none rows ⟨found, wanted⟩ = .done acc ∨
          feed gather none rows ⟨found, wanted⟩ = .halted acc) := by
    intro rows
    induction rows with
    | nil => exact fun found wanted _ => ⟨⟨found, wanted⟩, by simp, Or.inl rfl⟩
    | cons row rows ih =>
        intro found wanted hwanted
        rw [feed, gather]
        by_cases hmore : 1 < wanted
        · obtain ⟨acc, hacc, hfed⟩ := ih (row :: found) (wanted - 1) (by omega)
          refine ⟨acc, ?_, by simpa [hmore] using hfed⟩
          obtain ⟨k, rfl⟩ : ∃ k, wanted = k + 1 := ⟨wanted - 1, by omega⟩
          simp [hacc]
        · obtain rfl : wanted = 1 := by omega
          exact ⟨⟨row :: found, 0⟩, by simp, Or.inr rfl⟩
  obtain ⟨acc, hacc, hfed⟩ := hfeed rows [] limit hlimit
  rw [shownTo] at h
  rcases hfed with hfed | hfed
  · rw [hfed] at h
    cases progress with
    | exhausted acc' row =>
        cases h
        simp [ofProgress, hacc]
    | halted acc' row marks => cases h
    | failed acc' fault => cases h
  · rw [hfed] at h
    cases progress with
    | exhausted acc' row => cases h
    | halted acc' row marks =>
        cases h
        simp [ofProgress, hacc]
    | failed acc' fault => cases h

end Matches

end PatternGraph
