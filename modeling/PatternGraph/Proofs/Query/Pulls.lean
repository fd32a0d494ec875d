import PatternGraph.Proofs.Query.Streams

/-!
# Taking matches one by one

Between two pulls the matches of a plan are found by a search that has stopped at a match and is resumed
there, in one array of bindings that are set, overwritten and cleared as it goes on.  Read plainly, the
plan is nested loops: over its components, in a component over its steps, and in a step over the items
that it finds.  As long as no slot is bound by two steps, and the graph does not change, the matches
that are taken are those of the loops, in the same order, and the fault that the loops meet first comes
after them, once.
-/

namespace PatternGraph

/-- What the steps of a component find from some bindings on, each time followed by what is `below`. -/
def Step.loops (s : Slots) (index : Index) (below : Bindings → Matches) :
    List Step → Bindings → Matches
  | [], row => below row
  | step :: steps, row =>
    match step.expand s index row with
    | .error fault => ⟨[], some fault⟩
    | .ok (.check true) => loops s index below steps row
    | .ok (.check false) => ⟨[], none⟩
    | .ok (.bind slot candidates) =>
      Matches.inTurn
        (fun item => loops s index below steps (row.setIfInBounds slot (some item))) candidates

/-- What components find from some bindings on; a component without steps finds nothing. -/
def Component.loops (s : Slots) (index : Index) : List Component → Bindings → Matches
  | [], row => ⟨[row], none⟩
  | c :: components, row =>
    if c.steps.isEmpty then ⟨[], none⟩
    else Step.loops s index (loops s index components) c.steps row

/-- The matches of a plan, read as nested loops; a plan without components has none. -/
def Plan.loops (plan : Plan) (s : Slots) (index : Index) : Matches :=
  if plan.isEmpty then ⟨[], none⟩
  else Component.loops s index plan.components (Search.noBindings s)

/-- What comes out of taking matches one by one: the matches, and then the fault. -/
def Matches.outcomes (m : Matches) : List (Except Fault (Option Bindings)) :=
  m.found.map (fun row => .ok (some row)) ++ m.fault.toList.map .error

/-- What comes out first, and what comes out after that, when there is nothing more in the end. -/
theorem Matches.take_outcomes_succ (outcomes : List (Except Fault (Option Bindings))) (n : Nat) :
    (outcomes ++ List.replicate (n + 1) (Except.ok none)).take (n + 1) =
      outcomes.headD (.ok none) :: (outcomes.tail ++ List.replicate n (Except.ok none)).take n := by
  cases outcomes with
  | nil => simp [List.replicate_succ]
  | cons outcome outcomes =>
      have htake : ((outcomes ++ List.replicate n (Except.ok none)) ++ [Except.ok none]).take n =
          (outcomes ++ List.replicate n (Except.ok none)).take n :=
        List.take_append_of_le_length (by simp)
      rw [List.cons_append, List.take_succ_cons, List.replicate_succ', ← List.append_assoc, htake]
      rfl

namespace Search

variable {s : Slots} {index : Index} {moves : List Move} {marks : List Mark} {row leaf : Bindings}
  {m : Matches}

theorem loops_steps (steps : List Step) (moves : List Move) (row : Bindings) :
    loops s index (steps.map .step ++ moves) row =
      Step.loops s index (loops s index moves) steps row := by
  induction steps generalizing row with
  | nil => rfl
  | cons step steps ih =>
      rw [List.map_cons, List.cons_append, loops, Step.loops]
      cases step.expand s index row with
      | error fault => rfl
      | ok expansion =>
          cases expansion with
          | check passes =>
              cases passes with
              | true => exact ih row
              | false => rfl
          | bind slot candidates => exact congrArg (Matches.inTurn · candidates) (funext fun _ => ih _)

theorem loops_flatMap_moves (components : List Component) (row : Bindings) :
    loops s index (components.flatMap Component.moves) row =
      Component.loops s index components row := by
  induction components generalizing row with
  | nil => rfl
  | cons c components ih =>
      rw [List.flatMap_cons, Component.moves, List.cons_append, loops, Component.loops]
      split
      · rfl
      · rw [loops_steps, funext ih]

theorem loops_plan (plan : Plan) : loops s index plan.moves (noBindings s) = plan.loops s index := by
  rw [Plan.moves, Plan.loops]
  split
  · rfl
  · exact loops_flatMap_moves plan.components (noBindings s)

/--
Whether a search through some moves, from the bindings `row`, may have stopped at the match `leaf` with
these marks open and the matches `later` still to come.
-/
inductive Stops (s : Slots) (index : Index) :
    List Move → Bindings → List Mark → Bindings → Matches → Prop
  | leaf {row : Bindings} : Stops s index [] row [] row ⟨[], none⟩
  | enter {moves : List Move} {row leaf : Bindings} {marks : List Mark} {later : Matches}
      (below : Stops s index moves row marks leaf later) :
      Stops s index (.enter :: moves) row (.boundary row :: marks) leaf later
  | check {step : Step} {moves : List Move} {row leaf : Bindings} {marks : List Mark}
      {later : Matches}
      (below : Stops s index moves row marks leaf later) :
      Stops s index (.step step :: moves) row marks leaf later
  | choice {step : Step} {moves : List Move} {row leaf : Bindings} {marks : List Mark}
      {later : Matches} {x : Nat} {candidates rest : List Item} {item : Item}
      (hbinds : step.binds = some x)
      (below : Stops s index moves (row.setIfInBounds x (some item)) marks leaf later) :
      Stops s index (.step step :: moves) row (.choice x candidates rest moves :: marks) leaf
        (later.followedBy
          (Matches.inTurn (fun item => loops s index moves (row.setIfInBounds x (some item))) rest))

end Search

namespace Progress

variable {s : Slots} {index : Index} {moves : List Move} {row : Bindings} {m : Matches}
  {progress : Progress Unit}

/-- Whether a search that stops at every match has come to the first of some matches. -/
def Takes (s : Slots) (index : Index) (moves : List Move) (row : Bindings) (m : Matches) :
    Progress Unit → Prop
  | .halted _ leaf marks =>
    ∃ later, m = ⟨leaf :: later.found, later.fault⟩ ∧
      Search.Stops s index moves row marks leaf later
  | .failed _ fault => m = ⟨[], some fault⟩
  | .exhausted _ row' => m = ⟨[], none⟩ ∧ row' = row

theorem Takes.restoring (h : progress.Takes s index moves row m) :
    (progress.restoring row).Takes s index (.enter :: moves) row m := by
  cases progress with
  | halted acc leaf marks =>
      obtain ⟨later, hm, hstops⟩ := h
      exact ⟨later, hm, .enter hstops⟩
  | failed acc fault => exact h
  | exhausted acc row' => exact ⟨h.1, rfl⟩

/-- Below a choice a search comes to a match or a fault before the candidates that are left are tried. -/
theorem Takes.choice
    {step : Step}
    {x : Nat}
    {item : Item}
    (candidates rest : List Item)
    (hbinds : step.binds = some x)
    (hstopped : ∀ acc row', progress ≠ .exhausted acc row')
    (h : progress.Takes s index moves (row.setIfInBounds x (some item)) m) :
    (progress.within (.choice x candidates rest moves)).Takes s index (.step step :: moves) row
      (m.followedBy (Matches.inTurn
        (fun item => Search.loops s index moves (row.setIfInBounds x (some item))) rest)) := by
  cases progress with
  | halted acc leaf marks =>
      obtain ⟨later, rfl, hstops⟩ := h
      refine ⟨_, ?_, .choice hbinds hstops⟩
      obtain ⟨found, fault⟩ := later
      cases fault <;> rfl
  | failed acc fault =>
      obtain rfl := h
      rfl
  | exhausted acc row' => exact absurd rfl (hstopped acc row')

theorem Takes.check {step : Step} (h : progress.Takes s index moves row m) :
    progress.Takes s index (.step step :: moves) row m := by
  cases progress with
  | halted acc leaf marks =>
      obtain ⟨later, hm, hstops⟩ := h
      exact ⟨later, hm, .check hstops⟩
  | failed acc fault => exact h
  | exhausted acc row' => exact h

end Progress

@[simp]
theorem Matches.nil_followedBy (m : Matches) : Matches.followedBy ⟨[], none⟩ m = m := rfl

namespace Search

variable {s : Slots} {index : Index} {moves : List Move} {marks : List Mark} {row leaf : Bindings}

/-- Trying the candidates of a slot comes to the first match below one of them. -/
theorem tryEach_takes
    {step : Step}
    {x : Nat}
    {below : Unit → Bindings → Progress Unit}
    (candidates rest : List Item)
    (current : Bindings)
    (hbinds : step.binds = some x)
    (hfree : ∀ item, row[x]? ≠ some (some item))
    (hcurrent : ∀ value, current.setIfInBounds x value = row.setIfInBounds x value)
    (hbelow : ∀ item, (below () (row.setIfInBounds x (some item))).Takes s index moves
      (row.setIfInBounds x (some item))
      (loops s index moves (row.setIfInBounds x (some item)))) :
    (tryEach below x candidates moves rest () current).Takes s index (.step step :: moves) row
      (Matches.inTurn (fun item => loops s index moves (row.setIfInBounds x (some item))) rest) := by
  induction rest generalizing current with
  | nil =>
      refine ⟨rfl, ?_⟩
      rw [hcurrent]
      exact setIfInBounds_none hfree
  | cons item rest ih =>
      rw [tryEach, hcurrent, Matches.inTurn]
      have hprogress := hbelow item
      generalize below () (row.setIfInBounds x (some item)) = progress at hprogress ⊢
      cases progress with
      | exhausted acc row' =>
          obtain ⟨hnone, rfl⟩ := hprogress
          rw [hnone, Matches.nil_followedBy]
          exact ih _ fun value => by simp
      | halted acc leaf marks => exact hprogress.choice candidates rest hbinds (by simp)
      | failed acc fault => exact hprogress.choice candidates rest hbinds (by simp)

/-- A search that stops at every match comes to the first match of the loops. -/
theorem descend_takes (moves : List Move) (row : Bindings) (hfresh : Fresh moves row) :
    (descend s index (fun _ _ => .halt ()) moves () row).Takes s index moves row
      (loops s index moves row) := by
  induction moves generalizing row with
  | nil => exact ⟨⟨[], none⟩, rfl, .leaf⟩
  | cons move moves ih =>
      cases move with
      | enter => exact (ih row hfresh.tail).restoring
      | stop => exact ⟨rfl, rfl⟩
      | step step =>
          rw [descend, loops]
          cases hexpand : step.expand s index row with
          | error fault => rfl
          | ok expansion =>
              cases expansion with
              | check holds =>
                  cases holds with
                  | true => exact (ih row hfresh.tail).check
                  | false => exact ⟨rfl, rfl⟩
              | bind x candidates =>
                  have hbinds := binds_of_expand_eq_bind hexpand
                  have hfree : ∀ item, row[x]? ≠ some (some item) :=
                    hfresh.free x (by simp [Move.binds, hbinds])
                  exact tryEach_takes candidates candidates row hbinds hfree (fun _ => rfl)
                    fun item => ih _ (hfresh.bind hbinds item)

/-- A search that is resumed comes to the first of the matches that were still to come. -/
theorem resume_takes
    {later : Matches}
    (hstops : Stops s index moves row marks leaf later)
    (hfresh : Fresh moves row) :
    (resume s index (fun _ _ => .halt ()) marks () leaf).Takes s index moves row later := by
  induction hstops with
  | leaf => exact ⟨rfl, rfl⟩
  | enter below ih => exact (ih hfresh.tail).restoring
  | check below ih => exact (ih hfresh.tail).check
  | @choice step moves row leaf marks later x candidates rest item hbinds below ih =>
      have hfree : ∀ item, row[x]? ≠ some (some item) :=
        hfresh.free x (by simp [Move.binds, hbinds])
      rw [resume]
      have hprogress := ih (hfresh.bind hbinds item)
      generalize resume s index (fun _ _ => .halt ()) marks () leaf = progress at hprogress ⊢
      cases progress with
      | exhausted acc row' =>
          obtain ⟨rfl, rfl⟩ := hprogress
          rw [Matches.nil_followedBy]
          exact tryEach_takes candidates rest _ hbinds hfree (fun value => by simp)
            fun item => descend_takes moves _ (hfresh.bind hbinds item)
      | halted acc leaf marks => exact hprogress.choice candidates rest hbinds (by simp)
      | failed acc fault => exact hprogress.choice candidates rest hbinds (by simp)

end Search

/-- Whether certain matches are still to come from a stream on an index. -/
def StreamState.Leaves (c : CompiledQuery) (index : Index) (m : Matches) : StreamState → Prop
  | .fresh => m = c.plan.loops c.slots index
  | .paused leaf marks =>
    Search.Stops c.slots index c.plan.moves (Search.noBindings c.slots) marks leaf m
  | .finished => m = ⟨[], none⟩

/--
Whether a search that stops at every match has come to the first of the matches that are still to come
from a stream of a query.
-/
def Progress.ComesTo (c : CompiledQuery) (index : Index) (m : Matches) : Progress Unit → Prop
  | .halted _ leaf marks =>
    ∃ later, m = ⟨leaf :: later.found, later.fault⟩ ∧
      StreamState.Leaves c index later (.paused leaf marks)
  | .failed _ fault => m = ⟨[], some fault⟩
  | .exhausted _ _ => m = ⟨[], none⟩

theorem Progress.Takes.comesTo {c : CompiledQuery} {index : Index} {m : Matches}
    {progress : Progress Unit}
    (h : progress.Takes c.slots index c.plan.moves (Search.noBindings c.slots) m) :
    progress.ComesTo c index m := by
  cases progress with
  | halted acc leaf marks => exact h
  | failed acc fault => exact h
  | exhausted acc row' => exact h.1

/-- A search that goes on from a stream comes to the first match that is still to come. -/
theorem StreamState.Leaves.proceed {c : CompiledQuery} {index : Index} {m : Matches}
    {state : StreamState} (h : state.Leaves c index m)
    (hfresh : Search.Fresh c.plan.moves (Search.noBindings c.slots)) :
    (c.proceed index (fun _ _ => .halt ()) () state).ComesTo c index m := by
  cases state with
  | fresh =>
      obtain rfl := h
      rw [← Search.loops_plan]
      exact (Search.descend_takes _ _ hfresh).comesTo
  | paused leaf marks => exact (Search.resume_takes h hfresh).comesTo
  | finished => exact h

namespace MatchStream

variable {stream : MatchStream} {index : Index} {m : Matches}

/-- Taking a match gives the first one that is still to come, or the fault, or nothing. -/
theorem next_of_leaves
    (hfresh : Search.Fresh stream.query.plan.moves (Search.noBindings stream.query.slots))
    (hleaves : stream.state.Leaves stream.query index m) :
    ∃ state later, StreamState.Leaves stream.query index later state ∧
      (stream.next index).2 = { stream with state } ∧
        (stream.next index).1 = m.outcomes.headD (.ok none) ∧ later.outcomes = m.outcomes.tail := by
  have hcomes := hleaves.proceed hfresh
  rw [next]
  generalize stream.query.proceed index (fun _ _ => .halt ()) () stream.state = progress at hcomes ⊢
  cases progress with
  | halted acc leaf marks =>
      obtain ⟨later, rfl, hlater⟩ := hcomes
      exact ⟨.paused leaf marks, later, hlater, rfl, rfl, rfl⟩
  | failed acc fault =>
      obtain rfl := hcomes
      exact ⟨.finished, ⟨[], none⟩, rfl, rfl, rfl, rfl⟩
  | exhausted acc row' =>
      obtain rfl := hcomes
      exact ⟨.finished, ⟨[], none⟩, rfl, rfl, rfl, rfl⟩

/-- Taking matches again and again gives those that are still to come, then the fault, then nothing. -/
theorem pulls_of_leaves
    (stream : MatchStream)
    (hfresh : Search.Fresh stream.query.plan.moves (Search.noBindings stream.query.slots))
    (hleaves : stream.state.Leaves stream.query index m)
    (n : Nat) :
    stream.pulls (List.replicate n index) = (m.outcomes ++ List.replicate n (Except.ok none)).take n := by
  induction n generalizing stream m with
  | zero => rfl
  | succ n ih =>
      obtain ⟨state, later, hlater, hstream, hfirst, hrest⟩ := next_of_leaves hfresh hleaves
      rw [List.replicate_succ, pulls, hstream, ih { stream with state } hfresh hlater, hfirst, hrest,
        Matches.take_outcomes_succ]

/--
On an index that does not change, taking matches one by one gives the matches of the plan as nested loops
in the same order, then the fault that the loops meet, if any, and then nothing for ever.
-/
theorem pulls_ofQuery
    (c : CompiledQuery)
    (index : Index)
    (honce : (c.plan.steps.filterMap Step.binds).Nodup)
    (n : Nat) :
    (ofQuery c).pulls (List.replicate n index) =
      ((c.plan.loops c.slots index).outcomes ++ List.replicate n (Except.ok none)).take n :=
  (ofQuery c).pulls_of_leaves (c.plan.fresh_moves c.slots honce) rfl n

end MatchStream

/-- A search that is not interrupted finds the matches of the plan as nested loops. -/
theorem Matches.all_eq_loops
    (s : Slots)
    (plan : Plan)
    (index : Index)
    (honce : (plan.steps.filterMap Step.binds).Nodup) :
    Matches.all s plan index = plan.loops s index := by
  rw [Matches.all, Search.start, ← Search.loops_plan]
  exact Matches.ofProgress_gather (Search.descend_spec _ _ _ _ (plan.fresh_moves s honce)).1

end PatternGraph
