import PatternGraph.Proofs.Query.Pulls
import PatternGraph.Proofs.Query.Turns

/-!
# Two stacks find what the nested loops find

A frame that has been put on the stack is taken off again, unless a fault comes before, with the bindings
that there were before it; in between the matches below all its candidates are found.  By induction
on the steps below a frame, and on the components after a search, the machine finds the matches of the
nested loops one by one, each in finitely many turns.
-/

namespace PatternGraph

namespace Matches

theorem followedBy_nil (m : Matches) : m.followedBy ⟨[], none⟩ = m := by
  obtain ⟨found, fault⟩ := m
  cases fault with
  | none => simp [followedBy]
  | some fault => rfl

theorem inTurn_map {α β : Type} (f : α → β) (below : β → Matches) (list : List α) :
    inTurn below (list.map f) = inTurn (fun a => below (f a)) list := by
  induction list with
  | nil => rfl
  | cons a list ih => rw [List.map_cons, inTurn, inTurn, ih]

end Matches

namespace Expansion

variable {s : Slots} {index : Index} {step : Step} {row : Bindings} {found : Expansion}

/-- A step that checks something binds no slot. -/
theorem binds_of_expand_eq_check
    {holds : Bool}
    (h : step.expand s index row = .ok (.check holds)) :
    step.binds = none := by
  have hslot : ∀ {x : Nat} {next : Slot → Except Fault Expansion},
      (s.slotAt x >>= next) = .ok (.check holds) → ∃ found, next found = .ok (.check holds) := by
    intro x next hnext
    cases hx : s.slotAt x with
    | error fault =>
        rw [hx] at hnext
        cases hnext
    | ok found =>
        rw [hx] at hnext
        exact ⟨found, hnext⟩
  cases step with
  | check c => rfl
  | checkPair edge a b => rfl
  | scanNodes x type =>
      obtain ⟨found, hfound⟩ := hslot h
      cases hfound
  | scanEdges x type =>
      obtain ⟨found, hfound⟩ := hslot h
      cases hfound
  | traverse origin x c =>
      obtain ⟨found, hfound⟩ := hslot h
      split at hfound
      · cases hnode : s.boundNode row origin with
        | error fault =>
            rw [hnode] at hfound
            cases hfound
        | ok node =>
            rw [hnode] at hfound
            cases hfound
      · cases hedge : s.boundEdge row origin with
        | error fault =>
            rw [hedge] at hfound
            cases hfound
        | ok edge =>
            rw [hedge] at hfound
            cases hfound

/-- Only a step that binds no slot has a candidate without an item. -/
theorem binds_of_none_mem
    (h : step.expand s index row = .ok found)
    (hnone : none ∈ found.candidates) :
    step.binds = none := by
  cases found with
  | bind slot candidates =>
      obtain ⟨item, -, hitem⟩ := List.mem_map.mp hnone
      cases hitem
  | check holds => exact binds_of_expand_eq_check h

end Expansion

namespace Step

variable {s : Slots} {index : Index} {step : Step} {row row' : Bindings}

/-- The loops of a step try its candidates in turn. -/
theorem loops_cons (below : Bindings → Matches) (step : Step) (steps : List Step) (row : Bindings) :
    loops s index below (step :: steps) row =
      match step.expand s index row with
      | .error fault => ⟨[], some fault⟩
      | .ok found =>
        Matches.inTurn (fun candidate => loops s index below steps (step.put row candidate))
          found.candidates := by
  rw [loops]
  cases hexpand : step.expand s index row with
  | error fault => rfl
  | ok found =>
      cases found with
      | check holds =>
          have hput : step.put row none = row := by rw [put, Expansion.binds_of_expand_eq_check hexpand]
          cases holds with
          | true =>
              dsimp only [Expansion.candidates]
              rw [Matches.inTurn, Matches.inTurn, hput, Matches.followedBy_nil]
          | false => rfl
      | bind slot candidates =>
          have hput : ∀ item, step.put row (some item) = row.setIfInBounds slot (some item) := by
            intro item
            rw [put, Search.binds_of_expand_eq_bind hexpand]
          dsimp only [Expansion.candidates]
          rw [Matches.inTurn_map]
          simp only [hput]

theorem clear_put (step : Step) (row : Bindings) (candidate : Option Item) :
    step.clear (step.put row candidate) = step.clear row := by
  rw [clear, clear, put]
  cases step.binds with
  | none => rfl
  | some slot =>
      cases candidate with
      | none => rfl
      | some item => simp

theorem put_congr
    {candidate : Option Item}
    (h : step.clear row = step.clear row')
    (hsuits : candidate = none → step.binds = none) :
    step.put row candidate = step.put row' candidate := by
  rw [clear, clear] at h
  rw [put, put]
  cases hbinds : step.binds with
  | none =>
      rw [hbinds] at h
      exact h
  | some slot =>
      rw [hbinds] at h hsuits
      cases candidate with
      | none => cases hsuits rfl
      | some item =>
          have hset := congrArg (Array.setIfInBounds · slot (some item)) h
          simpa using hset

end Step

theorem Search.Fresh.put
    {step : Step}
    {moves : List Move}
    {row : Bindings}
    (h : Search.Fresh (.step step :: moves) row)
    (candidate : Option Item) :
    Search.Fresh moves (step.put row candidate) := by
  rw [Step.put]
  cases hbinds : step.binds with
  | none => exact h.tail
  | some slot =>
      cases candidate with
      | none => exact h.tail
      | some item => exact h.bind hbinds item

theorem Search.Fresh.clear_eq
    {step : Step}
    {moves : List Move}
    {row : Bindings}
    (h : Search.Fresh (.step step :: moves) row) :
    step.clear row = row := by
  rw [Step.clear]
  cases hbinds : step.binds with
  | none => rfl
  | some slot =>
      refine setIfInBounds_none (h.free slot ?_)
      rw [List.filterMap_cons_some (by exact hbinds)]
      exact List.mem_cons_self

namespace Stacks

variable {s : Slots} {index : Index} {m m' m'' : Stacks}
  {outcomes more : List (Except Fault (Option Bindings))} {later : List Component}
  {around : List ComponentSearch}

/-- Whether turns lead from some stacks to others, and give the listed outcomes on the way. -/
inductive Runs (index : Index) : Stacks → List (Except Fault (Option Bindings)) → Stacks → Prop
  | refl (m : Stacks) : Runs index m [] m
  | going {m m' m'' : Stacks} {outcomes : List (Except Fault (Option Bindings))}
      (h : m.turn index = .going m') (hrest : Runs index m' outcomes m'') : Runs index m outcomes m''
  | gives {m m' m'' : Stacks} {outcome : Except Fault (Option Bindings)}
      {outcomes : List (Except Fault (Option Bindings))}
      (h : m.turn index = .gives outcome m') (hrest : Runs index m' outcomes m'') :
      Runs index m (outcome :: outcomes) m''

theorem Runs.append (h : Runs index m outcomes m') (h' : Runs index m' more m'') :
    Runs index m (outcomes ++ more) m'' := by
  induction h with
  | refl => exact h'
  | going hturn hrest ih => exact .going hturn (ih h')
  | gives hturn hrest ih => exact .gives hturn (ih h')

/-- Whether turns give some matches, and then lead to other stacks, unless there is a fault. -/
def Sweeps (s : Slots) (index : Index) (m : Stacks) (found : Matches) (m' : Stacks) : Prop :=
  Runs index m found.outcomes (if found.fault.isSome then stopped s else m')

namespace Sweeps

variable {found first second : Matches}

theorem nothing (s : Slots) (index : Index) (m : Stacks) : Sweeps s index m ⟨[], none⟩ m :=
  .refl m

theorem going (hturn : m.turn index = .going m') (h : Sweeps s index m' found m'') :
    Sweeps s index m found m'' :=
  Runs.going hturn h

theorem fails {fault : Fault} (hturn : m.turn index = .gives (.error fault) (stopped s)) :
    Sweeps s index m ⟨[], some fault⟩ m' :=
  Runs.gives hturn (.refl _)

/-- After a fault nothing more is found. -/
theorem followedBy (h : Sweeps s index m first m') (h' : Sweeps s index m' second m'') :
    Sweeps s index m (first.followedBy second) m'' := by
  obtain ⟨rows, fault⟩ := first
  cases fault with
  | some fault => exact h
  | none =>
      have hrows : (⟨rows, none⟩ : Matches).outcomes ++ second.outcomes =
          (⟨rows ++ second.found, second.fault⟩ : Matches).outcomes := by
        simp [Matches.outcomes]
      have hall := Runs.append h h'
      rwa [hrows] at hall

end Sweeps

/--
Whether a search that has found a match of its component has the components after it searched, and is then
the innermost one again.
-/
def Descends (s : Slots) (index : Index) (later : List Component) : Prop :=
  ∀ (around : List ComponentSearch) (search : ComponentSearch) (m : Stacks), search.later = later →
    Search.Fresh (later.flatMap Component.moves) search.bindings →
    m.turn index = settle s around (.found search) →
      Sweeps s index m (Component.loops s index later search.bindings) ⟨s, search :: around, false⟩

theorem turn_innermost (search : ComponentSearch) :
    turn index ⟨s, search :: around, false⟩ = settle s around (search.turn s index) := rfl

/-- A frame whose candidates have all been tried is left, and its slot is cleared. -/
theorem leaves_frame
    {step : Step}
    {row bindings : Bindings}
    {moves : List Move}
    (steps below : List Step)
    (frames : List Frame)
    (hfresh : Search.Fresh (.step step :: moves) row)
    (hbindings : step.clear bindings = step.clear row) :
    Sweeps s index ⟨s, ⟨steps, later, bindings, ⟨step, below, []⟩ :: frames, true⟩ :: around, false⟩
      ⟨[], none⟩ ⟨s, ⟨steps, later, row, frames, true⟩ :: around, false⟩ := by
  refine .going ?_ (.nothing s index _)
  rw [turn_innermost, ComponentSearch.turn, ← hfresh.clear_eq, ← hbindings]
  rfl

/-- A step that is entered has its candidates put on the stack, or fails. -/
theorem expands
    {search : ComponentSearch}
    {step : Step}
    {below : List Step}
    (leaf : Bindings → Matches)
    (hturn : m.turn index = settle s around (search.expand s index step below))
    (hfound : ∀ found, step.expand s index search.bindings = .ok found →
      Sweeps s index
        ⟨s, { search with frames := ⟨step, below, found.candidates⟩ :: search.frames } :: around, false⟩
        (Matches.inTurn (fun candidate =>
          Step.loops s index leaf below (step.put search.bindings candidate)) found.candidates) m') :
    Sweeps s index m (Step.loops s index leaf (step :: below) search.bindings) m' := by
  rw [ComponentSearch.expand] at hturn
  rw [Step.loops_cons]
  cases hexpand : step.expand s index search.bindings with
  | error fault =>
      rw [hexpand] at hturn
      exact .fails hturn
  | ok found =>
      rw [hexpand] at hturn
      exact .going hturn (hfound found hexpand)

/--
A frame is left with the bindings from before it, after what is found below each of the candidates that
have not been tried yet.
-/
theorem sweeps_untried
    {step : Step}
    {row : Bindings}
    {moves : List Move}
    {found : Bindings → Matches}
    {steps below : List Step}
    {frames : List Frame}
    (hfresh : Search.Fresh (.step step :: moves) row)
    (hbelow : ∀ (bindings : Bindings) (candidate : Option Item) (untried : List (Option Item)),
      step.put bindings candidate = step.put row candidate →
        Sweeps s index
          ⟨s, ⟨steps, later, bindings, ⟨step, below, candidate :: untried⟩ :: frames, true⟩ :: around,
            false⟩
          (found (step.put row candidate))
          ⟨s, ⟨steps, later, step.put row candidate, ⟨step, below, untried⟩ :: frames, true⟩ :: around,
            false⟩)
    (bindings : Bindings)
    (untried : List (Option Item))
    (hsuits : none ∈ untried → step.binds = none)
    (hbindings : step.clear bindings = step.clear row) :
    Sweeps s index
      ⟨s, ⟨steps, later, bindings, ⟨step, below, untried⟩ :: frames, true⟩ :: around, false⟩
      (Matches.inTurn (fun candidate => found (step.put row candidate)) untried)
      ⟨s, ⟨steps, later, row, frames, true⟩ :: around, false⟩ := by
  induction untried generalizing bindings with
  | nil => exact leaves_frame steps below frames hfresh hbindings
  | cons candidate untried ih =>
      have hput := Step.put_congr hbindings fun hnone => hsuits (hnone ▸ List.mem_cons_self)
      exact (hbelow bindings candidate untried hput).followedBy
        (ih (step.put row candidate) (fun hmem => hsuits (List.mem_cons_of_mem _ hmem))
          (step.clear_put row candidate))

/--
A frame is left after the matches below all its candidates.  The induction is on the steps below the
frame: the innermost frame gives its matches to the components after it, and any other has the next step
put a frame on top of it.
-/
theorem sweeps_frame
    (hlater : Descends s index later)
    (steps : List Step)
    (below : List Step)
    (step : Step)
    (row bindings : Bindings)
    (untried : List (Option Item))
    (frames : List Frame)
    (hfresh : Search.Fresh (.step step :: (below.map .step ++ later.flatMap Component.moves)) row)
    (hsuits : none ∈ untried → step.binds = none)
    (hbindings : step.clear bindings = step.clear row) :
    Sweeps s index
      ⟨s, ⟨steps, later, bindings, ⟨step, below, untried⟩ :: frames, true⟩ :: around, false⟩
      (Matches.inTurn (fun candidate =>
        Step.loops s index (Component.loops s index later) below (step.put row candidate)) untried)
      ⟨s, ⟨steps, later, row, frames, true⟩ :: around, false⟩ := by
  induction below generalizing step row bindings untried frames with
  | nil =>
      refine sweeps_untried hfresh (fun bindings candidate untried hput => ?_) bindings untried hsuits
        hbindings
      refine hlater around ⟨steps, later, step.put row candidate, ⟨step, [], untried⟩ :: frames, true⟩
        _ rfl (hfresh.put candidate) ?_
      rw [turn_innermost, ComponentSearch.turn, ← hput]
      rfl
  | cons next below ih =>
      refine sweeps_untried hfresh (fun bindings candidate untried hput => ?_) bindings untried hsuits
        hbindings
      have hturn : turn index ⟨s, ⟨steps, later, bindings,
            ⟨step, next :: below, candidate :: untried⟩ :: frames, true⟩ :: around, false⟩ =
          settle s around (ComponentSearch.expand s index ⟨steps, later, step.put row candidate,
            ⟨step, next :: below, untried⟩ :: frames, true⟩ next below) := by
        rw [turn_innermost, ComponentSearch.turn, ← hput]
        rfl
      have hsweeps := expands (Component.loops s index later) hturn fun found hfound =>
        ih next (step.put row candidate) (step.put row candidate) found.candidates
          (⟨step, next :: below, untried⟩ :: frames) (hfresh.put candidate)
          (Expansion.binds_of_none_mem hfound) rfl
      exact hsweeps

/-- A search through a component is taken off its stack after everything from the component on is found. -/
theorem sweeps_component
    (hlater : Descends s index later)
    (c : Component)
    (row : Bindings)
    (hfresh : Search.Fresh ((c :: later).flatMap Component.moves) row) :
    Sweeps s index ⟨s, .enter c later row :: around, false⟩
      (Component.loops s index (c :: later) row) ⟨s, around, false⟩ := by
  obtain ⟨slots, steps⟩ := c
  cases steps with
  | nil =>
      have hturn : turn index ⟨s, .enter ⟨slots, []⟩ later row :: around, false⟩ =
          .going ⟨s, around, false⟩ := rfl
      exact .going hturn (.nothing s index _)
  | cons step below =>
      have hturn : turn index ⟨s, .enter ⟨slots, step :: below⟩ later row :: around, false⟩ =
          settle s around (ComponentSearch.expand s index ⟨step :: below, later, row, [], true⟩ step
            below) := rfl
      have hleft : turn index ⟨s, ⟨step :: below, later, row, [], true⟩ :: around, false⟩ =
          .going ⟨s, around, false⟩ := rfl
      have hsweeps := expands (Component.loops s index later) hturn fun found hfound =>
        sweeps_frame hlater (step :: below) below step row row found.candidates [] hfresh.tail
          (Expansion.binds_of_none_mem hfound) rfl
      have hall := hsweeps.followedBy (.going hleft (.nothing s index _))
      rwa [Matches.followedBy_nil] at hall

/-- The components after a search are searched when it has found a match. -/
theorem descends (s : Slots) (index : Index) (later : List Component) : Descends s index later := by
  induction later with
  | nil =>
      intro around search m hlater hfresh hturn
      rw [settle, hlater] at hturn
      exact Runs.gives hturn (.refl _)
  | cons c later ih =>
      intro around search m hlater hfresh hturn
      rw [settle, hlater] at hturn
      exact .going hturn (sweeps_component ih c search.bindings hfresh)

/-- From the start the matches of the plan are found, and then nothing is left. -/
theorem runs_start
    (plan : Plan)
    (s : Slots)
    (index : Index)
    (honce : (plan.steps.filterMap Step.binds).Nodup) :
    ∃ done, Runs index (start plan s) (plan.loops s index).outcomes ⟨s, [], done⟩ := by
  have hfresh := plan.fresh_moves s honce
  rw [Plan.moves, Plan.isEmpty] at hfresh
  rw [start, Plan.loops, Plan.isEmpty]
  cases hcomponents : plan.components with
  | nil => exact ⟨true, .refl _⟩
  | cons c later =>
      rw [hcomponents] at hfresh
      have hsweeps : Sweeps s index ⟨s, [.enter c later (Search.noBindings s)], false⟩
          (Component.loops s index (c :: later) (Search.noBindings s)) ⟨s, [], false⟩ :=
        sweeps_component (descends s index later) c (Search.noBindings s) hfresh
      rw [Sweeps] at hsweeps
      split at hsweeps
      · exact ⟨true, hsweeps⟩
      · exact ⟨false, hsweeps⟩

theorem turn_of_empty (s : Slots) (index : Index) (done : Bool) :
    turn index ⟨s, [], done⟩ = .gives (.ok none) ⟨s, [], true⟩ := by
  cases done with
  | true => rfl
  | false => rfl

/-- Turns lead to the first outcome of a run, and the rest of the run is still to come. -/
theorem Runs.yields
    {done : Bool}
    (h : Runs index m outcomes m')
    (hend : m' = ⟨s, [], done⟩) :
    ∃ next done', Runs index next outcomes.tail ⟨s, [], done'⟩ ∧
      Yields index m (outcomes.headD (.ok none)) next := by
  induction h with
  | refl m =>
      obtain rfl := hend
      exact ⟨⟨s, [], true⟩, true, .refl _, .gives (turn_of_empty s index done)⟩
  | going hturn hrest ih =>
      obtain ⟨next, done', hnext, hyields⟩ := ih hend
      exact ⟨next, done', hnext, .going hturn hyields⟩
  | gives hturn hrest ih => exact ⟨_, done, hend ▸ hrest, .gives hturn⟩

/-- Taking matches again and again gives the outcomes of a run, and then nothing. -/
theorem Runs.pulls
    {done : Bool}
    (h : Runs index m outcomes ⟨s, [], done⟩)
    (n : Nat) :
    ∃ bound, ∀ fuel, bound ≤ fuel →
      m.pulls index fuel n = some ((outcomes ++ List.replicate n (Except.ok none)).take n) := by
  induction n generalizing m outcomes done with
  | zero => exact ⟨0, fun fuel _ => rfl⟩
  | succ n ih =>
      obtain ⟨next, done', hnext, hyields⟩ := h.yields rfl
      obtain ⟨first, hpull⟩ := hyields.pull
      obtain ⟨rest, hrest⟩ := ih hnext
      refine ⟨max first rest, fun fuel hfuel => ?_⟩
      rw [Stacks.pulls, hpull fuel (le_of_max_le_left hfuel),
        Matches.take_outcomes_succ]
      dsimp only [Option.bind_eq_bind, Option.bind_some]
      rw [hrest fuel (le_of_max_le_right hfuel)]
      rfl

/--
On an index that does not change, taking matches one by one gives the matches of the plan as nested loops
in the same order, then the fault that the loops meet, if any, and then nothing for ever: from two stacks,
where finitely many turns are enough for each match, and from a search that is resumed at the choices it
has left open.  A search that is not interrupted finds the same.  That holds of every plan that binds
no slot twice, whatever else is wrong with it, and of all slots.
-/
theorem taken_eq_loops
    (c : CompiledQuery)
    (index : Index)
    (honce : (c.plan.steps.filterMap Step.binds).Nodup) :
    (∀ n, ∃ bound, ∀ fuel, bound ≤ fuel → (start c.plan c.slots).pulls index fuel n =
      some (((c.plan.loops c.slots index).outcomes ++ List.replicate n (Except.ok none)).take n)) ∧
    (∀ n, (MatchStream.ofQuery c).pulls (List.replicate n index) =
      ((c.plan.loops c.slots index).outcomes ++ List.replicate n (Except.ok none)).take n) ∧
    Matches.all c.slots c.plan index = c.plan.loops c.slots index := by
  refine ⟨fun n => ?_, MatchStream.pulls_ofQuery c index honce,
    Matches.all_eq_loops c.slots c.plan index honce⟩
  obtain ⟨done, hruns⟩ := runs_start c.plan c.slots index honce
  exact hruns.pulls n

/--
Two scans in separate components find every pair of two nodes, the first component slowest, and then
nothing.  With a check of an unbound slot in between, the fault comes out once, and then nothing.
-/
theorem taken_pairs_of_nodes :
    let slots : Slots := ⟨#[{ Slot.fresh "a" .node false with outputs := [.index 0] },
      { Slot.fresh "b" .node false with outputs := [.index 1] }], .list 2⟩
    let index := Index.after [.insertNode ⟨⟨1⟩, .root .node⟩, .insertNode ⟨⟨2⟩, .root .node⟩]
    let n (id : Nat) : Option Item := some (.node ⟨⟨id⟩, .root .node⟩)
    let pairs : Plan := ⟨[⟨[0], [.scanNodes 0 (.root .node)]⟩, ⟨[1], [.scanNodes 1 (.root .node)]⟩]⟩
    let unbound : Plan := ⟨[⟨[0], [.scanNodes 0 (.root .node), .check ⟨0, 1, .source⟩]⟩,
      ⟨[1], [.scanNodes 1 (.root .node)]⟩]⟩
    (∃ bound, ∀ fuel, bound ≤ fuel → (start pairs slots).pulls index fuel 6 =
      some [.ok (some #[n 1, n 1]), .ok (some #[n 1, n 2]), .ok (some #[n 2, n 1]),
        .ok (some #[n 2, n 2]), .ok none, .ok none]) ∧
    (start pairs slots).pulls index 6 6 = some ((MatchStream.ofQuery ⟨slots, pairs⟩).pulls
      (List.replicate 6 index)) ∧
    (∃ bound, ∀ fuel, bound ≤ fuel → (start unbound slots).pulls index fuel 3 =
      some [.error (.slotUnbound "b"), .ok none, .ok none]) := by
  intro slots index n pairs unbound
  obtain ⟨hstacks, hstream, -⟩ := taken_eq_loops ⟨slots, pairs⟩ index (by decide)
  refine ⟨?_, ?_, ?_⟩
  · obtain ⟨bound, hbound⟩ := hstacks 6
    refine ⟨bound, fun fuel hfuel => (hbound fuel hfuel).trans ?_⟩
    decide +kernel
  · rw [hstream 6]
    decide +kernel
  · obtain ⟨bound, hbound⟩ := (taken_eq_loops ⟨slots, unbound⟩ index (by decide)).1 3
    refine ⟨bound, fun fuel hfuel => (hbound fuel hfuel).trans ?_⟩
    decide +kernel

end Stacks

namespace Plan

variable {plan : Plan} {s : Slots} {index : Index} {found : List Bindings}

/--
Whether a plan gives certain matches on an index, in this order and no more, however they are taken: one
by one from two stacks or from a search that is resumed, all of them at once, or the first few.
-/
structure Gives (plan : Plan) (s : Slots) (index : Index) (found : List Bindings) : Prop where
  taken : ∀ n, ∃ bound, ∀ fuel, bound ≤ fuel → (Stacks.start plan s).pulls index fuel n =
    some (((⟨found, none⟩ : Matches).outcomes ++ List.replicate n (Except.ok none)).take n)
  pulls : ∀ n, (MatchStream.ofQuery ⟨s, plan⟩).pulls (List.replicate n index) =
    ((⟨found, none⟩ : Matches).outcomes ++ List.replicate n (Except.ok none)).take n
  all : Matches.all s plan index = ⟨found, none⟩
  first : ∀ limit, Matches.first limit s plan index = ⟨found.take limit, none⟩

/-- A plan gives what its loops find without a fault. -/
theorem gives_of_loops
    (hloops : plan.loops s index = ⟨found, none⟩)
    (honce : (plan.steps.filterMap Step.binds).Nodup) :
    plan.Gives s index found := by
  have hfresh := plan.fresh_moves s honce
  refine ⟨fun n => ?_, fun n => ?_, ?_, fun limit => ?_⟩
  · obtain ⟨done, hruns⟩ := Stacks.runs_start plan s index honce
    rw [← hloops]
    exact hruns.pulls n
  · rw [← hloops]
    exact MatchStream.pulls_ofQuery ⟨s, plan⟩ index honce n
  · rw [← hloops]
    exact Matches.all_eq_loops s plan index honce
  · by_cases hlimit : limit = 0
    · rw [Matches.first, if_pos hlimit, hlimit, List.take_zero]
    · rw [Matches.first, if_neg hlimit]
      refine Matches.ofProgress_gather_first hlimit ?_
      rw [← hloops, ← Search.loops_plan]
      exact (Search.descend_spec _ _ _ _ hfresh).1

end Plan

end PatternGraph
