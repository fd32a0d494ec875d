import PatternGraph.Proofs.Query.Stacks

/-!
# Marks and stacks

A search that is resumed and the machine with two stacks do the same in any plan, also where slots are
bound twice or used before they are bound.  The bindings that the search sets and clears are those of
the innermost search on the stack: a mark of a choice says what a frame still has to try, and a mark of a
boundary holds the bindings of the search around it.  So the two stay together from one match to the
next, and the graph may be another one each time.
-/

namespace PatternGraph

/-- What comes after steps of a component and the components after it. -/
def Component.ahead (below : List Step) (later : List Component) : List Move :=
  below.map .step ++ later.flatMap Component.moves

open Component

namespace ComponentSearch

/-- A search through a component that has started, but has not entered a step. -/
def entered (c : Component) (later : List Component) (row : Bindings) : ComponentSearch :=
  ⟨c.steps, later, row, [], true⟩

/-- Puts a frame on the stack of a search, which then has certain bindings. -/
def push (search : ComponentSearch) (row : Bindings) (frame : Frame) : ComponentSearch :=
  { search with bindings := row, frames := frame :: search.frames }

variable {s : Slots} {index : Index} {search : ComponentSearch} {step : Step} {below : List Step}

theorem turn_leave (hstarted : search.started = true) (row : Bindings) :
    (search.push row ⟨step, below, []⟩).turn s index =
      .going { search with bindings := step.clear row } := by
  rw [turn, push, if_pos hstarted]

theorem turn_try
    (hstarted : search.started = true)
    (row : Bindings)
    (candidate : Option Item)
    (untried : List (Option Item)) :
    (search.push row ⟨step, below, candidate :: untried⟩).turn s index =
      (search.push (step.put row candidate) ⟨step, below, untried⟩).goOn s index below := by
  rw [turn, push, if_pos hstarted]
  cases below with
  | nil => rfl
  | cons next below => rfl

end ComponentSearch

/--
Whether a search through a component has stopped at the match `leaf` with certain marks open, and the
stacks are what has become of it by then.  The steps `below` were still to be entered.
-/
inductive Grown :
    List Step → ComponentSearch → List ComponentSearch → List Mark → Bindings →
      List ComponentSearch → Prop
  | leaf {search : ComponentSearch} {around : List ComponentSearch} (hlater : search.later = []) :
      Grown [] search around [] search.bindings (search :: around)
  | enter {c : Component} {later : List Component} {search : ComponentSearch}
      {around searches : List ComponentSearch} {marks : List Mark} {leaf : Bindings}
      (hlater : search.later = c :: later)
      (h : Grown c.steps (.entered c later search.bindings) (search :: around) marks leaf searches) :
      Grown [] search around (.boundary search.bindings :: marks) leaf searches
  | check {step : Step} {below : List Step} {search : ComponentSearch}
      {around searches : List ComponentSearch} {marks : List Mark} {leaf : Bindings}
      (hbinds : step.binds = none)
      (h : Grown below (search.push search.bindings ⟨step, below, []⟩) around marks leaf searches) :
      Grown (step :: below) search around marks leaf searches
  | choice {step : Step} {below : List Step} {search : ComponentSearch}
      {around searches : List ComponentSearch} {marks : List Mark} {leaf row : Bindings} {slot : Nat}
      {candidates rest : List Item}
      (hbinds : step.binds = some slot)
      (h : Grown below (search.push row ⟨step, below, rest.map some⟩) around marks leaf searches) :
      Grown (step :: below) search around
        (.choice slot candidates rest (ahead below search.later) :: marks) leaf searches

open Stacks

variable {s : Slots} {index : Index} {m m' : Stacks} {step : Step} {below : List Step} {c : Component}
  {later : List Component} {row : Bindings} {search : ComponentSearch} {around : List ComponentSearch}

namespace Progress

variable {progress : Progress Unit}

/--
Whether turns of the stacks come to what the search of the innermost component has come to: the same
match, with what has become of the search, the same fault, or the same bindings with nothing left.
-/
def Comes (s : Slots) (index : Index) (below : List Step) (search : ComponentSearch)
    (around : List ComponentSearch) (m : Stacks) : Progress Unit → Prop
  | .halted _ leaf marks => ∃ searches, Grown below search around marks leaf searches ∧
      Yields index m (.ok (some leaf)) ⟨s, searches, false⟩
  | .failed _ fault => Yields index m (.error fault) (stopped s)
  | .exhausted _ row => Goes index m ⟨s, { search with bindings := row } :: around, false⟩

/-- The same of a search that has entered a component from some bindings. -/
def ComesThrough (s : Slots) (index : Index) (c : Component) (later : List Component) (row : Bindings)
    (around : List ComponentSearch) (m : Stacks) : Progress Unit → Prop
  | .halted _ leaf marks => ∃ inner searches, marks = .boundary row :: inner ∧
      Grown c.steps (.entered c later row) around inner leaf searches ∧
        Yields index m (.ok (some leaf)) ⟨s, searches, false⟩
  | .failed _ fault => Yields index m (.error fault) (stopped s)
  | .exhausted _ row' => row' = row ∧ Goes index m ⟨s, around, false⟩

theorem Comes.after (hgoes : Goes index m m') (h : progress.Comes s index below search around m') :
    progress.Comes s index below search around m := by
  cases progress with
  | halted acc leaf marks =>
      obtain ⟨searches, hgrown, hyields⟩ := h
      exact ⟨searches, hgrown, hyields.after hgoes⟩
  | failed acc fault => exact Yields.after hgoes h
  | exhausted acc row => exact hgoes.trans h

/-- A component that is used up is taken off its stack, with the bindings from before it around. -/
theorem Comes.restoring (h : progress.Comes s index c.steps (.entered c later row) around m) :
    (progress.restoring row).ComesThrough s index c later row around m := by
  cases progress with
  | halted acc leaf marks =>
      obtain ⟨searches, hgrown, hyields⟩ := h
      exact ⟨marks, searches, rfl, hgrown, hyields⟩
  | failed acc fault => exact h
  | exhausted acc row' =>
      have hturn : turn index ⟨s, .entered c later row' :: around, false⟩ =
          .going ⟨s, around, false⟩ := rfl
      exact ⟨rfl, h.trans (.single hturn)⟩

/-- A search that enters the next component at a match of its own comes to what that one comes to. -/
theorem ComesThrough.enter
    (hlater : search.later = c :: later)
    (h : progress.ComesThrough s index c later search.bindings (search :: around) m) :
    progress.Comes s index [] search around m := by
  cases progress with
  | halted acc leaf marks =>
      obtain ⟨inner, searches, rfl, hgrown, hyields⟩ := h
      exact ⟨searches, .enter hlater hgrown, hyields⟩
  | failed acc fault => exact h
  | exhausted acc row' =>
      obtain ⟨rfl, hgoes⟩ := h
      exact hgoes

/-- A frame with nothing left to try is taken off the stack, and its slot is cleared. -/
theorem goes_leave (hstarted : search.started = true) (row : Bindings) :
    Goes index ⟨s, search.push row ⟨step, below, []⟩ :: around, false⟩
      ⟨s, { search with bindings := step.clear row } :: around, false⟩ := by
  refine .single ?_
  rw [turn_innermost, ComponentSearch.turn_leave hstarted]
  rfl

/-- A check that holds is left again when everything below it has been found. -/
theorem Comes.check
    (hstarted : search.started = true)
    (hbinds : step.binds = none)
    (h : progress.Comes s index below (search.push search.bindings ⟨step, below, []⟩) around m) :
    progress.Comes s index (step :: below) search around m := by
  cases progress with
  | halted acc leaf marks =>
      obtain ⟨searches, hgrown, hyields⟩ := h
      exact ⟨searches, .check hbinds hgrown, hyields⟩
  | failed acc fault => exact h
  | exhausted acc row =>
      have hclear : step.clear row = row := by rw [Step.clear, hbinds]
      have hleft := h.trans (goes_leave hstarted row)
      rwa [hclear] at hleft

/-- Below a choice a search comes to a match or a fault before the candidates that are left are tried. -/
theorem Comes.choice
    {slot : Nat}
    {rest : List Item}
    (candidates : List Item)
    (hbinds : step.binds = some slot)
    (hstopped : ∀ acc row', progress ≠ .exhausted acc row')
    (h : progress.Comes s index below (search.push row ⟨step, below, rest.map some⟩) around m) :
    (progress.within (.choice slot candidates rest (ahead below search.later))).Comes s index
      (step :: below) search around m := by
  cases progress with
  | halted acc leaf marks =>
      obtain ⟨searches, hgrown, hyields⟩ := h
      exact ⟨searches, .choice hbinds hgrown, hyields⟩
  | failed acc fault => exact h
  | exhausted acc row' => exact absurd rfl (hstopped acc row')

end Progress

namespace Search

/-- A visitor that stops at every match. -/
abbrev pausing : Unit → Bindings → Verdict Unit :=
  fun _ _ => .halt ()

/--
Whether stacks whose innermost search goes on with certain steps come to what a search comes to that goes
through these steps and the components after it.
-/
def InStep (s : Slots) (index : Index) (below : List Step) (later : List Component) : Prop :=
  ∀ (search : ComponentSearch) (around : List ComponentSearch) (m : Stacks), search.later = later →
    search.started = true → m.turn index = settle s around (search.goOn s index below) →
      (descend s index pausing (ahead below later) () search.bindings).Comes s index below search
        around m

/-- A frame has its candidates tried in turn, as a search tries those of a slot. -/
theorem tryEach_comes
    {slot : Nat}
    (hbelow : InStep s index below search.later)
    (hstarted : search.started = true)
    (hbinds : step.binds = some slot)
    (candidates rest : List Item)
    (row : Bindings) :
    (tryEach (descend s index pausing (ahead below search.later)) slot candidates
      (ahead below search.later) rest () row).Comes s index (step :: below) search around
        ⟨s, search.push row ⟨step, below, rest.map some⟩ :: around, false⟩ := by
  induction rest generalizing row with
  | nil =>
      have hclear : step.clear row = row.setIfInBounds slot none := by rw [Step.clear, hbinds]
      rw [tryEach, ← hclear]
      exact Progress.goes_leave hstarted row
  | cons item rest ih =>
      have hput : step.put row (some item) = row.setIfInBounds slot (some item) := by
        rw [Step.put, hbinds]
      have hturn : turn index
            ⟨s, search.push row ⟨step, below, (item :: rest).map some⟩ :: around, false⟩ =
          settle s around
            ((search.push (step.put row (some item)) ⟨step, below, rest.map some⟩).goOn s index below) := by
        rw [turn_innermost, List.map_cons, ComponentSearch.turn_try hstarted]
      have hprogress := hbelow (search.push (step.put row (some item)) ⟨step, below, rest.map some⟩)
        around _ rfl hstarted hturn
      rw [tryEach, ← hput]
      dsimp only [ComponentSearch.push] at hprogress
      generalize descend s index pausing (ahead below search.later) () (step.put row (some item)) =
        progress at hprogress ⊢
      cases progress with
      | exhausted acc row' => exact (ih row').after hprogress
      | halted acc leaf marks => exact hprogress.choice candidates hbinds (by simp)
      | failed acc fault => exact hprogress.choice candidates hbinds (by simp)

/-- A step that is entered comes to what a search through it comes to. -/
theorem InStep.cons (hbelow : InStep s index below later) (step : Step) :
    InStep s index (step :: below) later := by
  rintro search around m rfl hstarted hturn
  rw [ComponentSearch.goOn, ComponentSearch.expand] at hturn
  rw [ahead, List.map_cons, List.cons_append, descend, ← ahead]
  cases hexpand : step.expand s index search.bindings with
  | error fault =>
      rw [hexpand] at hturn
      exact .gives hturn
  | ok found =>
      rw [hexpand] at hturn
      have hentered : Goes index m ⟨s, search.push search.bindings
          ⟨step, below, found.candidates⟩ :: around, false⟩ := .single hturn
      cases found with
      | bind slot candidates =>
          have hbinds := binds_of_expand_eq_bind hexpand
          exact (tryEach_comes hbelow hstarted hbinds candidates candidates _).after hentered
      | check holds =>
          have hbinds := Expansion.binds_of_expand_eq_check hexpand
          cases holds with
          | false =>
              have hclear : step.clear search.bindings = search.bindings := by rw [Step.clear, hbinds]
              have hleft := hentered.trans (Progress.goes_leave hstarted _)
              rwa [hclear] at hleft
          | true =>
              have hput : step.put search.bindings none = search.bindings := by rw [Step.put, hbinds]
              have htry : turn index ⟨s, search.push search.bindings ⟨step, below, [none]⟩ :: around,
                    false⟩ =
                  settle s around
                    ((search.push search.bindings ⟨step, below, []⟩).goOn s index below) := by
                rw [turn_innermost, ComponentSearch.turn_try hstarted, hput]
              have hprogress := hbelow (search.push search.bindings ⟨step, below, []⟩) around _ rfl
                hstarted htry
              exact (hprogress.check hstarted hbinds).after hentered

/-- A component that is entered comes to what a search through it and those after it comes to. -/
theorem InStep.through
    (hlater : ∀ below, InStep s index below later)
    (c : Component)
    (row : Bindings)
    (around : List ComponentSearch) :
    (descend s index pausing ((c :: later).flatMap Component.moves) () row).ComesThrough s index c later
      row around ⟨s, .enter c later row :: around, false⟩ := by
  obtain ⟨slots, steps⟩ := c
  cases steps with
  | nil =>
      -- The search is taken off before it has started, and so `Comes.restoring` does not apply.
      have hturn : turn index ⟨s, .enter ⟨slots, []⟩ later row :: around, false⟩ =
          .going ⟨s, around, false⟩ := rfl
      exact ⟨rfl, .single hturn⟩
  | cons step below =>
      have hturn : turn index ⟨s, .enter ⟨slots, step :: below⟩ later row :: around, false⟩ =
          settle s around
            ((ComponentSearch.entered ⟨slots, step :: below⟩ later row).goOn s index (step :: below)) :=
        rfl
      have hprogress := hlater (step :: below) (.entered ⟨slots, step :: below⟩ later row) around _ rfl
        rfl hturn
      exact hprogress.restoring

theorem InStep.steps (hlater : InStep s index [] later) (below : List Step) :
    InStep s index below later := by
  induction below with
  | nil => exact hlater
  | cons step below ih => exact ih.cons step

/-- Whatever steps and components are left, the stacks come to what the search comes to. -/
theorem inStep (s : Slots) (index : Index) (below : List Step) (later : List Component) :
    InStep s index below later := by
  induction later generalizing below with
  | nil =>
      refine InStep.steps (fun search around m hlater hstarted hturn => ?_) below
      rw [ComponentSearch.goOn, settle, hlater] at hturn
      exact ⟨search :: around, .leaf hlater, .gives hturn⟩
  | cons c later ih =>
      refine InStep.steps (fun search around m hlater hstarted hturn => ?_) below
      rw [ComponentSearch.goOn, settle, hlater] at hturn
      have hthrough := InStep.through ih c search.bindings (search :: around)
      exact (hthrough.enter hlater).after (.single hturn)

/-- A search that is resumed at its marks comes to what the stacks come to that have grown with it. -/
theorem resume_comes
    {marks : List Mark}
    {leaf : Bindings}
    {searches : List ComponentSearch}
    (hgrown : Grown below search around marks leaf searches)
    (hstarted : search.started = true) :
    (resume s index pausing marks () leaf).Comes s index below search around ⟨s, searches, false⟩ := by
  induction hgrown with
  | leaf hlater => exact .refl
  | enter hlater hgrown ih => exact (ih rfl).restoring.enter hlater
  | check hbinds hgrown ih => exact (ih hstarted).check hstarted hbinds
  | @choice step below search around searches marks leaf row slot candidates rest hbinds hgrown ih =>
      -- What is open below the choice comes first, then the candidates that have not been tried.
      have hprogress := ih hstarted
      rw [resume]
      generalize resume s index pausing marks () leaf = progress at hprogress ⊢
      cases progress with
      | exhausted acc row' =>
          exact (tryEach_comes (inStep s index below search.later) hstarted hbinds candidates rest
            row').after hprogress
      | halted acc leaf marks => exact hprogress.choice candidates hbinds (by simp)
      | failed acc fault => exact hprogress.choice candidates hbinds (by simp)

end Search

variable {first : Component}

/--
Whether two stacks are what has become of the start by the time that a stream of a query has come to its
state.
-/
def StreamState.Keeps (q : CompiledQuery) (m : Stacks) : StreamState → Prop
  | .fresh => m = Stacks.start q.plan q.slots
  | .paused leaf marks => ∃ first later inner searches, q.plan.components = first :: later ∧
      marks = .boundary (Search.noBindings q.slots) :: inner ∧
      Grown first.steps (.entered first later (Search.noBindings q.slots)) [] inner leaf searches ∧
      m = ⟨q.slots, searches, false⟩
  | .finished => m = stopped q.slots

namespace MatchStream

variable {stream : MatchStream}

/-- Taking a match from a stream gives what the stacks give when the search comes to what they come to. -/
theorem yields_of_comesThrough
    (hcomponents : stream.query.plan.components = first :: later)
    (h : (stream.query.proceed index Search.pausing () stream.state).ComesThrough stream.query.slots index
      first later (Search.noBindings stream.query.slots) [] m) :
    ∃ m', Yields index m (stream.next index).1 m' ∧
      (stream.next index).2.state.Keeps (stream.next index).2.query m' := by
  rw [next]
  generalize stream.query.proceed index Search.pausing () stream.state = progress at h ⊢
  cases progress with
  | halted acc leaf marks =>
      obtain ⟨inner, searches, hmarks, hgrown, hyields⟩ := h
      exact ⟨_, hyields, first, later, inner, searches, hcomponents, hmarks, hgrown, rfl⟩
  | failed acc fault => exact ⟨_, h, rfl⟩
  | exhausted acc row =>
      have hturn : turn index ⟨stream.query.slots, [], false⟩ =
          .gives (.ok none) (stopped stream.query.slots) := rfl
      exact ⟨_, Yields.after h.2 (.gives hturn), rfl⟩

/-- From one match to the next, a stream and the stacks give the same. -/
theorem yields_of_keeps (h : stream.state.Keeps stream.query m) (index : Index) :
    ∃ m', Yields index m (stream.next index).1 m' ∧
      (stream.next index).2.state.Keeps (stream.next index).2.query m' := by
  obtain ⟨⟨s, plan⟩, state⟩ := stream
  dsimp only at h
  cases state with
  | finished =>
      obtain rfl := h
      exact ⟨_, .gives rfl, rfl⟩
  | paused leaf marks =>
      obtain ⟨first, later, inner, searches, hcomponents, rfl, hgrown, rfl⟩ := h
      exact yields_of_comesThrough hcomponents (Search.resume_comes hgrown rfl).restoring
  | fresh =>
      obtain rfl := h
      obtain ⟨components⟩ := plan
      cases components with
      | nil => exact ⟨_, .gives rfl, rfl⟩
      | cons first later =>
          exact yields_of_comesThrough rfl
            (Search.InStep.through (fun below => Search.inStep s index below later) first _ [])

end MatchStream

end PatternGraph
