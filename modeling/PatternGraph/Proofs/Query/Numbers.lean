import Mathlib.Data.List.Forall2
import PatternGraph.Proofs.Query.Turns
import PatternGraph.Query.Executor

/-!
# Numbers in range

A machine that keeps numbers goes the same way as one that keeps what they stand for.  Between turns each
number of a component or a step is in range, as the steps of a component are entered in order; and the
slot that a step binds is in range, as the step has been looked up before a candidate of it is
tried, and looking up a step that binds a slot which does not exist fails.  That is so in any plan.
-/

namespace PatternGraph

section Lists

variable {α : Type} {list rest : List α} {k : Nat} {a : α}

theorem getElem?_of_drop_eq_cons (h : list.drop k = a :: rest) : list[k]? = some a := by
  rw [← List.head?_drop, h, List.head?_cons]

theorem getElem?_of_drop_eq_nil (h : list.drop k = []) : list[k]? = none := by
  rw [← List.head?_drop, h, List.head?_nil]

theorem drop_succ_of_drop_eq_cons (h : list.drop k = a :: rest) : list.drop (k + 1) = rest := by
  rw [← List.tail_drop, h, List.tail_cons]

end Lists

namespace Step

variable {s : Slots} {index : Index} {row : Bindings} {step : Step} {found : Expansion} {slot : Nat}

/-- A step whose candidates have been looked up binds a slot that exists, if any. -/
theorem lt_size_of_expand (h : step.expand s index row = .ok found) (hslot : step.binds = some slot) :
    slot < s.size := by
  have hin : ∀ {x : Nat} {next : Slot → Except Fault Expansion},
      (s.slotAt x >>= next) = .ok found → x < s.size := by
    intro x next hnext
    rw [Slots.slotAt] at hnext
    split at hnext
    · exact (Array.getElem?_eq_some_iff.mp ‹_›).1
    · cases hnext
  cases step with
  | scanNodes x type =>
      obtain rfl : x = slot := Option.some.inj hslot
      exact hin h
  | scanEdges x type =>
      obtain rfl : x = slot := Option.some.inj hslot
      exact hin h
  | traverse origin x via =>
      obtain rfl : x = slot := Option.some.inj hslot
      exact hin h
  | check c => cases hslot
  | checkPair edge a b => cases hslot

@[simp]
theorem size_put (step : Step) (row : Bindings) (candidate : Option Item) :
    (step.put row candidate).size = row.size := by
  rw [put]
  cases step.binds with
  | none => rfl
  | some slot =>
      cases candidate with
      | none => rfl
      | some item => exact Array.size_setIfInBounds ..

@[simp]
theorem size_clear (step : Step) (row : Bindings) : (step.clear row).size = row.size := by
  rw [clear]
  cases step.binds with
  | none => rfl
  | some slot => exact Array.size_setIfInBounds ..

/-- A step binds no slot out of range. -/
def Inside (size : Nat) (step : Step) : Prop :=
  ∀ slot, step.binds = some slot → slot < size

theorem put?_eq (h : step.Inside row.size) (candidate : Option Item) :
    step.put? row candidate = some (step.put row candidate) := by
  rw [put?, put]
  cases hbinds : step.binds with
  | none => rfl
  | some slot =>
      cases candidate with
      | none => rfl
      | some item => exact if_pos (h slot hbinds)

theorem clear?_eq (h : step.Inside row.size) : step.clear? row = some (step.clear row) := by
  rw [clear?, clear]
  cases hbinds : step.binds with
  | none => rfl
  | some slot => exact if_pos (h slot hbinds)

end Step

namespace Executor

variable {s : Slots} {plan : Plan} {index : Index} {size number : Nat} {steps : List Step}

/-- Whether a frame of numbers stands for a frame of steps: its numbers are in range, and lead to them. -/
structure Frame.StandsFor (size : Nat) (steps : List Step) (frame : Frame) (shown : PatternGraph.Frame) :
    Prop where
  steps : steps.drop frame.step = shown.step :: shown.below
  untried : frame.candidates.drop frame.cursor = shown.untried
  inside : shown.step.Inside size

/-- Whether a search by numbers stands for a search. -/
structure Search.StandsFor (plan : Plan) (size : Nat) (search : Search) (shown : ComponentSearch) :
    Prop where
  component : ∃ slots, plan.components.drop search.component = ⟨slots, shown.steps⟩ :: shown.later
  bindings : search.bindings = shown.bindings
  slots : shown.bindings.size = size
  frames : List.Forall₂ (Frame.StandsFor size shown.steps) search.frames shown.frames
  started : search.started = shown.started

/-- Whether a turn of a search by numbers comes to what a turn of the search that it stands for does. -/
inductive Search.Turn.StandsFor (plan : Plan) (size : Nat) (search : Search) :
    Search.Turn → ComponentSearch.Turn → Prop
  | going {next : Search} {shown : ComponentSearch} (h : next.StandsFor plan size shown)
      (hcomponent : next.component = search.component) :
      StandsFor plan size search (.going next) (.going shown)
  | found {next : Search} {shown : ComponentSearch} (h : next.StandsFor plan size shown)
      (hcomponent : next.component = search.component) :
      StandsFor plan size search (.found next) (.found shown)
  | failed (fault : Fault) : StandsFor plan size search (.failed fault) (.failed fault)
  | exhausted : StandsFor plan size search .exhausted .exhausted

namespace Search

variable {search next : Search} {shown : ComponentSearch}

/-- Entering a step by its number enters the step. -/
theorem StandsFor.expand
    {step : Step}
    {below : List Step}
    (h : next.StandsFor plan s.size shown)
    (hcomponent : next.component = search.component)
    (hsteps : shown.steps.drop number = step :: below) :
    Turn.StandsFor plan s.size search (next.expand s index number step)
      (shown.expand s index step below) := by
  obtain ⟨component, row, frames, started⟩ := next
  obtain ⟨steps, later, bindings, shownFrames, started'⟩ := shown
  obtain ⟨hplace, rfl, hslots, hframes, rfl⟩ := h
  rw [Search.expand, ComponentSearch.expand]
  dsimp only
  cases hexpand : step.expand s index row with
  | error fault => exact .failed fault
  | ok found =>
      have hinside : step.Inside s.size := fun slot hslot => Step.lt_size_of_expand hexpand hslot
      exact .going ⟨hplace, rfl, hslots, .cons ⟨hsteps, rfl, hinside⟩ hframes, rfl⟩ hcomponent

/-- Looking up the step after a number finds the next of the steps that are left. -/
theorem StandsFor.advance
    {below : List Step}
    (h : next.StandsFor plan s.size shown)
    (hcomponent : next.component = search.component)
    (hbelow : shown.steps.drop (number + 1) = below) :
    Turn.StandsFor plan s.size search (next.advance s index shown.steps number)
      (shown.goOn s index below) := by
  rw [Search.advance]
  cases below with
  | nil =>
      rw [getElem?_of_drop_eq_nil hbelow]
      exact .found h hcomponent
  | cons step below =>
      rw [getElem?_of_drop_eq_cons hbelow]
      exact h.expand hcomponent hbelow

/-- A turn by numbers stays in range, and comes to what the turn that it stands for comes to. -/
theorem StandsFor.turn (h : search.StandsFor plan s.size shown) (index : Index) :
    Turn.StandsFor plan s.size search (search.turn s index shown.steps) (shown.turn s index) := by
  rw [Search.turn, ComponentSearch.turn, h.started]
  split
  case isFalse hstarted =>
    obtain ⟨steps, later, bindings, shownFrames, started⟩ := shown
    cases steps with
    | nil => exact .exhausted
    | cons step below =>
        have hnext : StandsFor plan s.size { search with started := true }
            ⟨step :: below, later, bindings, shownFrames, true⟩ :=
          ⟨h.component, h.bindings, h.slots, h.frames, rfl⟩
        exact hnext.expand rfl rfl
  case isTrue hstarted =>
    obtain ⟨steps, later, bindings, shownFrames, started⟩ := shown
    obtain ⟨component, row, frames, started'⟩ := search
    obtain ⟨hcomponent, rfl, hslots, hframes, rfl⟩ := h
    cases hframes with
    | nil => exact .exhausted
    | @cons frame top frames rest hframe hframes =>
        obtain ⟨step, below, untried⟩ := top
        dsimp only at hslots
        have hinside : step.Inside row.size := hslots ▸ hframe.inside
        simp only [getElem?_of_drop_eq_cons hframe.steps, work]
        cases untried with
        | nil =>
            rw [getElem?_of_drop_eq_nil hframe.untried, Step.clear?_eq hinside]
            exact .going ⟨hcomponent, rfl, by simpa using hslots, hframes, rfl⟩ rfl
        | cons candidate untried =>
            simp only [getElem?_of_drop_eq_cons hframe.untried, Step.put?_eq hinside]
            have hnext : StandsFor plan s.size
                ⟨component, step.put row candidate,
                  { frame with cursor := frame.cursor + 1 } :: frames, started'⟩
                ⟨steps, later, step.put row candidate, ⟨step, below, untried⟩ :: rest, started'⟩ :=
              ⟨hcomponent, rfl, by simpa using hslots,
                .cons ⟨hframe.steps, drop_succ_of_drop_eq_cons hframe.untried, hframe.inside⟩ hframes, rfl⟩
            exact hnext.advance rfl (drop_succ_of_drop_eq_cons hframe.steps)

end Search

/--
Whether searches by numbers stand for searches.  The component of each is the one after that of the search
around it, and so its number is the number of searches around it.
-/
inductive Stand (plan : Plan) (size : Nat) : List Search → List ComponentSearch → Prop
  | nil : Stand plan size [] []
  | cons {search : Search} {shown : ComponentSearch} {around : List Search}
      {shownAround : List ComponentSearch} (h : search.StandsFor plan size shown)
      (hcomponent : search.component = around.length) (hrest : Stand plan size around shownAround) :
      Stand plan size (search :: around) (shown :: shownAround)

/-- Whether a machine that keeps numbers stands for two stacks. -/
structure StandsFor (m : Executor) (shown : Stacks) : Prop where
  slots : m.slots = shown.slots
  searches : Stand m.plan shown.slots.size m.searches shown.searches
  done : m.done = shown.done

/-- Whether a turn by numbers comes to what a turn of the stacks does. -/
inductive Turn.StandsFor : Executor.Turn → Stacks.Turn → Prop
  | going {m : Executor} {shown : Stacks} (h : m.StandsFor shown) : StandsFor (.going m) (.going shown)
  | gives {m : Executor} {shown : Stacks} (outcome : Except Fault (Option Bindings))
      (h : m.StandsFor shown) : StandsFor (.gives outcome m) (.gives outcome shown)

variable {m : Executor} {shown shown' : Stacks} {outcome : Except Fault (Option Bindings)}

theorem start_standsFor (plan : Plan) (s : Slots) : (start plan s).StandsFor (Stacks.start plan s) := by
  rw [start, Stacks.start, Plan.isEmpty]
  cases hcomponents : plan.components with
  | nil => exact ⟨rfl, .nil, rfl⟩
  | cons c later =>
      have hsearch : (Search.enter 0 (PatternGraph.Search.noBindings s)).StandsFor plan s.size
          (.enter c later (PatternGraph.Search.noBindings s)) :=
        ⟨⟨c.slots, hcomponents⟩, rfl, Array.size_replicate, .nil, rfl⟩
      exact ⟨rfl, .cons hsearch rfl .nil, rfl⟩

/-- A component is the last one exactly when as many searches have been entered as there are components. -/
theorem Search.StandsFor.last_iff
    {search : Search}
    {found : ComponentSearch}
    (h : search.StandsFor plan size found) :
    search.component + 1 = plan.components.length ↔ found.later = [] := by
  obtain ⟨slots, hcomponents⟩ := h.component
  have hlength := congrArg List.length hcomponents
  rw [List.length_drop, List.length_cons] at hlength
  rw [← List.length_eq_zero_iff]
  omega

/-- The component that is entered by the next number is the next one. -/
theorem Search.StandsFor.enter_next
    {search : Search}
    {found : ComponentSearch}
    {c : Component}
    {later : List Component}
    (h : search.StandsFor plan size found)
    (hlater : found.later = c :: later) :
    (Search.enter (search.component + 1) search.bindings).StandsFor plan size
      (.enter c later found.bindings) := by
  obtain ⟨slots, hcomponents⟩ := h.component
  have hdrop := drop_succ_of_drop_eq_cons hcomponents
  exact ⟨⟨c.slots, hdrop.trans hlater⟩, h.bindings, h.slots, .nil, rfl⟩

/-- The machine goes on like the stacks after a turn of the innermost search. -/
theorem settle_standsFor
    {search : Search}
    {around : List Search}
    {shownAround : List ComponentSearch}
    {turn : Search.Turn}
    {shownTurn : ComponentSearch.Turn}
    (searches : List Search)
    (hturn : turn.StandsFor plan s.size search shownTurn)
    (hcomponent : search.component = around.length)
    (hrest : Stand plan s.size around shownAround) :
    (settle ⟨s, plan, searches, false⟩ around turn).StandsFor
      (Stacks.settle s shownAround shownTurn) := by
  cases hturn with
  | failed fault => exact .gives _ ⟨rfl, .nil, rfl⟩
  | exhausted => exact .going ⟨rfl, hrest, rfl⟩
  | going hnext hsame => exact .going ⟨rfl, .cons hnext (hsame.trans hcomponent) hrest, rfl⟩
  | @found next found hnext hsame =>
      -- The machine counts searches where the stacks look whether a component is left.
      have hplace := hsame.trans hcomponent
      have hstand : Stand plan s.size (next :: around) (found :: shownAround) :=
        .cons hnext hplace hrest
      have hlast := hnext.last_iff
      rw [hplace] at hlast
      rw [settle, Stacks.settle]
      cases hlater : found.later with
      | nil =>
          rw [if_pos (hlast.mpr hlater), hnext.bindings]
          exact .gives _ ⟨rfl, hstand, rfl⟩
      | cons c later =>
          have hmore : around.length + 1 ≠ plan.components.length := by
            rw [ne_eq, hlast, hlater]
            exact List.cons_ne_nil c later
          have hentered := hnext.enter_next hlater
          rw [hplace] at hentered
          rw [if_neg hmore]
          exact .going ⟨rfl, .cons hentered rfl hstand, rfl⟩

/-- A turn of the machine stays in range, and comes to what the turn of the stacks comes to. -/
theorem StandsFor.turn (h : m.StandsFor shown) (index : Index) :
    (m.turn index).StandsFor (shown.turn index) := by
  obtain ⟨s, plan, searches, done⟩ := m
  obtain ⟨s', shownSearches, done'⟩ := shown
  obtain ⟨rfl, hsearches, rfl⟩ := h
  dsimp only at hsearches
  rw [Executor.turn, Stacks.turn]
  cases done with
  | true => exact .gives _ ⟨rfl, hsearches, rfl⟩
  | false =>
      cases hsearches with
      | nil => exact .gives _ ⟨rfl, .nil, rfl⟩
      | @cons search shown around shownAround hsearch hcomponent hrest =>
          obtain ⟨slots, hplace⟩ := hsearch.component
          simp only [Bool.false_eq_true, if_false, getElem?_of_drop_eq_cons hplace]
          exact settle_standsFor _ (hsearch.turn index) hcomponent hrest

/-- The machine gives what the stacks give, in as many turns. -/
theorem StandsFor.pull
    {fuel : Nat}
    (h : m.StandsFor shown)
    (hpull : shown.pull index fuel = some (outcome, shown')) :
    ∃ m', m.pull index fuel = some (outcome, m') ∧ m'.StandsFor shown' := by
  induction fuel generalizing m shown with
  | zero => cases hpull
  | succ fuel ih =>
      have hturn := h.turn index
      rw [Stacks.pull] at hpull
      rw [Executor.pull]
      generalize m.turn index = turn at hturn ⊢
      generalize shown.turn index = shownTurn at hturn hpull
      cases hturn with
      | going hnext => exact ih hnext hpull
      | gives outcome hnext =>
          cases hpull
          exact ⟨_, rfl, hnext⟩

/-- Whether turns lead from the start to a machine, each on a graph of its own. -/
inductive Reached (plan : Plan) (s : Slots) : Executor → Prop
  | start : Reached plan s (start plan s)
  | going {m m' : Executor} {index : Index} (h : Reached plan s m)
      (hturn : m.turn index = .going m') : Reached plan s m'
  | gives {m m' : Executor} {index : Index} {outcome : Except Fault (Option Bindings)}
      (h : Reached plan s m) (hturn : m.turn index = .gives outcome m') : Reached plan s m'

theorem Reached.standsFor (h : Reached plan s m) : ∃ shown, m.StandsFor shown := by
  induction h with
  | start => exact ⟨_, start_standsFor plan s⟩
  | @going m m' index h hturn ih =>
      obtain ⟨shown, hstands⟩ := ih
      have hnext := hstands.turn index
      rw [hturn] at hnext
      generalize shown.turn index = shownTurn at hnext
      cases hnext with
      | going hnext => exact ⟨_, hnext⟩
  | @gives m m' index outcome h hturn ih =>
      obtain ⟨shown, hstands⟩ := ih
      have hnext := hstands.turn index
      rw [hturn] at hnext
      generalize shown.turn index = shownTurn at hnext
      cases hnext with
      | gives outcome hnext => exact ⟨_, hnext⟩

/-- No number that is looked up on the way is out of range. -/
theorem Reached.inRange (h : Reached plan s m) (index : Index) : m.turn index ≠ .outOfRange := by
  obtain ⟨shown, hstands⟩ := h.standsFor
  intro hout
  have hturn := hstands.turn index
  rw [hout] at hturn
  cases hturn

end Executor

end PatternGraph
