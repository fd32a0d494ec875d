import Mathlib.Data.Multiset.DershowitzManna
import Mathlib.Logic.Relation
import PatternGraph.Query.Stacks

/-!
# Turns run out

How many candidates a step has is known only when the step is entered, and by then the graph may have
grown: no number that is fixed beforehand bounds the turns of two stacks.  But a candidate only
leads to steps that come later than its own.  So each candidate is given the number of steps that may come
after it as its weight: trying it takes the weight away, and puts any number of smaller ones in its
place.  In the order of such collections of weights every turn goes down, whatever the graph holds at
the time, and there is no infinite way down.
-/

namespace PatternGraph

/-- Whether a collection of weights comes from another one by replacing weights by smaller ones. -/
def Lighter (a b : Multiset Nat) : Prop :=
  a.IsDershowitzMannaLT b

namespace Lighter

variable {a b c : Multiset Nat} {x : Nat}

theorem wellFounded : WellFounded Lighter :=
  Multiset.wellFounded_isDershowitzMannaLT

theorem trans (h : Lighter a b) (h' : Lighter b c) : Lighter a c :=
  Multiset.IsDershowitzMannaLT.trans h h'

/-- A weight can be replaced by any number of smaller ones. -/
theorem replace (rest : Multiset Nat) (h : ∀ y ∈ a, y < x) : Lighter (a + rest) (x ::ₘ rest) :=
  ⟨rest, a, {x}, by simp, add_comm a rest, by rw [add_comm, Multiset.singleton_add],
    fun y hy => ⟨x, Multiset.mem_singleton_self x, h y hy⟩⟩

theorem add_right (c : Multiset Nat) (h : Lighter a b) : Lighter (a + c) (b + c) := by
  obtain ⟨kept, small, large, hne, rfl, rfl, hless⟩ := h
  exact ⟨kept + c, small, large, hne, add_right_comm .., add_right_comm .., hless⟩

/-- Weights can be left out. -/
theorem add_left_of_ne_zero (a : Multiset Nat) (h : b ≠ 0) : Lighter a (b + a) :=
  ⟨a, 0, b, h, by simp, add_comm b a, by simp⟩

end Lighter

/-- The number of steps in some components, one more for entering each of them. -/
def Component.stepsAhead : List Component → Nat
  | [] => 0
  | c :: later => c.steps.length + 1 + stepsAhead later

open Component

/-- The weights at a step that has been entered: one for each candidate, and nothing for leaving it. -/
def Frame.load (later : List Component) (frame : Frame) : Multiset Nat :=
  0 ::ₘ Multiset.replicate frame.untried.length (frame.below.length + stepsAhead later + 1)

namespace ComponentSearch

variable {s : Slots} {index : Index} {search search' : ComponentSearch}

/-- Enters the next of the steps that are left, or ends with a match when there is none. -/
def goOn (s : Slots) (index : Index) (search : ComponentSearch) : List Step → Turn
  | [] => .found search
  | step :: below => search.expand s index step below

/-- The weight of a search that has not started. -/
def startLoad (search : ComponentSearch) : Multiset Nat :=
  if search.started then 0 else {search.steps.length + stepsAhead search.later + 1}

/-- The weights in a search through a component: nothing for leaving it, and those of its frames. -/
def load (search : ComponentSearch) : Multiset Nat :=
  0 ::ₘ (search.startLoad + (search.frames.map (Frame.load search.later)).sum)

/--
What a turn does to the weights: when the search goes on, some are replaced by smaller ones, and when a
match of the component is found, that of a candidate for its last step is taken away.
-/
def Turn.Lightens (search : ComponentSearch) : Turn → Prop
  | .going next => next.later = search.later ∧ Lighter next.load search.load
  | .found next => next.later = search.later ∧
      search.load = (stepsAhead search.later + 1) ::ₘ next.load
  | .failed _ | .exhausted => True

/-- Entering a step puts smaller weights in the place of one from which it is entered. -/
theorem expand_lightens
    {step : Step}
    {below : List Step}
    {x : Nat}
    (hlater : search'.later = search.later)
    (hload : search.load = x ::ₘ search'.load)
    (hx : below.length + stepsAhead search.later + 1 < x) :
    (search'.expand s index step below).Lightens search := by
  rw [expand]
  cases step.expand s index search'.bindings with
  | error fault => trivial
  | ok found =>
      refine ⟨hlater, ?_⟩
      have hentered : load { search' with
          frames := ⟨step, below, found.candidates⟩ :: search'.frames } =
          Frame.load search'.later ⟨step, below, found.candidates⟩ + search'.load := by
        simp only [load, startLoad, List.map_cons, List.sum_cons, Multiset.add_cons]
        rw [add_left_comm]
      rw [hload]
      refine hentered ▸ Lighter.replace search'.load fun y hy => ?_
      rcases Multiset.mem_cons.mp hy with rfl | hy
      · omega
      · rw [Multiset.eq_of_mem_replicate hy, hlater]
        exact hx

theorem goOn_lightens
    {below : List Step}
    (hlater : search'.later = search.later)
    (hload : search.load = (below.length + stepsAhead search.later + 1) ::ₘ search'.load) :
    (search'.goOn s index below).Lightens search := by
  cases below with
  | nil =>
      refine ⟨hlater, ?_⟩
      rw [hload]
      simp
  | cons step below => exact expand_lightens hlater hload (by simp)

/-- Trying a candidate takes its weight away. -/
theorem load_try
    {step : Step}
    {below : List Step}
    {candidate : Option Item}
    {untried : List (Option Item)}
    {frames : List Frame}
    (hframes : search.frames = ⟨step, below, candidate :: untried⟩ :: frames)
    (bindings : Bindings) :
    search.load = (below.length + stepsAhead search.later + 1) ::ₘ
      load { search with bindings := bindings, frames := ⟨step, below, untried⟩ :: frames } := by
  simp only [load, startLoad, hframes, Frame.load, List.map_cons, List.sum_cons, List.length_cons,
    Multiset.replicate_succ, Multiset.cons_add, Multiset.add_cons]
  rw [Multiset.cons_swap 0 (below.length + stepsAhead search.later + 1),
    Multiset.cons_swap 0 (below.length + stepsAhead search.later + 1)]

/-- Leaving a step takes its weights away. -/
theorem lighter_of_leave
    {frame : Frame}
    {frames : List Frame}
    (hframes : search.frames = frame :: frames)
    (bindings : Bindings) :
    Lighter (load { search with bindings := bindings, frames := frames }) search.load := by
  have hload : search.load = Frame.load search.later frame +
      load { search with bindings := bindings, frames := frames } := by
    simp only [load, startLoad, hframes, List.map_cons, List.sum_cons, Multiset.add_cons]
    rw [add_left_comm]
  rw [hload]
  exact Lighter.add_left_of_ne_zero _ (Multiset.cons_ne_zero)

/-- A search that starts has its weight taken away. -/
theorem load_start (h : search.started = false) :
    search.load = (search.steps.length + stepsAhead search.later + 1) ::ₘ
      load { search with started := true } := by
  simp only [load, startLoad, h, Bool.false_eq_true, if_false, if_true, zero_add,
    Multiset.singleton_add]
  rw [Multiset.cons_swap]

theorem turn_lightens (s : Slots) (index : Index) (search : ComponentSearch) :
    (search.turn s index).Lightens search := by
  rw [turn]
  split
  case isTrue _ =>
    split
    · trivial
    · rename_i hframes
      exact ⟨rfl, lighter_of_leave hframes _⟩
    · rename_i step below candidate untried frames hframes
      exact goOn_lightens rfl (load_try hframes (step.put search.bindings candidate))
  case isFalse hstarted =>
    split
    · trivial
    · rename_i step below hsteps
      refine expand_lightens rfl (load_start (by simpa using hstarted)) ?_
      simp [hsteps]

end ComponentSearch

namespace Stacks

variable {index : Index} {m m' m'' : Stacks} {outcome : Except Fault (Option Bindings)}

/-- The weights in all searches. -/
def load (m : Stacks) : Multiset Nat :=
  (m.searches.map ComponentSearch.load).sum

theorem load_cons (s : Slots) (search : ComponentSearch) (around : List ComponentSearch) (done : Bool) :
    load ⟨s, search :: around, done⟩ = search.load + load ⟨s, around, done⟩ := by
  simp [load]

/--
What a turn does to the weights: some are replaced by smaller ones as long as no fault is met and there is
something left, and otherwise nothing is left.
-/
def Turn.Lightens (m : Stacks) : Turn → Prop
  | .going next | .gives (.ok (some _)) next => Lighter next.load m.load
  | .gives (.error _) next | .gives (.ok none) next => next.done = true

/-- The weights in a search that is entered are smaller than that of a candidate from which it is. -/
theorem lighter_of_enter
    {c : Component}
    {later : List Component}
    (rest : Multiset Nat)
    (row : Bindings) :
    Lighter ((ComponentSearch.enter c later row).load + rest)
      ((stepsAhead (c :: later) + 1) ::ₘ rest) := by
  refine Lighter.replace rest fun y hy => ?_
  simp only [ComponentSearch.load, ComponentSearch.startLoad, ComponentSearch.enter, List.map_nil,
    List.sum_nil, add_zero, Bool.false_eq_true, if_false, Multiset.mem_cons,
    Multiset.mem_singleton] at hy
  rw [stepsAhead]
  omega

theorem turn_lightens (index : Index) (m : Stacks) : (m.turn index).Lightens m := by
  obtain ⟨s, searches, done⟩ := m
  rw [turn]
  cases done with
  | true => rfl
  | false =>
      cases searches with
      | nil => rfl
      | cons search around =>
          have hlightens := ComponentSearch.turn_lightens s index search
          change (settle s around (search.turn s index)).Lightens _
          generalize search.turn s index = turn at hlightens
          cases turn with
          | failed fault => rfl
          | exhausted =>
              change Lighter (load ⟨s, around, false⟩) (load ⟨s, search :: around, false⟩)
              rw [load_cons]
              exact Lighter.add_left_of_ne_zero _ (Multiset.cons_ne_zero)
          | going next =>
              change Lighter (load ⟨s, next :: around, false⟩) (load ⟨s, search :: around, false⟩)
              rw [load_cons, load_cons]
              exact hlightens.2.add_right _
          | found next =>
              obtain ⟨hlater, hload⟩ := hlightens
              rw [settle, hlater]
              cases hrest : search.later with
              | nil =>
                  change Lighter (load ⟨s, next :: around, false⟩) (load ⟨s, search :: around, false⟩)
                  rw [load_cons, load_cons, hload]
                  refine Lighter.add_right _ ?_
                  rw [← Multiset.singleton_add]
                  exact Lighter.add_left_of_ne_zero _ (Multiset.singleton_ne_zero _)
              | cons c later =>
                  change Lighter (load ⟨s, .enter c later next.bindings :: next :: around, false⟩)
                    (load ⟨s, search :: around, false⟩)
                  rw [load_cons, load_cons, load_cons, hload, hrest, Multiset.cons_add]
                  exact lighter_of_enter _ _

/-- Whether turns that give nothing lead from some stacks to others. -/
def Goes (index : Index) : Stacks → Stacks → Prop :=
  Relation.ReflTransGen fun m m' => m.turn index = .going m'

/-- Whether turns lead to an outcome, and leave other stacks with it. -/
inductive Yields (index : Index) : Stacks → Except Fault (Option Bindings) → Stacks → Prop
  | gives {m m' : Stacks} {outcome : Except Fault (Option Bindings)}
      (h : m.turn index = .gives outcome m') : Yields index m outcome m'
  | going {m m' m'' : Stacks} {outcome : Except Fault (Option Bindings)}
      (h : m.turn index = .going m') (hrest : Yields index m' outcome m'') : Yields index m outcome m''

theorem Yields.after (hgoes : Goes index m m') (h : Yields index m' outcome m'') :
    Yields index m outcome m'' := by
  induction hgoes using Relation.ReflTransGen.head_induction_on with
  | refl => exact h
  | head hturn hrest ih => exact .going hturn ih

/-- Turns lead to an outcome from any stacks, whatever the graph. -/
theorem exists_yields (index : Index) (m : Stacks) : ∃ outcome m', Yields index m outcome m' := by
  induction hload : m.load using Lighter.wellFounded.induction generalizing m with
  | _ weights ih =>
      subst hload
      have hlightens := turn_lightens index m
      cases hturn : m.turn index with
      | gives outcome m' => exact ⟨outcome, m', .gives hturn⟩
      | going next =>
          rw [hturn] at hlightens
          obtain ⟨outcome, m', hyields⟩ := ih next.load hlightens next rfl
          exact ⟨outcome, m', .going hturn hyields⟩

/-- A match leaves less weight than there was before, and after anything else nothing is left. -/
theorem Yields.lightens (h : Yields index m outcome m') : (Turn.gives outcome m').Lightens m := by
  induction h with
  | @gives m m' outcome hturn => exact hturn ▸ turn_lightens index m
  | @going m next m' outcome hturn hrest ih =>
      have hnext : Lighter next.load m.load := by
        have hlightens := turn_lightens index m
        rwa [hturn] at hlightens
      match outcome with
      | .ok (some row) => exact Lighter.trans ih hnext
      | .ok none | .error fault => exact ih

/-- Nothing comes out of stacks from which nothing more is taken, and they stay as they are. -/
theorem Yields.of_done (h : Yields index m outcome m') (hdone : m.done = true) :
    outcome = .ok none ∧ m' = m := by
  have hturn : m.turn index = .gives (.ok none) m := by rw [turn, if_pos hdone]
  cases h with
  | gives hgives =>
      rw [hturn] at hgives
      cases hgives
      exact ⟨rfl, rfl⟩
  | going hgoing hrest =>
      rw [hturn] at hgoing
      cases hgoing

/-- Finitely many turns are enough for an outcome. -/
theorem Yields.pull (h : Yields index m outcome m') :
    ∃ bound, ∀ fuel, bound ≤ fuel → m.pull index fuel = some (outcome, m') := by
  have hstart : ∀ {fuel bound : Nat}, bound + 1 ≤ fuel → ∃ more, fuel = more + 1 ∧ bound ≤ more :=
    fun {fuel bound} hfuel => ⟨fuel - 1, by omega, by omega⟩
  induction h with
  | gives hturn =>
      refine ⟨1, fun fuel hfuel => ?_⟩
      obtain ⟨more, rfl, -⟩ := hstart hfuel
      rw [Stacks.pull, hturn]
  | going hturn hrest ih =>
      obtain ⟨bound, hpull⟩ := ih
      refine ⟨bound + 1, fun fuel hfuel => ?_⟩
      obtain ⟨more, rfl, hmore⟩ := hstart hfuel
      rw [Stacks.pull, hturn]
      exact hpull more hmore

end Stacks

end PatternGraph
