import PatternGraph.Proofs.Query.Numbers
import PatternGraph.Proofs.Query.Resuming

/-!
# Enumerations end

Matches are taken one by one while the graph changes, and it may grow with every match.  Each match
still takes weight from the stacks, and so there are only finitely many of them, after which comes at
most one fault and then nothing for ever.  The plan need not have been made for the slots, nor make any
sense: the stream, the stacks and the machine that keeps numbers go the same way in all plans.
-/

namespace PatternGraph

namespace Executor

variable {stream : MatchStream} {m m' : Executor} {shown : Stacks} {index : Index} {rest : List Index}
  {outcomes : List (Except Fault (Option Bindings))}

/-- More turns than are needed do no harm. -/
theorem pull_of_le
    {fuel more : Nat}
    {result : Except Fault (Option Bindings) × Executor}
    (h : m.pull index fuel = some result)
    (hle : fuel ≤ more) :
    m.pull index more = some result := by
  induction fuel generalizing m more with
  | zero => cases h
  | succ fuel ih =>
      obtain ⟨more, rfl⟩ : ∃ k, more = k + 1 := ⟨more - 1, by omega⟩
      rw [pull] at h ⊢
      cases hturn : m.turn index with
      | going next =>
          rw [hturn] at h
          exact ih h (by omega)
      | gives outcome next =>
          rw [hturn] at h
          exact h
      | outOfRange =>
          rw [hturn] at h
          cases h

/-- Whether a stream and a machine that keeps numbers have come to the same stacks. -/
structure Together (stream : MatchStream) (m : Executor) (shown : Stacks) : Prop where
  keeps : stream.state.Keeps stream.query shown
  stands : m.StandsFor shown

/-- From one match to the next, the stream and the machine give the same and stay together. -/
theorem Together.next (h : Together stream m shown) (index : Index) :
    ∃ m' shown' bound, Together (stream.next index).2 m' shown' ∧
      shown.Yields index (stream.next index).1 shown' ∧
        ∀ fuel, bound ≤ fuel → m.pull index fuel = some ((stream.next index).1, m') := by
  obtain ⟨shown', hyields, hkeeps⟩ := stream.yields_of_keeps h.keeps index
  obtain ⟨bound, hbound⟩ := hyields.pull
  obtain ⟨m', hpull, hstands⟩ := h.stands.pull (hbound bound le_rfl)
  exact ⟨m', shown', bound, ⟨hkeeps, hstands⟩, hyields, fun fuel hfuel => pull_of_le hpull hfuel⟩

/--
Whether taking matches on the listed graphs, one on each, has the listed outcomes: from a stream, and from
a machine that keeps numbers, which needs finitely many turns and finds no number out of range.
-/
def Gives (stream : MatchStream) (m : Executor) (indexes : List Index)
    (outcomes : List (Except Fault (Option Bindings))) : Prop :=
  stream.pulls indexes = outcomes ∧
    ∃ bound, ∀ fuel, bound ≤ fuel → m.pulls fuel indexes = some outcomes

theorem Gives.nil (stream : MatchStream) (m : Executor) : Gives stream m [] [] :=
  ⟨rfl, 0, fun _ _ => rfl⟩

theorem Gives.cons
    {bound : Nat}
    (hpull : ∀ fuel, bound ≤ fuel → m.pull index fuel = some ((stream.next index).1, m'))
    (h : Gives (stream.next index).2 m' rest outcomes) :
    Gives stream m (index :: rest) ((stream.next index).1 :: outcomes) := by
  obtain ⟨hstream, more, hmore⟩ := h
  refine ⟨?_, max bound more, fun fuel hfuel => ?_⟩
  · rw [MatchStream.pulls, hstream]
  · rw [Executor.pulls, hpull fuel (le_of_max_le_left hfuel)]
    dsimp only [Option.bind_eq_bind, Option.bind_some]
    rw [hmore fuel (le_of_max_le_right hfuel)]
    rfl

/-- Nothing is given any more when there is nothing left. -/
theorem Together.gives_of_done
    (h : Together stream m shown)
    (hdone : shown.done = true)
    (indexes : List Index) :
    Gives stream m indexes (List.replicate indexes.length (.ok none)) := by
  induction indexes generalizing stream m with
  | nil => exact .nil stream m
  | cons index rest ih =>
      obtain ⟨m', shown', bound, htogether, hyields, hpull⟩ := h.next index
      obtain ⟨houtcome, rfl⟩ := hyields.of_done hdone
      have hgives := Gives.cons hpull (ih htogether)
      rw [houtcome] at hgives
      exact hgives

/-- Whether taking matches on certain graphs has the listed outcomes, and then nothing for ever. -/
def Ends (stream : MatchStream) (m : Executor) (indexes : Nat → Index)
    (outcomes : List (Except Fault (Option Bindings))) : Prop :=
  ∀ n, Gives stream m ((List.range n).map indexes)
    ((outcomes ++ List.replicate n (Except.ok none)).take n)

theorem Together.ends_of_done
    (h : Together stream m shown)
    (hdone : shown.done = true)
    (indexes : Nat → Index) :
    Ends stream m indexes [] := by
  intro n
  have hgives := h.gives_of_done hdone ((List.range n).map indexes)
  simpa using hgives

/-- What is given from the start, when it is known what is given first and what from there on. -/
theorem Ends.of_next
    {indexes : Nat → Index}
    {bound : Nat}
    (hpull : ∀ fuel, bound ≤ fuel → m.pull (indexes 0) fuel = some ((stream.next (indexes 0)).1, m'))
    (h : Ends (stream.next (indexes 0)).2 m' (fun k => indexes (k + 1)) outcomes.tail)
    (hfirst : outcomes.headD (.ok none) = (stream.next (indexes 0)).1) :
    Ends stream m indexes outcomes := by
  intro n
  cases n with
  | zero => exact .nil stream m
  | succ n =>
      rw [Matches.take_outcomes_succ, hfirst, List.range_succ_eq_map, List.map_cons, List.map_map]
      exact .cons hpull (h n)

/--
There are finitely many matches to be taken on any graphs one after the other, then at most one fault, and
then nothing.  The induction is on the weights in the stacks.
-/
theorem Together.exists_ends (h : Together stream m shown) (indexes : Nat → Index) :
    ∃ ended : Matches, Ends stream m indexes ended.outcomes := by
  induction hload : shown.load using Lighter.wellFounded.induction
    generalizing stream m shown indexes with
  | _ weights ih =>
      subst hload
      obtain ⟨m', shown', bound, htogether, hyields, hpull⟩ := h.next (indexes 0)
      have hlightens := hyields.lightens
      match houtcome : (stream.next (indexes 0)).1 with
      | .ok (some row) =>
          rw [houtcome] at hlightens
          obtain ⟨⟨found, fault⟩, hended⟩ :=
            ih shown'.load hlightens htogether (fun k => indexes (k + 1)) rfl
          exact ⟨⟨row :: found, fault⟩, .of_next hpull hended houtcome.symm⟩
      | .error fault =>
          rw [houtcome] at hlightens
          have hended := htogether.ends_of_done hlightens fun k => indexes (k + 1)
          exact ⟨⟨[], some fault⟩, .of_next hpull hended houtcome.symm⟩
      | .ok none =>
          rw [houtcome] at hlightens
          have hended := htogether.ends_of_done hlightens fun k => indexes (k + 1)
          exact ⟨⟨[], none⟩, .of_next hpull hended houtcome.symm⟩

/-- From a machine that has been reached, the next match is taken in finitely many turns. -/
theorem Reached.exists_pull
    {plan : Plan}
    {s : Slots}
    (h : Reached plan s m)
    (index : Index) :
    ∃ outcome m' bound, ∀ fuel, bound ≤ fuel → m.pull index fuel = some (outcome, m') := by
  obtain ⟨shown, hstands⟩ := h.standsFor
  obtain ⟨outcome, shown', hyields⟩ := shown.exists_yields index
  obtain ⟨bound, hbound⟩ := hyields.pull
  obtain ⟨m', hpull, -⟩ := hstands.pull (hbound bound le_rfl)
  exact ⟨outcome, m', bound, fun fuel hfuel => pull_of_le hpull hfuel⟩

/--
Enumeration ends, whatever the plan and the slots, and however the graph changes between the pulls: there
are some matches, at most one fault after them, and then nothing for ever, and each pull takes finitely
many turns.  Wherever turns may lead the machine, even with another graph for each of them, no step and
no binding that it goes to next is out of range, and finitely many turns are enough for the next pull.
-/
theorem enumeration_ends (c : CompiledQuery) :
    (∀ indexes : Nat → Index, ∃ ended : Matches,
      Ends (.ofQuery c) (start c.plan c.slots) indexes ended.outcomes) ∧
    ∀ m, Reached c.plan c.slots m → ∀ index,
      m.turn index ≠ .outOfRange ∧
      ∃ outcome m' bound, ∀ fuel, bound ≤ fuel → m.pull index fuel = some (outcome, m') := by
  have hstart : Together (.ofQuery c) (start c.plan c.slots) (Stacks.start c.plan c.slots) :=
    ⟨rfl, start_standsFor c.plan c.slots⟩
  exact ⟨hstart.exists_ends, fun m h index => ⟨h.inRange index, h.exists_pull index⟩⟩

/--
A slot that is bound by two steps is bound again by the second one, to each node that there is when the
step is entered; then the slot is cleared, and the first step goes on with the nodes that there were at
the start.
-/
theorem repeated_slot_on_growing_graph :
    let s : Slots := ⟨#[{ Slot.fresh "a" .node false with outputs := [.index 0] }], .list 1⟩
    let twice : Plan := ⟨[⟨[0], [.scanNodes 0 (.root .node), .scanNodes 0 (.root .node)]⟩]⟩
    let nodes (count : Nat) : Index :=
      .after ((List.range count).map fun id => .insertNode ⟨⟨id⟩, .root .node⟩)
    let found (id : Nat) : Except Fault (Option Bindings) :=
      .ok (some #[some (.node ⟨⟨id⟩, .root .node⟩)])
    (∃ bound, ∀ fuel, bound ≤ fuel →
      (start twice s).pulls fuel ((List.range 7).map fun pull => nodes (pull + 2)) =
        some [found 0, found 1, found 0, found 1, found 2, found 3, .ok none]) ∧
    Reached twice s (start twice s) ∧ (start twice s).turn (nodes 2) ≠ .outOfRange := by
  intro s twice nodes found
  obtain ⟨hends, hrange⟩ := enumeration_ends ⟨s, twice⟩
  obtain ⟨ended, hended⟩ := hends fun pull => nodes (pull + 2)
  obtain ⟨hstream, bound, hbound⟩ := hended 7
  rw [← hstream] at hbound
  refine ⟨⟨bound, fun fuel hfuel => (hbound fuel hfuel).trans ?_⟩, .start, (hrange _ .start _).1⟩
  decide +kernel

end Executor

end PatternGraph
