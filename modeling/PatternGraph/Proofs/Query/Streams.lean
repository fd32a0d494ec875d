import Mathlib.Data.List.ReduceOption
import PatternGraph.Proofs.Query.Suspension

/-!
# Streams of matches and rows

The matches of a compiled query can be taken one by one, and its rows a few at a time, while the
graph changes between one pull and the next.  Whatever it holds at each of them, no pull fails, every
match binds each slot to an item that the slot accepts, and no match comes twice.
-/

namespace PatternGraph

namespace StreamState

/-- Whether a stream is at its start, at its end, or stopped at a match of its query. -/
def Sound (c : CompiledQuery) : StreamState → Prop
  | .fresh | .finished => True
  | .paused leaf marks =>
    Search.Pauses c.slots ∅ c.plan.moves (Search.noBindings c.slots) marks leaf

/-- The matches that may still come from a stream. -/
def Ahead : StreamState → Set Bindings
  | .fresh => Set.univ
  | .paused leaf marks => {next | Search.Ahead marks leaf next}
  | .finished => ∅

end StreamState

namespace CompiledQuery

variable {σ : Type} {c : CompiledQuery} {index : Index} {g : Diagram} {state : StreamState}

/-- Whether the plan of a compiled query is the one of its slots, which are as they should be. -/
structure Planned (c : CompiledQuery) : Prop where
  wellFormed : c.slots.WellFormed
  plan : c.plan = Plan.ofSlots c.slots
  placed : c.slots.Placed

theorem Planned.leads (hc : c.Planned) : c.slots.Leads ∅ c.plan.moves := by
  rw [hc.plan]
  exact hc.wellFormed.leads

/-- The search behind a stream ends, or stops at a match that may have been expected. -/
theorem Planned.proceed
    (hc : c.Planned)
    (h : index.Represents g)
    (visit : σ → Bindings → Verdict σ)
    (hvisit : ∀ acc row fault, c.slots.Full row → visit acc row ≠ .fail fault)
    (hstate : state.Sound c)
    (acc : σ) :
    (∃ acc' row, c.proceed index visit acc state = .exhausted acc' row) ∨
      ∃ acc' leaf marks, c.proceed index visit acc state = .halted acc' leaf marks ∧
        StreamState.Sound c (.paused leaf marks) ∧ leaf ∈ state.Ahead ∧
        (StreamState.paused leaf marks).Ahead ⊆ state.Ahead := by
  have hrow := Slots.Suits.noBindings c.slots
  cases state with
  | finished => exact Or.inl ⟨acc, #[], rfl⟩
  | fresh =>
      have hsound := Search.descend_sound h hvisit c.plan.moves acc hc.leads hrow
      change (c.proceed index visit acc .fresh).Sound c.slots ∅ c.plan.moves _ at hsound
      cases hprogress : c.proceed index visit acc .fresh with
      | failed acc' fault =>
          rw [hprogress] at hsound
          exact hsound.elim
      | exhausted acc' row => exact Or.inl ⟨acc', row, rfl⟩
      | halted acc' leaf marks =>
          rw [hprogress] at hsound
          exact Or.inr ⟨acc', leaf, marks, rfl, hsound, trivial, fun _ _ => trivial⟩
  | paused leaf marks =>
      obtain ⟨hsound, hwithin⟩ := Search.resume_sound h hvisit acc hstate hc.leads hrow
      change (c.proceed index visit acc (.paused leaf marks)).Sound c.slots ∅ c.plan.moves _ at hsound
      change (c.proceed index visit acc (.paused leaf marks)).Within _ at hwithin
      cases hprogress : c.proceed index visit acc (.paused leaf marks) with
      | failed acc' fault =>
          rw [hprogress] at hsound
          exact hsound.elim
      | exhausted acc' row => exact Or.inl ⟨acc', row, rfl⟩
      | halted acc' leaf' marks' =>
          rw [hprogress] at hsound hwithin
          exact Or.inr ⟨acc', leaf', marks', rfl, hsound, hwithin.1, fun next => hwithin.2 next⟩

end CompiledQuery

namespace MatchStream

variable {stream : MatchStream} {index : Index} {g : Diagram}

/-- The outcomes of taking matches from a stream, on one index after the other. -/
def pulls : List Index → MatchStream → List (Except Fault (Option Bindings))
  | [], _ => []
  | index :: rest, stream => (stream.next index).1 :: pulls rest (stream.next index).2

/-- Taking a match: there is none, or one that binds every slot and will not come again. -/
theorem next_spec
    (hc : stream.query.Planned)
    (h : index.Represents g)
    (hstate : stream.state.Sound stream.query) :
    ∃ state, state.Sound stream.query ∧ state.Ahead ⊆ stream.state.Ahead ∧
      (stream.next index = (.ok none, { stream with state }) ∨
        ∃ row, stream.next index = (.ok (some row), { stream with state }) ∧
          stream.query.slots.Full row ∧ row ∈ stream.state.Ahead ∧ row ∉ state.Ahead) := by
  rcases hc.proceed h (fun _ _ => .halt ()) (fun _ _ _ _ => nofun) hstate () with
    ⟨_, row, hprogress⟩ | ⟨_, leaf, marks, hprogress, hsound, hleaf, hahead⟩
  · refine ⟨.finished, trivial, Set.empty_subset _, Or.inl ?_⟩
    rw [next, hprogress]
  · have hrow := Slots.Suits.noBindings stream.query.slots
    refine ⟨.paused leaf marks, hsound, hahead, Or.inr ⟨leaf, ?_, hsound.full hc.leads hrow, hleaf,
      fun hself => hsound.ne_of_ahead hc.leads hrow hself rfl⟩⟩
    rw [next, hprogress]

/-- No pull fails, every match binds each slot, and no match comes twice. -/
theorem pulls_spec
    (stream : MatchStream)
    {indexes : List Index}
    (hc : stream.query.Planned)
    (h : ∀ index ∈ indexes, ∃ g, index.Represents g)
    (hstate : stream.state.Sound stream.query) :
    ∃ found : List (Option Bindings), stream.pulls indexes = found.map .ok ∧
      (∀ row ∈ found.reduceOption, stream.query.slots.Full row ∧ row ∈ stream.state.Ahead) ∧
      found.reduceOption.Nodup := by
  induction indexes generalizing stream with
  | nil => exact ⟨[], rfl, by simp [List.reduceOption_nil], List.nodup_nil⟩
  | cons index indexes ih =>
      obtain ⟨g, hg⟩ := h index List.mem_cons_self
      obtain ⟨state, hsound, hsubset, hnext⟩ := next_spec hc hg hstate
      obtain ⟨found, hpulls, hrows, honce⟩ := ih { stream with state } hc
        (fun i hi => h i (List.mem_cons_of_mem index hi)) hsound
      have hlater : ∀ row ∈ found.reduceOption,
          stream.query.slots.Full row ∧ row ∈ stream.state.Ahead :=
        fun row hrow => ⟨(hrows row hrow).1, hsubset (hrows row hrow).2⟩
      rcases hnext with hnone | ⟨row, hsome, hfull, hahead, hpast⟩
      · refine ⟨none :: found, ?_, hlater, honce⟩
        rw [pulls, hnone, hpulls]
        rfl
      · refine ⟨some row :: found, ?_, ?_, ?_⟩
        · rw [pulls, hsome, hpulls]
          rfl
        · rw [List.reduceOption_cons_of_some]
          exact List.forall_mem_cons.mpr ⟨⟨hfull, hahead⟩, hlater⟩
        · rw [List.reduceOption_cons_of_some, List.nodup_cons]
          exact ⟨fun hrow => hpast (hrows row hrow).2, honce⟩

end MatchStream

namespace Stream

variable {stream : Stream} {index : Index} {g : Diagram}

/-- The outcomes of taking rows from a stream, up to a limit each time, on one index after another. -/
def takes : List (Nat × Index) → Stream → List (Except Fault (List Row))
  | [], _ => []
  | (limit, index) :: rest, stream =>
    (stream.take limit index).1 :: takes rest (stream.take limit index).2

/-- A visitor that gathers rows does not fail on a match that binds every slot. -/
theorem gather_ne_fail
    {s : Slots}
    {row : Bindings}
    (hplaced : s.Placed)
    (hrow : s.Full row)
    (harvest : Harvest)
    (fault : Fault) :
    harvest.gather s row ≠ .fail fault := by
  obtain ⟨r, hr⟩ := hrow.exists_project hplaced
  rw [Harvest.gather, hr]
  simp only
  split
  · exact nofun
  · unfold Harvest.add
    split
    · exact nofun
    · split <;> exact nofun

/-- Taking rows does not fail, and leaves the stream of the same query as it should be. -/
theorem take_spec
    (hc : stream.query.Planned)
    (h : index.Represents g)
    (hstate : stream.state.Sound stream.query)
    (limit : Nat) :
    (∃ rows, (stream.take limit index).1 = .ok rows) ∧
      (stream.take limit index).2.query = stream.query ∧
      (stream.take limit index).2.state.Sound stream.query := by
  rw [take]
  by_cases hlimit : limit = 0
  · rw [if_pos hlimit]
    exact ⟨⟨[], rfl⟩, rfl, hstate⟩
  · rw [if_neg hlimit]
    rcases hc.proceed h (Harvest.gather stream.query.slots)
        (fun harvest row fault hrow => gather_ne_fail hc.placed hrow harvest fault) hstate
        ⟨stream.seen, [], some limit⟩ with
      ⟨harvest, row, hprogress⟩ | ⟨harvest, leaf, marks, hprogress, hsound, -⟩
    · rw [hprogress]
      exact ⟨⟨_, rfl⟩, rfl, trivial⟩
    · rw [hprogress]
      exact ⟨⟨_, rfl⟩, rfl, hsound⟩

theorem takes_spec
    (stream : Stream)
    {pulls : List (Nat × Index)}
    (hc : stream.query.Planned)
    (h : ∀ pull ∈ pulls, ∃ g, pull.2.Represents g)
    (hstate : stream.state.Sound stream.query) :
    ∃ rows : List (List Row), stream.takes pulls = rows.map .ok := by
  induction pulls generalizing stream with
  | nil => exact ⟨[], rfl⟩
  | cons pull pulls ih =>
      obtain ⟨limit, index⟩ := pull
      obtain ⟨g, hg⟩ := h (limit, index) List.mem_cons_self
      obtain ⟨⟨first, hfirst⟩, hquery, hsound⟩ := take_spec hc hg hstate limit
      rw [← hquery] at hc hsound
      obtain ⟨rest, hrest⟩ := ih _ hc (fun p hp => h p (List.mem_cons_of_mem _ hp)) hsound
      refine ⟨first :: rest, ?_⟩
      rw [takes, hfirst, hrest]
      rfl

end Stream

namespace Query

variable {query : Query} {c : CompiledQuery}

theorem planned_of_compile (h : query.compile = .ok c) : c.Planned := by
  obtain ⟨hlower, hplan⟩ := of_compile h
  obtain ⟨tags, htags⟩ := exists_lowersTo hlower
  exact ⟨htags.wellFormed, hplan, htags.placed⟩

/--
Compiling a query fails for reasons that lie in the query only.  From a query that compiles, matches
and rows can be taken without a fault, whatever changes the graph has seen before each pull; every
match binds each slot to an item that the slot accepts, and no match comes twice.
-/
theorem compile_runs_faultless (query : Query) :
    (∀ fault, query.compile = .error fault → fault.category ≠ .internalConsistency) ∧
      ∀ c, query.compile = .ok c →
        (∀ histories : List (List Index.Operation), ∃ found : List (Option Bindings),
          (MatchStream.ofQuery c).pulls (histories.map Index.after) = found.map .ok ∧
            (∀ row ∈ found.reduceOption, c.slots.Full row) ∧ found.reduceOption.Nodup) ∧
        ∀ histories : List (Nat × List Index.Operation), ∃ rows : List (List Row),
          (Stream.ofQuery c).takes (histories.map fun pull => (pull.1, Index.after pull.2)) =
            rows.map .ok := by
  refine ⟨fun fault h => category_of_compile h, fun c h => ⟨fun histories => ?_, fun histories => ?_⟩⟩
  · have hindexes : ∀ index ∈ histories.map Index.after, ∃ g, index.Represents g := by
      intro index hindex
      obtain ⟨ops, -, rfl⟩ := List.mem_map.mp hindex
      exact ⟨_, Index.after_represents ops⟩
    obtain ⟨found, hpulls, hrows, honce⟩ :=
      MatchStream.pulls_spec (.ofQuery c) (planned_of_compile h) hindexes trivial
    exact ⟨found, hpulls, fun row hrow => (hrows row hrow).1, honce⟩
  · refine Stream.takes_spec (.ofQuery c) (planned_of_compile h) (fun pull hpull => ?_)
      trivial
    obtain ⟨history, -, rfl⟩ := List.mem_map.mp hpull
    exact ⟨_, Index.after_represents history.2⟩

/--
A blank name is refused as such.  And the search for the ends of the edges from a node goes on without
a fault when the node and its edges are removed after the first match.
-/
theorem pulls_after_removal :
    (∃ fault, compile (.single (.reference "")) = .error fault ∧
      fault.category ≠ .internalConsistency) ∧
    ∃ c, compile (.single (.nodeFragment (.any (.root .node)) (some "a") []
        [(.leadsTo, .nodeType (.root .node))])) = .ok c ∧
      ∃ found : List (Option Bindings), (MatchStream.ofQuery c).pulls
          ([[.insertNode ⟨⟨1⟩, .root .node⟩, .insertNode ⟨⟨2⟩, .root .node⟩,
              .insertEdge ⟨⟨3⟩, .root .edge⟩ ⟨⟨1⟩, ⟨2⟩⟩, .insertEdge ⟨⟨4⟩, .root .edge⟩ ⟨⟨1⟩, ⟨2⟩⟩],
            [.insertNode ⟨⟨2⟩, .root .node⟩]].map Index.after) = found.map .ok ∧
        (∀ row ∈ found.reduceOption, c.slots.Full row) ∧ found.reduceOption.Nodup := by
  obtain ⟨fault, hfault⟩ : ∃ fault, compile (.single (.reference "")) = .error fault :=
    ⟨.blankName, by decide +kernel⟩
  obtain ⟨c, hc, -⟩ := exists_of_compiles
    (.single (.nodeFragment (.any (.root .node)) (some "a") []
      [(.leadsTo, .nodeType (.root .node))])) (fun _ => true) (by decide +kernel)
  exact ⟨⟨fault, hfault, (compile_runs_faultless _).1 fault hfault⟩,
    c, hc, ((compile_runs_faultless _).2 c hc).1 _⟩

end Query

end PatternGraph
