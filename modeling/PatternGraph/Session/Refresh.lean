import PatternGraph.Session.State

/-!
# Keeping live queries fresh

A live query that holds its rows collects them when it is opened and again on every event about an
item that could matter to it.  An observer takes in the rows of each refresh of its live query and
has its listeners told what has changed, removals first.  Destroying a live query or an observer ends
its subscription and drops its rows.
-/

namespace PatternGraph.Session

variable {ρ : Type}

/-- Changes a live query. -/
def updateQuery (s : Session ρ) (id : QueryId) (change : LiveQuery → LiveQuery) : Session ρ :=
  { s with queries := s.queries.modify id change }

/-- Changes an observer. -/
def updateObserver (s : Session ρ) (id : ObserverId) (change : Observer → Observer) : Session ρ :=
  { s with observers := s.observers.modify id change }

/-- The current rows of a compiled query on a graph. -/
def collect (s : Session ρ) (query : CompiledQuery) (graph : GraphId) : Except Fault (List Row) :=
  query.collect (s.store.index graph)

/-- Opens a live query that holds no rows. -/
def openUncached (s : Session ρ) (graph : GraphId) (query : Query) :
    Except Fault (QueryId × LiveQuery × Session ρ) := do
  let compiled ← query.compile
  let (number, s) := s.issue
  let live := LiveQuery.uncached graph compiled
  return (⟨number⟩, live, { s with queries := s.queries.insert ⟨number⟩ live })

/-- Opens a live query that holds its rows: collects them and subscribes to the graph. -/
def openCached (s : Session ρ) (graph : GraphId) (query : Query) (observer : Option ObserverId) :
    Except Fault (QueryId × LiveQuery × Session ρ) := do
  let compiled ← query.compile
  let rows ← s.collect compiled graph
  let (number, s) := s.issue
  let (stamp, s) := s.issue
  let (subscription, board) := (s.board graph).subscribe (.query ⟨number⟩)
  let live := LiveQuery.holding graph compiled ⟨stamp, rows⟩ subscription observer
  return (⟨number⟩, live,
    { s.setBoard graph board with queries := s.queries.insert ⟨number⟩ live })

/-- Ends the subscription of a live query and drops its rows. -/
def destroyQuery (s : Session ρ) (id : QueryId) : Session ρ :=
  match s.queries[id]? with
  | none => s
  | some live =>
    let s := s.updateQuery id LiveQuery.destroy
    match live.subscription with
    | none => s
    | some subscription =>
      s.setBoard live.graph ((s.board live.graph).unsubscribe subscription)

/-- Destroys a live query that its holder has let go. -/
def discardQuery (s : Session ρ) (id : QueryId) : Session ρ :=
  let s := s.destroyQuery id
  { s with queries := s.queries.erase id }

/-- Opens an observer; the first rows count as added. -/
def openObserver (s : Session ρ) (graph : GraphId) (query : Query) :
    Except Fault (ObserverId × LiveQuery × Session ρ) := do
  let (number, s) := s.issue
  let (queryId, live, s) ← s.openCached graph query (some ⟨number⟩)
  let observer := Observer.ofRows queryId (live.snapshot.elim [] Snapshot.rows)
  return (⟨number⟩, live, { s with observers := s.observers.insert ⟨number⟩ observer })

/-- Destroys an observer together with its live query. -/
def destroyObserver (s : Session ρ) (id : ObserverId) : Session ρ :=
  match s.observers[id]? with
  | none => s
  | some observer => (s.destroyQuery observer.query).updateObserver id Observer.destroy

/-- Destroys the live query of an observer that its holder has let go. -/
def discardObserver (s : Session ρ) (id : ObserverId) : Session ρ :=
  match s.observers[id]? with
  | none => s
  | some observer => s.discardQuery observer.query

/-- Hands the rows of a refresh to an observer, which tells its listeners of the differences. -/
def observe (s : Session ρ) (id : ObserverId) (query : CompiledQuery) (rows : List Row) :
    Session ρ :=
  match s.observers[id]? with
  | none => s
  | some observer =>
    if observer.destroyed then s
    else
      let (difference, observer) := observer.absorb rows
      let s := s.updateObserver id fun _ => observer
      if difference.isEmpty then s
      else s.push [.announce ⟨id, query.slots.pinnedItems, rows, difference, [.removed, .added]⟩]

/-- Lets a live query react to an event of its graph; a refresh that fails changes nothing. -/
def refresh (s : Session ρ) (graph : GraphId) (event : Event) (id : QueryId) : Session ρ :=
  match s.queries[id]? with
  | none => s
  | some live =>
    if live.concerns event.item then
      match s.collect live.query graph with
      | .error _ => s
      | .ok rows =>
        let (stamp, s) := s.issue
        let s := s.updateQuery id fun live => { live with snapshot := some ⟨stamp, rows⟩ }
        match live.observer with
        | none => s
        | some observer => s.observe observer live.query rows
    else s

/-- The listeners that an observer has for rows that came or went. -/
def listeners (s : Session ρ) (id : ObserverId) (change : Change) : List ScriptId :=
  match s.observers[id]? with
  | some observer => observer.listeners change
  | none => []

end PatternGraph.Session
