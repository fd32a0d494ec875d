import PatternGraph.Live.LiveQuery

/-!
# Observers

An observer keeps the rows of the latest refresh of a live query.  A further refresh is compared with
them row by row: rows that are new count as added, rows that are gone as removed.  Both are queued
until a client drains the queue, and both are what the observer's listeners are told.
-/

namespace PatternGraph

/-- The rows of one list that are not in another, by identity. -/
def rowsMissing (rows others : List Row) : List Row :=
  let ids : Std.ExtTreeSet (List ItemId) := .ofList (others.map Row.ids)
  rows.filter fun row => !ids.contains row.ids

/-- What came and what went from one refresh to the next. -/
structure Difference where
  added : List Row
  removed : List Row
deriving DecidableEq

namespace Difference

/-- The difference between the rows before and after a refresh. -/
def between (before after : List Row) : Difference :=
  ⟨rowsMissing after before, rowsMissing before after⟩

/-- The rows that came or that went. -/
def rows (d : Difference) : Change → List Row
  | .added => d.added
  | .removed => d.removed

/-- Whether nothing came and nothing went. -/
def isEmpty (d : Difference) : Bool :=
  d.added.isEmpty && d.removed.isEmpty

end Difference

/-- A feed of the differences between refreshes of a live query. -/
structure Observer where
  query : QueryId
  /-- The rows of the latest refresh. -/
  retained : List Row
  /-- The rows that came since the queue was drained. -/
  added : List Row
  /-- The rows that went since the queue was drained. -/
  removed : List Row
  onAdded : List ScriptId
  onRemoved : List ScriptId
  destroyed : Bool
deriving DecidableEq

namespace Observer

/-- An observer of a live query with its first rows, which count as added. -/
def ofRows (query : QueryId) (rows : List Row) : Observer :=
  ⟨query, rows, rows, [], [], [], false⟩

/-- Takes in the rows of a refresh, and tells what has changed. -/
def absorb (observer : Observer) (rows : List Row) : Difference × Observer :=
  let difference := Difference.between observer.retained rows
  (difference,
    { observer with
      retained := rows
      added := observer.added ++ difference.added
      removed := observer.removed ++ difference.removed })

/-- Empties one of the queues and gives what was in it. -/
def drain (observer : Observer) : Change → List Row × Observer
  | .added => (observer.added, { observer with added := [] })
  | .removed => (observer.removed, { observer with removed := [] })

/-- The listeners for rows that came or that went. -/
def listeners (observer : Observer) : Change → List ScriptId
  | .added => observer.onAdded
  | .removed => observer.onRemoved

/-- Adds a listener for rows that come or that go. -/
def listen (observer : Observer) (id : ScriptId) : Change → Observer
  | .added => { observer with onAdded := observer.onAdded ++ [id] }
  | .removed => { observer with onRemoved := observer.onRemoved ++ [id] }

/-- A destroyed observer: without rows, queues and listeners. -/
def destroy (observer : Observer) : Observer :=
  ⟨observer.query, [], [], [], [], [], true⟩

/-- An observer as it is shown. -/
def describe (observer : Observer) : String :=
  "Observer \x7b retained: " ++ toString observer.retained.length ++ ", pending_added: " ++
    toString observer.added.length ++ ", pending_removed: " ++ toString observer.removed.length ++
    " \x7d"

end Observer

end PatternGraph
