import PatternGraph.Live.Observer
import PatternGraph.Session.Reply
import PatternGraph.Store.Attachment

/-!
# The state of a session

A `Session` is a store with everything that lives on it: subscribers, live queries, observers, the
names under which a client holds things, and the tasks in progress.  Handlers are scripts of
requests; a script that runs during a delivery issues its requests on top of what is in progress, so
the tasks form a stack.  The type of requests is a parameter.
-/

namespace PatternGraph

/-- What a client holds, by the names it has chosen. -/
structure Names where
  nodeTypes : Std.ExtTreeMap String NodeType
  edgeTypes : Std.ExtTreeMap String EdgeType
  nodes : Std.ExtTreeMap String Node
  edges : Std.ExtTreeMap String Edge
  graphs : Std.ExtTreeMap String GraphId
  subscriptions : Std.ExtTreeMap String Nat
  queries : Std.ExtTreeMap String QueryId
  observers : Std.ExtTreeMap String ObserverId
  compiled : Std.ExtTreeMap String CompiledQuery
  cursors : Std.ExtTreeMap String Cursor

namespace Names

/-- The names that exist from the start: those of the two root types. -/
def initial : Names :=
  ⟨(∅ : Std.ExtTreeMap String NodeType).insert "Node" (Typ.root .node),
    (∅ : Std.ExtTreeMap String EdgeType).insert "Edge" (Typ.root .edge),
    ∅, ∅, ∅, ∅, ∅, ∅, ∅, ∅⟩

end Names

/-- How a command ends, and what it holds until then. -/
structure Ending where
  outcome : Outcome
  graph : GraphId
  edges : List Edge
  /-- A name to be given to an edge if the command succeeds. -/
  binding : Option (String × Edge)

/-- A refresh of which listeners are being told. -/
structure Announcement where
  observer : ObserverId
  /-- The items that the query names. -/
  pinned : List Item
  rows : List Row
  difference : Difference
  /-- The parts of the difference of which listeners have not been told yet. -/
  rest : List Change

/-- Something in progress. -/
inductive Task (ρ : Type) where
  /-- Wire an edge to its new ends and attach it. -/
  | connect (edge : Edge) (source target : Node) (ending : Ending)
  /-- Go on attaching items. -/
  | attach (a : Attachment) (ending : Ending)
  /-- Tell the subscribers of a graph about events, one after the other. -/
  | dispatch (graph : GraphId) (events : List Event)
  /-- Tell the listed subscribers about one event. -/
  | deliver (graph : GraphId) (event : Event) (handlers : List Handler)
  /-- Tell the listeners of an observer about a refresh. -/
  | announce (a : Announcement)
  /-- Tell the listed listeners about rows that came or went. -/
  | notify (change : Change) (rows : List Row) (listeners : List ScriptId)
  /-- Issue the requests of a script. -/
  | script (label : String) (steps : List ρ)
  /-- Record the outcome of a request of a script. -/
  | record (label : String)
  /-- Add further nodes unless the last one could not be added. -/
  | addNodes (graph : GraphId) (rest added : List Node)
  /-- Remove further nodes. -/
  | removeNodes (graph : GraphId) (rest : List Node)
  /-- Remove further edges of those that a command names. -/
  | removeEdges (graph : GraphId) (rest named : List Edge)
  /-- End a command. -/
  | finish (ending : Ending)

/-- What subscribers and listeners write down. -/
inductive Entry where
  /-- A subscriber was told about an event, when the graph had so many nodes and edges. -/
  | event (label : String) (graph : GraphId) (event : Event) (nodes edges : Nat)
  /-- A listener was told about rows. -/
  | batch (label : String) (change : Change) (rows : List Row)
  /-- A request of a script had an outcome. -/
  | step (label : String) (outcome : Outcome)

/-- The state of a session; the log comes latest first. -/
structure Session (ρ : Type) where
  vocabulary : Vocabulary
  store : Store
  boards : Std.ExtTreeMap GraphId Board
  queries : Std.ExtTreeMap QueryId LiveQuery
  observers : Std.ExtTreeMap ObserverId Observer
  scripts : Std.ExtTreeMap ScriptId (Script ρ)
  /-- The number of identities given to queries, observers, scripts and snapshots. -/
  issued : Nat
  names : Names
  tasks : List (Task ρ)
  log : List Entry
  outcome : Outcome

namespace Session

variable {ρ : Type}

/-- The session in which nothing has happened. -/
def empty : Session ρ :=
  ⟨.roots, .empty, ∅, ∅, ∅, ∅, 0, .initial, [], [], .reply .done⟩

instance : Inhabited (Session ρ) := ⟨empty⟩

/-- Whether nothing is in progress. -/
def idle (s : Session ρ) : Bool :=
  s.tasks.isEmpty

/-- Puts tasks on top of those in progress. -/
def push (s : Session ρ) (tasks : List (Task ρ)) : Session ρ :=
  { s with tasks := tasks ++ s.tasks }

/-- Notes the outcome of the latest command. -/
def conclude (s : Session ρ) (outcome : Outcome) : Session ρ :=
  { s with outcome := outcome }

/-- Notes a reply. -/
def answer (s : Session ρ) (reply : Reply) : Session ρ :=
  s.conclude (.reply reply)

/-- Writes an entry into the log. -/
def write (s : Session ρ) (entry : Entry) : Session ρ :=
  { s with log := entry :: s.log }

/-- The subscribers of a graph. -/
def board (s : Session ρ) (graph : GraphId) : Board :=
  s.boards.getD graph .empty

/-- Replaces the subscribers of a graph. -/
def setBoard (s : Session ρ) (graph : GraphId) (board : Board) : Session ρ :=
  { s with boards := s.boards.insert graph board }

/-- Hands out a fresh number. -/
def issue (s : Session ρ) : Nat × Session ρ :=
  (s.issued + 1, { s with issued := s.issued + 1 })

end Session

end PatternGraph
