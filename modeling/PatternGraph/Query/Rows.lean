import Std.Data.ExtTreeSet
import PatternGraph.Query.Lowering
import PatternGraph.Query.Search

/-!
# Rows

A match is shown as a row, which is laid out like the query: the item bound to each slot is put in the
places in which the slot is shown, and the row is there when every place has been filled.  A stream gives the rows of a query one after the other and leaves out those
it has given before.  It can be paused after any row; two rows are the same when they have the same
shape and the same items in every position, which is what a `RowKey` tells.

The matches themselves can be taken one by one as well, each as often as it is found.
-/

namespace PatternGraph

/-- A result of a query. -/
abbrev Row := Layout Item

/-- What a row is compared by. -/
abbrev RowKey := Layout ItemId

/-- The identity of a row. -/
def Row.key (row : Row) : RowKey :=
  row.map Item.id

/-- The items of a row, by identity. -/
def Row.ids (row : Row) : List ItemId :=
  row.values.map Item.id

/-- A row that is being filled. -/
structure Tray where
  /-- The item in the one place of a row that has no others. -/
  root : Option Item
  /-- The items in the places of a list. -/
  list : Array (Option Item)
  /-- The items under the keys of a record. -/
  entries : Std.ExtTreeMap String Item

namespace Tray

/-- Nothing, with room for a row of a shape. -/
def empty : Shape → Tray
  | .list length => ⟨none, .replicate length none, ∅⟩
  | .single | .record .. => ⟨none, #[], ∅⟩

/-- Puts an item in a place. -/
def put (item : Item) (tray : Tray) : Position → Except Fault Tray
  | .root => .ok { tray with root := some item }
  | .index i =>
    if i < tray.list.size then .ok { tray with list := tray.list.setIfInBounds i (some item) }
    else .error (.outputOutOfRange i)
  | .key k => .ok { tray with entries := tray.entries.insert k item }

/-- The items of a list, of which the first place has a given index. -/
def listed : List (Option Item) → Nat → Except Fault (List Item)
  | [], _ => .ok []
  | none :: _, i => .error (.indexEmpty i)
  | some item :: rest, i => (listed rest (i + 1)).map (item :: ·)

/-- The row of a shape, if every place has been filled. -/
def row (tray : Tray) : Shape → Except Fault Row
  | .single =>
    match tray.root with
    | some item => .ok (.single item)
    | none => .error .rootEmpty
  | .list _ => (listed tray.list.toList 0).map Layout.list
  | .record keys _ =>
    match keys.find? fun key => !tray.entries.contains key with
    | some key => .error (.keyEmpty key)
    | none => .ok (.ofMap tray.entries)

end Tray

namespace Slots

/-- The item bound to a slot, if any. -/
def lookup (row : Bindings) (slot : Nat) : Option Item :=
  (row[slot]?).join

/--
Puts the items bound to slots, of which the first has a given number, in the places in which the slots
are shown.
-/
def scatter (row : Bindings) : List Slot → Nat → Tray → Except Fault Tray
  | [], _, tray => .ok tray
  | slot :: rest, i, tray =>
    if slot.outputs.isEmpty then scatter row rest (i + 1) tray
    else
      match lookup row i with
      | none => .error (.outputUnbound slot.name)
      | some item => do scatter row rest (i + 1) (← slot.outputs.foldlM (Tray.put item) tray)

/-- The row of a match. -/
def project (s : Slots) (row : Bindings) : Except Fault Row := do
  let tray ← scatter row s.slots.toList 0 (.empty s.shape)
  tray.row s.shape

end Slots

/--
The rows gathered by a visitor, the latest first, the identities of all rows so far, and the number
of rows still wanted, if there is a limit.
-/
structure Harvest where
  seen : Std.ExtTreeSet (List ItemId)
  rows : List Row
  wanted : Option Nat

namespace Harvest

/-- Adds a row that has not been seen before, and stops when no more are wanted. -/
def add (harvest : Harvest) (row : Row) : Verdict Harvest :=
  let seen := harvest.seen.insert row.ids
  let rows := row :: harvest.rows
  match harvest.wanted with
  | none => .next ⟨seen, rows, none⟩
  | some wanted =>
    if 1 < wanted then .next ⟨seen, rows, some (wanted - 1)⟩ else .halt ⟨seen, rows, some 0⟩

/-- Adds the row of a match unless it was seen before. -/
def gather (s : Slots) (harvest : Harvest) (row : Bindings) : Verdict Harvest :=
  match s.project row with
  | .error fault => .fail fault
  | .ok row => if harvest.seen.contains row.ids then .next harvest else harvest.add row

end Harvest

/-- A query in its lowered and planned form. -/
structure CompiledQuery where
  slots : Slots
  plan : Plan
deriving DecidableEq

namespace Query

/-- Lowers a query to slots. -/
def lower (query : Query) : Except Fault Slots :=
  match (Lowering.all (Layout.places query)).run Draft.empty with
  | .error fault => .error fault
  | .ok ((), draft) => .ok ⟨draft.slots, query.shape⟩

/-- Lowers and plans a query. -/
def compile (query : Query) : Except Fault CompiledQuery := do
  let slots ← query.lower
  let plan ← Plan.make slots
  return ⟨slots, plan⟩

end Query

namespace CompiledQuery

/-- All rows of a query on an index, each once, in the order of their first matches. -/
def collect (c : CompiledQuery) (index : Index) : Except Fault (List Row) :=
  match Search.start c.slots c.plan index (Harvest.gather c.slots) ⟨∅, [], none⟩ with
  | .halted harvest _ _ | .exhausted harvest _ => .ok harvest.rows.reverse
  | .failed _ fault => .error fault

end CompiledQuery

/-- How far a stream of rows has come. -/
inductive StreamState where
  | fresh
  | paused (row : Bindings) (marks : List Mark)
  | finished

/-- Lets the search for a query go on from where a stream has come to. -/
def CompiledQuery.proceed {σ : Type} (c : CompiledQuery) (index : Index)
    (visit : σ → Bindings → Verdict σ) (acc : σ) : StreamState → Progress σ
  | .fresh => Search.start c.slots c.plan index visit acc
  | .paused row marks => Search.resume c.slots index visit marks acc row
  | .finished => .exhausted acc #[]

/-- The matches of a query, as far as they have not been given yet. -/
structure MatchStream where
  query : CompiledQuery
  state : StreamState

namespace MatchStream

/-- A stream from which no match has been taken. -/
def ofQuery (query : CompiledQuery) : MatchStream :=
  ⟨query, .fresh⟩

/-- Takes the next match, if there is one, or the fault that ends the stream. -/
def next (stream : MatchStream) (index : Index) : Except Fault (Option Bindings) × MatchStream :=
  match stream.query.proceed index (fun _ _ => .halt ()) () stream.state with
  | .halted _ row marks => (.ok (some row), { stream with state := .paused row marks })
  | .exhausted .. => (.ok none, { stream with state := .finished })
  | .failed _ fault => (.error fault, { stream with state := .finished })

end MatchStream

/-- The rows of a query, as far as they have not been given yet. -/
structure Stream where
  query : CompiledQuery
  seen : Std.ExtTreeSet (List ItemId)
  state : StreamState

namespace Stream

/-- A stream from which no row has been taken. -/
def ofQuery (query : CompiledQuery) : Stream :=
  ⟨query, ∅, .fresh⟩

/-- Takes up to `limit` further rows, or the fault that ends the stream. -/
def take (stream : Stream) (limit : Nat) (index : Index) : Except Fault (List Row) × Stream :=
  if limit = 0 then (.ok [], stream)
  else
    match stream.query.proceed index (Harvest.gather stream.query.slots)
      ⟨stream.seen, [], some limit⟩ stream.state with
    | .halted harvest row marks =>
      (.ok harvest.rows.reverse, { stream with seen := harvest.seen, state := .paused row marks })
    | .exhausted harvest _ => (.ok harvest.rows.reverse, { stream with state := .finished })
    | .failed _ fault => (.error fault, { stream with state := .finished })

end Stream

end PatternGraph
