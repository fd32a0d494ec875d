import PatternGraph.Proofs.Query.Gathering
import PatternGraph.Proofs.Query.Scattering
import PatternGraph.Proofs.Session.Feeding
import PatternGraph.Proofs.Session.Running

/-!
# What an observer accounts for

Every refresh adds to the queues of an observer the rows that have come and those that have gone.  So
however the listeners of observers and the subscribers of graphs interfere, and whenever the queues are
drained, what has come and what has gone make up for the rows that the observer retains.
-/

namespace PatternGraph

variable {ρ : Type}

namespace Row

/-- The rows of one list whose keys are not in another one. -/
def beyond (rows others : List Row) : List Row :=
  rows.filter fun row => row.key ∉ others.map Row.key

variable {rows others : List Row}

theorem key_eq_iff {a b : Row} (hshape : a.shape = b.shape) : a.key = b.key ↔ a.ids = b.ids := by
  constructor
  · exact fun h => congrArg Layout.values h
  · exact fun h => Layout.eq_of_values hshape h

theorem mem_beyond {row : Row} :
    row ∈ beyond rows others ↔ row ∈ rows ∧ row.key ∉ others.map Row.key := by
  rw [beyond, List.mem_filter, decide_eq_true_iff]

theorem beyond_self (rows : List Row) : beyond rows rows = [] :=
  List.filter_eq_nil_iff.mpr fun row hrow => by simpa using ⟨row, hrow, rfl⟩

/-- Rows that differ in their keys are found beyond others once each. -/
theorem count_beyond (hrows : (rows.map Row.key).Nodup) (others : List Row) (key : RowKey) :
    ((beyond rows others).map Row.key).count key =
      if key ∈ rows.map Row.key ∧ key ∉ others.map Row.key then 1 else 0 := by
  have hnodup : ((beyond rows others).map Row.key).Nodup :=
    hrows.sublist (List.filter_sublist.map Row.key)
  have hmem : key ∈ (beyond rows others).map Row.key ↔
      key ∈ rows.map Row.key ∧ key ∉ others.map Row.key := by
    simp only [List.mem_map, mem_beyond]
    constructor
    · rintro ⟨row, ⟨hrow, hnew⟩, rfl⟩
      exact ⟨⟨row, hrow, rfl⟩, by simpa using hnew⟩
    · rintro ⟨⟨row, hrow, rfl⟩, hnew⟩
      exact ⟨row, ⟨hrow, by simpa using hnew⟩, rfl⟩
  rw [hnodup.count]
  simp only [hmem]

/-- What comes and what goes between two lists of rows makes up for the keys of both. -/
theorem count_between (hrows : (rows.map Row.key).Nodup) (hothers : (others.map Row.key).Nodup)
    (key : RowKey) :
    ((beyond others rows).map Row.key).count key + (if key ∈ rows.map Row.key then 1 else 0) =
      ((beyond rows others).map Row.key).count key +
        if key ∈ others.map Row.key then 1 else 0 := by
  rw [count_beyond hrows, count_beyond hothers]
  by_cases hin : key ∈ rows.map Row.key
  · by_cases hother : key ∈ others.map Row.key
    · simp [hin, hother]
    · simp [hin, hother]
  · by_cases hother : key ∈ others.map Row.key
    · simp [hin, hother]
    · simp [hin, hother]

end Row

namespace CompiledQuery.Yields

variable {c : CompiledQuery} {rows others : List Row}

theorem nodup_keys (h : c.Yields rows) : (rows.map Row.key).Nodup := by
  obtain ⟨index, hrows⟩ := h
  refine List.Nodup.of_map Layout.values ?_
  rw [List.map_map]
  exact (tidy_of_collect hrows).2

/-- Among the rows of one query those that are missing are known by their keys. -/
theorem rowsMissing_eq (h : c.Yields rows) (h' : c.Yields others) :
    rowsMissing rows others = Row.beyond rows others := by
  obtain ⟨index, hrows⟩ := h
  obtain ⟨index', hothers⟩ := h'
  refine List.filter_congr fun row hrow => ?_
  obtain ⟨bindings, hproject⟩ := (tidy_of_collect hrows).1 row hrow
  have hmem : row.ids ∈ others.map Row.ids ↔ row.key ∈ others.map Row.key := by
    simp only [List.mem_map]
    refine exists_congr fun other => and_congr_right fun hother => ?_
    obtain ⟨bindings', hproject'⟩ := (tidy_of_collect hothers).1 other hother
    exact (Row.key_eq_iff (Slots.shape_of_project hproject' hproject)).symm
  rw [Std.ExtTreeSet.contains_ofList, decide_not]
  congr 1
  rw [List.contains_eq_mem, decide_eq_decide]
  exact hmem

end CompiledQuery.Yields

namespace Observer

/-- The rows that a refresh adds to one of the queues. -/
def adds (before after : List Row) : Change → List Row
  | .added => Row.beyond after before
  | .removed => Row.beyond before after

theorem adds_self (rows : List Row) (change : Change) : adds rows rows change = [] := by
  cases change with
  | added => exact Row.beyond_self rows
  | removed => exact Row.beyond_self rows

@[simp]
theorem listen_queue (observer : Observer) (id : ScriptId) (on change : Change) :
    (observer.listen id on).queue change = observer.queue change := by
  cases on <;> cases change <;> rfl

@[simp]
theorem listen_retained (observer : Observer) (id : ScriptId) (on : Change) :
    (observer.listen id on).retained = observer.retained := by
  cases on <;> rfl

@[simp]
theorem listen_destroyed (observer : Observer) (id : ScriptId) (on : Change) :
    (observer.listen id on).destroyed = observer.destroyed := by
  cases on <;> rfl

theorem drain_queue (observer : Observer) (on change : Change) :
    (observer.drain on).2.queue change = if on = change then [] else observer.queue change := by
  cases on <;> cases change <;> rfl

@[simp]
theorem drain_retained (observer : Observer) (on : Change) :
    (observer.drain on).2.retained = observer.retained := by
  cases on <;> rfl

@[simp]
theorem drain_destroyed (observer : Observer) (on : Change) :
    (observer.drain on).2.destroyed = observer.destroyed := by
  cases on <;> rfl

theorem queue_absorb {c : CompiledQuery} {observer : Observer} {rows : List Row}
    (hformer : c.Yields observer.retained) (hrows : c.Yields rows) (change : Change) :
    (observer.absorb rows).2.queue change =
      observer.queue change ++ adds observer.retained rows change := by
  cases change with
  | added => exact congrArg (observer.added ++ ·) (hrows.rowsMissing_eq hformer)
  | removed => exact congrArg (observer.removed ++ ·) (hformer.rowsMissing_eq hrows)

end Observer

namespace Session

variable {s s' : Session ρ} {begun : List (Command ρ)} {past : List (Stage ρ)} {id : ObserverId}
  {observer observer' : Observer} {change : Change}

/-- The rows that a client is given who drains a queue of an observer. -/
def polled (s : Session ρ) (id : ObserverId) (change : Change) : List Row :=
  match (s.drain id change).outcome with
  | .reply (.rows rows) => rows
  | _ => []

theorem polled_eq (h : s.observers[id]? = some observer) (change : Change) :
    s.polled id change = observer.queue change := by
  rw [polled, drain, h]
  cases change with
  | added => rfl
  | removed => rfl

theorem polled_eq_nil (h : s.observers[id]? = none) (change : Change) : s.polled id change = [] := by
  rw [polled, drain, h]
  rfl

end Session

/-- The rows of a queue that have been given to whoever drains it in a stage. -/
def Stage.returned (id : ObserverId) (change : Change) (stage : Stage ρ) : List Row :=
  stage.begun.flatMap fun
    | .drain other on => if other = id ∧ on = change then stage.state.polled id change else []
    | _ => []

namespace Session

variable {s s' : Session ρ} {begun : List (Command ρ)} {past : List (Stage ρ)} {id : ObserverId}
  {observer observer' : Observer} {change : Change}

/-- The rows of a queue that have been given to whoever drained it, the first ones first. -/
def returned (id : ObserverId) (change : Change) (past : List (Stage ρ)) : List Row :=
  past.reverse.flatMap (Stage.returned id change)

theorem returned_cons (stage : Stage ρ) (past : List (Stage ρ)) :
    returned id change (stage :: past) = returned id change past ++ stage.returned id change := by
  rw [returned, List.reverse_cons, List.flatMap_append, List.flatMap_singleton]
  rfl

/-- An observer that is not there gives no rows. -/
theorem Stage.returned_eq_nil (h : s.observers[id]? = none) (begun : List (Command ρ))
    (change : Change) : Stage.returned id change ⟨s, begun⟩ = [] := by
  refine List.flatMap_eq_nil_iff.mpr fun c _ => ?_
  cases c with
  | drain other on =>
      dsimp only
      rw [polled_eq_nil h, ite_self]
  | _ => rfl

/-- A command that does not destroy an observer takes from its queues what it returns, and nothing else. -/
theorem returned_append_alter
    {c : Command ρ}
    {fresh : ScriptId}
    (hobserver : s.observers[id]? = some observer)
    (hdestroyed : (c.alter fresh id observer).destroyed = false) :
    (∀ change, Stage.returned id change ⟨s, [c]⟩ ++ (c.alter fresh id observer).queue change =
        observer.queue change) ∧
      (c.alter fresh id observer).retained = observer.retained ∧ observer.destroyed = false := by
  cases c with
  | listen as other on times steps =>
      rw [Command.alter] at hdestroyed ⊢
      split
      · rename_i hother
        rw [if_pos hother, Observer.listen_destroyed] at hdestroyed
        exact ⟨fun change => observer.listen_queue _ on change, observer.listen_retained _ on, hdestroyed⟩
      · rename_i hother
        rw [if_neg hother] at hdestroyed
        exact ⟨fun _ => rfl, rfl, hdestroyed⟩
  | drain other on =>
      rw [Command.alter] at hdestroyed ⊢
      split
      · rename_i hother
        rw [if_pos hother, Observer.drain_destroyed] at hdestroyed
        refine ⟨fun change => ?_, observer.drain_retained on, hdestroyed⟩
        rw [Stage.returned, List.flatMap_singleton, Observer.drain_queue]
        by_cases hon : on = change
        · simp [hother, hon, polled_eq hobserver]
        · simp [hon]
      · rename_i hother
        rw [if_neg hother] at hdestroyed
        refine ⟨fun change => ?_, rfl, hdestroyed⟩
        rw [Stage.returned, List.flatMap_singleton]
        simp [hother]
  | destroyObserver other =>
      rw [Command.alter] at hdestroyed ⊢
      split
      · rename_i hother
        rw [if_pos hother] at hdestroyed
        cases hdestroyed
      · rename_i hother
        rw [if_neg hother] at hdestroyed
        exact ⟨fun _ => rfl, rfl, hdestroyed⟩
  | _ => exact ⟨fun _ => rfl, rfl, hdestroyed⟩

/-- Whether two lists of rows are the same or have been the rows of one query. -/
def Alike (rows others : List Row) : Prop :=
  others = rows ∨ ∃ c : CompiledQuery, c.Yields rows ∧ c.Yields others

/--
A turn adds to the queues of an observer what has come to the rows that it retains and what has gone from
them; what is drained is taken from the front of a queue.
-/
theorem Shift.queues
    (h : s.Shift begun s')
    (hnumber : id.number ≤ s.issued)
    (hobserver : s.observers[id]? = some observer)
    (hobserver' : s'.observers[id]? = some observer')
    (hdestroyed : observer'.destroyed = false) :
    (∀ change, Stage.returned id change ⟨s, begun⟩ ++ observer'.queue change =
        observer.queue change ++ Observer.adds observer.retained observer'.retained change) ∧
      Alike observer.retained observer'.retained ∧ observer.destroyed = false := by
  have hsame : s.observers[id]? = some observer' →
      (∀ change, observer'.queue change =
        observer.queue change ++ Observer.adds observer.retained observer'.retained change) ∧
      Alike observer.retained observer'.retained ∧ observer.destroyed = false := by
    intro hmem
    obtain rfl := Option.some.inj (hobserver.symm.trans hmem)
    exact ⟨fun change => by rw [Observer.adds_self, List.append_nil], Or.inl rfl, hdestroyed⟩
  cases h with
  | still hsilent hloud hobservers => exact hsame (hobservers id observer' hobserver')
  | begins c hsilent hloud hobservers hissued =>
      rcases hobservers id observer' hobserver' with ⟨hnew, -⟩ | ⟨former, hformer, rfl⟩
      · exact absurd hnumber (Nat.not_le_of_lt hnew)
      · obtain rfl := Option.some.inj (hobserver.symm.trans hformer)
        obtain ⟨hqueues, hretained, hlive⟩ := returned_append_alter hobserver hdestroyed
        refine ⟨fun change => ?_, Or.inl hretained, hlive⟩
        rw [hqueues, hretained, Observer.adds_self, List.append_nil]
  | absorbs fed shown query rows pinned hsilent hshown hfed hformer hrows hloud hobservers =>
      obtain ⟨former, hmem, rfl⟩ := hobservers id observer' hobserver'
      by_cases hid : id = fed
      · subst hid
        obtain rfl := Option.some.inj (hmem.symm.trans hshown)
        obtain rfl := Option.some.inj (hobserver.symm.trans hshown)
        rw [if_pos rfl]
        exact ⟨Observer.queue_absorb hformer hrows, Or.inr ⟨query, hformer, hrows⟩, hfed⟩
      · rw [if_neg hid] at hsame ⊢
        exact hsame hmem
  | announces a rest htasks hloud hobservers => exact hsame (hobservers id observer' hobserver')
  | notifies on rows listeners rest htasks hloud hobservers =>
      exact hsame (hobservers id observer' hobserver')

/-- An observer that was not there before is a new one. -/
theorem Shift.opens
    (h : s.Shift begun s')
    (hnone : s.observers[id]? = none)
    (hobserver' : s'.observers[id]? = some observer') :
    s.Opens id observer' := by
  have hold : ∀ {observer : Observer}, s.observers[id]? = some observer → s.Opens id observer' := by
    intro observer hobserver
    rw [hnone] at hobserver
    cases hobserver
  cases h with
  | still hsilent hloud hobservers => exact hold (hobservers id observer' hobserver')
  | begins c hsilent hloud hobservers hissued =>
      rcases hobservers id observer' hobserver' with hopens | ⟨observer, hobserver, -⟩
      · exact hopens
      · exact hold hobserver
  | absorbs fed shown query rows pinned hsilent hshown hfed hformer hrows hloud hobservers =>
      obtain ⟨observer, hobserver, -⟩ := hobservers id observer' hobserver'
      exact hold hobserver
  | announces a rest htasks hloud hobservers => exact hold (hobservers id observer' hobserver')
  | notifies on rows listeners rest htasks hloud hobservers =>
      exact hold (hobservers id observer' hobserver')

/-- Nobody has been given rows of an observer that is still to be opened. -/
theorem Course.returned_eq_nil (h : Course .empty past s) (hnew : s.issued < id.number)
    (change : Change) : returned id change past = [] := by
  induction h with
  | refl => rfl
  | turn h hturn ih =>
      have hbefore := (Tends.turn hturn).issued.trans_lt hnew
      rw [returned_cons, ih hbefore, Stage.returned_eq_nil (h.mirrored.observer_eq_none hbefore),
        List.append_nil]

/-- What has been returned of the queues, and what waits there, makes up for the retained rows. -/
def Balanced (returned : Change → List Row) (observer : Observer) : Prop :=
  ∀ key : RowKey, ((returned .added ++ observer.added).map Row.key).count key =
    ((returned .removed ++ observer.removed).map Row.key).count key +
      if key ∈ observer.retained.map Row.key then 1 else 0

/-- A new observer has nothing but its first rows, each once. -/
theorem Opens.balanced (h : s.Opens id observer) : Balanced (fun _ => []) observer := by
  obtain ⟨-, query, rows, rfl, c, hrows⟩ := h
  intro key
  rw [List.nil_append, List.nil_append, Observer.ofRows, hrows.nodup_keys.count, List.map_nil,
    List.count_nil, Nat.zero_add]

/-- What comes and goes keeps the balance. -/
theorem Balanced.keeps
    {returned returned' : Change → List Row}
    (h : Balanced returned observer)
    (hqueues : ∀ change, returned' change ++ observer'.queue change = returned change ++
      (observer.queue change ++ Observer.adds observer.retained observer'.retained change))
    (halike : Alike observer.retained observer'.retained) :
    Balanced returned' observer' := by
  intro key
  have hmoves : ((Row.beyond observer'.retained observer.retained).map Row.key).count key +
        (if key ∈ observer.retained.map Row.key then 1 else 0) =
      ((Row.beyond observer.retained observer'.retained).map Row.key).count key +
        if key ∈ observer'.retained.map Row.key then 1 else 0 := by
    rcases halike with hsame | ⟨c, hformer, hrows⟩
    · rw [hsame]
    · exact Row.count_between hformer.nodup_keys hrows.nodup_keys key
  have hadded : returned' .added ++ observer'.added = returned .added ++
      (observer.added ++ Row.beyond observer'.retained observer.retained) := hqueues .added
  have hremoved : returned' .removed ++ observer'.removed = returned .removed ++
      (observer.removed ++ Row.beyond observer.retained observer'.retained) := hqueues .removed
  have hbefore := h key
  rw [hadded, hremoved]
  simp only [List.map_append, List.count_append] at hbefore ⊢
  omega

/-- What has been returned of the queues of an observer, and what waits there, is balanced at all times. -/
theorem Course.balanced
    (h : Course .empty past s)
    (hobserver : s.observers[id]? = some observer)
    (hdestroyed : observer.destroyed = false) :
    Balanced (fun change => returned id change past) observer := by
  induction h generalizing observer with
  | refl => simp [Session.empty] at hobserver
  | @turn past s s' begun h hturn ih =>
      have hshift := h.shift hturn
      cases hformer : s.observers[id]? with
      | none =>
          have hopens := hshift.opens hformer hobserver
          have hnone : (fun change => returned id change (⟨s, begun⟩ :: past)) = fun _ => [] := by
            funext change
            rw [returned_cons, h.returned_eq_nil hopens.1, Stage.returned_eq_nil hformer,
              List.append_nil]
          rw [hnone]
          exact hopens.balanced
      | some former =>
          have hnumber := (h.mirrored.observer id former hformer).1
          obtain ⟨hqueues, halike, hlive⟩ := hshift.queues hnumber hformer hobserver hdestroyed
          refine (ih hformer hlive).keeps (fun change => ?_) halike
          rw [returned_cons, List.append_assoc, hqueues]

/-- Rows that are to be told to listeners are there at all. -/
theorem Course.notified_ne_nil
    {rows : List Row}
    {listeners : List ScriptId}
    (h : Course .empty past s)
    (htask : .notify change rows listeners ∈ s.loud) :
    rows ≠ [] := by
  induction h generalizing listeners with
  | refl => cases htask
  | turn h hturn ih =>
      rcases (h.shift hturn).notify_mem htask with ⟨told, hmem⟩ | ⟨hsome, -⟩
      · exact ih hmem
      · exact hsome

/--
Until an observer is destroyed, its results are the rows that it retains.  Of every row key, what has been
returned of the arrivals, and what waits there, exceeds what has been returned of the departures, and
what waits there, by one if the key is among the results and by nothing otherwise.  With every turn the
queue of arrivals gets the rows that are new among the results, in their new order, and the queue of
departures those that have gone, in their old order.  No key comes and goes at once, and no listener is
ever called without rows.
-/
theorem Course.rows_accounted
    (h : Course .empty past s)
    (hobserver : s.observers[id]? = some observer)
    (hdestroyed : observer.destroyed = false) :
    s.respond (.results id) = .ok (.rows observer.retained) ∧
    (∀ key : RowKey, ((returned id .added past ++ observer.added).map Row.key).count key =
      ((returned id .removed past ++ observer.removed).map Row.key).count key +
        if key ∈ observer.retained.map Row.key then 1 else 0) ∧
    (∀ begun s' observer', s.Turn begun s' → s'.observers[id]? = some observer' →
      observer'.destroyed = false →
        let came := observer'.retained.filter fun row => row.key ∉ observer.retained.map Row.key
        let went := observer.retained.filter fun row => row.key ∉ observer'.retained.map Row.key
        Stage.returned id .added ⟨s, begun⟩ ++ observer'.added = observer.added ++ came ∧
        Stage.returned id .removed ⟨s, begun⟩ ++ observer'.removed = observer.removed ++ went ∧
        ∀ row ∈ came, row.key ∉ went.map Row.key) ∧
    ∀ listener, ∀ rows ∈ s.hears listener, rows ≠ [] := by
  refine ⟨?_, h.balanced hobserver hdestroyed, ?_, fun listener rows hrows => ?_⟩
  · rw [respond, withObserver, hobserver]
  · intro begun s' observer' hturn hobserver' hdestroyed' came went
    have hnumber := (h.mirrored.observer id observer hobserver).1
    obtain ⟨hqueues, -⟩ := (h.shift hturn).queues hnumber hobserver hobserver' hdestroyed'
    refine ⟨hqueues .added, hqueues .removed, fun row hrow hmem => ?_⟩
    obtain ⟨other, hother, hkey⟩ := List.mem_map.mp hmem
    have hgone := (Row.mem_beyond.mp hother).2
    exact hgone (hkey ▸ List.mem_map_of_mem (Row.mem_beyond.mp hrow).1)
  · obtain ⟨change, others, rest, htasks⟩ := of_mem_hears hrows
    exact h.notified_ne_nil (mem_loud htasks rfl)

/--
Upon the arrival of a node a listener removes it again, and drains the queue of arrivals while the other
listener has still to be told.  The row has been returned as an arrival, and waits as a departure.
-/
theorem accounted_after_reentry :
    ∃ (past : List (Stage Nat)) (s : Session Nat) (observer : Observer),
      Course .empty past s ∧ s.observers[(⟨1⟩ : ObserverId)]? = some observer ∧
        observer.destroyed = false ∧ (returned ⟨1⟩ .added past).length = 1 ∧ observer.added = [] ∧
        observer.removed.length = 1 ∧ s.respond (.results ⟨1⟩) = .ok (.rows observer.retained) ∧
        ∀ key : RowKey, ((returned ⟨1⟩ .added past ++ observer.added).map Row.key).count key =
          ((returned ⟨1⟩ .removed past ++ observer.removed).map Row.key).count key +
            if key ∈ observer.retained.map Row.key then 1 else 0 := by
  let node : Node := ⟨⟨1⟩, .root .node⟩
  let interpret := numbered [.createGraph "g", .observe "o" ⟨1⟩ (.single (.nodeType (.root .node))),
    .listen "l" ⟨1⟩ .added 1 [6, 7], .listen "m" ⟨1⟩ .added 0 [], .createNode "a" (.root .node) .null,
    .addNode ⟨1⟩ node, .removeNode ⟨1⟩ node, .drain ⟨1⟩ .added]
  have h := (Course.refl : Course (.empty : Session Nat) [] .empty).requested interpret 40
    [0, 1, 2, 3, 4, 5] (by decide +kernel)
  obtain ⟨observer, hobserver, hshown⟩ := Option.map_eq_some_iff.mp
    (by decide +kernel :
      (([0, 1, 2, 3, 4, 5].foldl (Session.request interpret 40) .empty).observers[
        (⟨1⟩ : ObserverId)]?).map (fun o => (o.destroyed, o.added, o.removed.length)) =
          some (false, [], 1))
  obtain ⟨hdestroyed, hadded, hremoved⟩ : observer.destroyed = false ∧ observer.added = [] ∧
      observer.removed.length = 1 := by
    simpa only [Prod.mk.injEq] using hshown
  obtain ⟨hresults, hbalance, -, -⟩ := h.rows_accounted hobserver hdestroyed
  exact ⟨_, _, observer, h, hobserver, hdestroyed, by decide +kernel, hadded, hremoved, hresults, hbalance⟩

end Session

end PatternGraph
