import PatternGraph.Proofs.Session.Orderly
import PatternGraph.Proofs.Session.Tending

/-!
# What becomes of observers and of those who listen to them

A turn opens an observer, begins a command that drains, destroys or listens to one, hands it the rows of a
refresh, or goes on telling listeners of a refresh.  Which of these it is tells all that happens to the
observers and to the tasks that tell listeners.
-/

namespace PatternGraph

variable {ρ : Type}

namespace Observer

/-- What waits in one of the queues of an observer. -/
def queue (observer : Observer) : Change → List Row
  | .added => observer.added
  | .removed => observer.removed

end Observer

/-- What a command makes of an observer; a script that it adds has the identity `fresh`. -/
def Command.alter (fresh : ScriptId) (id : ObserverId) (observer : Observer) : Command ρ → Observer
  | .listen _ other on _ _ => if other = id then observer.listen fresh on else observer
  | .drain other change => if other = id then (observer.drain change).2 else observer
  | .destroyObserver other => if other = id then observer.destroy else observer
  | _ => observer

/-- Whether a task tells the listeners of an observer. -/
def Task.isLoud : Task ρ → Bool
  | .announce _ | .notify .. => true
  | _ => false

/-- The tasks that a refresh leaves which is told to listeners. -/
def Difference.announced (difference : Difference) (id : ObserverId) (pinned : List Item)
    (rows : List Row) : List (Task ρ) :=
  if difference.isEmpty then [] else [.announce ⟨id, pinned, rows, difference, [.removed, .added]⟩]

namespace Session

variable {s s' s'' : Session ρ} {interpret : Interpreter ρ} {begun : List (Command ρ)}

/-- The tasks in progress that tell listeners. -/
def loud (s : Session ρ) : List (Task ρ) :=
  s.tasks.filter Task.isLoud

/-- What is left of an announcement when it has gone on: first the listeners of the next part are told. -/
def goesOn (s : Session ρ) (a : Announcement) : List (Task ρ) :=
  match a.rest with
  | [] => []
  | change :: rest =>
    let rows := a.difference.rows change
    (if rows.isEmpty then [] else [.notify change rows (s.listeners a.observer change)]) ++
      [.announce { a with rest := rest }]

/-- What is left of a list of listeners who are told of rows when the first of them has been told. -/
def othersOf (change : Change) (rows : List Row) : List ScriptId → List (Task ρ)
  | [] => []
  | _ :: others => [.notify change rows others]

/-- The rows that a listener is called with by the next step, if it is called. -/
def hears (l : ScriptId) (s : Session ρ) : List (List Row) :=
  match s.tasks with
  | .notify _ rows (listener :: _) :: _ => if listener = l then [rows] else []
  | _ => []

/-- Whether an observer is new, and has rows that its query has had. -/
def Opens (s : Session ρ) (id : ObserverId) (observer : Observer) : Prop :=
  s.issued < id.number ∧ ∃ query rows, observer = .ofRows query rows ∧
    ∃ c : CompiledQuery, c.Yields rows

/-- What a turn does to observers and to the tasks that tell listeners. -/
inductive Shift (s : Session ρ) : List (Command ρ) → Session ρ → Prop
  /-- Something else is done. -/
  | still {s' : Session ρ}
      (hsilent : ∀ change rows listeners rest, s.tasks ≠ .notify change rows listeners :: rest)
      (hloud : s'.loud = s.loud)
      (hobservers : ∀ (id : ObserverId) (observer : Observer), s'.observers[id]? = some observer →
        s.observers[id]? = some observer) :
      Shift s [] s'
  /-- A command is begun. -/
  | begins {s' : Session ρ} (c : Command ρ)
      (hsilent : ∀ change rows listeners rest, s.tasks ≠ .notify change rows listeners :: rest)
      (hloud : s'.loud = s.loud)
      (hobservers : ∀ (id : ObserverId) (observer' : Observer),
        s'.observers[id]? = some observer' → s.Opens id observer' ∨ ∃ observer,
          s.observers[id]? = some observer ∧ observer' = c.alter ⟨s.issued + 1⟩ id observer)
      (hissued : ∀ as id on times steps, c = .listen as id on times steps → s.issued < s'.issued) :
      Shift s [c] s'
  /-- An observer is handed the rows of a refresh. -/
  | absorbs {s' : Session ρ} (id : ObserverId) (observer : Observer) (query : CompiledQuery)
      (rows : List Row) (pinned : List Item)
      (hsilent : ∀ change rows listeners rest, s.tasks ≠ .notify change rows listeners :: rest)
      (hobserver : s.observers[id]? = some observer)
      (hdestroyed : observer.destroyed = false)
      (hformer : query.Yields observer.retained)
      (hrows : query.Yields rows)
      (hloud : s'.loud =
        (Difference.between observer.retained rows).announced id pinned rows ++ s.loud)
      (hobservers : ∀ (other : ObserverId) (observer' : Observer),
        s'.observers[other]? = some observer' → ∃ observer, s.observers[other]? = some observer ∧
          observer' = if other = id then (observer.absorb rows).2 else observer) :
      Shift s [] s'
  /-- An announcement goes on. -/
  | announces {s' : Session ρ} (a : Announcement) (rest : List (Task ρ))
      (htasks : s.tasks = .announce a :: rest)
      (hloud : s'.loud = s.goesOn a ++ rest.filter Task.isLoud)
      (hobservers : ∀ (id : ObserverId) (observer : Observer), s'.observers[id]? = some observer →
        s.observers[id]? = some observer) :
      Shift s [] s'
  /-- The listeners are told of rows. -/
  | notifies {s' : Session ρ} (change : Change) (rows : List Row) (listeners : List ScriptId)
      (rest : List (Task ρ)) (htasks : s.tasks = .notify change rows listeners :: rest)
      (hloud : s'.loud = othersOf change rows listeners ++ rest.filter Task.isLoud)
      (hobservers : ∀ (id : ObserverId) (observer : Observer), s'.observers[id]? = some observer →
        s.observers[id]? = some observer) :
      Shift s [] s'

theorem loud_eq_of_tasks (h : s'.tasks = s.tasks) : s'.loud = s.loud := by
  rw [loud, loud, h]

theorem mem_loud
    {task : Task ρ}
    {rest : List (Task ρ)}
    (htasks : s.tasks = task :: rest)
    (hloud : task.isLoud = true) :
    task ∈ s.loud :=
  List.mem_filter.mpr ⟨htasks ▸ List.mem_cons_self, hloud⟩

theorem of_mem_hears
    {l : ScriptId}
    {rows : List Row}
    (h : rows ∈ s.hears l) :
    ∃ change others rest, s.tasks = .notify change rows (l :: others) :: rest := by
  rw [hears] at h
  split at h
  · rename_i change told listener others rest htasks
    split at h
    · rename_i heq
      obtain rfl := List.mem_singleton.mp h
      exact ⟨change, others, rest, heq ▸ htasks⟩
    · cases h
  · cases h

@[simp]
theorem loud_push (s : Session ρ) (pushed : List (Task ρ)) :
    (s.push pushed).loud = pushed.filter Task.isLoud ++ s.loud :=
  List.filter_append ..

theorem Adds.loud_eq (h : s.Adds (fun task => task.isLoud = false) s') : s'.loud = s.loud := by
  obtain ⟨-, pushed, htasks, hpushed⟩ := h
  rw [loud, htasks, List.filter_append, List.filter_eq_nil_iff.mpr (by simpa using hpushed)]
  rfl

theorem loud_withStore {α : Type} {result : Except Fault (α × Store)}
    {next : α → Session ρ → Session ρ}
    (h : ∀ a store, (next a { s with store := store }).loud = s.loud) :
    (s.withStore result next).loud = s.loud := by
  unfold withStore
  split
  · rfl
  · exact h _ _

theorem loud_addNode (s : Session ρ) (graph : GraphId) (node : Node) :
    (s.addNode graph node).loud = s.loud := by
  rcases s.addNode_cases graph node with ⟨outcome, heq⟩ | ⟨ending, heq⟩
  · rw [heq]
    rfl
  · rw [heq]
    rfl

theorem loud_addEdge (s : Session ρ) (graph : GraphId) (source target : Node) (given : Option Edge)
    (as : Option String) : (s.addEdge graph source target given as).loud = s.loud := by
  have hgiven : ∀ (s : Session ρ) edge,
      (s.addEdge graph source target (some edge) as).loud = s.loud := by
    intro s edge
    rcases s.addGivenEdge_cases graph source target edge as with ⟨outcome, heq⟩ | ⟨ending, heq⟩ |
      ⟨ending, -, ⟨-, heq⟩ | ⟨previous, -, -, heq⟩⟩
    · exact heq ▸ rfl
    · exact heq ▸ rfl
    · exact heq ▸ rfl
    · rw [heq]
      exact loud_withStore fun _ _ => rfl
  cases given with
  | some edge => exact hgiven s edge
  | none => exact hgiven { s with store := (s.store.createEdge (.root .edge) .null).2 } _

/-- No command tells listeners of anything by itself. -/
theorem loud_begin (s : Session ρ) (c : Command ρ) : (s.begin c).loud = s.loud := by
  have haside : ∀ {s' : Session ρ}, s.Adds (fun _ => False) s' → s'.loud = s.loud :=
    fun h => (h.mono fun _ => False.elim).loud_eq
  cases c with
  | setSource edge node =>
      rw [begin]
      split
      · rfl
      · rfl
  | setTarget edge node =>
      rw [begin]
      split
      · rfl
      · rfl
  | letGo holding name => exact haside ((letGo_adds s name holding).trans (.aside rfl rfl))
  | addNode graph node => exact loud_addNode s graph node
  | addEdge graph source target edge as => exact loud_addEdge s graph source target edge as
  | insertEdge graph edge =>
      rcases s.insertEdge_cases graph edge with ⟨outcome, heq⟩ | ⟨ending, heq⟩
      · exact (congrArg loud heq : (s.insertEdge graph edge).loud = _)
      · exact (congrArg loud heq : (s.insertEdge graph edge).loud = _)
  | removeEdgesByNodes graph selector => exact loud_withStore fun _ _ => rfl
  | compile as query =>
      rw [begin, nameCompiled]
      split
      · rfl
      · rfl
  | openQuery as graph query cached => exact haside (nameQuery_adds s as graph query cached)
  | destroyQuery query => exact haside ((destroyQuery_adds s query).trans (.aside rfl rfl))
  | openCursor as query =>
      rw [begin, nameCursor]
      split
      · rfl
      · rfl
  | advance cursor limit =>
      rw [begin, readCursor]
      split
      · rfl
      · rfl
  | snapshot query =>
      rw [begin, showSnapshot]
      split
      · rfl
      · rfl
  | observe as graph query => exact haside (nameObserver_adds s as graph query)
  | drain observer change =>
      rw [begin, drain]
      split
      · rfl
      · rfl
  | destroyObserver observer =>
      have hdestroyed : s.Adds (fun _ => False) (s.destroyObserver observer) := by
        rw [destroyObserver]
        split
        · exact .refl s
        · exact (destroyQuery_adds s _).trans (.aside rfl rfl)
      exact haside (hdestroyed.trans (.aside rfl rfl))
  | _ => rfl

theorem alter_of_plain {c : Command ρ} (h : c.Plain) (fresh : ScriptId) (id : ObserverId)
    (observer : Observer) : c.alter fresh id observer = observer := by
  cases c with
  | listen => exact h.elim
  | drain => exact h.elim
  | destroyObserver => exact h.elim
  | _ => rfl

theorem observers_discardQuery (s : Session ρ) (id : QueryId) :
    (s.discardQuery id).observers = s.observers :=
  (s.destroyQuery_spares id).2.1

theorem observers_dropQuery (s : Session ρ) (name : String) :
    (s.dropQuery name).observers = s.observers := by
  rw [dropQuery]
  split
  · rfl
  · exact observers_discardQuery s _

theorem observers_dropObserver (s : Session ρ) (name : String) :
    (s.dropObserver name).observers = s.observers := by
  rw [dropObserver]
  split
  · rfl
  · rw [discardObserver]
    split
    · rfl
    · exact observers_discardQuery s _

theorem observers_letGo (s : Session ρ) (name : String) (holding : Holding) :
    (s.letGo name holding).observers = s.observers := by
  cases holding with
  | query => exact observers_dropQuery s name
  | observer => exact observers_dropObserver s name
  | _ => rfl

theorem observers_nameQuery (s : Session ρ) (as : String) (graph : GraphId) (query : Query)
    (cached : Bool) : (s.nameQuery as graph query cached).observers = s.observers := by
  unfold nameQuery
  dsimp only
  split
  · rfl
  · rename_i id live s' hopen
    have hopened : s'.observers = s.observers := by
      cases cached with
      | true =>
          obtain ⟨compiled, rows, -, -, -, -, rfl⟩ := openCached_eq_ok hopen
          rfl
      | false =>
          obtain ⟨compiled, -, -, -, rfl⟩ := openUncached_eq_ok hopen
          rfl
    exact (observers_dropQuery s' as).trans hopened

/-- An observer that is opened has the rows that its query has at that moment. -/
theorem observers_nameObserver
    {as : String}
    {graph : GraphId}
    {query : Query}
    {id : ObserverId}
    {observer : Observer}
    (h : (s.nameObserver as graph query).observers[id]? = some observer) :
    s.Opens id observer ∨ s.observers[id]? = some observer := by
  rw [nameObserver] at h
  split at h
  · exact Or.inr h
  · rename_i opened live s' hopen
    obtain ⟨queryId, s₁, rows, hcached, rfl, hheld, rfl⟩ := openObserver_eq_ok hopen
    obtain ⟨compiled, rows', -, hrows, -, rfl, rfl⟩ := openCached_eq_ok hcached
    obtain rfl : rows' = rows := Option.some.inj hheld
    replace h := (congrArg (·[id]?) (observers_dropObserver _ as)).symm.trans h
    rcases eq_or_of_getElem?_insert h with ⟨rfl, rfl⟩ | ⟨-, hobserver⟩
    · exact Or.inl ⟨Nat.lt_succ_self _, queryId, rows', rfl, compiled, _, hrows⟩
    · exact Or.inr hobserver

/-- A command that changes one observer changes it as it says. -/
theorem exists_alter_of_updateObserver
    {t : Session ρ}
    {c : Command ρ}
    {fresh : ScriptId}
    {other id : ObserverId}
    {change : Observer → Observer}
    {observer' : Observer}
    (halter : ∀ former, t.observers[id]? = some former →
      c.alter fresh id former = if other = id then change former else former)
    (h : (t.updateObserver other change).observers[id]? = some observer') :
    ∃ observer, t.observers[id]? = some observer ∧ observer' = c.alter fresh id observer := by
  rw [getElem?_updateObserver] at h
  split at h
  · rename_i hid
    obtain ⟨former, hformer, rfl⟩ := Option.map_eq_some_iff.mp h
    exact ⟨former, hformer, by rw [halter former hformer, if_pos hid.symm]⟩
  · rename_i hid
    exact ⟨observer', h, by rw [halter observer' h, if_neg (Ne.symm hid)]⟩

/-- A command for an observer that there is not changes no other. -/
theorem exists_alter_of_absent
    {c : Command ρ}
    {fresh : ScriptId}
    {other id : ObserverId}
    {change : Observer → Observer}
    {observer : Observer}
    (hnone : s.observers[other]? = none)
    (halter : ∀ former, c.alter fresh id former = if other = id then change former else former)
    (h : s.observers[id]? = some observer) :
    ∃ former, s.observers[id]? = some former ∧ observer = c.alter fresh id former := by
  refine ⟨observer, h, ?_⟩
  rw [halter, if_neg]
  rintro rfl
  rw [h] at hnone
  cases hnone

/-- What beginning a command makes of the observers. -/
theorem observers_begin
    {c : Command ρ}
    {id : ObserverId}
    {observer' : Observer}
    (h : (s.begin c).observers[id]? = some observer') :
    s.Opens id observer' ∨
      ∃ observer, s.observers[id]? = some observer ∧
        observer' = c.alter ⟨s.issued + 1⟩ id observer := by
  have hsame : s.observers[id]? = some observer' → ∃ observer,
      s.observers[id]? = some observer ∧ observer' = observer := fun h => ⟨observer', h, rfl⟩
  by_cases hplain : c.Plain
  · rw [(Proceeds.begin s hplain).observers] at h
    exact Or.inr ⟨observer', h, (alter_of_plain hplain _ id observer').symm⟩
  · cases c with
    | letGo holding name =>
        exact Or.inr (hsame ((congrArg (·[id]?) (observers_letGo s name holding)).symm.trans h))
    | subscribe as graph on item times steps => exact Or.inr (hsame h)
    | unsubscribe graph subscription => exact Or.inr (hsame h)
    | openQuery as graph query cached =>
        exact Or.inr (hsame ((congrArg (·[id]?) (observers_nameQuery s as graph query cached)).symm.trans
          h))
    | destroyQuery query =>
        exact Or.inr (hsame ((congrArg (·[id]?) (s.destroyQuery_spares query).2.1).symm.trans h))
    | snapshot query =>
        rw [begin, showSnapshot] at h
        split at h
        · exact Or.inr (hsame h)
        · exact Or.inr (hsame h)
    | observe as graph query => exact (observers_nameObserver h).imp_right hsame
    | listen as other on times steps => exact Or.inr (exists_alter_of_updateObserver (fun _ _ => rfl) h)
    | drain other change =>
        refine Or.inr ?_
        rw [begin, drain] at h
        split at h
        · rename_i hnone
          exact exists_alter_of_absent hnone (fun _ => rfl) h
        · rename_i observer hobserver
          refine exists_alter_of_updateObserver (t := s) (fun former hformer => ?_) h
          by_cases hid : other = id
          · subst hid
            obtain rfl : observer = former := Option.some.inj (hobserver.symm.trans hformer)
            rfl
          · rw [Command.alter, if_neg hid, if_neg hid]
    | destroyObserver other =>
        refine Or.inr ?_
        replace h : (s.destroyObserver other).observers[id]? = some observer' := h
        rw [destroyObserver] at h
        split at h
        · rename_i hnone
          exact exists_alter_of_absent hnone (fun _ => rfl) h
        · rename_i observer hobserver
          obtain ⟨former, hformer, heq⟩ := exists_alter_of_updateObserver
            (c := .destroyObserver other) (fun _ _ => rfl) h
          exact ⟨former, (congrArg (·[id]?) (s.destroyQuery_spares observer.query).2.1).symm.trans hformer,
            heq⟩
    | _ => exact absurd trivial hplain

theorem loud_trigger (s : Session ρ) (id : ScriptId) (script : Script ρ) :
    (s.trigger id script).loud = s.loud := by
  rw [trigger]
  split
  · rfl
  · rfl

theorem loud_inform (s : Session ρ) (change : Change) (rows : List Row) (id : ScriptId) :
    (s.inform change rows id).loud = s.loud := by
  rw [inform]
  split
  · rfl
  · exact loud_trigger _ id _

theorem loud_tellScript (s : Session ρ) (graph : GraphId) (event : Event) (id : ScriptId)
    (on : Option Change) (item : Option String) :
    (s.tell graph event (.script id on item)).loud = s.loud := by
  rw [tell]
  split
  · rfl
  · dsimp only
    split
    · exact loud_trigger _ id _
    · rfl

/-- A plain task that tells no listeners leaves it so. -/
theorem loud_perform
    {task : Task ρ}
    (s : Session ρ)
    (hplain : task.Plain)
    (hquiet : task.isLoud = false) :
    (s.perform interpret task).loud = s.loud := by
  cases task with
  | connect edge source target ending => rfl
  | attach a ending =>
      cases perform_attach interpret s a ending with
      | ends last hlast hnext => exact hnext ▸ rfl
      | stays job jobs store a' hjobs hmoves hnext => exact hnext ▸ rfl
      | departs job jobs store a' d hjobs hmoves hnext => exact hnext ▸ rfl
  | record label => rfl
  | addNodes graph others added =>
      unfold perform
      dsimp only
      split
      · rfl
      · split
        · rfl
        · exact loud_addNode _ graph _
  | removeNodes graph others =>
      cases others with
      | nil => rfl
      | cons node others => exact loud_withStore fun _ _ => rfl
  | removeEdges graph others named =>
      cases others with
      | nil => rfl
      | cons edge others => exact loud_withStore fun _ _ => rfl
  | finish ending =>
      unfold perform finish
      dsimp only
      split
      · rfl
      · rfl
  | dispatch | deliver | script => exact hplain.elim
  | announce a => cases hquiet
  | notify change rows listeners => cases hquiet

/-- An observer that is not destroyed has its listeners told of what a refresh has changed. -/
theorem loud_observe
    {id : ObserverId}
    {observer : Observer}
    (hobserver : s.observers[id]? = some observer)
    (hdestroyed : observer.destroyed = false)
    (query : CompiledQuery)
    (rows : List Row) :
    (s.observe id query rows).loud =
      (Difference.between observer.retained rows).announced id query.slots.pinnedItems rows ++ s.loud := by
  rw [observe, hobserver]
  dsimp only
  have hsame : (observer.absorb rows).1 = Difference.between observer.retained rows := rfl
  rw [if_neg (by simp [hdestroyed]), Difference.announced, ← hsame]
  by_cases hempty : (observer.absorb rows).1.isEmpty = true
  · rw [if_pos hempty, if_pos hempty]
    rfl
  · rw [if_neg hempty, if_neg hempty]
    rfl

theorem issued_release (s : Session ρ) : s.release.issued = s.issued := by
  obtain ⟨observers, holdsEdge, heq, -⟩ := s.release_eq
  rw [heq]

theorem of_getElem?_release {id : ObserverId} {observer : Observer}
    (h : s.release.observers[id]? = some observer) : s.observers[id]? = some observer := by
  obtain ⟨observers, holdsEdge, heq, hobservers⟩ := s.release_eq
  rw [heq] at h
  rcases hobservers with rfl | rfl
  · exact h
  · replace h : (s.observers.filter fun id _ => s.holdsObserver id)[id]? = some observer := h
    rw [Std.ExtTreeMap.getElem?_filter', Option.filter_eq_some_iff] at h
    exact h.1

namespace Shift

/-- Letting go may drop observers. -/
theorem release (h : s.Shift begun s') : s.Shift begun s'.release := by
  have hloud : s'.release.loud = s'.loud := loud_eq_of_tasks (tasks_release s')
  cases h with
  | still hsilent hquiet hobservers =>
      exact .still hsilent (hloud.trans hquiet) fun id observer hobserver =>
        hobservers id observer (of_getElem?_release hobserver)
  | begins c hsilent hquiet hobservers hissued =>
      refine .begins c hsilent (hloud.trans hquiet) (fun id observer hobserver =>
        hobservers id observer (of_getElem?_release hobserver)) fun as id on times steps heq => ?_
      rw [issued_release]
      exact hissued as id on times steps heq
  | absorbs id observer query rows pinned hsilent hobserver hdestroyed hformer hrows htold hobservers =>
      exact .absorbs id observer query rows pinned hsilent hobserver hdestroyed hformer hrows
        (hloud.trans htold) fun other shown hshown =>
          hobservers other shown (of_getElem?_release hshown)
  | announces a rest htasks htold hobservers =>
      exact .announces a rest htasks (hloud.trans htold) fun id observer hobserver =>
        hobservers id observer (of_getElem?_release hobserver)
  | notifies change rows listeners rest htasks htold hobservers =>
      exact .notifies change rows listeners rest htasks (hloud.trans htold) fun id observer hobserver =>
        hobservers id observer (of_getElem?_release hobserver)

/-- A request begins at most the command that it is read as. -/
theorem issueRequest
    {t : Session ρ}
    (request : ρ)
    (hsilent : ∀ change rows listeners rest, s.tasks ≠ .notify change rows listeners :: rest)
    (hloud : t.loud = s.loud)
    (hobservers : t.observers = s.observers)
    (hissued : t.issued = s.issued) :
    s.Shift (interpret.reads t.names request) (t.issueRequest interpret request) := by
  rw [Session.issueRequest, Interpreter.reads]
  cases interpret t.names request with
  | error refusal => exact .still hsilent hloud fun _ _ hobserver => hobservers ▸ hobserver
  | ok c =>
      refine .begins c hsilent ((loud_begin t c).trans hloud) (fun id observer' hobserver' => ?_) ?_
      · rcases observers_begin hobserver' with ⟨hnew, hopens⟩ | ⟨observer, hobserver, halter⟩
        · exact Or.inl ⟨hissued ▸ hnew, hopens⟩
        · rw [hissued] at halter
          exact Or.inr ⟨observer, hobservers ▸ hobserver, halter⟩
      · rintro as id on times steps rfl
        exact hissued ▸ Nat.lt_succ_self t.issued

/-- A refresh hands its rows to the observer of the live query, unless there is none or nothing is new. -/
theorem refresh
    {t : Session ρ}
    (h : s.Mirrored)
    (hgathered : s.Gathered)
    (hsilent : ∀ change rows listeners rest, s.tasks ≠ .notify change rows listeners :: rest)
    (hloud : t.loud = s.loud)
    (hobservers : t.observers = s.observers)
    (hqueries : t.queries = s.queries)
    (graph : GraphId)
    (event : Event)
    (id : QueryId) :
    s.Shift [] (t.refresh graph event id) := by
  have hsame : ∀ (id : ObserverId) (observer : Observer), t.observers[id]? = some observer →
      s.observers[id]? = some observer := fun _ _ hobserver => hobservers ▸ hobserver
  rw [Session.refresh]
  cases hlive : t.queries[id]? with
  | none => exact .still hsilent hloud hsame
  | some live =>
      rw [hqueries] at hlive
      dsimp only
      split
      · rename_i hconcerns
        rw [LiveQuery.concerns, Bool.and_eq_true] at hconcerns
        cases hrows : t.collect live.query graph with
        | error fault => exact .still hsilent hloud hsame
        | ok rows =>
            dsimp only
            cases hknown : live.observer with
            | none => exact .still hsilent hloud hsame
            | some shower =>
                dsimp only
                let fresh := ({ t with issued := t.issued + 1 } : Session ρ).updateQuery id fun live =>
                  { live with snapshot := some ⟨t.issued + 1, rows⟩ }
                have hfresh : fresh.observers = s.observers := hobservers
                have hfreshLoud : fresh.loud = s.loud := hloud
                cases hshown : s.observers[shower]? with
                | none =>
                    have hunseen : fresh.observe shower live.query rows = fresh := by
                      rw [observe, hfresh, hshown]
                    exact hunseen ▸ .still hsilent hfreshLoud hsame
                | some shown =>
                    -- the observer of an active live query is not destroyed, and has its rows
                    have hquery := h.paired id live shower shown hlive hknown hshown
                    obtain ⟨-, hactive, hretained⟩ :=
                      h.mirrors shower shown live hshown (hquery ▸ hlive)
                    have hdestroyed : shown.destroyed = false := by
                      rw [hconcerns.1] at hactive
                      simpa using hactive.symm
                    obtain ⟨snapshot, hsnapshot, hheld⟩ :=
                      Option.map_eq_some_iff.mp (hretained hconcerns.1)
                    have hformer : live.query.Yields shown.retained :=
                      hheld ▸ hgathered id live snapshot hlive hsnapshot
                    refine .absorbs shower shown live.query rows live.query.slots.pinnedItems hsilent
                      hshown hdestroyed hformer ⟨_, hrows⟩ ?_ fun other observer' hobserver' => ?_
                    · rw [← hfreshLoud]
                      exact loud_observe (hfresh ▸ hshown) hdestroyed live.query rows
                    · replace hobserver' :=
                        (fresh.getElem?_observe shower other live.query rows).symm.trans hobserver'
                      rw [hfresh] at hobserver'
                      split at hobserver'
                      · rename_i hother
                        subst hother
                        rw [hshown, Option.map_some, if_neg (by simp [hdestroyed]),
                          Option.some.injEq] at hobserver'
                        exact ⟨shown, hshown, by rw [if_pos rfl, hobserver']⟩
                      · rename_i hother
                        exact ⟨observer', hobserver', by rw [if_neg hother]⟩
      · exact .still hsilent hloud hsame

/-- Doing a part of the topmost task. -/
theorem perform
    {task : Task ρ}
    {rest : List (Task ρ)}
    (h : s.Mirrored)
    (hgathered : s.Gathered)
    (htasks : s.tasks = task :: rest) :
    s.Shift (s.upcoming interpret) (({ s with tasks := rest } : Session ρ).perform interpret task) := by
  have hnone : (∀ label request requests, task ≠ .script label (request :: requests)) →
      s.upcoming interpret = [] := by
    intro hscript
    rw [upcoming, htasks]
    split
    · rename_i label request requests others heq
      exact absurd (List.cons.inj heq).1 (hscript label request requests)
    · rfl
  have hsilent : task.isLoud = false →
      ∀ change rows listeners rest, s.tasks ≠ .notify change rows listeners :: rest := by
    intro hquiet change rows listeners others heq
    rw [htasks] at heq
    rw [(List.cons.inj heq).1] at hquiet
    cases hquiet
  have hrest : task.isLoud = false → ({ s with tasks := rest } : Session ρ).loud = s.loud := by
    intro hquiet
    rw [loud, loud, htasks, List.filter_cons_of_neg (by simp [hquiet])]
  have hstill : ∀ {s' : Session ρ}, task.isLoud = false →
      s'.loud = ({ s with tasks := rest } : Session ρ).loud → s'.observers = s.observers →
        s.Shift [] s' := fun hquiet hloud hobservers =>
    .still (hsilent hquiet) (hloud.trans (hrest hquiet)) fun _ _ hobserver => hobservers ▸ hobserver
  by_cases hplain : task.Plain ∧ task.isLoud = false
  · obtain ⟨hplain, hquiet⟩ := hplain
    rw [hnone (by rintro label request requests rfl; exact hplain)]
    exact hstill hquiet (loud_perform _ hplain hquiet) (Proceeds.perform htasks hplain).observers
  · cases task with
    | dispatch graph events =>
        rw [hnone (by simp)]
        cases events with
        | nil => exact hstill rfl rfl rfl
        | cons event events => exact hstill rfl rfl rfl
    | deliver graph event handlers =>
        rw [hnone (by simp)]
        cases handlers with
        | nil => exact hstill rfl rfl rfl
        | cons handler handlers =>
            cases handler with
            | query id =>
                let t := ({ s with tasks := rest } : Session ρ).push [.deliver graph event handlers]
                have hpushed : t.loud = s.loud := (loud_push ..).trans (hrest rfl)
                exact .refresh (t := t) h hgathered (hsilent rfl) hpushed rfl rfl graph event id
            | script id on item =>
                exact hstill rfl (loud_tellScript _ graph event id on item)
                  (Proceeds.tellScript _ graph event id on item).observers
    | script label requests =>
        cases requests with
        | nil =>
            rw [hnone (by simp)]
            exact hstill rfl rfl rfl
        | cons request requests =>
            rw [upcoming_of_script htasks]
            let t := ({ s with tasks := rest } : Session ρ).push [.record label, .script label requests]
            have hpushed : t.loud = s.loud := (loud_push ..).trans (hrest rfl)
            exact .issueRequest (t := t) request (hsilent rfl) hpushed rfl rfl
    | announce a =>
        rw [hnone (by simp)]
        refine .announces a rest htasks ?_ fun id observer hobserver => ?_
        · rw [goesOn, Session.perform]
          cases a.rest with
          | nil => rfl
          | cons change others =>
              dsimp only
              split
              · rfl
              · rfl
        · rw [(Proceeds.perform htasks trivial).observers] at hobserver
          exact hobserver
    | notify change rows listeners =>
        rw [hnone (by simp)]
        refine .notifies change rows listeners rest htasks ?_ fun id observer hobserver => ?_
        · cases listeners with
          | nil => rfl
          | cons listener listeners => exact loud_inform _ change rows listener
        · rw [(Proceeds.perform htasks trivial).observers] at hobserver
          exact hobserver
    | _ => exact absurd ⟨trivial, rfl⟩ hplain

/-- What a turn does to observers and to the tasks that tell listeners. -/
theorem turn (h : s.Mirrored) (hgathered : s.Gathered) (hturn : s.Turn begun s') :
    s.Shift begun s' := by
  cases hturn with
  | request interpret request hidle hproper =>
      let t : Session ρ := { s with log := [] }
      have hsilent : ∀ change rows listeners rest, s.tasks ≠ .notify change rows listeners :: rest := by
        intro change rows listeners rest heq
        rw [List.isEmpty_iff.mp hidle] at heq
        cases heq
      have hbegun : s.Shift (interpret.reads t.names request) (t.issueRequest interpret request) :=
        issueRequest request hsilent rfl rfl rfl
      exact hbegun.release
  | step interpret hproper =>
      cases htasks : s.tasks with
      | nil =>
          have hnone : s.upcoming interpret = [] := by rw [upcoming, htasks]
          have hsame : s.step interpret = s := by rw [step, htasks]
          rw [hnone, hsame]
          exact .still (by simp [htasks]) rfl fun _ _ hobserver => hobserver
      | cons task rest =>
          rw [step, htasks]
          exact (perform h hgathered htasks).release

/-- Listeners who are to be told have been so before, or are those that an observer has. -/
theorem notify_mem
    {change : Change}
    {rows : List Row}
    {listeners : List ScriptId}
    (h : s.Shift begun s')
    (hmem : .notify change rows listeners ∈ s'.loud) :
    (∃ told, .notify change rows (told ++ listeners) ∈ s.loud) ∨
      rows ≠ [] ∧ ∃ id, listeners = s.listeners id change := by
  have hlater : ∀ {rest : List (Task ρ)} {task : Task ρ}, s.tasks = task :: rest →
      .notify change rows listeners ∈ rest.filter Task.isLoud →
        ∃ told, .notify change rows (told ++ listeners) ∈ s.loud := by
    intro rest task htasks hmem
    refine ⟨[], List.mem_filter.mpr ⟨?_, rfl⟩⟩
    rw [htasks]
    exact List.mem_cons_of_mem _ (List.mem_of_mem_filter hmem)
  cases h with
  | still hsilent hloud hobservers => exact Or.inl ⟨[], hloud ▸ hmem⟩
  | begins c hsilent hloud hobservers hissued => exact Or.inl ⟨[], hloud ▸ hmem⟩
  | absorbs fed shown query fresh pinned hsilent hshown hfed hformer hrows hloud hobservers =>
      rw [hloud, Difference.announced] at hmem
      rcases List.mem_append.mp hmem with hmem | hmem
      · split at hmem
        · cases hmem
        · cases List.mem_singleton.mp hmem
      · exact Or.inl ⟨[], hmem⟩
  | announces a rest htasks hloud hobservers =>
      rw [hloud, goesOn] at hmem
      rcases List.mem_append.mp hmem with hmem | hmem
      · split at hmem
        · cases hmem
        · dsimp only at hmem
          split at hmem
          · cases List.mem_singleton.mp hmem
          · rename_i hsome
            rcases List.mem_append.mp hmem with hmem | hmem
            · cases List.mem_singleton.mp hmem
              refine Or.inr ⟨fun hnone => hsome ?_, a.observer, rfl⟩
              rw [hnone]
              rfl
            · cases List.mem_singleton.mp hmem
      · exact Or.inl (hlater htasks hmem)
  | notifies on fresh heard rest htasks hloud hobservers =>
      rw [hloud] at hmem
      rcases List.mem_append.mp hmem with hmem | hmem
      · cases heard with
        | nil => cases hmem
        | cons listener others =>
          cases List.mem_singleton.mp hmem
          exact Or.inl ⟨[listener], mem_loud htasks rfl⟩
      · exact Or.inl (hlater htasks hmem)

end Shift

theorem Course.shift
    {past : List (Stage ρ)}
    (h : Course .empty past s)
    (hturn : s.Turn begun s') :
    s.Shift begun s' :=
  .turn h.mirrored h.gathered hturn

end Session

end PatternGraph
