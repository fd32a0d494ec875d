import PatternGraph.Proofs.Session.Mirrors

/-!
# Commands and steps keep observers in line

Opening, naming, destroying and letting go of live queries and observers, beginning commands and doing
tasks.
-/

namespace PatternGraph

variable {ρ : Type}

namespace Session

namespace Mirrored

variable {s s' : Session ρ}

/-- A live query is discarded that belongs to no observer which keeps its name. -/
theorem discardQuery
    {id : QueryId}
    {names : Names}
    (h : s.Mirrored)
    (hqueries : ∀ (name : String) (id : QueryId), names.queries[name]? = some id →
      s.names.queries[name]? = some id)
    (hobservers : ∀ (name : String) (other : ObserverId), names.observers[name]? = some other →
      s.names.observers[name]? = some other ∧
        ∀ observer, s.observers[other]? = some observer → observer.query ≠ id) :
    Mirrored { s.discardQuery id with names := names } := by
  obtain ⟨hissued, hspared, -⟩ := s.destroyQuery_spares id
  have hspared : (s.discardQuery id).observers = s.observers := hspared
  have hformer : ∀ (other : QueryId) (live : LiveQuery),
      (s.discardQuery id).queries[other]? = some live →
        other ≠ id ∧ s.queries[other]? = some live := by
    intro other live hlive
    rw [getElem?_discardQuery] at hlive
    split at hlive
    · cases hlive
    · rename_i hother
      exact ⟨hother, hlive⟩
  refine h.shrink hissued.ge (fun other live hlive => ⟨live, (hformer other live hlive).2, rfl, rfl⟩)
    ?_ ?_ ?_ hqueries
  · dsimp only
    rw [hspared]
    exact fun other observer hobserver => ⟨observer, hobserver, rfl⟩
  · dsimp only
    rw [hspared]
    exact fun other observer live hobserver hlive =>
      h.mirrors other observer live hobserver (hformer observer.query live hlive).2
  · intro name other hname
    obtain ⟨hold, hkept⟩ := hobservers name other hname
    obtain ⟨observer, live, hobserver, hlive⟩ := h.named name other hold
    refine ⟨hold, observer, live, hspared ▸ hobserver, ?_⟩
    have hlive : (s.discardQuery id).queries[observer.query]? = some live := by
      rw [getElem?_discardQuery, if_neg (hkept observer hobserver), hlive]
    exact hlive

theorem dropQuery (h : s.Mirrored) (name : String) : (s.dropQuery name).Mirrored := by
  rw [Session.dropQuery]
  cases hname : s.names.queries[name]? with
  | none => exact h
  | some id =>
      have hnames : (s.discardQuery id).names = s.names := (s.destroyQuery_spares id).2.2
      dsimp only
      rw [updateNames, hnames]
      refine h.discardQuery (fun _ _ hother => (of_getElem?_erase hother).2)
        fun other id' hother => ⟨hother, ?_⟩
      rintro observer hobserver rfl
      obtain ⟨observer', live, hobserver', hlive⟩ := h.named other id' hother
      rw [hobserver, Option.some.injEq] at hobserver'
      subst hobserver'
      have hknown := (h.mirrors id' observer live hobserver hlive).known
      rw [(h.own name observer.query hname).2 live hlive] at hknown
      cases hknown

theorem dropObserver (h : s.Mirrored) (name : String) : (s.dropObserver name).Mirrored := by
  rw [Session.dropObserver]
  cases hname : s.names.observers[name]? with
  | none => exact h
  | some id =>
      obtain ⟨observer, live, hobserver, hlive⟩ := h.named name id hname
      have hnames : (s.discardQuery observer.query).names = s.names :=
        (s.destroyQuery_spares observer.query).2.2
      dsimp only
      rw [discardObserver, hobserver]
      dsimp only
      rw [updateNames, hnames]
      refine h.discardQuery (fun _ _ hother => hother) fun other id' hother => ?_
      obtain ⟨hne, hother⟩ := of_getElem?_erase hother
      refine ⟨hother, fun shown hshown hquery => hne ?_⟩
      obtain rfl := h.observer_unique hobserver hshown hquery hlive
      exact h.once other name id' hother hname

theorem letGo (h : s.Mirrored) (name : String) (holding : Holding) :
    (s.letGo name holding).Mirrored := by
  cases holding with
  | query => exact h.dropQuery name
  | observer => exact h.dropObserver name
  | node => exact h.same (Nat.le_refl _) rfl rfl rfl rfl
  | edge => exact h.same (Nat.le_refl _) rfl rfl rfl rfl
  | graph => exact h.same (Nat.le_refl _) rfl rfl rfl rfl
  | cursor => exact h.same (Nat.le_refl _) rfl rfl rfl rfl
  | compiled => exact h.same (Nat.le_refl _) rfl rfl rfl rfl

/-- What dropping a live query spares of the live queries. -/
theorem getElem?_dropQuery {name : String} {id : QueryId} {live : LiveQuery}
    (hlive : (s.dropQuery name).queries[id]? = some live) : s.queries[id]? = some live := by
  rw [Session.dropQuery] at hlive
  cases hname : s.names.queries[name]? with
  | none =>
      rw [hname] at hlive
      exact hlive
  | some former =>
      rw [hname] at hlive
      have hlive : (s.discardQuery former).queries[id]? = some live := hlive
      rw [getElem?_discardQuery] at hlive
      split at hlive
      · cases hlive
      · exact hlive

theorem issued_dropQuery (s : Session ρ) (name : String) : (s.dropQuery name).issued = s.issued := by
  rw [Session.dropQuery]
  split
  · rfl
  · exact (s.destroyQuery_spares _).1

/-- Dropping an observer spares any other one together with its live query. -/
theorem dropObserver_spares
    {name : String}
    {id : ObserverId}
    {observer : Observer}
    {live : LiveQuery}
    (h : s.Mirrored)
    (hobserver : s.observers[id]? = some observer)
    (hlive : s.queries[observer.query]? = some live)
    (hname : s.names.observers[name]? ≠ some id) :
    (s.dropObserver name).observers[id]? = some observer ∧
      (s.dropObserver name).queries[observer.query]? = some live := by
  rw [Session.dropObserver]
  cases hformer : s.names.observers[name]? with
  | none => exact ⟨hobserver, hlive⟩
  | some former =>
      obtain ⟨shown, live', hshown, -⟩ := h.named name former hformer
      have hspared : (s.discardQuery shown.query).observers = s.observers :=
        (s.destroyQuery_spares shown.query).2.1
      have hquery : observer.query ≠ shown.query := by
        intro hquery
        have hsame := h.observer_unique hobserver hshown hquery.symm hlive
        exact hname (hsame ▸ hformer)
      have hkept : (s.discardQuery shown.query).queries[observer.query]? = some live := by
        rw [getElem?_discardQuery, if_neg hquery, hlive]
      dsimp only
      rw [discardObserver, hshown]
      exact ⟨hspared ▸ hobserver, hkept⟩

theorem names_dropObserver {name other : String} {id : ObserverId}
    (hother : (s.dropObserver name).names.observers[other]? = some id) :
    s.names.observers[other]? = some id := by
  rw [Session.dropObserver] at hother
  cases hname : s.names.observers[name]? with
  | none =>
      rw [hname] at hother
      exact hother
  | some former =>
      rw [hname] at hother
      have hnames : (s.discardObserver former).names = s.names := by
        rw [discardObserver]
        split
        · rfl
        · exact (s.destroyQuery_spares _).2.2
      dsimp only [updateNames] at hother
      rw [hnames] at hother
      exact (of_getElem?_erase hother).2

/-- A name is given to a live query that belongs to no observer. -/
theorem bindQuery
    {id : QueryId}
    (h : s.Mirrored)
    (hnumber : id.number ≤ s.issued)
    (hnone : ∀ live, s.queries[id]? = some live → live.observer = none)
    (name : String) :
    (s.updateNames fun names => { names with queries := names.queries.insert name id }).Mirrored := by
  refine ⟨h.number, h.observer, h.mirrors, h.paired, h.named, h.once, fun other id' hother => ?_⟩
  rcases eq_or_of_getElem?_insert hother with ⟨-, rfl⟩ | ⟨-, hother⟩
  · exact ⟨hnumber, hnone⟩
  · exact h.own other id' hother

/-- A name is given to an observer that has none. -/
theorem bindObserver
    {id : ObserverId}
    {observer : Observer}
    {live : LiveQuery}
    (h : s.Mirrored)
    (hobserver : s.observers[id]? = some observer)
    (hlive : s.queries[observer.query]? = some live)
    (hnew : ∀ name : String, s.names.observers[name]? ≠ some id)
    (name : String) :
    (s.updateNames fun names =>
      { names with observers := names.observers.insert name id }).Mirrored := by
  refine ⟨h.number, h.observer, h.mirrors, h.paired, fun other id' hother => ?_,
    fun other other' id' hother hother' => ?_, h.own⟩
  · rcases eq_or_of_getElem?_insert hother with ⟨-, rfl⟩ | ⟨-, hother⟩
    · exact ⟨observer, live, hobserver, hlive⟩
    · exact h.named other id' hother
  · rcases eq_or_of_getElem?_insert hother with ⟨rfl, rfl⟩ | ⟨-, hold⟩
    · rcases eq_or_of_getElem?_insert hother' with ⟨rfl, -⟩ | ⟨-, hold'⟩
      · rfl
      · exact absurd hold' (hnew other')
    · rcases eq_or_of_getElem?_insert hother' with ⟨rfl, rfl⟩ | ⟨-, hold'⟩
      · exact absurd hold (hnew other)
      · exact h.once other other' id' hold hold'

variable {graph : GraphId} {query : Query} {id : QueryId} {live : LiveQuery}

theorem openUncached (h : s.Mirrored) (hopen : s.openUncached graph query = .ok (id, live, s')) :
    s'.Mirrored := by
  obtain ⟨compiled, -, rfl, rfl, rfl⟩ := openUncached_eq_ok hopen
  exact h.insertQuery (Nat.lt_succ_self _) (Nat.le_refl _) rfl rfl rfl nofun

theorem openCached
    {observer : Option ObserverId}
    (h : s.Mirrored)
    (hknown : ∀ id, observer = some id → id.number ≤ s.issued ∧ s.observers[id]? = none)
    (hopen : s.openCached graph query observer = .ok (id, live, s')) :
    s'.Mirrored := by
  obtain ⟨compiled, rows, -, -, rfl, rfl, rfl⟩ := openCached_eq_ok hopen
  refine h.insertQuery (Nat.lt_succ_self _) (Nat.le_succ _) rfl rfl rfl fun id hsome => ?_
  obtain ⟨hnumber, hnone⟩ := hknown id hsome
  exact ⟨hnumber.trans (Nat.le_add_right _ 2), rfl, hnone⟩

/-- A client opens a live query under a name. -/
theorem nameQuery (h : s.Mirrored) (as : String) (graph : GraphId) (query : Query)
    (cached : Bool) : (s.nameQuery as graph query cached).Mirrored := by
  unfold Session.nameQuery
  dsimp only
  split
  · exact h.same (Nat.le_refl _) rfl rfl rfl rfl
  · rename_i id live s' hopen
    have hopened : s'.Mirrored ∧ id.number ≤ s'.issued ∧ s'.queries[id]? = some live ∧
        live.observer = none := by
      cases cached with
      | true =>
          refine ⟨h.openCached (by simp) hopen, ?_⟩
          obtain ⟨compiled, rows, -, -, rfl, rfl, rfl⟩ := openCached_eq_ok hopen
          exact ⟨Nat.le_succ _, Std.ExtTreeMap.getElem?_insert_self, rfl⟩
      | false =>
          refine ⟨h.openUncached hopen, ?_⟩
          obtain ⟨compiled, -, rfl, rfl, rfl⟩ := openUncached_eq_ok hopen
          exact ⟨Nat.le_refl _, Std.ExtTreeMap.getElem?_insert_self, rfl⟩
    obtain ⟨hs', hnumber, hlive, hnone⟩ := hopened
    have hnone' : ∀ live', (s'.dropQuery as).queries[id]? = some live' → live'.observer = none := by
      intro live' hlive'
      have hsame := getElem?_dropQuery hlive'
      rw [hlive, Option.some.injEq] at hsame
      exact hsame ▸ hnone
    have hnumber' : id.number ≤ (s'.dropQuery as).issued := issued_dropQuery s' as ▸ hnumber
    exact ((hs'.dropQuery as).bindQuery hnumber' hnone' as).same (Nat.le_refl _) rfl rfl rfl rfl

/-- A new observer mirrors the live query that has been opened for it. -/
theorem openObserver
    {observer : ObserverId}
    (h : s.Mirrored)
    (hopen : s.openObserver graph query = .ok (observer, live, s')) :
    s'.Mirrored ∧ (∀ name : String, s'.names.observers[name]? ≠ some observer) ∧
      ∃ shown, s'.observers[observer]? = some shown ∧ s'.queries[shown.query]? = some live := by
  obtain ⟨id, s₁, rows, hcached, rfl, hrows, rfl⟩ := openObserver_eq_ok hopen
  have hnumber : ¬s.issued + 1 ≤ s.issued := Nat.not_succ_le_self _
  have hissue : Mirrored { s with issued := s.issued + 1 } :=
    h.same (Nat.le_succ _) rfl rfl rfl rfl
  have hnone : s.observers[(⟨s.issued + 1⟩ : ObserverId)]? = none := by
    cases hshown : s.observers[(⟨s.issued + 1⟩ : ObserverId)]? with
    | none => rfl
    | some shown => exact absurd (h.observer _ shown hshown).1 hnumber
  have hopened : s₁.Mirrored := by
    refine hissue.openCached (fun other hsome => ?_) hcached
    obtain rfl := Option.some.inj hsome
    exact ⟨Nat.le_refl _, hnone⟩
  obtain ⟨compiled, rows', -, -, rfl, rfl, rfl⟩ := openCached_eq_ok hcached
  obtain rfl := Option.some.inj hrows
  refine ⟨?_, fun name hname => ?_, _, Std.ExtTreeMap.getElem?_insert_self,
    Std.ExtTreeMap.getElem?_insert_self⟩
  · refine hopened.insertObserver hnone (Nat.le_add_right _ 2) Std.ExtTreeMap.getElem?_insert_self
      ⟨rfl, rfl, fun _ => rfl⟩ fun other live' hlive' hknown => ?_
    -- older live queries know only older observers
    rcases eq_or_of_getElem?_insert hlive' with ⟨rfl, -⟩ | ⟨-, hlive'⟩
    · rfl
    · exact absurd ((h.number other live' hlive').2 _ hknown).1 hnumber
  · obtain ⟨shown, -, hshown, -⟩ := h.named name _ hname
    exact absurd (h.observer _ shown hshown).1 hnumber

/-- A client opens an observer under a name. -/
theorem nameObserver (h : s.Mirrored) (as : String) (graph : GraphId) (query : Query) :
    (s.nameObserver as graph query).Mirrored := by
  rw [Session.nameObserver]
  split
  · exact h.same (Nat.le_refl _) rfl rfl rfl rfl
  · rename_i observer live s' hopen
    obtain ⟨hopened, hnew, shown, hshown, hlive⟩ := h.openObserver hopen
    obtain ⟨hshown', hlive'⟩ := hopened.dropObserver_spares hshown hlive (hnew as)
    have hnew' : ∀ name : String, (s'.dropObserver as).names.observers[name]? ≠ some observer :=
      fun name hname => hnew name (names_dropObserver hname)
    exact ((hopened.dropObserver as).bindObserver hshown' hlive' hnew' as).same (Nat.le_refl _) rfl rfl
      rfl rfl

theorem showSnapshot (h : s.Mirrored) (query : QueryId) : (s.showSnapshot query).Mirrored := by
  rw [Session.showSnapshot]
  split
  · exact h.same (Nat.le_refl _) rfl rfl rfl rfl
  · rename_i snapshot _
    have hshown : Mirrored
        (s.updateQuery query fun live => { live with shown := some snapshot.stamp }) :=
      h.updateQuery (fun _ => rfl) (fun _ => rfl) (fun _ => rfl) fun _ => rfl
    exact hshown.same (Nat.le_refl _) rfl rfl rfl rfl

theorem listen (h : s.Mirrored) (as : String) (observer : ObserverId) (on : Change) (times : Nat)
    (steps : List ρ) : (s.listen as observer on times steps).Mirrored := by
  have hscript : Mirrored (s.addScript ⟨as, times, 0, steps⟩).2 :=
    h.same (Nat.le_succ _) rfl rfl rfl rfl
  have hlistening : Mirrored ((s.addScript ⟨as, times, 0, steps⟩).2.updateObserver observer
      fun shown => shown.listen (s.addScript ⟨as, times, 0, steps⟩).1 on) := by
    refine hscript.updateObserver fun shown _ => ?_
    cases on with
    | added => exact ⟨rfl, rfl, rfl⟩
    | removed => exact ⟨rfl, rfl, rfl⟩
  exact hlistening.same (Nat.le_refl _) rfl rfl rfl rfl

theorem drain (h : s.Mirrored) (id : ObserverId) (change : Change) :
    (s.drain id change).Mirrored := by
  rw [Session.drain]
  split
  · exact h.same (Nat.le_refl _) rfl rfl rfl rfl
  · rename_i observer hobserver
    have hdrained : Mirrored (s.updateObserver id fun _ => (observer.drain change).2) := by
      refine h.updateObserver fun shown hshown => ?_
      obtain rfl := Option.some.inj (hobserver.symm.trans hshown)
      cases change with
      | added => exact ⟨rfl, rfl, rfl⟩
      | removed => exact ⟨rfl, rfl, rfl⟩
    exact hdrained.same (Nat.le_refl _) rfl rfl rfl rfl

/-- Beginning a command keeps the observers in line with their live queries. -/
theorem begin {c : Command ρ} (h : s.Mirrored) (hproper : c.Proper s) : (s.begin c).Mirrored := by
  by_cases hplain : c.Plain
  · exact h.proceeds (Proceeds.begin s hplain)
  · cases c with
    | letGo holding name =>
        exact (h.letGo name holding).same (Nat.le_refl _) rfl rfl rfl rfl
    | subscribe as graph on item times steps => exact h.same (Nat.le_succ _) rfl rfl rfl rfl
    | unsubscribe graph subscription => exact h.same (Nat.le_refl _) rfl rfl rfl rfl
    | openQuery as graph query cached => exact h.nameQuery as graph query cached
    | destroyQuery query =>
        obtain ⟨name, hname⟩ := hproper
        exact (h.destroyQuery (h.own name query hname).2).same (Nat.le_refl _) rfl rfl rfl rfl
    | snapshot query => exact h.showSnapshot query
    | observe as graph query => exact h.nameObserver as graph query
    | listen as observer on times steps => exact h.listen as observer on times steps
    | drain observer change => exact h.drain observer change
    | destroyObserver observer =>
        exact (h.destroyObserver observer).same (Nat.le_refl _) rfl rfl rfl rfl
    | _ => exact absurd trivial hplain

theorem issueRequest
    {interpret : Interpreter ρ}
    {request : ρ}
    (h : s.Mirrored)
    (hproper : ∀ c ∈ interpret.reads s.names request, c.Proper s) :
    (s.issueRequest interpret request).Mirrored := by
  rw [Session.issueRequest]
  split
  · exact h.same (Nat.le_refl _) rfl rfl rfl rfl
  · rename_i c hread
    rw [Interpreter.reads, hread] at hproper
    exact h.begin (hproper c (List.mem_singleton_self c))

/-- Doing a part of the topmost task keeps the observers in line with their live queries. -/
theorem perform
    {interpret : Interpreter ρ}
    {task : Task ρ}
    {rest : List (Task ρ)}
    (h : s.Mirrored)
    (htasks : s.tasks = task :: rest)
    (hproper : ∀ c ∈ s.upcoming interpret, c.Proper s) :
    (({ s with tasks := rest } : Session ρ).perform interpret task).Mirrored := by
  have htaken : ∀ tasks, Mirrored { s with tasks := tasks } :=
    fun _ => h.same (Nat.le_refl _) rfl rfl rfl rfl
  by_cases hplain : task.Plain
  · exact h.proceeds (Proceeds.perform htasks hplain)
  · cases task with
    | dispatch graph events =>
        cases events with
        | nil => exact htaken rest
        | cons event events => exact htaken _
    | deliver graph event handlers =>
        cases handlers with
        | nil => exact htaken rest
        | cons handler handlers =>
            cases handler with
            | query id => exact (htaken _).refresh graph event id
            | script id on item =>
                exact (htaken _).proceeds (Proceeds.tellScript _ graph event id on item)
    | script label requests =>
        cases requests with
        | nil => exact htaken rest
        | cons request requests =>
            rw [upcoming_of_script htasks] at hproper
            exact (htaken _).issueRequest hproper
    | _ => exact absurd trivial hplain

theorem step
    {interpret : Interpreter ρ}
    (h : s.Mirrored)
    (hproper : ∀ c ∈ s.upcoming interpret, c.Proper s) :
    (s.step interpret).Mirrored := by
  rw [Session.step]
  cases htasks : s.tasks with
  | nil => exact h
  | cons task rest => exact (h.perform htasks hproper).release

end Mirrored

/-- The observers of every reachable session mirror their live queries. -/
theorem Reaches.mirrored {trace : List (Command ρ)} {s : Session ρ} (h : Reaches trace s) :
    s.Mirrored := by
  induction h with
  | empty => exact .empty
  | @request trace s interpret request h hproper ih =>
      have hcleared : Mirrored { s with log := [] } := ih.same (Nat.le_refl _) rfl rfl rfl rfl
      exact (hcleared.issueRequest hproper).release
  | step interpret h hproper ih => exact ih.step hproper

end Session

end PatternGraph
