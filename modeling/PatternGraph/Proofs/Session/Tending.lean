import PatternGraph.Proofs.Session.Courses
import PatternGraph.Proofs.Session.History
import PatternGraph.Proofs.Session.MirrorSteps

/-!
# What becomes of live queries

A turn opens new live queries, and shows, refreshes, destroys or discards those that exist.  Only an
active live query is refreshed, with the rows that its query has at that moment, so a destroyed one
stays as it is.  Whoever is listed as a live query on the board of a graph is there under the number that
the live query knows as its subscription.
-/

namespace PatternGraph

variable {ρ : Type}

/-- Whether some rows are those that a query has in some content. -/
def CompiledQuery.Yields (c : CompiledQuery) (rows : List Row) : Prop :=
  ∃ index, c.collect index = .ok rows

namespace LiveQuery

/-- Whether a live query is as it has been opened. -/
inductive Opens (live : LiveQuery) : Prop
  | uncached {graph : GraphId} {query : CompiledQuery} (h : live = .uncached graph query)
  | holding {graph : GraphId} {query : CompiledQuery} {snapshot : Snapshot} {subscription : Nat}
      {observer : Option ObserverId} (h : live = .holding graph query snapshot subscription observer)
      (hrows : query.Yields snapshot.rows)

/-- What a turn may make of a live query. -/
inductive Becomes (live live' : LiveQuery) : Prop
  | shown (h : live' = { live with shown := live'.shown })
  | destroyed (h : live' = live.destroy)
  | refreshed (snapshot : Snapshot) (hactive : live.active = true)
      (hrows : live.query.Yields snapshot.rows)
      (h : live' = { live with snapshot := some snapshot })

theorem Becomes.refl (live : LiveQuery) : live.Becomes live :=
  .shown rfl

/-- Whether a live query has been destroyed. -/
structure Ended (live : LiveQuery) : Prop where
  active : live.active = false
  snapshot : live.snapshot = none
  subscription : live.subscription = none

theorem Ended.destroy (live : LiveQuery) : live.destroy.Ended :=
  ⟨rfl, rfl, rfl⟩

/-- A destroyed live query stays so. -/
theorem Ended.becomes {live live' : LiveQuery} (h : live.Ended) (hbecomes : live.Becomes live') :
    live'.Ended := by
  cases hbecomes with
  | shown hlive' =>
      rw [hlive']
      exact ⟨h.active, h.snapshot, h.subscription⟩
  | destroyed hlive' =>
      rw [hlive']
      exact .destroy live
  | refreshed snapshot hactive hrows hlive' =>
      rw [h.active] at hactive
      cases hactive

end LiveQuery

namespace Session

variable {s s' s'' : Session ρ} {begun trace : List (Command ρ)} {past : List (Stage ρ)}

theorem Mirrored.query_eq_none {id : QueryId} (h : s.Mirrored) (hnew : s.issued < id.number) :
    s.queries[id]? = none := by
  cases hlive : s.queries[id]? with
  | none => rfl
  | some live => exact absurd (h.number id live hlive).1 (Nat.not_le_of_lt hnew)

theorem Mirrored.observer_eq_none {id : ObserverId} (h : s.Mirrored) (hnew : s.issued < id.number) :
    s.observers[id]? = none := by
  cases hobserver : s.observers[id]? with
  | none => rfl
  | some observer => exact absurd (h.observer id observer hobserver).1 (Nat.not_le_of_lt hnew)

theorem Course.mirrored (h : Course .empty past s) : s.Mirrored :=
  (h.reaches .empty).mirrored

/-- Whether every live query is new or has become what it is. -/
structure Tends (s s' : Session ρ) : Prop where
  issued : s.issued ≤ s'.issued
  queries : ∀ (id : QueryId) (live' : LiveQuery), s'.queries[id]? = some live' →
    s.issued < id.number ∧ live'.Opens ∨ ∃ live, s.queries[id]? = some live ∧ live.Becomes live'

namespace Tends

theorem aside (hissued : s.issued ≤ s'.issued) (hqueries : s'.queries = s.queries) : s.Tends s' := by
  refine ⟨hissued, fun id live' hlive' => Or.inr ⟨live', ?_, .refl live'⟩⟩
  rwa [hqueries] at hlive'

theorem proceeds (h : s.Proceeds s') : s.Tends s' :=
  .aside h.issued h.queries

/-- Live queries may be discarded afterwards. -/
theorem shrinks
    (h : s.Tends s')
    (hissued : s'.issued ≤ s''.issued)
    (hqueries : ∀ (id : QueryId) (live : LiveQuery), s''.queries[id]? = some live →
      s'.queries[id]? = some live) :
    s.Tends s'' :=
  ⟨h.issued.trans hissued, fun id live hlive => h.queries id live (hqueries id live hlive)⟩

/-- Other things may change before. -/
theorem after (h : s'.Tends s'') (hissued : s.issued ≤ s'.issued) (hqueries : s'.queries = s.queries) :
    s.Tends s'' := by
  refine ⟨hissued.trans h.issued, fun id live' hlive' => ?_⟩
  rcases h.queries id live' hlive' with ⟨hnew, hopens⟩ | ⟨live, hlive, hbecomes⟩
  · exact Or.inl ⟨hissued.trans_lt hnew, hopens⟩
  · exact Or.inr ⟨live, hqueries ▸ hlive, hbecomes⟩

theorem queries_discardObserver {id : ObserverId} {query : QueryId} {live : LiveQuery}
    (hlive : (s.discardObserver id).queries[query]? = some live) : s.queries[query]? = some live := by
  rw [discardObserver] at hlive
  split at hlive
  · exact hlive
  · rw [getElem?_discardQuery] at hlive
    split at hlive
    · cases hlive
    · exact hlive

theorem queries_dropObserver {name : String} {query : QueryId} {live : LiveQuery}
    (hlive : (s.dropObserver name).queries[query]? = some live) : s.queries[query]? = some live := by
  rw [dropObserver] at hlive
  split at hlive
  · exact hlive
  · exact queries_discardObserver hlive

theorem issued_dropObserver (s : Session ρ) (name : String) :
    (s.dropObserver name).issued = s.issued := by
  rw [dropObserver]
  split
  · rfl
  · rw [discardObserver]
    split
    · rfl
    · exact (s.destroyQuery_spares _).1

theorem dropQuery (h : s.Tends s') (name : String) : s.Tends (s'.dropQuery name) :=
  h.shrinks (Mirrored.issued_dropQuery s' name).ge fun _ _ => Mirrored.getElem?_dropQuery

theorem dropObserver (h : s.Tends s') (name : String) : s.Tends (s'.dropObserver name) :=
  h.shrinks (issued_dropObserver s' name).ge fun _ _ => queries_dropObserver

theorem letGo (s : Session ρ) (name : String) (holding : Holding) : s.Tends (s.letGo name holding) := by
  have hself : s.Tends s := aside (Nat.le_refl _) rfl
  cases holding with
  | query => exact hself.dropQuery name
  | observer => exact hself.dropObserver name
  | node => exact aside (Nat.le_refl _) rfl
  | edge => exact aside (Nat.le_refl _) rfl
  | graph => exact aside (Nat.le_refl _) rfl
  | cursor => exact aside (Nat.le_refl _) rfl
  | compiled => exact aside (Nat.le_refl _) rfl

section Opening

variable {graph : GraphId} {query : Query} {id : QueryId} {live : LiveQuery}

theorem openUncached (hopen : s.openUncached graph query = .ok (id, live, s')) : s.Tends s' := by
  obtain ⟨compiled, -, rfl, rfl, rfl⟩ := openUncached_eq_ok hopen
  refine ⟨Nat.le_succ _, fun other live' hlive' => ?_⟩
  rcases eq_or_of_getElem?_insert hlive' with ⟨rfl, rfl⟩ | ⟨-, hlive'⟩
  · exact Or.inl ⟨Nat.lt_succ_self _, .uncached rfl⟩
  · exact Or.inr ⟨live', hlive', .refl live'⟩

theorem openCached
    {observer : Option ObserverId}
    (hopen : s.openCached graph query observer = .ok (id, live, s')) :
    s.Tends s' := by
  obtain ⟨compiled, rows, -, hrows, rfl, rfl, rfl⟩ := openCached_eq_ok hopen
  refine ⟨Nat.le_add_right _ 2, fun other live' hlive' => ?_⟩
  rcases eq_or_of_getElem?_insert hlive' with ⟨rfl, rfl⟩ | ⟨-, hlive'⟩
  · exact Or.inl ⟨Nat.lt_succ_self _, .holding rfl ⟨_, hrows⟩⟩
  · exact Or.inr ⟨live', hlive', .refl live'⟩

theorem openObserver
    {observer : ObserverId}
    (hopen : s.openObserver graph query = .ok (observer, live, s')) :
    s.Tends s' := by
  obtain ⟨id, s₁, rows, hcached, -, -, rfl⟩ := openObserver_eq_ok hopen
  have hopened : s.Tends s₁ := (openCached hcached).after (Nat.le_succ _) rfl
  exact ⟨hopened.issued, hopened.queries⟩

theorem nameQuery (s : Session ρ) (as : String) (graph : GraphId) (query : Query) (cached : Bool) :
    s.Tends (s.nameQuery as graph query cached) := by
  unfold Session.nameQuery
  dsimp only
  split
  · exact aside (Nat.le_refl _) rfl
  · rename_i id live s' hopen
    have hopened : s.Tends s' := by
      cases cached with
      | true => exact openCached hopen
      | false => exact openUncached hopen
    exact (hopened.dropQuery as).shrinks (Nat.le_refl _) fun _ _ hlive => hlive

theorem nameObserver (s : Session ρ) (as : String) (graph : GraphId) (query : Query) :
    s.Tends (s.nameObserver as graph query) := by
  rw [Session.nameObserver]
  split
  · exact aside (Nat.le_refl _) rfl
  · rename_i observer live s' hopen
    exact ((openObserver hopen).dropObserver as).shrinks (Nat.le_refl _) fun _ _ hlive => hlive

end Opening

theorem destroyQuery (s : Session ρ) (id : QueryId) : s.Tends (s.destroyQuery id) := by
  refine ⟨(s.destroyQuery_spares id).1.ge, fun other live' hlive' => Or.inr ?_⟩
  rw [getElem?_destroyQuery] at hlive'
  split at hlive'
  · obtain ⟨live, hlive, rfl⟩ := Option.map_eq_some_iff.mp hlive'
    exact ⟨live, hlive, .destroyed rfl⟩
  · exact ⟨live', hlive', .refl live'⟩

theorem destroyObserver (s : Session ρ) (id : ObserverId) : s.Tends (s.destroyObserver id) := by
  rw [Session.destroyObserver]
  split
  · exact aside (Nat.le_refl _) rfl
  · have hdestroyed := destroyQuery s
    exact ⟨(hdestroyed _).issued, (hdestroyed _).queries⟩

theorem showSnapshot (s : Session ρ) (query : QueryId) : s.Tends (s.showSnapshot query) := by
  rw [Session.showSnapshot]
  split
  · exact aside (Nat.le_refl _) rfl
  · refine ⟨Nat.le_refl _, fun other live' hlive' => Or.inr ?_⟩
    replace hlive' := (s.getElem?_updateQuery query other _).symm.trans hlive'
    split at hlive'
    · obtain ⟨live, hlive, rfl⟩ := Option.map_eq_some_iff.mp hlive'
      exact ⟨live, hlive, .shown rfl⟩
    · exact ⟨live', hlive', .refl live'⟩

theorem refresh (s : Session ρ) (graph : GraphId) (event : Event) (id : QueryId) :
    s.Tends (s.refresh graph event id) := by
  rw [Session.refresh]
  cases hlive : s.queries[id]? with
  | none => exact aside (Nat.le_refl _) rfl
  | some live =>
      dsimp only
      split
      · rename_i hconcerns
        rw [LiveQuery.concerns, Bool.and_eq_true] at hconcerns
        cases hrows : s.collect live.query graph with
        | error fault => exact aside (Nat.le_refl _) rfl
        | ok rows =>
            dsimp only
            let fresh := ({ s with issued := s.issued + 1 } : Session ρ).updateQuery id fun live =>
              { live with snapshot := some ⟨s.issued + 1, rows⟩ }
            have hrefreshed : s.Tends fresh := by
              refine ⟨Nat.le_succ _, fun other live' hlive' => Or.inr ?_⟩
              replace hlive' := (getElem?_updateQuery _ id other _).symm.trans hlive'
              split at hlive'
              · rename_i hother
                obtain ⟨former, hformer, rfl⟩ := Option.map_eq_some_iff.mp hlive'
                obtain rfl := Option.some.inj (hlive.symm.trans (hother ▸ hformer))
                exact ⟨live, hformer, .refreshed ⟨_, rows⟩ hconcerns.1 ⟨s.store.index graph, hrows⟩ rfl⟩
              · exact ⟨live', hlive', .refl live'⟩
            cases live.observer with
            | none => exact hrefreshed
            | some observer =>
                obtain ⟨hissued, hqueries, -⟩ := fresh.observe_spares observer live.query rows
                exact hrefreshed.shrinks hissued.ge fun _ _ hlive => hqueries ▸ hlive
      · exact aside (Nat.le_refl _) rfl

theorem begin (s : Session ρ) (c : Command ρ) : s.Tends (s.begin c) := by
  have hdone : ∀ {s' : Session ρ}, s.Tends s' → ∀ reply, s.Tends (s'.answer reply) :=
    fun h reply => h.shrinks (Nat.le_refl _) fun _ _ hlive => hlive
  by_cases hplain : c.Plain
  · exact proceeds (Proceeds.begin s hplain)
  · cases c with
    | letGo holding name => exact hdone (letGo s name holding) _
    | subscribe as graph on item times steps => exact aside (Nat.le_succ _) rfl
    | unsubscribe graph subscription => exact aside (Nat.le_refl _) rfl
    | openQuery as graph query cached => exact nameQuery s as graph query cached
    | destroyQuery query => exact hdone (destroyQuery s query) _
    | snapshot query => exact showSnapshot s query
    | observe as graph query => exact nameObserver s as graph query
    | listen as observer on times steps => exact aside (Nat.le_succ _) rfl
    | drain observer change =>
        rw [Session.begin, drain]
        split
        · exact aside (Nat.le_refl _) rfl
        · exact aside (Nat.le_refl _) rfl
    | destroyObserver observer => exact hdone (destroyObserver s observer) _
    | _ => exact absurd trivial hplain

theorem issueRequest (interpret : Interpreter ρ) (s : Session ρ) (request : ρ) :
    s.Tends (s.issueRequest interpret request) := by
  rcases issueRequest_cases interpret s request with ⟨refusal, heq⟩ | ⟨c, -, heq⟩
  · rw [heq]
    exact aside (Nat.le_refl _) rfl
  · rw [heq]
    exact begin s c

theorem perform
    {interpret : Interpreter ρ}
    {task : Task ρ}
    {rest : List (Task ρ)}
    (htasks : s.tasks = task :: rest) :
    s.Tends (({ s with tasks := rest } : Session ρ).perform interpret task) := by
  by_cases hplain : task.Plain
  · exact proceeds (Proceeds.perform htasks hplain)
  · cases task with
    | dispatch graph events =>
        cases events with
        | nil => exact aside (Nat.le_refl _) rfl
        | cons event events => exact aside (Nat.le_refl _) rfl
    | deliver graph event handlers =>
        cases handlers with
        | nil => exact aside (Nat.le_refl _) rfl
        | cons handler handlers =>
            cases handler with
            | query id => exact (refresh _ graph event id).after (Nat.le_refl _) rfl
            | script id on item =>
                exact (proceeds (Proceeds.tellScript _ graph event id on item)).after (Nat.le_refl _) rfl
    | script label requests =>
        cases requests with
        | nil => exact aside (Nat.le_refl _) rfl
        | cons request requests => exact (issueRequest interpret _ request).after (Nat.le_refl _) rfl
    | _ => exact absurd trivial hplain

theorem release (h : s.Tends s') : s.Tends s'.release := by
  obtain ⟨observers, holdsEdge, heq, -⟩ := s'.release_eq
  rw [heq]
  exact ⟨h.issued, h.queries⟩

/-- What a turn makes of the live queries. -/
theorem turn (h : s.Turn begun s') : s.Tends s' := by
  cases h with
  | request interpret request hidle hproper =>
      have hissued := issueRequest interpret { s with log := [] } request
      have hbegun : s.Tends _ := hissued.after (Nat.le_refl _) rfl
      exact hbegun.release
  | step interpret hproper =>
      rw [Session.step]
      split
      · exact aside (Nat.le_refl _) rfl
      · rename_i task rest htasks
        exact (perform htasks).release

end Tends

theorem Course.issued {r : Session ρ} (h : Course r past s) : r.issued ≤ s.issued := by
  induction h with
  | refl => exact Nat.le_refl _
  | turn _ hturn ih => exact ih.trans (Tends.turn hturn).issued

/-- Whether the rows that live queries hold are rows that their queries have had. -/
def Gathered (s : Session ρ) : Prop :=
  ∀ (id : QueryId) (live : LiveQuery) (snapshot : Snapshot), s.queries[id]? = some live →
    live.snapshot = some snapshot → live.query.Yields snapshot.rows

theorem Gathered.tends (h : s.Gathered) (htends : s.Tends s') : s'.Gathered := by
  intro id live' snapshot hlive' hsnapshot
  rcases htends.queries id live' hlive' with ⟨-, hopens⟩ | ⟨live, hlive, hbecomes⟩
  · cases hopens with
    | uncached heq =>
        rw [heq] at hsnapshot
        cases hsnapshot
    | holding heq hrows =>
        rw [heq] at hsnapshot ⊢
        obtain rfl := Option.some.inj hsnapshot
        exact hrows
  · cases hbecomes with
    | shown heq =>
        rw [heq] at hsnapshot ⊢
        exact h id live snapshot hlive hsnapshot
    | destroyed heq =>
        rw [heq] at hsnapshot
        cases hsnapshot
    | refreshed snapshot' hactive hrows heq =>
        rw [heq] at hsnapshot ⊢
        obtain rfl := Option.some.inj hsnapshot
        exact hrows

/-- Live queries hold nothing but rows that their queries have had. -/
theorem Course.gathered (h : Course .empty past s) : s.Gathered := by
  induction h with
  | refl =>
      intro id live snapshot hlive
      simp [Session.empty] at hlive
  | turn _ hturn ih => exact ih.tends (.turn hturn)

end Session

end PatternGraph
