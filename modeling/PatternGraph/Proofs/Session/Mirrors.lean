import PatternGraph.Proofs.Lookup
import PatternGraph.Proofs.Session.Plain
import PatternGraph.Proofs.Session.Queries
import PatternGraph.Proofs.Session.Release

/-!
# Observers mirror their live queries

An observer and its live query know each other, are destroyed together, and hold the same rows until
then.  What a client holds as an observer stays there with its live query, and what it holds as a
live query belongs to no observer.
-/

namespace PatternGraph

variable {ρ : Type}

/-- Whether an observer shows what a live query holds. -/
structure Observer.Mirrors (observer : Observer) (id : ObserverId) (live : LiveQuery) : Prop where
  known : live.observer = some id
  active : live.active = !observer.destroyed
  rows : live.active = true → live.snapshot.map Snapshot.rows = some observer.retained

namespace Session

theorem getElem?_updateQuery (s : Session ρ) (id other : QueryId)
    (change : LiveQuery → LiveQuery) :
    (s.updateQuery id change).queries[other]? =
      if other = id then s.queries[other]?.map change else s.queries[other]? :=
  getElem?_modify_eq s.queries id other change

theorem getElem?_updateObserver (s : Session ρ) (id other : ObserverId)
    (change : Observer → Observer) :
    (s.updateObserver id change).observers[other]? =
      if other = id then s.observers[other]?.map change else s.observers[other]? :=
  getElem?_modify_eq s.observers id other change

/-- What destroying a live query leaves of the live queries. -/
theorem getElem?_destroyQuery (s : Session ρ) (id other : QueryId) :
    (s.destroyQuery id).queries[other]? =
      if other = id then s.queries[other]?.map LiveQuery.destroy else s.queries[other]? := by
  rw [destroyQuery]
  cases hlive : s.queries[id]? with
  | none =>
      by_cases hother : other = id
      · subst hother
        simp [hlive]
      · simp [hother]
  | some live =>
      rw [← getElem?_updateQuery]
      cases hsubscription : live.subscription <;> simp [hsubscription, setBoard]

theorem destroyQuery_spares (s : Session ρ) (id : QueryId) :
    (s.destroyQuery id).issued = s.issued ∧ (s.destroyQuery id).observers = s.observers ∧
      (s.destroyQuery id).names = s.names := by
  unfold destroyQuery
  split
  · exact ⟨rfl, rfl, rfl⟩
  · dsimp only
    split
    · exact ⟨rfl, rfl, rfl⟩
    · exact ⟨rfl, rfl, rfl⟩

theorem getElem?_discardQuery (s : Session ρ) (id other : QueryId) :
    (s.discardQuery id).queries[other]? = if other = id then none else s.queries[other]? := by
  rw [discardQuery, getElem?_erase_eq, getElem?_destroyQuery]
  by_cases hother : other = id
  · rw [if_pos hother, if_pos hother]
  · rw [if_neg hother, if_neg hother, if_neg hother]

theorem observe_spares (s : Session ρ) (id : ObserverId) (query : CompiledQuery)
    (rows : List Row) :
    (s.observe id query rows).issued = s.issued ∧ (s.observe id query rows).queries = s.queries ∧
      (s.observe id query rows).names = s.names := by
  unfold observe
  split
  · exact ⟨rfl, rfl, rfl⟩
  · split
    · exact ⟨rfl, rfl, rfl⟩
    · dsimp only
      split
      · exact ⟨rfl, rfl, rfl⟩
      · exact ⟨rfl, rfl, rfl⟩

/-- What handing rows to an observer makes of the observers. -/
theorem getElem?_observe (s : Session ρ) (id other : ObserverId) (query : CompiledQuery)
    (rows : List Row) :
    (s.observe id query rows).observers[other]? =
      if other = id then
        s.observers[other]?.map fun shown => if shown.destroyed then shown else (shown.absorb rows).2
      else s.observers[other]? := by
  rw [observe]
  cases hshown : s.observers[id]? with
  | none =>
      dsimp only
      by_cases hother : other = id
      · rw [if_pos hother, hother, hshown]
        rfl
      · rw [if_neg hother]
  | some shown =>
      dsimp only
      cases hdestroyed : shown.destroyed with
      | true =>
          rw [if_pos rfl]
          by_cases hother : other = id
          · rw [if_pos hother, hother, hshown, Option.map_some, if_pos hdestroyed]
          · rw [if_neg hother]
      | false =>
          have hupdated : (s.updateObserver id fun _ => (shown.absorb rows).2).observers[other]? =
              if other = id then
                s.observers[other]?.map fun shown =>
                  if shown.destroyed then shown else (shown.absorb rows).2
              else s.observers[other]? := by
            rw [getElem?_updateObserver]
            by_cases hother : other = id
            · rw [if_pos hother, if_pos hother, hother, hshown, Option.map_some, Option.map_some,
                hdestroyed]
              rfl
            · rw [if_neg hother, if_neg hother]
          rw [if_neg Bool.false_ne_true]
          split
          · exact hupdated
          · exact hupdated

/-- Whether the observers of a session mirror their live queries. -/
structure Mirrored (s : Session ρ) : Prop where
  number : ∀ (id : QueryId) (live : LiveQuery), s.queries[id]? = some live →
    id.number ≤ s.issued ∧ ∀ observer, live.observer = some observer →
      observer.number ≤ s.issued ∧ live.cached = true
  observer : ∀ (id : ObserverId) (observer : Observer), s.observers[id]? = some observer →
    id.number ≤ s.issued ∧ observer.query.number ≤ s.issued
  mirrors : ∀ (id : ObserverId) (observer : Observer) (live : LiveQuery),
    s.observers[id]? = some observer → s.queries[observer.query]? = some live →
      observer.Mirrors id live
  paired : ∀ (id : QueryId) (live : LiveQuery) (observer : ObserverId) (shown : Observer),
    s.queries[id]? = some live → live.observer = some observer →
      s.observers[observer]? = some shown → shown.query = id
  named : ∀ (name : String) (id : ObserverId), s.names.observers[name]? = some id →
    ∃ observer live, s.observers[id]? = some observer ∧ s.queries[observer.query]? = some live
  once : ∀ (name name' : String) (id : ObserverId), s.names.observers[name]? = some id →
    s.names.observers[name']? = some id → name = name'
  own : ∀ (name : String) (id : QueryId), s.names.queries[name]? = some id →
    id.number ≤ s.issued ∧ ∀ live, s.queries[id]? = some live → live.observer = none

namespace Mirrored

variable {s s' : Session ρ}

theorem empty : Mirrored (Session.empty : Session ρ) := by
  constructor <;> simp [Session.empty, Names.initial]

/-- A change that adds no live query, no observer and no name for either. -/
theorem shrink
    (h : s.Mirrored)
    (hissued : s.issued ≤ s'.issued)
    (hqueries : ∀ (id : QueryId) (live' : LiveQuery), s'.queries[id]? = some live' →
      ∃ live, s.queries[id]? = some live ∧ live'.observer = live.observer ∧
        live'.cached = live.cached)
    (hobservers : ∀ (id : ObserverId) (observer' : Observer), s'.observers[id]? = some observer' →
      ∃ observer, s.observers[id]? = some observer ∧ observer'.query = observer.query)
    (hmirrors : ∀ (id : ObserverId) (observer : Observer) (live : LiveQuery),
      s'.observers[id]? = some observer → s'.queries[observer.query]? = some live →
        observer.Mirrors id live)
    (hnamed : ∀ (name : String) (id : ObserverId), s'.names.observers[name]? = some id →
      s.names.observers[name]? = some id ∧
        ∃ observer live, s'.observers[id]? = some observer ∧
          s'.queries[observer.query]? = some live)
    (hown : ∀ (name : String) (id : QueryId), s'.names.queries[name]? = some id →
      s.names.queries[name]? = some id) :
    s'.Mirrored := by
  refine ⟨fun id live' hlive' => ?_, fun id observer' hobserver' => ?_, hmirrors,
    fun id live' observer shown' hlive' hknown hshown' => ?_, fun name id hname =>
    (hnamed name id hname).2, fun name name' id hname hname' => ?_, fun name id hname => ?_⟩
  · obtain ⟨live, hlive, hknown, hcached⟩ := hqueries id live' hlive'
    obtain ⟨hnumber, hobserver⟩ := h.number id live hlive
    rw [hknown, hcached]
    exact ⟨hnumber.trans hissued, fun observer hsome =>
      ⟨(hobserver observer hsome).1.trans hissued, (hobserver observer hsome).2⟩⟩
  · obtain ⟨observer, hobserver, hquery⟩ := hobservers id observer' hobserver'
    obtain ⟨hnumber, hquery'⟩ := h.observer id observer hobserver
    exact ⟨hnumber.trans hissued, hquery ▸ hquery'.trans hissued⟩
  · obtain ⟨live, hlive, hsame, -⟩ := hqueries id live' hlive'
    obtain ⟨shown, hshown, hquery⟩ := hobservers observer shown' hshown'
    rw [hsame] at hknown
    exact hquery.trans (h.paired id live observer shown hlive hknown hshown)
  · exact h.once name name' id (hnamed name id hname).1 (hnamed name' id hname').1
  · obtain ⟨hnumber, hnone⟩ := h.own name id (hown name id hname)
    refine ⟨hnumber.trans hissued, fun live' hlive' => ?_⟩
    obtain ⟨live, hlive, hsame, -⟩ := hqueries id live' hlive'
    exact hsame.trans (hnone live hlive)

/-- A change that leaves the live queries, the observers and the names for them alone. -/
theorem same
    (h : s.Mirrored)
    (hissued : s.issued ≤ s'.issued)
    (hqueries : s'.queries = s.queries)
    (hobservers : s'.observers = s.observers)
    (hnamedQueries : s'.names.queries = s.names.queries)
    (hnamedObservers : s'.names.observers = s.names.observers) :
    s'.Mirrored := by
  refine h.shrink hissued ?_ ?_ ?_ ?_ ?_
  · rw [hqueries]
    exact fun id live hlive => ⟨live, hlive, rfl, rfl⟩
  · rw [hobservers]
    exact fun id observer hobserver => ⟨observer, hobserver, rfl⟩
  · rw [hqueries, hobservers]
    exact h.mirrors
  · rw [hqueries, hobservers, hnamedObservers]
    exact fun name id hname => ⟨hname, h.named name id hname⟩
  · rw [hnamedQueries]
    exact fun name id hname => hname

theorem proceeds (h : s.Mirrored) (hproceeds : s.Proceeds s') : s'.Mirrored :=
  h.same hproceeds.issued hproceeds.queries hproceeds.observers hproceeds.namedQueries
    hproceeds.namedObservers

/-- Letting go of what nothing holds keeps all observers that have a name. -/
theorem release (h : s.Mirrored) : s.release.Mirrored := by
  obtain ⟨observers, holdsEdge, heq, hobservers⟩ := s.release_eq
  rw [heq]
  have hformer : ∀ (id : ObserverId) (observer : Observer), observers[id]? = some observer →
      s.observers[id]? = some observer := by
    intro id observer hobserver
    rcases hobservers with rfl | rfl
    · exact hobserver
    · rw [Std.ExtTreeMap.getElem?_filter', Option.filter_eq_some_iff] at hobserver
      exact hobserver.1
  refine h.shrink (Nat.le_refl _) (fun id live hlive => ⟨live, hlive, rfl, rfl⟩)
    (fun id observer hobserver => ⟨observer, hformer id observer hobserver, rfl⟩)
    (fun id observer live hobserver => h.mirrors id observer live (hformer id observer hobserver))
    (fun name id hname => ⟨hname, ?_⟩) fun name id hname => hname
  obtain ⟨observer, live, hobserver, hlive⟩ := h.named name id hname
  refine ⟨observer, live, ?_, hlive⟩
  rcases hobservers with rfl | rfl
  · exact hobserver
  · have hheld : s.holdsObserver id = true := holdsObserver_of_name hname
    rw [Std.ExtTreeMap.getElem?_filter', Option.filter_eq_some_iff]
    exact ⟨hobserver, hheld⟩

/-- A change of live queries and observers that leaves alone which of them belong together. -/
theorem adjust
    (h : s.Mirrored)
    (hissued : s.issued ≤ s'.issued)
    (hnames : s'.names = s.names)
    (hqueries : ∀ id : QueryId, (s'.queries[id]?).map (fun live => (live.observer, live.cached)) =
      (s.queries[id]?).map fun live => (live.observer, live.cached))
    (hobservers : ∀ id : ObserverId,
      (s'.observers[id]?).map Observer.query = (s.observers[id]?).map Observer.query)
    (hmirrors : ∀ (id : ObserverId) (observer : Observer) (live : LiveQuery),
      s'.observers[id]? = some observer → s'.queries[observer.query]? = some live →
        observer.Mirrors id live) :
    s'.Mirrored := by
  refine h.shrink hissued (fun id live' hlive' => ?_) (fun id observer' hobserver' => ?_) hmirrors
    (fun name id hname => ?_) ?_
  · have hsame := hqueries id
    rw [hlive', Option.map_some] at hsame
    obtain ⟨live, hlive, hpair⟩ := Option.map_eq_some_iff.mp hsame.symm
    obtain ⟨hknown, hcached⟩ := Prod.mk.inj hpair
    exact ⟨live, hlive, hknown.symm, hcached.symm⟩
  · have hsame := hobservers id
    rw [hobserver', Option.map_some] at hsame
    obtain ⟨observer, hobserver, hquery⟩ := Option.map_eq_some_iff.mp hsame.symm
    exact ⟨observer, hobserver, hquery.symm⟩
  · rw [hnames] at hname
    obtain ⟨observer, live, hobserver, hlive⟩ := h.named name id hname
    have hsame := hobservers id
    rw [hobserver, Option.map_some] at hsame
    obtain ⟨observer', hobserver', hquery⟩ := Option.map_eq_some_iff.mp hsame
    have hsame := hqueries observer.query
    rw [hlive, Option.map_some] at hsame
    obtain ⟨live', hlive', -⟩ := Option.map_eq_some_iff.mp hsame
    exact ⟨hname, observer', live', hobserver', hquery ▸ hlive'⟩
  · rw [hnames]
    exact fun name id hname => hname

/-- No two observers share a live query. -/
theorem observer_unique
    {id other : ObserverId}
    {observer shown : Observer}
    {live : LiveQuery}
    (h : s.Mirrored)
    (hobserver : s.observers[id]? = some observer)
    (hshown : s.observers[other]? = some shown)
    (hquery : shown.query = observer.query)
    (hlive : s.queries[observer.query]? = some live) :
    other = id := by
  have hknown := (h.mirrors other shown live hshown (hquery ▸ hlive)).known
  rw [(h.mirrors id observer live hobserver hlive).known, Option.some.injEq] at hknown
  exact hknown.symm

/-- A live query that belongs to no observer is destroyed. -/
theorem destroyQuery
    {id : QueryId}
    (h : s.Mirrored)
    (hown : ∀ live, s.queries[id]? = some live → live.observer = none) :
    (s.destroyQuery id).Mirrored := by
  obtain ⟨hissued, hobservers, hnames⟩ := s.destroyQuery_spares id
  refine h.adjust hissued.ge hnames (fun other => ?_) (by simp [hobservers]) ?_
  · rw [getElem?_destroyQuery]
    split
    · cases s.queries[other]? <;> rfl
    · rfl
  · rw [hobservers]
    intro other observer live' hobserver hlive'
    rw [getElem?_destroyQuery] at hlive'
    split at hlive'
    · rename_i hquery
      obtain ⟨live, hlive, rfl⟩ := Option.map_eq_some_iff.mp hlive'
      have hknown := (h.mirrors other observer live hobserver hlive).known
      rw [hown live (hquery ▸ hlive)] at hknown
      cases hknown
    · exact h.mirrors other observer live' hobserver hlive'

/-- An observer is destroyed together with its live query. -/
theorem destroyObserver (h : s.Mirrored) (id : ObserverId) : (s.destroyObserver id).Mirrored := by
  rw [Session.destroyObserver]
  cases hobserver : s.observers[id]? with
  | none => exact h
  | some observer =>
      dsimp only
      obtain ⟨hissued, hobservers, hnames⟩ := s.destroyQuery_spares observer.query
      have hqueries := s.getElem?_destroyQuery observer.query
      refine h.adjust hissued.ge hnames (fun other => ?_) (fun other => ?_)
        fun other shown' live' hshown' hlive' => ?_
      · refine (congrArg _ (hqueries other)).trans ?_
        split
        · cases s.queries[other]? <;> rfl
        · rfl
      · rw [getElem?_updateObserver, hobservers]
        split
        · cases s.observers[other]? <;> rfl
        · rfl
      · replace hlive' := (hqueries shown'.query).symm.trans hlive'
        rw [getElem?_updateObserver, hobservers] at hshown'
        split at hshown'
        · rename_i hother
          subst hother
          rw [hobserver, Option.map_some, Option.some.injEq] at hshown'
          subst hshown'
          have hsame : observer.destroy.query = observer.query := rfl
          rw [if_pos hsame] at hlive'
          obtain ⟨live, hlive, rfl⟩ := Option.map_eq_some_iff.mp hlive'
          refine ⟨(h.mirrors other observer live hobserver hlive).known, rfl, fun hactive => ?_⟩
          cases hactive
        · rename_i hother
          split at hlive'
          · rename_i hquery
            obtain ⟨live, hlive, rfl⟩ := Option.map_eq_some_iff.mp hlive'
            exact absurd (h.observer_unique hobserver hshown' hquery (hquery ▸ hlive)) hother
          · exact h.mirrors other shown' live' hshown' hlive'

/-- A change of an observer that touches neither its live query nor its rows. -/
theorem updateObserver
    {change : Observer → Observer}
    {id : ObserverId}
    (h : s.Mirrored)
    (hkept : ∀ observer, s.observers[id]? = some observer →
      (change observer).query = observer.query ∧ (change observer).retained = observer.retained ∧
        (change observer).destroyed = observer.destroyed) :
    (s.updateObserver id change).Mirrored := by
  refine h.adjust (Nat.le_refl _) rfl (fun _ => rfl) (fun other => ?_)
    fun other shown' live hshown' hlive => ?_
  · rw [getElem?_updateObserver]
    split
    · rename_i hother
      cases hshown : s.observers[other]? with
      | none => rfl
      | some shown => exact congrArg some (hkept shown (hother ▸ hshown)).1
    · rfl
  · rw [getElem?_updateObserver] at hshown'
    split at hshown'
    · rename_i hother
      obtain ⟨shown, hshown, rfl⟩ := Option.map_eq_some_iff.mp hshown'
      obtain ⟨hquery, hretained, hdestroyed⟩ := hkept shown (hother ▸ hshown)
      rw [hquery] at hlive
      obtain ⟨hknown, hactive, hrows⟩ := h.mirrors other shown live hshown hlive
      exact ⟨hknown, by rw [hdestroyed]; exact hactive, by rw [hretained]; exact hrows⟩
    · exact h.mirrors other shown' live hshown' hlive

/-- A change of a live query that touches neither its observer nor its rows. -/
theorem updateQuery
    {change : LiveQuery → LiveQuery}
    {id : QueryId}
    (h : s.Mirrored)
    (hobserver : ∀ live, (change live).observer = live.observer)
    (hcached : ∀ live, (change live).cached = live.cached)
    (hactive : ∀ live, (change live).active = live.active)
    (hsnapshot : ∀ live, (change live).snapshot = live.snapshot) :
    (s.updateQuery id change).Mirrored := by
  refine h.adjust (Nat.le_refl _) rfl (fun other => ?_) (fun _ => rfl)
    fun other shown live' hshown hlive' => ?_
  · rw [getElem?_updateQuery]
    split
    · cases s.queries[other]? with
      | none => rfl
      | some live => simp [hobserver, hcached]
    · rfl
  · rw [getElem?_updateQuery] at hlive'
    split at hlive'
    · obtain ⟨live, hlive, rfl⟩ := Option.map_eq_some_iff.mp hlive'
      obtain ⟨hknown, hsame, hrows⟩ := h.mirrors other shown live hshown hlive
      exact ⟨by rw [hobserver]; exact hknown, by rw [hactive]; exact hsame,
        by rw [hactive, hsnapshot]; exact hrows⟩
    · exact h.mirrors other shown live' hshown hlive'

/-- A live query takes in new rows, and so does its observer. -/
theorem refreshed
    {id : QueryId}
    {live : LiveQuery}
    {snapshot : Snapshot}
    (h : s.Mirrored)
    (hlive : s.queries[id]? = some live)
    (hissued : s.issued ≤ s'.issued)
    (hnames : s'.names = s.names)
    (hqueries : s'.queries =
      (s.updateQuery id fun live => { live with snapshot := some snapshot }).queries)
    (hobservers : ∀ id : ObserverId,
      (s'.observers[id]?).map Observer.query = (s.observers[id]?).map Observer.query)
    (hretained : ∀ (other : ObserverId) (shown' : Observer), s'.observers[other]? = some shown' →
      ∃ shown, s.observers[other]? = some shown ∧ shown'.destroyed = shown.destroyed ∧
        (live.observer = some other → shown'.retained = snapshot.rows) ∧
          (live.observer ≠ some other → shown'.retained = shown.retained)) :
    s'.Mirrored := by
  refine h.adjust hissued hnames (fun other => ?_) hobservers fun other shown' live' hshown' hlive' =>
    ?_
  · rw [hqueries, getElem?_updateQuery]
    split
    · cases s.queries[other]? <;> rfl
    · rfl
  · obtain ⟨shown, hshown, hdestroyed, hnew, hold⟩ := hretained other shown' hshown'
    have hquery := hobservers other
    rw [hshown', hshown, Option.map_some, Option.map_some, Option.some.injEq] at hquery
    rw [hqueries, getElem?_updateQuery, hquery] at hlive'
    split at hlive'
    · rename_i hsame
      rw [hsame, hlive, Option.map_some, Option.some.injEq] at hlive'
      subst hlive'
      obtain ⟨hknown, hactive, -⟩ := h.mirrors other shown live hshown (hsame ▸ hlive)
      exact ⟨hknown, by rw [hdestroyed]; exact hactive, fun _ => by rw [hnew hknown]; rfl⟩
    · rename_i hother
      have hne : live.observer ≠ some other :=
        fun hknown => hother (h.paired id live other shown hlive hknown hshown)
      obtain ⟨hknown, hactive, hrows⟩ := h.mirrors other shown live' hshown hlive'
      exact ⟨hknown, by rw [hdestroyed]; exact hactive, by rw [hold hne]; exact hrows⟩

theorem refresh (h : s.Mirrored) (graph : GraphId) (event : Event) (id : QueryId) :
    (s.refresh graph event id).Mirrored := by
  rw [Session.refresh]
  cases hlive : s.queries[id]? with
  | none => exact h
  | some live =>
      dsimp only
      split
      · rename_i hconcerns
        rw [LiveQuery.concerns, Bool.and_eq_true] at hconcerns
        cases s.collect live.query graph with
        | error fault => exact h
        | ok rows =>
            dsimp only
            cases hknown : live.observer with
            | none =>
                refine h.refreshed hlive (Nat.le_succ _) rfl rfl (fun _ => rfl)
                  fun other shown hshown => ?_
                exact ⟨shown, hshown, rfl, by simp [hknown], fun _ => rfl⟩
            | some observer =>
                dsimp only
                let fresh := ({ s with issued := s.issued + 1 } : Session ρ).updateQuery id fun live =>
                  { live with snapshot := some ⟨s.issued + 1, rows⟩ }
                obtain ⟨hissued, hqueries, hnames⟩ := fresh.observe_spares observer live.query rows
                have hobservers := fun other => fresh.getElem?_observe observer other live.query rows
                refine h.refreshed hlive (hissued ▸ Nat.le_succ _) hnames hqueries (fun other => ?_)
                  fun other shown' hshown' => ?_
                · refine (congrArg _ (hobservers other)).trans ?_
                  split
                  · have hquery : ∀ shown : Observer,
                        (if shown.destroyed then shown else (shown.absorb rows).2).query =
                          shown.query := by
                      intro shown
                      split <;> rfl
                    rw [Option.map_map]
                    exact congrArg (fun f => (s.observers[other]?).map f) (funext hquery)
                  · rfl
                · replace hshown' := (hobservers other).symm.trans hshown'
                  split at hshown'
                  · rename_i hother
                    obtain ⟨shown, hshown, rfl⟩ := Option.map_eq_some_iff.mp hshown'
                    have hshown : s.observers[other]? = some shown := hshown
                    -- the observer of an active live query is not destroyed
                    have hquery := h.paired id live other shown hlive (hother ▸ hknown) hshown
                    have hactive := (h.mirrors other shown live hshown (hquery ▸ hlive)).active
                    have hdestroyed : shown.destroyed = false := by
                      rw [hconcerns.1] at hactive
                      simpa using hactive.symm
                    rw [if_neg (by simp [hdestroyed])]
                    refine ⟨shown, hshown, rfl, fun _ => rfl, fun hne => ?_⟩
                    exact absurd (hother ▸ hknown) hne
                  · rename_i hother
                    refine ⟨shown', hshown', rfl, fun hsame => ?_, fun _ => rfl⟩
                    exact absurd (Option.some.inj (hsame.symm.trans hknown)) hother
      · exact h

/-- A new live query, whose observer is still to be opened, if it is to have one. -/
theorem insertQuery
    {id : QueryId}
    {live : LiveQuery}
    (h : s.Mirrored)
    (hid : s.issued < id.number)
    (hnumber : id.number ≤ s'.issued)
    (hqueries : s'.queries = s.queries.insert id live)
    (hobservers : s'.observers = s.observers)
    (hnames : s'.names = s.names)
    (hknown : ∀ observer, live.observer = some observer →
      observer.number ≤ s'.issued ∧ live.cached = true ∧ s.observers[observer]? = none) :
    s'.Mirrored := by
  have hissued : s.issued ≤ s'.issued := hid.le.trans hnumber
  have hcases : ∀ (other : QueryId) (live' : LiveQuery), s'.queries[other]? = some live' →
      other = id ∧ live' = live ∨ other ≠ id ∧ s.queries[other]? = some live' := by
    rw [hqueries]
    exact fun _ _ => eq_or_of_getElem?_insert
  have hold : ∀ other : QueryId, other.number ≤ s.issued → s'.queries[other]? = s.queries[other]? := by
    intro other hother
    rw [hqueries, getElem?_insert_eq, if_neg]
    rintro rfl
    exact Nat.lt_irrefl _ (hid.trans_le hother)
  refine ⟨fun other live' hlive' => ?_, ?_, ?_, ?_, ?_, ?_, ?_⟩
  · rcases hcases other live' hlive' with ⟨rfl, rfl⟩ | ⟨-, hlive'⟩
    · exact ⟨hnumber, fun observer hsome => ⟨(hknown observer hsome).1, (hknown observer hsome).2.1⟩⟩
    · obtain ⟨hnumber', hobserver⟩ := h.number other live' hlive'
      exact ⟨hnumber'.trans hissued, fun observer hsome =>
        ⟨(hobserver observer hsome).1.trans hissued, (hobserver observer hsome).2⟩⟩
  · rw [hobservers]
    intro other observer hobserver
    obtain ⟨hnumber', hquery⟩ := h.observer other observer hobserver
    exact ⟨hnumber'.trans hissued, hquery.trans hissued⟩
  · rw [hobservers]
    intro other observer live' hobserver hlive'
    rw [hold observer.query (h.observer other observer hobserver).2] at hlive'
    exact h.mirrors other observer live' hobserver hlive'
  · rw [hobservers]
    intro other live' observer shown hlive' hsome hshown
    rcases hcases other live' hlive' with ⟨rfl, rfl⟩ | ⟨-, hlive'⟩
    · rw [(hknown observer hsome).2.2] at hshown
      cases hshown
    · exact h.paired other live' observer shown hlive' hsome hshown
  · rw [hobservers, hnames]
    intro name other hname
    obtain ⟨observer, live', hobserver, hlive'⟩ := h.named name other hname
    refine ⟨observer, live', hobserver, ?_⟩
    rwa [hold observer.query (h.observer other observer hobserver).2]
  · rw [hnames]
    exact h.once
  · rw [hnames]
    intro name other hname
    obtain ⟨hnumber', hnone⟩ := h.own name other hname
    rw [hold other hnumber']
    exact ⟨hnumber'.trans hissued, hnone⟩

/-- A new observer of a live query that has been waiting for it. -/
theorem insertObserver
    {id : ObserverId}
    {observer : Observer}
    {live : LiveQuery}
    (h : s.Mirrored)
    (hnone : s.observers[id]? = none)
    (hnumber : id.number ≤ s.issued)
    (hlive : s.queries[observer.query]? = some live)
    (hmirrors : observer.Mirrors id live)
    (honly : ∀ (other : QueryId) (live' : LiveQuery), s.queries[other]? = some live' →
      live'.observer = some id → observer.query = other) :
    Mirrored { s with observers := s.observers.insert id observer } := by
  have hcases : ∀ (other : ObserverId) (shown : Observer),
      (s.observers.insert id observer)[other]? = some shown →
        other = id ∧ shown = observer ∨ other ≠ id ∧ s.observers[other]? = some shown :=
    fun _ _ => eq_or_of_getElem?_insert
  refine ⟨h.number, fun other shown hshown => ?_, fun other shown live' hshown hlive' => ?_,
    fun other live' shower shown hlive' hsome hshown => ?_, fun name other hname => ?_, h.once, h.own⟩
  · rcases hcases other shown hshown with ⟨rfl, rfl⟩ | ⟨-, hshown⟩
    · exact ⟨hnumber, (h.number shown.query live hlive).1⟩
    · exact h.observer other shown hshown
  · have hlive' : s.queries[shown.query]? = some live' := hlive'
    rcases hcases other shown hshown with ⟨rfl, rfl⟩ | ⟨-, hshown⟩
    · rw [hlive, Option.some.injEq] at hlive'
      exact hlive' ▸ hmirrors
    · exact h.mirrors other shown live' hshown hlive'
  · rcases hcases shower shown hshown with ⟨rfl, rfl⟩ | ⟨-, hshown⟩
    · exact honly other live' hlive' hsome
    · exact h.paired other live' shower shown hlive' hsome hshown
  · obtain ⟨shown, live', hshown, hlive'⟩ := h.named name other hname
    refine ⟨shown, live', ?_, hlive'⟩
    have hne : other ≠ id := by
      rintro rfl
      rw [hnone] at hshown
      cases hshown
    rw [getElem?_insert_eq, if_neg hne]
    exact hshown

end Mirrored

end Session

end PatternGraph
