import PatternGraph.Proofs.Session.Conservation
import PatternGraph.Proofs.Session.Listening
import PatternGraph.Proofs.Session.Subscriptions

/-!
# What destruction ends

A destroyed live query has no rows and no subscription, and a destroyed observer has no rows and empty
queues; both stay so whatever is done.  No listener of the observer is put on a list of those who are to
be told any more.  But whoever is on such a list when the observer is destroyed is told, and so
are those who begin to listen to the destroyed observer while a part of a refresh is still to be announced.
-/

namespace PatternGraph

variable {ρ : Type}

/-- Whether an observer has been destroyed, and has nothing to show. -/
structure Observer.Ended (observer : Observer) : Prop where
  destroyed : observer.destroyed = true
  retained : observer.retained = []
  queue : ∀ change, observer.queue change = []

theorem Observer.Ended.destroy (observer : Observer) : observer.destroy.Ended :=
  ⟨rfl, rfl, fun change => by cases change <;> rfl⟩

/-- A destroyed observer may get listeners, but nothing to show. -/
theorem Observer.Ended.alter
    {observer : Observer}
    (h : observer.Ended)
    (c : Command ρ)
    (fresh : ScriptId)
    (id : ObserverId) :
    (c.alter fresh id observer).Ended := by
  cases c with
  | listen as other on times steps =>
      rw [Command.alter]
      split
      · refine ⟨?_, ?_, fun change => ?_⟩
        · rw [Observer.listen_destroyed, h.destroyed]
        · rw [Observer.listen_retained, h.retained]
        · rw [Observer.listen_queue, h.queue]
      · exact h
  | drain other on =>
      rw [Command.alter]
      split
      · refine ⟨?_, ?_, fun change => ?_⟩
        · rw [Observer.drain_destroyed, h.destroyed]
        · rw [Observer.drain_retained, h.retained]
        · rw [Observer.drain_queue, h.queue, ite_self]
      · exact h
  | destroyObserver other =>
      rw [Command.alter]
      split
      · exact .destroy observer
      · exact h
  | _ => exact h

namespace Session

variable {s s' t u : Session ρ} {begun : List (Command ρ)} {past later : List (Stage ρ)}
  {id : ObserverId} {query : QueryId} {observer : Observer} {change : Change} {l : ScriptId}

/-- Whether a live query shows no snapshot and has left the boards of all graphs. -/
def Forgets (s : Session ρ) (query : QueryId) : Prop :=
  (s.begin (.snapshot query)).outcome = .reply .noSnapshot ∧
    ∀ graph subscription, (subscription, .query query) ∉ (s.board graph).handlers

/-- Whether an observer shows no results and gives no rows from its queues. -/
def Clears (s : Session ρ) (id : ObserverId) : Prop :=
  (∀ observer, s.observers[id]? = some observer → s.respond (.results id) = .ok (.rows [])) ∧
    ∀ change, s.polled id change = []

theorem Subscribed.forgets
    (h : s.Subscribed)
    (hended : ∀ live, s.queries[query]? = some live → live.Ended) :
    s.Forgets query := by
  refine ⟨?_, fun graph subscription hmem => ?_⟩
  · have hnone : s.queries[query]?.bind LiveQuery.snapshot = none :=
      Option.bind_eq_none_iff.mpr fun live hlive => (hended live hlive).snapshot
    rw [Session.begin, showSnapshot, hnone]
    rfl
  · obtain ⟨live, hlive, -, hsome⟩ := h graph subscription query hmem
    rw [(hended live hlive).subscription] at hsome
    cases hsome

theorem clears_of_ended (hended : ∀ observer, s.observers[id]? = some observer → observer.Ended) :
    s.Clears id := by
  refine ⟨fun observer hobserver => ?_, fun change => ?_⟩
  · rw [respond, withObserver, hobserver]
    dsimp only
    rw [(hended observer hobserver).retained]
  · cases hobserver : s.observers[id]? with
    | none => exact polled_eq_nil hobserver change
    | some observer => rw [polled_eq hobserver, (hended observer hobserver).queue]

/-- A command that destroys a live query leaves it so. -/
theorem Turn.ended_of_destroyQuery (h : s.Turn begun t) (hc : .destroyQuery query ∈ begun) :
    ∀ live, t.queries[query]? = some live → live.Ended := by
  obtain ⟨-, t₀, -, -, -, rfl⟩ := h.begins hc
  obtain ⟨observers, holdsEdge, heq, -⟩ := (t₀.begin (.destroyQuery query)).release_eq
  intro live hlive
  rw [heq] at hlive
  replace hlive : (t₀.destroyQuery query).queries[query]? = some live := hlive
  rw [getElem?_destroyQuery, if_pos rfl] at hlive
  obtain ⟨former, -, rfl⟩ := Option.map_eq_some_iff.mp hlive
  exact .destroy former

/-- A command that destroys an observer leaves it and its live query so, and without listeners. -/
theorem Turn.ended_of_destroyObserver
    (h : s.Turn begun t)
    (hc : .destroyObserver id ∈ begun)
    (hobserver : s.observers[id]? = some observer) :
    (∀ live, t.queries[observer.query]? = some live → live.Ended) ∧
      ∀ shown, t.observers[id]? = some shown → shown = observer.destroy := by
  obtain ⟨-, t₀, -, hqueries, hobservers, rfl⟩ := h.begins hc
  rw [← hobservers] at hobserver
  have hbegun : t₀.begin (.destroyObserver id) =
      ((t₀.destroyQuery observer.query).updateObserver id Observer.destroy).answer (.flag true) := by
    rw [begin, destroyObserver, hobserver]
  refine ⟨fun live hlive => ?_, fun shown hshown => ?_⟩
  · obtain ⟨observers, holdsEdge, heq, -⟩ := (t₀.begin (.destroyObserver id)).release_eq
    rw [heq, hbegun] at hlive
    replace hlive : (t₀.destroyQuery observer.query).queries[observer.query]? = some live := hlive
    rw [getElem?_destroyQuery, if_pos rfl] at hlive
    obtain ⟨former, -, rfl⟩ := Option.map_eq_some_iff.mp hlive
    exact .destroy former
  · have hfound := of_getElem?_release hshown
    rw [hbegun] at hfound
    replace hfound := (getElem?_updateObserver _ id id _).symm.trans hfound
    rw [if_pos rfl, (t₀.destroyQuery_spares observer.query).2.1, hobserver] at hfound
    exact (Option.some.inj hfound).symm

/-- A destroyed live query is not made active again, nor is its identity given out again. -/
theorem Course.query_ended
    (h : Course t later u)
    (hnumber : query.number ≤ t.issued)
    (hended : ∀ live, t.queries[query]? = some live → live.Ended) :
    query.number ≤ u.issued ∧ ∀ live, u.queries[query]? = some live → live.Ended := by
  induction h with
  | refl => exact ⟨hnumber, hended⟩
  | turn _ hturn ih =>
      have htends := Tends.turn hturn
      refine ⟨ih.1.trans htends.issued, fun live' hlive' => ?_⟩
      rcases htends.queries query live' hlive' with ⟨hnew, -⟩ | ⟨live, hlive, hbecomes⟩
      · exact absurd ih.1 (Nat.not_le_of_lt hnew)
      · exact (ih.2 live hlive).becomes hbecomes

theorem Shift.observer_ended
    (h : s.Shift begun s')
    (hnumber : id.number ≤ s.issued)
    (hended : ∀ observer, s.observers[id]? = some observer → observer.Ended) :
    ∀ observer, s'.observers[id]? = some observer → observer.Ended := by
  intro observer' hobserver'
  cases h with
  | still hsilent hloud hobservers => exact hended observer' (hobservers id observer' hobserver')
  | begins c hsilent hloud hobservers hissued =>
      rcases hobservers id observer' hobserver' with ⟨hnew, -⟩ | ⟨observer, hobserver, rfl⟩
      · exact absurd hnumber (Nat.not_le_of_lt hnew)
      · exact (hended observer hobserver).alter c _ id
  | absorbs fed shown query rows pinned hsilent hshown hfed hformer hrows hloud hobservers =>
      obtain ⟨observer, hobserver, rfl⟩ := hobservers id observer' hobserver'
      by_cases hid : id = fed
      · -- a destroyed observer is not handed any rows
        subst hid
        rw [(hended shown hshown).destroyed] at hfed
        cases hfed
      · rw [if_neg hid]
        exact hended observer hobserver
  | announces a rest htasks hloud hobservers =>
      exact hended observer' (hobservers id observer' hobserver')
  | notifies on rows listeners rest htasks hloud hobservers =>
      exact hended observer' (hobservers id observer' hobserver')

/-- A destroyed observer has nothing to show at any time afterwards. -/
theorem Course.observer_ended
    (h : Course .empty past t)
    (hlater : Course t later u)
    (hnumber : id.number ≤ t.issued)
    (hended : ∀ observer, t.observers[id]? = some observer → observer.Ended) :
    id.number ≤ u.issued ∧ ∀ observer, u.observers[id]? = some observer → observer.Ended := by
  induction hlater with
  | refl => exact ⟨hnumber, hended⟩
  | turn hlater hturn ih =>
      exact ⟨ih.1.trans (Tends.turn hturn).issued,
        ((h.trans hlater).shift hturn).observer_ended ih.1 ih.2⟩

/-- Refreshes that are announced have been so before, or are those of an observer that is not destroyed. -/
theorem Shift.announce_mem
    {a : Announcement}
    (h : s.Shift begun s')
    (hmem : .announce a ∈ s'.loud) :
    (∃ before, .announce { a with rest := before ++ a.rest } ∈ s.loud) ∨
      ∃ observer, s.observers[a.observer]? = some observer ∧ observer.destroyed = false := by
  have hlater : ∀ {rest : List (Task ρ)} {task : Task ρ}, s.tasks = task :: rest →
      .announce a ∈ rest.filter Task.isLoud →
        ∃ before, .announce { a with rest := before ++ a.rest } ∈ s.loud := by
    intro rest task htasks hmem
    refine ⟨[], List.mem_filter.mpr ⟨?_, rfl⟩⟩
    rw [htasks]
    exact List.mem_cons_of_mem _ (List.mem_of_mem_filter hmem)
  cases h with
  | still hsilent hloud hobservers => exact Or.inl ⟨[], hloud ▸ hmem⟩
  | begins c hsilent hloud hobservers hissued => exact Or.inl ⟨[], hloud ▸ hmem⟩
  | absorbs fed shown query fresh pinned hsilent hshown hfed hformer hrows hloud hobservers =>
      rw [hloud, Difference.announced] at hmem
      rcases List.mem_append.mp hmem with hmem | hmem
      · split at hmem
        · cases hmem
        · cases List.mem_singleton.mp hmem
          exact Or.inr ⟨shown, hshown, hfed⟩
      · exact Or.inl ⟨[], hmem⟩
  | announces a₀ rest htasks hloud hobservers =>
      rw [hloud, goesOn] at hmem
      rcases List.mem_append.mp hmem with hmem | hmem
      · split at hmem
        · cases hmem
        · rename_i change others hrest
          dsimp only at hmem
          rcases List.mem_append.mp hmem with hmem | hmem
          · split at hmem
            · cases hmem
            · cases List.mem_singleton.mp hmem
          · cases List.mem_singleton.mp hmem
            obtain ⟨shower, pinned, told, difference, parts⟩ := a₀
            obtain rfl : parts = change :: others := hrest
            exact Or.inl ⟨[change], mem_loud htasks rfl⟩
      · exact Or.inl (hlater htasks hmem)
  | notifies on fresh heard rest htasks hloud hobservers =>
      rw [hloud] at hmem
      rcases List.mem_append.mp hmem with hmem | hmem
      · cases heard with
        | nil => cases hmem
        | cons listener others => cases List.mem_singleton.mp hmem
      · exact Or.inl (hlater htasks hmem)

/-- Of a destroyed observer nothing is announced but what has been so when it was destroyed. -/
theorem Course.announced_before
    {a : Announcement}
    (h : Course .empty past t)
    (hlater : Course t later u)
    (hnumber : a.observer.number ≤ t.issued)
    (hended : ∀ observer, t.observers[a.observer]? = some observer → observer.Ended)
    (rest : List Change)
    (hmem : .announce { a with rest := rest } ∈ u.loud) :
    ∃ before, .announce { a with rest := before ++ rest } ∈ t.loud := by
  induction hlater generalizing rest with
  | refl => exact ⟨[], hmem⟩
  | @turn later s s' begun hlater hturn ih =>
      rcases ((h.trans hlater).shift hturn).announce_mem hmem with
        ⟨before, hbefore⟩ | ⟨observer, hobserver, hlive⟩
      · obtain ⟨earlier, hearlier⟩ := ih _ hbefore
        exact ⟨earlier ++ before, by rw [List.append_assoc]; exact hearlier⟩
      · rw [((h.observer_ended hlater hnumber hended).2 observer hobserver).destroyed] at hlive
        cases hlive

/-- Whoever is to be told of rows has a number that has been given out. -/
theorem Course.awaiting_bounded
    {rows : List Row}
    (h : Course .empty past s)
    (hrows : rows ∈ s.awaits l) :
    l.number ≤ s.issued := by
  obtain ⟨change, listeners, htask, hl⟩ := of_mem_awaits hrows
  obtain ⟨v, hv, id, told, hall⟩ := h.notified_suffix htask
  have hlistens : l ∈ v.listeners id change := hall ▸ List.mem_append_right told hl
  exact h.listener_bounded (List.mem_cons_of_mem _ hv) hlistens

/-- Whoever listens on a list that has been empty is a new listener. -/
theorem Course.listener_fresh
    (h : Course .empty past t)
    (hlater : Course t later u)
    (hnone : t.listeners id change = [])
    (hl : l ∈ u.listeners id change) :
    t.issued < l.number := by
  induction hlater with
  | refl =>
      rw [hnone] at hl
      cases hl
  | turn hlater hturn ih =>
      rcases ((h.trans hlater).shift hturn).mem_listeners hl with hl | ⟨-, -, rfl⟩
      · exact ih hl
      · exact Nat.lt_succ_of_le hlater.issued

/-- Whoever does not listen any more is called with what it has been to be told of, and nothing else. -/
theorem Course.heard_of_unlisted
    (h : Course .empty past t)
    (hlater : Course t later u)
    (hunlisted : ∀ v ∈ later.map Stage.state, ∀ id change, l ∉ v.listeners id change) :
    heard l later ++ u.awaits l = t.awaits l := by
  induction hlater with
  | refl => rfl
  | @turn later s s' begun hlater hturn ih =>
      have hbefore := ih fun v hv => hunlisted v (List.mem_cons_of_mem _ hv)
      rw [heard_cons, List.append_assoc, ← hbefore]
      congr 1
      rcases ((h.trans hlater).shift hturn).awaits l with hsame | ⟨a, rest, -, hsilent, htold⟩
      · exact hsame
      · have hnobody : (s.goesOn a).flatMap (Task.awaits l) = [] := by
          refine List.eq_nil_iff_forall_not_mem.mpr fun rows hrows => ?_
          obtain ⟨on, -, -, hl⟩ := of_mem_awaits_goesOn hrows
          exact hunlisted s List.mem_cons_self a.observer on hl
        rw [hsilent, htold, hnobody]
        rfl

/--
A new listener of a destroyed observer is told nothing but what is still to be announced of a refresh
before.
-/
theorem Course.heard_of_fresh
    {rows : List Row}
    (h : Course .empty past t)
    (hlater : Course t later u)
    (hnumber : id.number ≤ t.issued)
    (hended : ∀ observer, t.observers[id]? = some observer → observer.Ended)
    (hfresh : t.awaits l = [])
    (honly : ∀ v ∈ later.map Stage.state, ∀ id' on, l ∈ v.listeners id' on → id' = id ∧ on = change)
    (hrows : rows ∈ heard l later ++ u.awaits l) :
    ∃ a, .announce a ∈ t.tasks ∧ a.observer = id ∧ change ∈ a.rest ∧
      rows = a.difference.rows change := by
  induction hlater with
  | refl =>
      rw [hfresh] at hrows
      cases hrows
  | @turn later s s' begun hlater hturn ih =>
      have hbefore := ih fun v hv => honly v (List.mem_cons_of_mem _ hv)
      rw [heard_cons, List.append_assoc] at hrows
      rcases ((h.trans hlater).shift hturn).awaits l with hsame | ⟨a, rest, htasks, hsilent, htold⟩
      · rw [hsame] at hrows
        exact hbefore hrows
      · rw [hsilent, htold, List.nil_append] at hrows
        rcases List.mem_append.mp hrows with hrows | hrows
        · exact hbefore (List.mem_append_left _ hrows)
        · rcases List.mem_append.mp hrows with hrows | hrows
          · obtain ⟨on, hon, rfl, hl⟩ := of_mem_awaits_goesOn hrows
            obtain ⟨hid, rfl⟩ := honly s List.mem_cons_self a.observer on hl
            obtain ⟨before, hmem⟩ := h.announced_before hlater (hid ▸ hnumber) (hid ▸ hended) a.rest
              (mem_loud htasks rfl)
            exact ⟨_, List.mem_of_mem_filter hmem, hid, List.mem_append_right before hon, rfl⟩
          · exact hbefore (List.mem_append_right _ hrows)

/-- Whether one of some commands destroys an observer. -/
def destroys (id : ObserverId) (begun : List (Command ρ)) : Bool :=
  begun.any fun
    | .destroyObserver other => other == id
    | _ => false

theorem mem_of_destroys (h : destroys id begun = true) : .destroyObserver id ∈ begun := by
  obtain ⟨c, hc, hdestroys⟩ := List.any_eq_true.mp h
  split at hdestroys
  · exact eq_of_beq hdestroys ▸ hc
  · cases hdestroys

/--
From the moment on when a live query is destroyed, by itself or with its observer, it shows no snapshot
and is on the board of no graph; and from the moment on when an observer is destroyed, it shows no
results, and its queues are empty.  Whoever has listened to the observer is from then on called with
those rows of which it was still to be told as one of those on a list in progress.  Whoever begins to
listen later is called at most with rows of refreshes of which a part was still to be announced.
-/
theorem Course.destruction_lasts
    (h : Course .empty past s)
    (hturn : s.Turn begun t)
    (hlater : Course t later u) :
    (∀ query, .destroyQuery query ∈ begun → u.Forgets query) ∧
    ∀ id observer, .destroyObserver id ∈ begun → s.observers[id]? = some observer →
      u.Forgets observer.query ∧ u.Clears id ∧
      (∀ change, ∀ l ∈ observer.listeners change, heard l later ++ u.awaits l = t.awaits l) ∧
      ∀ v ∈ u :: later.map Stage.state, ∀ change, ∀ l ∈ v.listeners id change,
        ∀ rows ∈ heard l later, ∃ a, .announce a ∈ t.tasks ∧ a.observer = id ∧ change ∈ a.rest ∧
          rows = a.difference.rows change := by
  have ht := h.turn hturn
  have hall := ht.trans hlater
  have hissued := (Tends.turn hturn).issued
  refine ⟨fun query hc => ?_, fun id observer hc hobserver => ?_⟩
  · obtain ⟨⟨name, hname⟩, -⟩ := hturn.begins hc
    have hnumber := (h.mirrored.own name query hname).1.trans hissued
    exact hall.subscribed.forgets (hlater.query_ended hnumber (hturn.ended_of_destroyQuery hc)).2
  · obtain ⟨hquery, hdestroyed⟩ := hturn.ended_of_destroyObserver hc hobserver
    obtain ⟨hnumber, hqueryNumber⟩ := h.mirrored.observer id observer hobserver
    have hended : ∀ shown, t.observers[id]? = some shown → shown.Ended := fun shown hshown =>
      hdestroyed shown hshown ▸ .destroy observer
    have hnone : ∀ change, t.listeners id change = [] := by
      intro change
      cases hshown : t.observers[id]? with
      | none => exact listeners_eq_nil hshown change
      | some shown =>
          rw [listeners_eq hshown, hdestroyed shown hshown, Observer.destroy_listeners]
    -- each stage after the destruction is the end of a course of its own
    have hlisted : ∀ {v : Session ρ}, v ∈ u :: later.map Stage.state → ∀ {change l},
        l ∈ v.listeners id change → t.issued < l.number := by
      intro v hv change l hl
      obtain ⟨before, hv⟩ := hlater.of_mem hv
      exact ht.listener_fresh hv (hnone change) hl
    have hwithin : ∀ {v : Session ρ}, v ∈ u :: later.map Stage.state →
        v ∈ u :: (later ++ ⟨s, begun⟩ :: past).map Stage.state := by
      intro v hv
      rw [List.map_append]
      exact List.mem_append_left _ hv
    have hs : s ∈ u :: (later ++ ⟨s, begun⟩ :: past).map Stage.state := by simp
    refine ⟨hall.subscribed.forgets (hlater.query_ended (hqueryNumber.trans hissued) hquery).2,
      clears_of_ended (ht.observer_ended hlater (hnumber.trans hissued) hended).2,
      fun change l hl => ?_, fun v hv change l hl rows hrows => ?_⟩
    · refine ht.heard_of_unlisted hlater fun v hv id' change' hl' => ?_
      have hv := List.mem_cons_of_mem u hv
      have hl := listeners_eq hobserver change ▸ hl
      obtain ⟨rfl, rfl⟩ := hall.listeners_apart hs (hwithin hv) hl hl'
      have hbound := (h.listener_bounded List.mem_cons_self hl).trans hissued
      exact Nat.not_le_of_lt (hlisted hv hl') hbound
    · refine ht.heard_of_fresh hlater (hnumber.trans hissued) hended ?_ (fun w hw id' on hl' => ?_)
        (List.mem_append_left _ hrows)
      · refine List.eq_nil_iff_forall_not_mem.mpr fun rows hrows => ?_
        exact Nat.not_le_of_lt (hlisted hv hl) (ht.awaiting_bounded hrows)
      · exact hall.listeners_apart (hwithin (List.mem_cons_of_mem u hw)) (hwithin hv) hl' hl

/--
A listener is told that a node has gone and another one has come.  It destroys the observer, and has
somebody listen for arrivals, who is then told of the arrival.
-/
theorem told_after_destruction :
    ∃ (past later : List (Stage Nat)) (s t u : Session Nat) (begun : List (Command Nat))
      (observer : Observer), Course .empty past s ∧ s.Turn begun t ∧ Course t later u ∧
        .destroyObserver ⟨2⟩ ∈ begun ∧ s.observers[(⟨2⟩ : ObserverId)]? = some observer ∧
        u.Forgets observer.query ∧ u.Clears ⟨2⟩ ∧ (heard ⟨8⟩ later).length = 1 ∧
        ∀ rows ∈ heard ⟨8⟩ later, ∃ a, .announce a ∈ t.tasks ∧ a.observer = ⟨2⟩ ∧
          .added ∈ a.rest ∧ rows = a.difference.rows .added := by
  let first : Node := ⟨⟨1⟩, .root .node⟩
  let second : Node := ⟨⟨2⟩, .root .node⟩
  let interpret := numbered [.createGraph "g", .subscribe "w" ⟨1⟩ (some .added) (some "n2") 1 [7],
    .observe "o" ⟨1⟩ (.single (.nodeType (.root .node))), .listen "l" ⟨2⟩ .removed 1 [8, 9],
    .createNode "a" (.root .node) .null, .createNode "b" (.root .node) .null,
    .addNode ⟨1⟩ first, .removeNode ⟨1⟩ first, .destroyObserver ⟨2⟩, .listen "m" ⟨2⟩ .added 0 [],
    .addNode ⟨1⟩ second]
  let asked := [0, 1, 2, 3, 4, 5, 6].foldl (Session.request interpret 40) .empty
  let s := (Session.request interpret 0 asked 10).run interpret 11
  let t := s.step interpret
  have hasked := (Course.refl : Course (.empty : Session Nat) [] .empty).requested interpret 40
    [0, 1, 2, 3, 4, 5, 6] (by decide +kernel)
  have hbegun := hasked.requested interpret 0 [10] (by decide +kernel)
  have h := hbegun.run 11
    (by decide +kernel : (Session.request interpret 0 asked 10).Sensible interpret 11)
  have hturn : s.Turn (s.upcoming interpret) t := .step interpret (by decide +kernel)
  have hlater := (Course.refl : Course t [] t).run 30 (by decide +kernel : t.Sensible interpret 30)
  have hc : .destroyObserver ⟨2⟩ ∈ s.upcoming interpret := mem_of_destroys (by decide +kernel)
  obtain ⟨observer, hobserver⟩ := Option.isSome_iff_exists.mp
    (by decide +kernel : s.observers[(⟨2⟩ : ObserverId)]?.isSome = true)
  obtain ⟨hforgets, hclears, -, hafterwards⟩ :=
    (h.destruction_lasts hturn hlater).2 ⟨2⟩ observer hc hobserver
  have hlistens : ⟨8⟩ ∈ (t.run interpret 30).listeners ⟨2⟩ .added := by decide +kernel
  exact ⟨_, _, s, t, _, _, observer, h, hturn, hlater, hc, hobserver, hforgets, hclears,
    by decide +kernel, hafterwards _ List.mem_cons_self .added ⟨8⟩ hlistens⟩

/-- A listener is told of an arrival after another one has destroyed the observer. -/
theorem heard_after_destruction :
    ∃ (past later : List (Stage Nat)) (s t u : Session Nat) (begun : List (Command Nat)),
      Course .empty past s ∧ s.Turn begun t ∧ Course t later u ∧ .destroyObserver ⟨1⟩ ∈ begun ∧
        ⟨5⟩ ∈ s.listeners ⟨1⟩ .added ∧ (heard ⟨5⟩ later).length = 1 := by
  let node : Node := ⟨⟨1⟩, .root .node⟩
  let interpret := numbered [.createGraph "g", .observe "o" ⟨1⟩ (.single (.nodeType (.root .node))),
    .listen "l" ⟨1⟩ .added 1 [6], .listen "m" ⟨1⟩ .added 0 [], .createNode "a" (.root .node) .null,
    .addNode ⟨1⟩ node, .destroyObserver ⟨1⟩]
  let asked := [0, 1, 2, 3, 4].foldl (Session.request interpret 40) .empty
  let s := (Session.request interpret 0 asked 5).run interpret 7
  let t := s.step interpret
  have hasked := (Course.refl : Course (.empty : Session Nat) [] .empty).requested interpret 40
    [0, 1, 2, 3, 4] (by decide +kernel)
  have hbegun := hasked.requested interpret 0 [5] (by decide +kernel)
  have h := hbegun.run 7
    (by decide +kernel : (Session.request interpret 0 asked 5).Sensible interpret 7)
  have hturn : s.Turn (s.upcoming interpret) t := .step interpret (by decide +kernel)
  have hlater := (Course.refl : Course t [] t).run 20 (by decide +kernel : t.Sensible interpret 20)
  exact ⟨_, _, s, t, _, _, h, hturn, hlater, mem_of_destroys (by decide +kernel), by decide +kernel,
    by decide +kernel⟩

end Session

end PatternGraph
