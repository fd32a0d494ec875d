import PatternGraph.Proofs.Session.Feeding

/-!
# Who listens to an observer

A listener is added to one list of one observer, and is a listener of nothing else at any other time.
Whoever is being told of rows is at the end of such a list as it was at some time, and is told of
the change that the list is for.
-/

namespace PatternGraph

variable {ρ : Type}

namespace Observer

theorem listen_listeners (observer : Observer) (id : ScriptId) (on change : Change) :
    (observer.listen id on).listeners change =
      if on = change then observer.listeners change ++ [id] else observer.listeners change := by
  cases on <;> cases change <;> rfl

@[simp]
theorem drain_listeners (observer : Observer) (on change : Change) :
    (observer.drain on).2.listeners change = observer.listeners change := by
  cases on <;> cases change <;> rfl

@[simp]
theorem absorb_listeners (observer : Observer) (rows : List Row) (change : Change) :
    (observer.absorb rows).2.listeners change = observer.listeners change := by
  cases change <;> rfl

@[simp]
theorem destroy_listeners (observer : Observer) (change : Change) :
    observer.destroy.listeners change = [] := by
  cases change <;> rfl

@[simp]
theorem ofRows_listeners (query : QueryId) (rows : List Row) (change : Change) :
    (ofRows query rows).listeners change = [] := by
  cases change <;> rfl

end Observer

/-- The rows that a listener is still to be told of by a task, once for each place on its list. -/
def Task.awaits (l : ScriptId) : Task ρ → List (List Row)
  | .notify _ rows listeners => (listeners.filter (· = l)).map fun _ => rows
  | _ => []

namespace Session

variable {s s' : Session ρ} {begun : List (Command ρ)} {past : List (Stage ρ)}
  {id id' : ObserverId} {observer observer' : Observer} {change change' : Change} {l : ScriptId}

/-- The rows that a listener is still to be told of as one of those on the lists in progress. -/
def awaits (l : ScriptId) (s : Session ρ) : List (List Row) :=
  s.loud.flatMap (Task.awaits l)

/-- The rows that a listener has been called with in some stages, one batch after the other. -/
def heard (l : ScriptId) (past : List (Stage ρ)) : List (List Row) :=
  past.reverse.flatMap fun stage => stage.state.hears l

theorem heard_cons (l : ScriptId) (stage : Stage ρ) (past : List (Stage ρ)) :
    heard l (stage :: past) = heard l past ++ stage.state.hears l := by
  rw [heard, List.reverse_cons, List.flatMap_append, List.flatMap_singleton]
  rfl

theorem hears_eq_nil
    (hsilent : ∀ change rows listeners rest, s.tasks ≠ .notify change rows listeners :: rest)
    (l : ScriptId) : s.hears l = [] := by
  rw [hears]
  split
  · rename_i change rows listener listeners rest htasks
    exact absurd htasks (hsilent change rows _ rest)
  · rfl

theorem of_mem_awaits
    {rows : List Row}
    (h : rows ∈ s.awaits l) :
    ∃ change listeners, .notify change rows listeners ∈ s.loud ∧ l ∈ listeners := by
  obtain ⟨task, htask, hrows⟩ := List.mem_flatMap.mp h
  cases task with
  | notify change told listeners =>
      obtain ⟨listener, hlistener, rfl⟩ := List.mem_map.mp hrows
      obtain ⟨hmem, heq⟩ := List.mem_filter.mp hlistener
      exact ⟨change, listeners, htask, of_decide_eq_true heq ▸ hmem⟩
  | _ => cases hrows

/-- When an announcement goes on, those are to be told who listen at that moment. -/
theorem of_mem_awaits_goesOn
    {a : Announcement}
    {rows : List Row}
    (h : rows ∈ (s.goesOn a).flatMap (Task.awaits l)) :
    ∃ change ∈ a.rest, rows = a.difference.rows change ∧ l ∈ s.listeners a.observer change := by
  obtain ⟨task, htask, hrows⟩ := List.mem_flatMap.mp h
  rw [goesOn] at htask
  split at htask
  · cases htask
  · rename_i change rest hrest
    dsimp only at htask
    rcases List.mem_append.mp htask with htask | htask
    · split at htask
      · cases htask
      · cases List.mem_singleton.mp htask
        obtain ⟨listener, hlistener, rfl⟩ := List.mem_map.mp hrows
        obtain ⟨hmem, heq⟩ := List.mem_filter.mp hlistener
        exact ⟨change, hrest ▸ List.mem_cons_self, rfl, of_decide_eq_true heq ▸ hmem⟩
    · cases List.mem_singleton.mp htask
      cases hrows

/--
Whoever is called is taken from the lists in progress, and nobody is put there unless an announcement
goes on.
-/
theorem Shift.awaits (h : s.Shift begun s') (l : ScriptId) :
    s.hears l ++ s'.awaits l = s.awaits l ∨
      ∃ a rest, s.tasks = .announce a :: rest ∧ s.hears l = [] ∧
        s'.awaits l = (s.goesOn a).flatMap (Task.awaits l) ++ s.awaits l := by
  cases h with
  | still hsilent hloud hobservers =>
      refine Or.inl ?_
      rw [hears_eq_nil hsilent, Session.awaits, hloud]
      rfl
  | begins c hsilent hloud hobservers hissued =>
      refine Or.inl ?_
      rw [hears_eq_nil hsilent, Session.awaits, hloud]
      rfl
  | absorbs fed shown query rows pinned hsilent hshown hfed hformer hrows hloud hobservers =>
      refine Or.inl ?_
      have hannounced : ((Difference.between shown.retained rows).announced fed pinned rows :
          List (Task ρ)).flatMap (Task.awaits l) = [] := by
        rw [Difference.announced]
        split
        · rfl
        · rfl
      rw [hears_eq_nil hsilent, Session.awaits, hloud, List.flatMap_append, hannounced]
      rfl
  | announces a rest htasks hloud hobservers =>
      refine Or.inr ⟨a, rest, htasks, by rw [hears, htasks], ?_⟩
      rw [Session.awaits, hloud, List.flatMap_append, Session.awaits, loud, htasks,
        List.filter_cons_of_pos rfl, List.flatMap_cons]
      rfl
  | notifies change rows listeners rest htasks hloud hobservers =>
      refine Or.inl ?_
      rw [Session.awaits, hloud, List.flatMap_append, Session.awaits, loud, htasks,
        List.filter_cons_of_pos rfl, List.flatMap_cons, ← List.append_assoc]
      congr 1
      rw [hears, htasks]
      cases listeners with
      | nil => rfl
      | cons listener others =>
          by_cases hl : listener = l
          · simp [othersOf, Task.awaits, hl]
          · simp [othersOf, Task.awaits, hl]

theorem listeners_eq (h : s.observers[id]? = some observer) (change : Change) :
    s.listeners id change = observer.listeners change := by
  rw [listeners, h]

theorem listeners_eq_nil (h : s.observers[id]? = none) (change : Change) :
    s.listeners id change = [] := by
  rw [listeners, h]

/-- What a command makes of the listeners of an observer. -/
theorem listeners_alter (c : Command ρ) (fresh : ScriptId) (id : ObserverId) (observer : Observer)
    (change : Change) :
    ((c.alter fresh id observer).destroyed = true ∧
        (c.alter fresh id observer).listeners change = []) ∨
      (c.alter fresh id observer).listeners change = observer.listeners change ∨
      (∃ as times steps, c = .listen as id change times steps) ∧
        (c.alter fresh id observer).listeners change = observer.listeners change ++ [fresh] := by
  cases c with
  | listen as other on times steps =>
      rw [Command.alter]
      split
      · rename_i hother
        subst hother
        rw [Observer.listen_listeners]
        split
        · rename_i hon
          subst hon
          exact Or.inr (Or.inr ⟨⟨as, times, steps, rfl⟩, rfl⟩)
        · exact Or.inr (Or.inl rfl)
      · exact Or.inr (Or.inl rfl)
  | drain other on =>
      rw [Command.alter]
      split
      · exact Or.inr (Or.inl (observer.drain_listeners on change))
      · exact Or.inr (Or.inl rfl)
  | destroyObserver other =>
      rw [Command.alter]
      split
      · exact Or.inl ⟨rfl, observer.destroy_listeners change⟩
      · exact Or.inr (Or.inl rfl)
  | _ => exact Or.inr (Or.inl rfl)

/-- A turn clears a list of listeners, keeps it, or adds a listener with a new number to it. -/
theorem Shift.listeners (h : s.Shift begun s') (id : ObserverId) (change : Change) :
    s'.listeners id change = [] ∨ s'.listeners id change = s.listeners id change ∨
      (∃ as times steps, begun = [.listen as id change times steps]) ∧ s.issued < s'.issued ∧
        s'.listeners id change = s.listeners id change ++ [⟨s.issued + 1⟩] := by
  cases hobserver' : s'.observers[id]? with
  | none => exact Or.inl (listeners_eq_nil hobserver' change)
  | some observer' =>
      rw [listeners_eq hobserver']
      have hkept : ∀ {observer : Observer}, s.observers[id]? = some observer →
          observer'.listeners change = observer.listeners change →
            observer'.listeners change = s.listeners id change := by
        intro observer hobserver hsame
        rw [listeners_eq hobserver, hsame]
      cases h with
      | still hsilent hloud hobservers =>
          exact Or.inr (Or.inl (hkept (hobservers id observer' hobserver') rfl))
      | begins c hsilent hloud hobservers hissued =>
          rcases hobservers id observer' hobserver' with
            ⟨-, query, rows, rfl, -⟩ | ⟨observer, hobserver, rfl⟩
          · exact Or.inl (Observer.ofRows_listeners query rows change)
          · rcases listeners_alter c ⟨s.issued + 1⟩ id observer change with
              ⟨-, hnone⟩ | hsame | ⟨⟨as, times, steps, rfl⟩, hadded⟩
            · exact Or.inl hnone
            · exact Or.inr (Or.inl (hkept hobserver hsame))
            · rw [listeners_eq hobserver]
              exact Or.inr (Or.inr ⟨⟨as, times, steps, rfl⟩, hissued as id change times steps rfl,
                hadded⟩)
      | absorbs fed shown query rows pinned hsilent hshown hfed hformer hrows hloud hobservers =>
          obtain ⟨observer, hobserver, rfl⟩ := hobservers id observer' hobserver'
          refine Or.inr (Or.inl (hkept hobserver ?_))
          split
          · exact observer.absorb_listeners rows change
          · rfl
      | announces a rest htasks hloud hobservers =>
          exact Or.inr (Or.inl (hkept (hobservers id observer' hobserver') rfl))
      | notifies on rows listeners rest htasks hloud hobservers =>
          exact Or.inr (Or.inl (hkept (hobservers id observer' hobserver') rfl))

/-- An observer that is not destroyed keeps its listeners. -/
theorem Shift.listeners_subset
    (h : s.Shift begun s')
    (hnumber : id.number ≤ s.issued)
    (hobserver : s.observers[id]? = some observer)
    (hobserver' : s'.observers[id]? = some observer')
    (hdestroyed : observer'.destroyed = false)
    (change : Change) :
    observer.listeners change ⊆ observer'.listeners change := by
  have hsame : s.observers[id]? = some observer' →
      observer.listeners change ⊆ observer'.listeners change := by
    intro hmem
    obtain rfl := Option.some.inj (hobserver.symm.trans hmem)
    exact List.Subset.refl _
  cases h with
  | still hsilent hloud hobservers => exact hsame (hobservers id observer' hobserver')
  | begins c hsilent hloud hobservers hissued =>
      rcases hobservers id observer' hobserver' with ⟨hnew, -⟩ | ⟨former, hformer, rfl⟩
      · exact absurd hnumber (Nat.not_le_of_lt hnew)
      · obtain rfl := Option.some.inj (hobserver.symm.trans hformer)
        rcases listeners_alter c ⟨s.issued + 1⟩ id observer change with
          ⟨hgone, -⟩ | hkept | ⟨-, hadded⟩
        · rw [hgone] at hdestroyed
          cases hdestroyed
        · rw [hkept]
          exact List.Subset.refl _
        · rw [hadded]
          exact List.subset_append_left _ _
  | absorbs fed shown query rows pinned hsilent hshown hfed hformer hrows hloud hobservers =>
      obtain ⟨former, hmem, rfl⟩ := hobservers id observer' hobserver'
      obtain rfl := Option.some.inj (hobserver.symm.trans hmem)
      split
      · rw [Observer.absorb_listeners]
        exact List.Subset.refl _
      · exact List.Subset.refl _
  | announces a rest htasks hloud hobservers => exact hsame (hobservers id observer' hobserver')
  | notifies on rows listeners rest htasks hloud hobservers =>
      exact hsame (hobservers id observer' hobserver')

/-- Who listens after a turn has listened before, or has been added by the turn. -/
theorem Shift.mem_listeners (h : s.Shift begun s') (hl : l ∈ s'.listeners id change) :
    l ∈ s.listeners id change ∨
      (∃ as times steps, begun = [.listen as id change times steps]) ∧ s.issued < s'.issued ∧
        l = ⟨s.issued + 1⟩ := by
  rcases h.listeners id change with hnone | hsame | ⟨hbegun, hissued, hadded⟩
  · rw [hnone] at hl
    cases hl
  · exact Or.inl (hsame ▸ hl)
  · rw [hadded] at hl
    rcases List.mem_append.mp hl with hl | hl
    · exact Or.inl hl
    · exact Or.inr ⟨hbegun, hissued, List.mem_singleton.mp hl⟩

namespace Course

/-- Listeners have numbers that have been given out. -/
theorem listener_bounded
    (h : Course .empty past s)
    {t : Session ρ}
    (ht : t ∈ s :: past.map Stage.state)
    (hl : l ∈ t.listeners id change) :
    l.number ≤ s.issued := by
  induction h generalizing t id change with
  | refl =>
      obtain rfl := List.mem_singleton.mp ht
      cases hl
  | turn h hturn ih =>
      have hissued := (Tends.turn hturn).issued
      rcases List.mem_cons.mp ht with rfl | ht
      · rcases (h.shift hturn).mem_listeners hl with hl | ⟨-, hnew, rfl⟩
        · exact (ih List.mem_cons_self hl).trans hissued
        · exact hnew
      · exact (ih ht hl).trans hissued

/-- At all times a listener is on the same list only. -/
theorem listeners_apart
    (h : Course .empty past s)
    {t t' : Session ρ}
    (ht : t ∈ s :: past.map Stage.state)
    (ht' : t' ∈ s :: past.map Stage.state)
    (hl : l ∈ t.listeners id change)
    (hl' : l ∈ t'.listeners id' change') :
    id = id' ∧ change = change' := by
  induction h generalizing t t' id id' change change' with
  | refl =>
      obtain rfl := List.mem_singleton.mp ht
      cases hl
  | @turn past s s' begun h hturn ih =>
      -- whoever listens has done so before the turn, or has been added by it
      have hcases : ∀ {t : Session ρ} {id : ObserverId} {change : Change},
          t ∈ s' :: s :: past.map Stage.state → l ∈ t.listeners id change →
            (∃ t ∈ s :: past.map Stage.state, l ∈ t.listeners id change) ∨
              (∃ as times steps, begun = [.listen as id change times steps]) ∧
                l = ⟨s.issued + 1⟩ := by
        intro t id change ht hl
        rcases List.mem_cons.mp ht with rfl | ht
        · rcases (h.shift hturn).mem_listeners hl with hl | ⟨hbegun, -, hnew⟩
          · exact Or.inl ⟨s, List.mem_cons_self, hl⟩
          · exact Or.inr ⟨hbegun, hnew⟩
        · exact Or.inl ⟨t, ht, hl⟩
      have hold : ∀ {id change}, (∃ t ∈ s :: past.map Stage.state, l ∈ t.listeners id change) →
          l ≠ ⟨s.issued + 1⟩ := by
        rintro id change ⟨t, ht, hl⟩ rfl
        exact Nat.not_succ_le_self _ (h.listener_bounded ht hl)
      rcases hcases ht hl with hformer | ⟨⟨as, times, steps, hbegun⟩, hnew⟩
      · rcases hcases ht' hl' with ⟨t', ht', hl'⟩ | ⟨-, hnew⟩
        · obtain ⟨t, ht, hl⟩ := hformer
          exact ih ht ht' hl hl'
        · exact absurd hnew (hold hformer)
      · rcases hcases ht' hl' with hformer | ⟨⟨as', times', steps', hbegun'⟩, -⟩
        · exact absurd hnew (hold hformer)
        · rw [hbegun] at hbegun'
          cases hbegun'
          exact ⟨rfl, rfl⟩

theorem listeners_nodup (h : Course .empty past s) (id : ObserverId) (change : Change) :
    (s.listeners id change).Nodup := by
  induction h with
  | refl => exact List.nodup_nil
  | @turn past s s' begun h hturn ih =>
      rcases (h.shift hturn).listeners id change with hnone | hsame | ⟨-, -, hadded⟩
      · rw [hnone]
        exact List.nodup_nil
      · exact hsame ▸ ih
      · rw [hadded]
        refine List.nodup_append.mpr ⟨ih, List.nodup_singleton _, ?_⟩
        rintro l hl _ hnew rfl
        have hbound := h.listener_bounded List.mem_cons_self hl
        rw [List.mem_singleton.mp hnew] at hbound
        exact Nat.not_succ_le_self _ hbound

/-- Whoever is to be told of rows ends the list of an observer at some time. -/
theorem notified_suffix
    {rows : List Row}
    {listeners : List ScriptId}
    (h : Course .empty past s)
    (htask : .notify change rows listeners ∈ s.loud) :
    ∃ t ∈ past.map Stage.state, ∃ id told, told ++ listeners = t.listeners id change := by
  induction h generalizing listeners with
  | refl => cases htask
  | turn h hturn ih =>
      rcases (h.shift hturn).notify_mem htask with ⟨told, hmem⟩ | ⟨-, id, hall⟩
      · obtain ⟨t, ht, id, before, hlist⟩ := ih hmem
        exact ⟨t, List.mem_cons_of_mem _ ht, id, before ++ told, by rw [List.append_assoc, hlist]⟩
      · exact ⟨_, List.mem_cons_self, id, [], hall⟩

end Course

end Session

end PatternGraph
