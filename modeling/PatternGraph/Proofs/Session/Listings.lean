import PatternGraph.Proofs.Session.Orderly
import PatternGraph.Proofs.Session.Steps

/-!
# Handlers are listed once

Every subscription lists a handler with a number of its own.  So a handler is listed once at most among
the subscribers of a graph, and among those whom an event is still to be delivered to.
-/

namespace PatternGraph

variable {ρ : Type}

/-- The number that has been issued for a handler. -/
def Handler.number : Handler → Nat
  | .script id _ _ => id.number
  | .query id => id.number

/-- Whether handlers have different numbers, none above a bound. -/
structure ListedOnce (bound : Nat) (handlers : List Handler) : Prop where
  nodup : (handlers.map Handler.number).Nodup
  bounded : ∀ n ∈ handlers.map Handler.number, n ≤ bound

/-- Whether all numbers are different and between two bounds. -/
structure Fresh (low high : Nat) (numbers : List Nat) : Prop where
  nodup : numbers.Nodup
  between : ∀ n ∈ numbers, low < n ∧ n ≤ high

namespace Fresh

variable {low middle high : Nat} {numbers more : List Nat}

theorem nil (low high : Nat) : Fresh low high [] :=
  ⟨List.nodup_nil, fun _ h => absurd h List.not_mem_nil⟩

theorem single {n : Nat} (hlow : low < n) (hhigh : n ≤ high) : Fresh low high [n] :=
  ⟨List.nodup_singleton n, fun _ h => List.mem_singleton.mp h ▸ ⟨hlow, hhigh⟩⟩

theorem append (h : Fresh low middle numbers) (h' : Fresh middle high more) (hlow : low ≤ middle)
    (hhigh : middle ≤ high) : Fresh low high (numbers ++ more) := by
  refine ⟨List.nodup_append.mpr ⟨h.nodup, h'.nodup, ?_⟩, fun n hn => ?_⟩
  · rintro n hn _ hmore rfl
    exact Nat.not_le_of_lt (h'.between n hmore).1 (h.between n hn).2
  · rcases List.mem_append.mp hn with hn | hn
    · exact ⟨(h.between n hn).1, (h.between n hn).2.trans hhigh⟩
    · exact ⟨Nat.lt_of_le_of_lt hlow (h'.between n hn).1, (h'.between n hn).2⟩

end Fresh

namespace ListedOnce

variable {bound bound' : Nat} {handler : Handler} {handlers handlers' : List Handler}

theorem nil (bound : Nat) : ListedOnce bound [] :=
  ⟨List.nodup_nil, fun _ h => absurd h List.not_mem_nil⟩

theorem extend
    {numbers : List Nat}
    (h : ListedOnce bound handlers)
    (hbound : bound ≤ bound')
    (hfresh : Fresh bound bound' numbers)
    (hsublist : (handlers'.map Handler.number).Sublist (handlers.map Handler.number ++ numbers)) :
    ListedOnce bound' handlers' := by
  refine ⟨List.Nodup.sublist hsublist (List.nodup_append.mpr ⟨h.nodup, hfresh.nodup, ?_⟩),
    fun n hn => ?_⟩
  · rintro n hn _ hmore rfl
    exact Nat.not_le_of_lt (hfresh.between n hmore).1 (h.bounded n hn)
  · rcases List.mem_append.mp (hsublist.subset hn) with hn | hn
    · exact (h.bounded n hn).trans hbound
    · exact (hfresh.between n hn).2

theorem mono (h : ListedOnce bound handlers) (hbound : bound ≤ bound') :
    ListedOnce bound' handlers :=
  h.extend hbound (.nil _ _) (by rw [List.append_nil])

theorem tail (h : ListedOnce bound (handler :: handlers)) : ListedOnce bound handlers :=
  h.extend (Nat.le_refl _) (.nil _ _) (by
    rw [List.append_nil]
    exact (List.sublist_cons_self handler handlers).map _)

/-- A handler that is told next is not told again. -/
theorem any_eq_false (h : ListedOnce bound (handler :: handlers)) :
    handlers.any (· == handler) = false := by
  have hnodup := h.nodup
  rw [List.map_cons, List.nodup_cons] at hnodup
  refine List.any_eq_false.mpr fun other hother heq => hnodup.1 ?_
  obtain rfl := eq_of_beq heq
  exact List.mem_map_of_mem hother

end ListedOnce

namespace Session

variable {s s' s'' : Session ρ}

/-- The numbers of the handlers that are subscribed to a graph. -/
def listing (s : Session ρ) (g : GraphId) : List Nat :=
  ((s.board g).handlers.map Prod.snd).map Handler.number

theorem listing_setBoard (s : Session ρ) (graph g : GraphId) (board : Board) :
    (s.setBoard graph board).listing g =
      if g = graph then (board.handlers.map Prod.snd).map Handler.number else s.listing g := by
  rw [listing, Coherent.board_setBoard]
  split
  · rfl
  · rfl

/-- Whether every handler is listed once at most wherever subscribers are listed. -/
structure Enrolled (s : Session ρ) : Prop where
  boards : ∀ g, ListedOnce s.issued ((s.board g).handlers.map Prod.snd)
  deliveries : ∀ graph event handlers, .deliver graph event handlers ∈ s.tasks →
    ListedOnce s.issued handlers

/-- Whether what is newly listed has numbers issued meanwhile, and no delivery has begun. -/
structure Enrols (s s' : Session ρ) : Prop where
  issued : s.issued ≤ s'.issued
  boards : ∀ g, ∃ numbers, Fresh s.issued s'.issued numbers ∧
    (s'.listing g).Sublist (s.listing g ++ numbers)
  deliveries : ∀ graph event handlers, .deliver graph event handlers ∈ s'.tasks →
    .deliver graph event handlers ∈ s.tasks

namespace Enrols

theorem shrink
    (hissued : s.issued ≤ s'.issued)
    (hboards : ∀ g, (s'.listing g).Sublist (s.listing g))
    (hdeliveries : ∀ graph event handlers, .deliver graph event handlers ∈ s'.tasks →
      .deliver graph event handlers ∈ s.tasks) :
    s.Enrols s' :=
  ⟨hissued, fun g => ⟨[], .nil _ _, by rw [List.append_nil]; exact hboards g⟩, hdeliveries⟩

theorem aside
    (hissued : s.issued ≤ s'.issued)
    (hboards : s'.boards = s.boards)
    (htasks : s'.tasks = s.tasks) :
    s.Enrols s' := by
  refine .shrink hissued (fun g => ?_) fun _ _ _ hmem => htasks ▸ hmem
  rw [listing, listing, board, board, hboards]

theorem carries (h : s.Carries s') : s.Enrols s' := by
  refine .shrink h.issued (fun g => ?_) h.deliveries
  rw [listing, listing, board, board, h.boards]

theorem trans (h : s.Enrols s') (h' : s'.Enrols s'') : s.Enrols s'' := by
  refine ⟨h.issued.trans h'.issued, fun g => ?_, fun graph event handlers hmem =>
    h.deliveries graph event handlers (h'.deliveries graph event handlers hmem)⟩
  obtain ⟨numbers, hfresh, hsublist⟩ := h.boards g
  obtain ⟨more, hmore, hsublist'⟩ := h'.boards g
  refine ⟨numbers ++ more, hfresh.append hmore h.issued h'.issued, hsublist'.trans ?_⟩
  rw [← List.append_assoc]
  exact hsublist.append_right more

theorem unsubscribe (s : Session ρ) (graph : GraphId) (subscription : Nat) :
    s.Enrols (s.setBoard graph ((s.board graph).unsubscribe subscription)) := by
  refine .shrink (Nat.le_refl _) (fun g => ?_) fun _ _ _ hmem => hmem
  rw [listing_setBoard]
  split
  · rename_i hg
    rw [listing, hg]
    exact (List.filter_sublist.map _).map _
  · exact .refl _

/-- A handler with a new number is listed. -/
theorem list
    {graph : GraphId}
    (handler : Handler)
    (hnew : s.issued < handler.number)
    (hissued : handler.number ≤ s'.issued)
    (hboards : s'.boards = (s.setBoard graph ((s.board graph).subscribe handler).2).boards)
    (htasks : s'.tasks = s.tasks) :
    s.Enrols s' := by
  refine ⟨hnew.le.trans hissued, fun g => ⟨[handler.number], .single hnew hissued, ?_⟩,
    fun _ _ _ hmem => htasks ▸ hmem⟩
  have hlisting : s'.listing g =
      (s.setBoard graph ((s.board graph).subscribe handler).2).listing g := by
    rw [listing, listing, board, board, hboards]
  rw [hlisting, listing_setBoard]
  split
  · rename_i hg
    rw [listing, hg]
    simp [Board.subscribe]
  · exact List.sublist_append_left _ _

theorem destroyQuery (s : Session ρ) (id : QueryId) : s.Enrols (s.destroyQuery id) := by
  rw [Session.destroyQuery]
  split
  · exact .aside (Nat.le_refl _) rfl rfl
  · have hdestroyed : s.Enrols (s.updateQuery id LiveQuery.destroy) :=
      .aside (Nat.le_refl _) rfl rfl
    dsimp only
    split
    · exact hdestroyed
    · exact hdestroyed.trans (.unsubscribe _ _ _)

theorem discardQuery (s : Session ρ) (id : QueryId) : s.Enrols (s.discardQuery id) :=
  (destroyQuery s id).trans (.aside (Nat.le_refl _) rfl rfl)

theorem dropQuery (s : Session ρ) (name : String) : s.Enrols (s.dropQuery name) := by
  rw [Session.dropQuery]
  split
  · exact .aside (Nat.le_refl _) rfl rfl
  · exact (discardQuery s _).trans (.aside (Nat.le_refl _) rfl rfl)

theorem dropObserver (s : Session ρ) (name : String) : s.Enrols (s.dropObserver name) := by
  rw [Session.dropObserver]
  split
  · exact .aside (Nat.le_refl _) rfl rfl
  · rw [discardObserver]
    split
    · exact .aside (Nat.le_refl _) rfl rfl
    · exact (discardQuery s _).trans (.aside (Nat.le_refl _) rfl rfl)

theorem openCached
    {graph : GraphId}
    {query : Query}
    {observer : Option ObserverId}
    {id : QueryId}
    {live : LiveQuery}
    (h : s.openCached graph query observer = .ok (id, live, s')) :
    s.Enrols s' := by
  obtain ⟨compiled, rows, -, -, rfl, -, rfl⟩ := openCached_eq_ok h
  exact .list (.query ⟨s.issued + 1⟩) (Nat.lt_succ_self _) (Nat.le_succ _) rfl rfl

theorem nameQuery (s : Session ρ) (as : String) (graph : GraphId) (query : Query) (cached : Bool) :
    s.Enrols (s.nameQuery as graph query cached) := by
  unfold Session.nameQuery
  dsimp only
  split
  · exact .aside (Nat.le_refl _) rfl rfl
  · rename_i id live s' hopen
    have hopened : s.Enrols s' := by
      cases cached with
      | true => exact openCached hopen
      | false =>
          obtain ⟨compiled, -, -, -, rfl⟩ := openUncached_eq_ok hopen
          exact .aside (Nat.le_succ _) rfl rfl
    exact (hopened.trans (dropQuery s' as)).trans (.aside (Nat.le_refl _) rfl rfl)

theorem nameObserver (s : Session ρ) (as : String) (graph : GraphId) (query : Query) :
    s.Enrols (s.nameObserver as graph query) := by
  rw [Session.nameObserver]
  split
  · exact .aside (Nat.le_refl _) rfl rfl
  · rename_i id live s' hopen
    obtain ⟨queryId, s₁, rows, hcached, -, -, rfl⟩ := openObserver_eq_ok hopen
    have hissued : s.Enrols { s with issued := s.issued + 1 } := .aside (Nat.le_succ _) rfl rfl
    have hopened : s.Enrols { s₁ with observers := s₁.observers.insert id (.ofRows queryId rows) } :=
      (hissued.trans (openCached hcached)).trans (.aside (Nat.le_refl _) rfl rfl)
    exact (hopened.trans (dropObserver _ as)).trans (.aside (Nat.le_refl _) rfl rfl)

theorem tell (s : Session ρ) (graph : GraphId) (event : Event) (handler : Handler) :
    s.Enrols (s.tell graph event handler) := by
  cases handler with
  | script id on item => exact carries (Proceeds.tellScript s graph event id on item).toCarries
  | query id =>
      change s.Enrols (s.refresh graph event id)
      unfold refresh
      split
      · exact .aside (Nat.le_refl _) rfl rfl
      · split
        · split
          · exact .aside (Nat.le_refl _) rfl rfl
          · dsimp only
            split
            · exact .aside (Nat.le_succ _) rfl rfl
            · rename_i live _ _ _ rows _ _ observer _
              have hrefreshed : s.Enrols ({ s with issued := s.issued + 1 }.updateQuery id
                  fun live => { live with snapshot := some ⟨s.issued + 1, rows⟩ }) :=
                .aside (Nat.le_succ _) rfl rfl
              exact hrefreshed.trans (carries (.observe _ observer live.query rows))
        · exact .aside (Nat.le_refl _) rfl rfl

theorem begin (s : Session ρ) (cmd : Command ρ) : s.Enrols (s.begin cmd) := by
  by_cases hplain : cmd.Plain
  · exact carries (Proceeds.begin s hplain).toCarries
  · cases cmd with
    | letGo holding name =>
        cases holding with
        | query => exact (dropQuery s name).trans (.aside (Nat.le_refl _) rfl rfl)
        | observer => exact (dropObserver s name).trans (.aside (Nat.le_refl _) rfl rfl)
        | _ => exact .aside (Nat.le_refl _) rfl rfl
    | subscribe as graph on item times steps =>
        exact .list (.script ⟨s.issued + 1⟩ on item) (Nat.lt_succ_self _) (Nat.le_refl _) rfl rfl
    | unsubscribe graph subscription =>
        exact (unsubscribe s graph subscription).trans (.aside (Nat.le_refl _) rfl rfl)
    | openQuery as graph query cached => exact nameQuery s as graph query cached
    | destroyQuery query => exact (destroyQuery s query).trans (.aside (Nat.le_refl _) rfl rfl)
    | snapshot query =>
        rw [Session.begin, showSnapshot]
        split
        · exact .aside (Nat.le_refl _) rfl rfl
        · exact .aside (Nat.le_refl _) rfl rfl
    | observe as graph query => exact nameObserver s as graph query
    | listen as observer on times steps => exact .aside (Nat.le_succ _) rfl rfl
    | drain observer change =>
        rw [Session.begin, drain]
        split
        · exact .aside (Nat.le_refl _) rfl rfl
        · exact .aside (Nat.le_refl _) rfl rfl
    | destroyObserver observer =>
        rw [Session.begin, destroyObserver]
        split
        · exact .aside (Nat.le_refl _) rfl rfl
        · exact (destroyQuery s _).trans (.aside (Nat.le_refl _) rfl rfl)
    | _ => exact absurd trivial hplain

theorem issueRequest (interpret : Interpreter ρ) (s : Session ρ) (request : ρ) :
    s.Enrols (s.issueRequest interpret request) := by
  rcases issueRequest_cases interpret s request with ⟨refusal, heq⟩ | ⟨cmd, -, heq⟩
  · rw [heq]
    exact .aside (Nat.le_refl _) rfl rfl
  · rw [heq]
    exact begin s cmd

end Enrols

namespace Enrolled

theorem enrols (h : s.Enrolled) (henrols : s.Enrols s') : s'.Enrolled := by
  refine ⟨fun g => ?_, fun graph event handlers hmem =>
    (h.deliveries graph event handlers (henrols.deliveries graph event handlers hmem)).mono
      henrols.issued⟩
  obtain ⟨numbers, hfresh, hsublist⟩ := henrols.boards g
  exact (h.boards g).extend henrols.issued hfresh hsublist

/-- Whoever an event is delivered to has been listed at the time. -/
theorem perform
    {interpret : Interpreter ρ}
    {task : Task ρ}
    {rest : List (Task ρ)}
    (h : s.Enrolled)
    (htasks : s.tasks = task :: rest) :
    (({ s with tasks := rest } : Session ρ).perform interpret task).Enrolled := by
  have htaken : ({ s with tasks := rest } : Session ρ).Enrolled :=
    ⟨h.boards, fun graph event handlers hmem =>
      h.deliveries graph event handlers (htasks ▸ List.mem_cons_of_mem task hmem)⟩
  by_cases hplain : task.Plain
  · exact h.enrols (.carries (Proceeds.perform htasks hplain).toCarries)
  · cases task with
    | dispatch graph events =>
        cases events with
        | nil => exact htaken
        | cons event events =>
            refine ⟨h.boards, fun other event' handlers hmem => ?_⟩
            rcases List.mem_cons.mp hmem with heq | hmem
            · cases heq
              exact h.boards graph
            · exact htaken.deliveries other event' handlers (List.mem_of_ne_of_mem (by simp) hmem)
    | deliver graph event handlers =>
        cases handlers with
        | nil => exact htaken
        | cons handler handlers =>
            have hrest : (({ s with tasks := rest } : Session ρ).push
                [.deliver graph event handlers]).Enrolled := by
              refine ⟨h.boards, fun other event' handlers' hmem => ?_⟩
              rcases List.mem_cons.mp hmem with heq | hmem
              · cases heq
                exact (h.deliveries graph event (handler :: handlers)
                  (htasks ▸ List.mem_cons_self)).tail
              · exact htaken.deliveries other event' handlers' hmem
            exact hrest.enrols (.tell _ graph event handler)
    | script label requests =>
        cases requests with
        | nil => exact htaken
        | cons request requests =>
            have hpushed : (({ s with tasks := rest } : Session ρ).push
                [.record label, .script label requests]).Enrolled :=
              htaken.enrols (.carries (.pushTasks _ (by simp)))
            exact hpushed.enrols (.issueRequest interpret _ request)
    | _ => exact absurd trivial hplain

theorem release (h : s.Enrolled) : s.release.Enrolled := by
  obtain ⟨observers, heq⟩ := s.release_eq_retain
  rw [heq]
  exact h.enrols (.aside (Nat.le_refl _) rfl rfl)

end Enrolled

/-- Handlers are listed once at most at all times. -/
theorem History.enrolled
    {c : Catalogue}
    {permits : Command ρ → Prop}
    {past : List (Session ρ)}
    (h : History c permits past s) :
    s.Enrolled := by
  induction h with
  | empty =>
      refine ⟨fun g => ?_, fun _ _ _ hmem => absurd hmem List.not_mem_nil⟩
      rw [board, Session.empty, Std.ExtTreeMap.getD_empty]
      exact .nil 0
  | @request past s interpret request h hidle hgenuine ih =>
      have hcleared : s.Enrols { s with log := [] } := .aside (Nat.le_refl _) rfl rfl
      exact (ih.enrols (hcleared.trans (.issueRequest interpret _ request))).release
  | @step past s interpret h hgenuine ih =>
      rw [Session.step]
      cases htasks : s.tasks with
      | nil => exact ih
      | cons task rest => exact (ih.perform htasks).release

end Session

end PatternGraph
