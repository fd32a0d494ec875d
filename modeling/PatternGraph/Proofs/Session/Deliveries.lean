import PatternGraph.Proofs.Session.Backlog
import PatternGraph.Proofs.Session.Exclusive
import PatternGraph.Proofs.Session.Listings
import PatternGraph.Proofs.Session.Running

/-!
# What a subscriber receives

A command that a handler issues has its events told before those that are owed already, so a subscriber
may receive them out of order.  What it has received and what it is still owed tell together, of every
item, how often it has come into the graph and left it.  They tell it in order for an item that comes
or goes only when the subscriber is owed no event about it.  All this leaves out an item that handlers have
brought into the very graph which it was on its way to: it is put in once more, and told of once more.
-/

namespace PatternGraph

variable {ρ : Type} {c : Catalogue} {permits : Command ρ → Prop}

instance (index : Index) : (id : ItemId) → Decidable (index.Includes id)
  | .node id => inferInstanceAs (Decidable (id ∈ index.nodes))
  | .edge id => inferInstanceAs (Decidable (id ∈ index.edges))

namespace Session

variable {s s' : Session ρ} {past : List (Session ρ)} {g : GraphId} {handler : Handler}
  {id : ItemId}

/-- The event of a graph that a handler receives with the next step, if any. -/
def receives (g : GraphId) (handler : Handler) (s : Session ρ) : List Event :=
  match s.tasks with
  | .deliver graph event (next :: _) :: _ => if graph = g ∧ next = handler then [event] else []
  | _ => []

/-- The events of a graph that a handler has received in some states, of which the latest comes first. -/
def received (g : GraphId) (handler : Handler) (past : List (Session ρ)) : List Event :=
  past.reverse.flatMap (receives g handler)

/-- Whether a handler is subscribed to a graph, or nothing in progress works on the graph. -/
def Attends (g : GraphId) (handler : Handler) (s : Session ρ) : Prop :=
  handler ∈ (s.board g).handlers.map Prod.snd ∨ ∀ task ∈ s.tasks, g ∉ task.graphs

/--
Whether an item is in a graph after a step exactly if it was before, or the handler was owed no event of
the graph about it.
-/
def Timely (g : GraphId) (handler : Handler) (id : ItemId) (before after : Session ρ) : Prop :=
  ((before.store.index g).Includes id ↔ (after.store.index g).Includes id) ∨
    id ∉ Store.told (before.backlog (· == handler) g)

instance (g : GraphId) (handler : Handler) (s : Session ρ) : Decidable (s.Attends g handler) :=
  inferInstanceAs (Decidable (_ ∨ _))

instance (g : GraphId) (handler : Handler) (id : ItemId) (before after : Session ρ) :
    Decidable (Timely g handler id before after) :=
  inferInstanceAs (Decidable (_ ∨ _))

theorem received_cons (g : GraphId) (handler : Handler) (s : Session ρ) (past : List (Session ρ)) :
    received g handler (s :: past) = received g handler past ++ s.receives g handler := by
  rw [received, List.reverse_cons, List.flatMap_append, List.flatMap_singleton]
  rfl

theorem receives_of_idle (h : s.idle = true) : s.receives g handler = [] := by
  rw [receives, List.isEmpty_iff.mp h]

/-- What a subscriber receives is what it is not owed any more after the step. -/
theorem Enrolled.tells_eq_receives
    (h : s.Enrolled)
    (hattends : s.Attends g handler) :
    s.tells (· == handler) g = s.receives g handler := by
  rw [tells, receives]
  cases htasks : s.tasks with
  | nil => rfl
  | cons task rest =>
      have hsubscribed : g ∈ task.graphs → handler ∈ (s.board g).handlers.map Prod.snd :=
        fun hg => hattends.resolve_right fun hnone => hnone task (htasks ▸ List.mem_cons_self) hg
      cases task with
      | dispatch graph events =>
          cases events with
          | nil => rfl
          | cons event events =>
              refine if_neg fun htold => ?_
              obtain ⟨hg, hnone⟩ := htold
              have hmem := hsubscribed (List.mem_singleton.mpr hg.symm)
              rw [List.any_eq_false] at hnone
              exact hnone handler hmem (beq_self_eq_true handler)
      | deliver graph event handlers =>
          cases handlers with
          | nil => rfl
          | cons next handlers =>
              refine if_congr (and_congr_right fun _ => ⟨fun hcounts => eq_of_beq hcounts.1, ?_⟩) rfl rfl
              rintro rfl
              have hlisted := h.deliveries graph event (next :: handlers)
                (htasks ▸ List.mem_cons_self)
              exact ⟨beq_self_eq_true next, hlisted.any_eq_false⟩
      | _ => rfl

/--
Whether what a handler has received and is owed has got further events somewhere among those that it is
still owed, which say of an item how it has come into the graph or left it.
-/
def Inserts (g : GraphId) (handler : Handler) (id : ItemId) (past : List (Session ρ))
    (s s' : Session ρ) : Prop :=
  ∃ front events back, s.backlog (· == handler) g = front ++ back ∧
    received g handler (s :: past) ++ s'.backlog (· == handler) g =
      received g handler past ++ front ++ events ++ back ∧
    s.store.Recounts g id events s'.store

theorem Inserts.spares (h : Inserts g handler id past s s') (hspares : s'.store.Spares g) :
    s.store.Spares g := by
  obtain ⟨front, events, back, -, -, hrecounts⟩ := h
  exact hrecounts.spares hspares

/-- What is forestalled without being overtaken is a node that comes into its own graph once more. -/
theorem Forestalled.settles
    (h : s.Forestalled)
    (hfree : ¬s.Overtaken) :
    ∃ (a : Attachment) (ending : Ending) (rest : List (Task ρ)) (n : Node) (jobs : List Job),
      s.tasks = .attach a ending :: rest ∧ a.jobs = .settle n :: jobs ∧
        s.store.graphOfNode n = some a.graph := by
  rw [Forestalled] at h
  split at h
  · rename_i a ending rest htasks
    rw [Overtaken, htasks] at hfree
    obtain ⟨n, jobs, hjobs, hin⟩ := Attachment.Forestalled.settles h hfree
    exact ⟨a, ending, rest, n, jobs, htasks, hjobs, hin⟩
  · exact h.elim

theorem Orderly.step_inserts
    {interpret : Interpreter ρ}
    (h : Orderly c s)
    (henrolled : s.Enrolled)
    (hattends : s.Attends g handler)
    (hfree : ¬s.Overtaken)
    (hnew : ¬s.Repeats g id)
    (hgenuine : ∀ cmd ∈ s.upcoming interpret, cmd.Genuine c s.store)
    (past : List (Session ρ)) :
    Inserts g handler id past s (s.step interpret) := by
  have hrepresented := h.sound.represented g
  by_cases hforestalled : s.Forestalled
  · obtain ⟨a, ending, rest, n, jobs, htasks, hjobs, hin⟩ := hforestalled.settles hfree
    obtain ⟨hbacklog, hfollows⟩ :=
      h.step_settles (· == handler) g interpret htasks hjobs hin
    have hnone : s.receives g handler = [] := by rw [receives, htasks]
    let again : List Event := if a.graph = g then [⟨.added, .node n⟩] else []
    have hother : id ∉ Store.told again := by
      intro hid
      have hnot : ¬a.Repeats s.store g id := by rwa [Repeats, htasks] at hnew
      rw [Attachment.Repeats, hjobs] at hnot
      obtain ⟨event, hevent, rfl⟩ := List.mem_map.mp hid
      obtain ⟨hg, heq⟩ := List.mem_ite_nil_right.mp hevent
      rw [List.mem_singleton.mp heq] at hnot
      exact hnot ⟨hg, rfl, hg ▸ hin⟩
    refine ⟨(Task.attach a ending : Task ρ).backlog (· == handler) g, again,
      rest.flatMap (Task.backlog (· == handler) g), ?_, ?_,
      hfollows.recounts_other hrepresented hother⟩
    · rw [backlog, htasks, List.flatMap_cons]
    · rw [received_cons, hnone, hbacklog]
      simp only [List.append_nil, List.append_assoc]
      rfl
  · cases htasks : s.tasks with
    | nil =>
        have hidle : s.idle = true := List.isEmpty_iff.mpr htasks
        have hstep : s.step interpret = s := by rw [Session.step, htasks]
        rw [hstep]
        refine ⟨[], [], [], backlog_of_idle hidle, ?_,
          (Store.Follows.refl s.store g).recounts hrepresented id⟩
        rw [received_cons, receives_of_idle hidle, backlog_of_idle hidle]
        simp only [List.append_nil]
    | cons task rest =>
        obtain ⟨kept, events, hkept, hbacklog, hfollows⟩ :=
          h.step_posts (· == handler) g htasks hforestalled hgenuine
        rw [henrolled.tells_eq_receives hattends] at hkept
        refine ⟨s.receives g handler ++ kept, events,
          rest.flatMap (Task.backlog (· == handler) g), ?_, ?_, hfollows.recounts hrepresented id⟩
        · rw [backlog, htasks, List.flatMap_cons, hkept]
        · rw [received_cons, hbacklog]
          simp only [List.append_assoc]

theorem Orderly.request_inserts
    {interpret : Interpreter ρ}
    {request : ρ}
    (h : Orderly c s)
    (g : GraphId)
    (handler : Handler)
    (hidle : s.idle = true)
    (hgenuine : ∀ cmd ∈ interpret.reads s.names request, cmd.Genuine c s.store)
    (id : ItemId)
    (past : List (Session ρ)) :
    Inserts g handler id past s ({ s with log := [] }.issueRequest interpret request).release := by
  have hfollows := h.request_posts (· == handler) g hidle hgenuine
  refine ⟨[], _, [], backlog_of_idle hidle, ?_, hfollows.recounts (h.sound.represented g) id⟩
  rw [received_cons, receives_of_idle hidle]
  simp only [List.append_nil]

/-- Whether what a handler has received and is still owed accounts for an item being in a graph. -/
structure Mirrors (g : GraphId) (handler : Handler) (id : ItemId) (past : List (Session ρ))
    (s : Session ρ) : Prop where
  balance :
    (changesOf id (received g handler past ++ s.backlog (· == handler) g)).count .added =
      (changesOf id (received g handler past ++ s.backlog (· == handler) g)).count .removed +
        if (s.store.index g).Includes id then 1 else 0
  alternates : (s :: past).IsChain (fun after before => Timely g handler id before after) →
    Alternate False (changesOf id (received g handler past ++ s.backlog (· == handler) g))
      ((s.store.index g).Includes id)

namespace Mirrors

theorem empty (g : GraphId) (handler : Handler) (id : ItemId) :
    Mirrors g handler id [] (Session.empty : Session ρ) := by
  have hnone : ¬((Session.empty : Session ρ).store.index g).Includes id := by
    rw [Store.index, Session.empty, Store.empty, Std.ExtTreeMap.getD_empty]
    exact Index.not_includes_empty id
  constructor
  · rw [if_neg hnone]
    rfl
  · intro _
    exact ⟨False.elim, hnone⟩

theorem inserts
    (h : Mirrors g handler id past s)
    (hinserts : Inserts g handler id past s s')
    (hspares : s'.store.Spares g) :
    Mirrors g handler id (s :: past) s' := by
  obtain ⟨front, events, back, hbacklog, hall, hrecounts⟩ := hinserts
  have hevents := hrecounts.turns hspares
  constructor
  · have hcount := hevents.count
    have hbalance := h.balance
    rw [hbacklog] at hbalance
    rw [hall]
    simp only [changesOf_append, List.count_append] at hbalance ⊢
    omega
  · intro hchain
    obtain ⟨htimely, hchain⟩ := List.isChain_cons_cons.mp hchain
    have hbefore := h.alternates hchain
    rw [hbacklog] at hbefore
    rw [hall]
    simp only [changesOf_append, List.append_assoc] at hbefore ⊢
    rcases htimely with hsame | howed
    · rw [hrecounts.quiet hspares hsame, List.nil_append, ← propext hsame]
      exact hbefore
    · have hnone := changesOf_eq_nil_iff.mpr howed
      rw [hbacklog, changesOf_append, List.append_eq_nil_iff] at hnone
      obtain ⟨hfront, hback⟩ := hnone
      rw [hfront, hback, List.append_nil, List.append_nil] at hbefore
      rw [hfront, hback, List.append_nil, List.nil_append]
      exact hbefore.append hevents

end Mirrors

/-- At all times what a subscriber has received and is still owed accounts for what is in the graph. -/
theorem History.mirrors
    (h : History c permits past s)
    (hfree : ∀ t ∈ past, ¬t.Overtaken)
    (hnew : ∀ t ∈ past, ¬t.Repeats g id)
    (hattends : ∀ t ∈ past, t.Attends g handler)
    (hspares : s.store.Spares g) :
    Mirrors g handler id past s := by
  induction h with
  | empty => exact .empty g handler id
  | @request past s interpret request h hidle hgenuine ih =>
      rw [List.forall_mem_cons] at hfree hnew hattends
      have hinserts := (h.orderly hfree.2).request_inserts g handler hidle hgenuine id past
      exact (ih hfree.2 hnew.2 hattends.2 (hinserts.spares hspares)).inserts hinserts hspares
  | @step past s interpret h hgenuine ih =>
      rw [List.forall_mem_cons] at hfree hnew hattends
      have hinserts := (h.orderly hfree.2).step_inserts h.enrolled hattends.1 hfree.1 hnew.1
        (fun cmd hcmd => (hgenuine cmd hcmd).1) past
      exact (ih hfree.2 hnew.2 hattends.2 (hinserts.spares hspares)).inserts hinserts hspares

/--
In every history in which no attachment is overtaken, a handler that is subscribed to a graph whenever
something in progress works on it has received, when nothing is in progress, one more arrival than
departures of an item that the graph includes, and as many of any other item, unless the very item has
been put into this graph once more after it had come into it meanwhile.  If the item has come or gone
only while the handler was owed no event about it, then what it receives says in turn that the item has
come and that it has gone, and when nothing is in progress the last word is right.
-/
theorem History.received_mirrors
    (h : History c permits past s)
    (g : GraphId)
    (handler : Handler)
    (id : ItemId)
    (hfree : ∀ t ∈ past, ¬t.Overtaken)
    (hnew : ∀ t ∈ past, ¬t.Repeats g id)
    (hattends : ∀ t ∈ past, t.Attends g handler)
    (hg : g ∈ s.store.graphs) :
    let changes := changesOf id (received g handler past)
    (s.idle = true → changes.count .added =
      changes.count .removed + if (s.store.index g).Includes id then 1 else 0) ∧
    ((s :: past).IsChain (fun after before => Timely g handler id before after) →
      changes.IsChain (· ≠ ·) ∧ changes.head? ≠ some .removed ∧
        (s.idle = true → (changes.getLast? = some .added ↔ (s.store.index g).Includes id))) := by
  intro changes
  have hmirrors : Mirrors g handler id past s := h.mirrors hfree hnew hattends (Or.inr hg)
  have hnone : s.idle = true → received g handler past ++ s.backlog (· == handler) g =
      received g handler past := fun hidle => by rw [backlog_of_idle hidle, List.append_nil]
  refine ⟨fun hidle => ?_, fun hchain => ?_⟩
  · have hbalance := hmirrors.balance
    rwa [hnone hidle] at hbalance
  · have halternate := hmirrors.alternates hchain
    refine ⟨?_, ?_, fun hidle => ?_⟩
    · have hall := halternate.isChain
      rw [changesOf_append] at hall
      exact (List.isChain_append.mp hall).1
    · have hhead := halternate.head not_false
      rw [changesOf_append, List.head?_append] at hhead
      intro hremoved
      exact hhead (by rw [hremoved]; rfl)
    · rw [hnone hidle] at halternate
      exact halternate.getLast not_false

/--
Upon the first arrival of a node a first subscriber adds another node.  A second subscriber is told of the
second node before the first one, and of the first one in order when it leaves and comes back.
-/
theorem arrivals_received_in_turn :
    ∃ (past : List (Session Nat)) (s : Session Nat),
      History plainCatalogue (fun _ => True) past s ∧ s.idle = true ∧
        Store.told (received ⟨1⟩ (.script ⟨2⟩ none none) past) =
          [.node ⟨2⟩, .node ⟨1⟩, .node ⟨1⟩, .node ⟨1⟩] ∧
        (changesOf (.node ⟨1⟩) (received ⟨1⟩ (.script ⟨2⟩ none none) past)).IsChain (· ≠ ·) ∧
        ((changesOf (.node ⟨1⟩) (received ⟨1⟩ (.script ⟨2⟩ none none) past)).getLast? = some .added ↔
          (s.store.index ⟨1⟩).Includes (.node ⟨1⟩)) := by
  let first : Node := ⟨⟨1⟩, .root .node⟩
  let second : Node := ⟨⟨2⟩, .root .node⟩
  let interpret := numbered [.createGraph "g", .createNode "a" (.root .node) .null,
    .createNode "b" (.root .node) .null, .subscribe "s" ⟨1⟩ (some .added) none 1 [7],
    .subscribe "t" ⟨1⟩ none none 0 [], .addNode ⟨1⟩ first, .removeNode ⟨1⟩ first, .addNode ⟨1⟩ second]
  have h := (History.empty : History plainCatalogue (fun _ => True) [] .empty).requested interpret 30
    [0, 1, 2, 3, 4, 5, 6, 5] (by decide +kernel)
  obtain ⟨-, hchain⟩ := h.received_mirrors ⟨1⟩ (.script ⟨2⟩ none none) (.node ⟨1⟩) (by decide +kernel)
    (by decide +kernel) (by decide +kernel) (by decide +kernel)
  obtain ⟨hturn, -, hlast⟩ := hchain (by decide +kernel)
  exact ⟨_, _, h, by decide +kernel, by decide +kernel, hturn, hlast (by decide +kernel)⟩

/--
A node is added to a graph while it is in another one, upon whose loss of it a subscriber adds it to the
very same graph.  It is put in once more, and a subscriber of the graph is told twice that it has come.
-/
theorem arrival_received_twice :
    ∃ (past : List (Session Nat)) (s : Session Nat),
      History plainCatalogue (fun _ => True) past s ∧ s.idle = true ∧
        (∀ t ∈ past, ¬t.Overtaken) ∧ (∀ t ∈ past, t.Attends ⟨1⟩ (.script ⟨2⟩ none none)) ∧
        (∃ t ∈ past, t.Repeats ⟨1⟩ (.node ⟨1⟩)) ∧
        changesOf (.node ⟨1⟩) (received ⟨1⟩ (.script ⟨2⟩ none none) past) = [.added, .added] := by
  let node : Node := ⟨⟨1⟩, .root .node⟩
  let interpret := numbered [.createGraph "g", .createGraph "h", .createNode "a" (.root .node) .null,
    .subscribe "s" ⟨2⟩ (some .removed) none 1 [6], .subscribe "t" ⟨1⟩ none none 0 [],
    .addNode ⟨2⟩ node, .addNode ⟨1⟩ node]
  have h := (History.empty : History plainCatalogue (fun _ => True) [] .empty).requested interpret 30
    [0, 1, 2, 3, 4, 5, 6] (by decide +kernel)
  exact ⟨_, _, h, by decide +kernel, by decide +kernel, by decide +kernel, by decide +kernel,
    by decide +kernel⟩

/--
Upon the arrival of a node a first subscriber removes it again, so a second one is told of its departure
before it is told of its arrival.
-/
theorem departure_received_first :
    ∃ (past : List (Session Nat)) (s : Session Nat),
      History plainCatalogue (fun _ => True) past s ∧ s.idle = true ∧
        (∀ t ∈ past, ¬t.Overtaken ∧ ¬t.Repeats ⟨1⟩ (.node ⟨1⟩)) ∧
        (∀ t ∈ past, t.Attends ⟨1⟩ (.script ⟨2⟩ none none)) ∧
        changesOf (.node ⟨1⟩) (received ⟨1⟩ (.script ⟨2⟩ none none) past) = [.removed, .added] ∧
        ¬(s.store.index ⟨1⟩).Includes (.node ⟨1⟩) := by
  let node : Node := ⟨⟨1⟩, .root .node⟩
  let interpret := numbered [.createGraph "g", .createNode "a" (.root .node) .null,
    .subscribe "s" ⟨1⟩ (some .added) none 1 [5], .subscribe "t" ⟨1⟩ none none 0 [],
    .addNode ⟨1⟩ node, .removeNode ⟨1⟩ node]
  have h := (History.empty : History plainCatalogue (fun _ => True) [] .empty).requested interpret 30
    [0, 1, 2, 3, 4] (by decide +kernel)
  exact ⟨_, _, h, by decide +kernel, by decide +kernel, by decide +kernel, by decide +kernel,
    by decide +kernel⟩

end Session

end PatternGraph
