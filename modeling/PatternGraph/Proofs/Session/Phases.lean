import PatternGraph.Proofs.Session.Aims
import PatternGraph.Proofs.Session.Bringing

/-!
# The phases of a call that brings items in

A call that adds a node or an edge to a graph first brings items in, while other graphs tell what they
have lost to it, and then tells what has come into the graph.  Whenever another graph tells of a loss, an
item is not in the graph yet that is going to be there unless the call fails.
-/

namespace PatternGraph

variable {ρ : Type} {c : Catalogue} {interpret : Interpreter ρ}

/-- Whether a command adds a node or an edge to a graph. -/
def Command.BringsInto (g : GraphId) : Command ρ → Prop
  | .addNode graph _ | .addEdge graph _ _ _ _ | .insertEdge graph _ => graph = g
  | _ => False

theorem Command.BringsInto.aim {g : GraphId} {cmd : Command ρ} (h : cmd.BringsInto g) :
    cmd.aim = some g := by
  cases cmd with
  | addNode | addEdge | insertEdge => exact congrArg some h
  | _ => exact h.elim

theorem Command.BringsInto.mem_graphs
    {g : GraphId}
    {cmd : Command ρ}
    {store : Store}
    (h : cmd.BringsInto g)
    (hgenuine : cmd.Genuine c store) :
    g ∈ store.graphs := by
  cases cmd with
  | addNode graph node => exact (show graph = g from h) ▸ hgenuine.1
  | addEdge graph source target given as =>
      obtain rfl : graph = g := h
      cases given with
      | none => exact hgenuine.1
      | some edge => exact hgenuine.1
  | insertEdge graph edge => exact (show graph = g from h) ▸ hgenuine.1
  | _ => exact h.elim

namespace Task

variable {g : GraphId} {id : ItemId} {task : Task ρ}

/-- Whether a task brings items into a graph. -/
def Feeds (g : GraphId) : Task ρ → Prop
  | .connect _ _ _ ending => ending.graph = g
  | .attach a _ => a.graph = g
  | _ => False

/-- Whether a task is about to bring an item in, or ends a call that has failed. -/
def Promises (id : ItemId) : Task ρ → Prop
  | .connect edge _ _ _ => .edge edge.id = id
  | .attach a _ => ∃ job ∈ a.jobs, job.item = id
  | .finish ending => ending.outcome.failed = true
  | _ => False

theorem Feeds.mem_graphs (h : task.Feeds g) : g ∈ task.graphs := by
  cases task with
  | connect edge source target ending => exact List.mem_singleton.mpr h.symm
  | attach a ending => exact List.mem_cons.mpr (Or.inl h.symm)
  | _ => exact h.elim

theorem Feeds.mem_store
    {store : Store}
    (h : task.Feeds g)
    (hready : task.Ready c store) :
    g ∈ store.graphs := by
  cases task with
  | connect edge source target ending => exact (show ending.graph = g from h) ▸ hready.2.2.2
  | attach a ending => exact (show a.graph = g from h) ▸ hready.1
  | _ => exact h.elim

theorem graphs_of_rank (h : task.rank < 4) : task.graphs = [] := by
  cases task with
  | connect | attach | dispatch | deliver | addNodes | removeNodes | removeEdges | finish =>
      exact absurd h (by simp [rank])
  | _ => rfl

end Task

/-- What a job is about is in the graph afterwards, or a job that is left is about it. -/
theorem Attachment.Moves.brings
    {a a' : Attachment}
    {store store' : Store}
    {job : Job}
    {jobs : List Job}
    {departure : Option Departure}
    (hmoves : ({ a with jobs := jobs } : Attachment).Moves store job store' a' departure)
    (hsound : store.Sound c)
    (hgraph : a.graph ∈ store.graphs) :
    (∀ other ∈ jobs, other ∈ a'.jobs) ∧
      ((store'.index a.graph).Includes job.item ∨ ∃ next ∈ a'.jobs, next.item = job.item) ∧
      (departure ≠ none → ¬(store.index a.graph).Includes job.item ∧
        ∃ next ∈ a'.jobs, next.item = job.item) := by
  have hpass : ∀ id, store.owner id = some a.graph → (store.index a.graph).Includes id :=
    fun id howned => (hsound.housed a.graph hgraph id).mp howned
  have hout : ∀ id, store.owner id ≠ some a.graph → ¬(store.index a.graph).Includes id :=
    fun id howned hin => howned ((hsound.housed a.graph hgraph id).mpr hin)
  have hsettle : ∀ n : Node, ((({ a with jobs := jobs } : Attachment).settle store n).1.index
      a.graph).Includes (.node n.id) := fun n =>
    ((settle_gains { a with jobs := jobs } n hsound.represented).1.includes _ _).mpr (Or.inr ⟨rfl, rfl⟩)
  have hnone : ∀ {P : Prop}, (none : Option Departure) ≠ none → P := fun hne => absurd rfl hne
  cases hmoves with
  | passNode n howned => exact ⟨fun _ h => h, Or.inl (hpass _ howned), hnone⟩
  | passEdge e howned => exact ⟨fun _ h => h, Or.inl (hpass _ howned), hnone⟩
  | passJoin e source target howned => exact ⟨fun _ h => h, Or.inl (hpass _ howned), hnone⟩
  | enter n howned hfree => exact ⟨fun _ => List.mem_append_right _, Or.inl (hsettle n), hnone⟩
  | settle n => exact ⟨fun _ => List.mem_append_right _, Or.inl (hsettle n), hnone⟩
  | leaveNode n howned hhome hremove =>
      have hnext : ∃ next ∈ Job.settle n :: jobs, next.item = (Job.node n).item :=
        ⟨_, List.mem_cons_self, rfl⟩
      exact ⟨fun _ => List.mem_cons_of_mem _, Or.inr hnext, fun _ => ⟨hout _ howned, hnext⟩⟩
  | @unfold e source target howned hends hfree =>
      have hnext : ∃ next ∈ Job.node source :: .node target :: .join e source target :: jobs,
          next.item = (Job.edge e).item := ⟨.join e source target, by simp, rfl⟩
      exact ⟨fun _ hother => by simp [hother], Or.inr hnext, hnone⟩
  | @leaveEdge e source target previous events store' howned hends hhome hremove =>
      have hnext : ∃ next ∈ Job.node source :: .node target :: .join e source target :: jobs,
          next.item = (Job.edge e).item := ⟨.join e source target, by simp, rfl⟩
      exact ⟨fun _ hother => by simp [hother], Or.inr hnext, fun _ => ⟨hout _ howned, hnext⟩⟩
  | join e source target howned hjoin =>
      obtain rfl := join_eq_ok hjoin
      exact ⟨fun _ h => h, Or.inl (((join_gains hsound.represented hjoin).1.includes _ _).mpr
        (Or.inr ⟨rfl, rfl⟩)), hnone⟩

namespace Session

variable {s : Session ρ} {g : GraphId} {duty : Task ρ} {cmd : Command ρ}

/--
Whether a session has gone on with a duty that brings items into a graph: with another one, below
what other graphs tell, or with nothing but to tell what has come and to end the call.
-/
inductive Advances (g : GraphId) (duty : Task ρ) (s : Session ρ) : Prop
  | feeds (notes : List (Task ρ)) (next : Task ρ) (htasks : s.tasks = notes ++ [next])
      (hfeeds : next.Feeds g) (hgraph : g ∈ s.store.graphs)
      (hnotes : ∀ note ∈ notes, note.Note ∧ g ∉ note.graphs)
      (howed : notes ≠ [] → ∃ id, ¬(s.store.index g).Includes id ∧ next.Promises id)
      (hkept : ∀ id, duty.Promises id → (s.store.index g).Includes id ∨ next.Promises id)
  | tells (notes : List (Task ρ)) (ending : Ending) (htasks : s.tasks = notes ++ [.finish ending])
      (hnotes : ∀ note ∈ notes, note.Note ∧ ∀ k ∈ note.graphs, k = g)
      (hkept : ∀ id, duty.Promises id → ending.outcome.failed = true)

theorem Advances.release (h : s.Advances g duty) : s.release.Advances g duty := by
  cases h with
  | feeds notes next htasks hfeeds hgraph hnotes howed hkept =>
      have hgraph' : g ∈ s.release.store.graphs := mem_graphs_release_of_task
        (htasks ▸ List.mem_append_right _ (List.mem_singleton_self next)) hfeeds.mem_graphs hgraph
      have hindex := s.index_release hgraph'
      refine .feeds notes next (s.tasks_release.trans htasks) hfeeds hgraph' hnotes ?_ ?_
      · rwa [hindex]
      · rwa [hindex]
  | tells notes ending htasks hnotes hkept =>
      exact .tells notes ending (s.tasks_release.trans htasks) hnotes hkept

theorem attach_advances
    {a : Attachment}
    {ending : Ending}
    (htasks : s.tasks = [])
    (hsound : s.store.Sound c)
    (hgraph : a.graph ∈ s.store.graphs)
    (hfree : ¬a.Forestalled s.store) :
    (s.perform interpret (.attach a ending)).Advances a.graph (.attach a ending) := by
  have hkept : ∀ {job : Job} {jobs : List Job} {store : Store} {a' : Attachment}
      {departure : Option Departure}, a.jobs = job :: jobs →
      ({ a with jobs := jobs } : Attachment).Moves s.store job store a' departure →
      ∀ id, (Task.attach a ending : Task ρ).Promises id →
        (store.index a.graph).Includes id ∨ (Task.attach a' ending : Task ρ).Promises id := by
    rintro job jobs store a' departure hjobs hmoves id ⟨other, hother, rfl⟩
    obtain ⟨hothers, hjob, -⟩ := hmoves.brings hsound hgraph
    rw [hjobs] at hother
    rcases List.mem_cons.mp hother with rfl | hother
    · exact hjob
    · exact Or.inr ⟨other, hothers other hother, rfl⟩
  cases perform_attach interpret s a ending with
  | ends last hlast hnext =>
      refine .tells [.dispatch a.graph a.events.reverse] last ?_ ?_ fun id hpromise => ?_
      · rw [hnext, push, htasks]
        rfl
      · simp [Task.Note, Task.rank, Task.graphs]
      · rcases hlast with ⟨hjobs, -⟩ | hfailed
        · obtain ⟨job, hjob, -⟩ := hpromise
          rw [hjobs] at hjob
          cases hjob
        · exact hfailed
  | stays job jobs store a' hjobs hmoves hnext =>
      obtain ⟨events, -, hlogs, -⟩ := hmoves.accounts hsound hgraph hjobs hfree
      rw [hnext]
      refine .feeds [] (.attach a' ending) ?_ hmoves.graph_eq ((hlogs.graphs _).mpr hgraph)
        (by simp) (fun hne => absurd rfl hne) (hkept hjobs hmoves)
      change [.attach a' ending] ++ s.tasks = _
      rw [htasks]
      rfl
  | departs job jobs store a' d hjobs hmoves hnext =>
      obtain ⟨-, -, hleft⟩ := hmoves.brings hsound hgraph
      obtain ⟨-, hother, hlogs, -⟩ := hmoves.accounts hsound hgraph hjobs hfree
      rw [hnext]
      refine .feeds [.dispatch d.graph d.events] (.attach a' ending) ?_ hmoves.graph_eq
        ((hlogs.graphs _).mpr hgraph) ?_ (fun _ => ⟨job.item, ?_⟩) (hkept hjobs hmoves)
      · change [.dispatch d.graph d.events] ++ ([.attach a' ending] ++ s.tasks) = _
        rw [htasks]
        rfl
      · simp [Task.Note, Task.rank, Task.graphs, Ne.symm hother]
      · -- the graph that receives items is not the one that loses them
        change ¬(store.index a.graph).Includes job.item ∧ _
        rw [hlogs.others a.graph (Ne.symm hother)]
        exact hleft (by simp)

namespace Calm

/-- A duty that brings items in is gone on with. -/
theorem step_feeds
    (h : Calm c interpret s)
    (hforestalled : ¬s.Forestalled)
    (htasks : s.tasks = [duty])
    (hfeeds : duty.Feeds g) :
    (s.step interpret).Advances g duty := by
  have hready := h.orderly.ready duty (htasks ▸ List.mem_singleton_self _)
  have hgraph := hfeeds.mem_store hready
  rw [Session.step, htasks]
  refine Advances.release ?_
  cases duty with
  | connect edge source target ending =>
      refine .feeds [] (.attach ⟨ending.graph, [.edge edge], []⟩ ending) rfl hfeeds ?_ (by simp)
        (fun hne => absurd rfl hne) ?_
      · change g ∈ (s.store.rewire edge source target).graphs
        rwa [(Store.Rewires.rewire s.store edge source target).graphs]
      · exact fun id hpromise => Or.inr ⟨.edge edge, List.mem_singleton_self _, hpromise⟩
  | attach a ending =>
      obtain rfl : a.graph = g := hfeeds
      rw [Forestalled, htasks] at hforestalled
      exact attach_advances rfl h.orderly.sound hgraph hforestalled
  | _ => exact hfeeds.elim

/-- A note leaves notes about the graphs that it is about. -/
theorem step_note_within
    {note : Task ρ}
    {rest : List (Task ρ)}
    (h : Calm c interpret s)
    (htasks : s.tasks = note :: rest)
    (hnote : note.Note) :
    ∃ pushed, (s.step interpret).tasks = pushed ++ rest ∧
      ∀ other ∈ pushed, other.Note ∧ ∀ k ∈ other.graphs, k ∈ note.graphs := by
  have hlight : ∀ other : Task ρ, other.rank < 4 →
      other.Note ∧ ∀ k ∈ other.graphs, k ∈ note.graphs := by
    intro other hrank
    refine ⟨Nat.lt_trans hrank (by decide), fun k hk => ?_⟩
    rw [Task.graphs_of_rank hrank] at hk
    cases hk
  by_cases hrank : note.rank < 4
  · obtain ⟨⟨pushed, hpushed, hlighter⟩, -⟩ := h.step_note htasks hnote
    refine ⟨pushed, hpushed, fun other hother => hlight other ?_⟩
    rcases hlighter other hother with hless | ⟨hsame, -⟩
    · exact Nat.lt_trans hless hrank
    · exact hsame ▸ hrank
  · rw [Session.step, htasks]
    simp only [tasks_release]
    cases note with
    | dispatch graph events =>
        cases events with
        | nil => exact ⟨[], rfl, by simp⟩
        | cons event events =>
            exact ⟨[.deliver graph event _, .dispatch graph events], rfl,
              by simp [Task.Note, Task.rank, Task.graphs]⟩
    | deliver graph event handlers =>
        cases handlers with
        | nil => exact ⟨[], rfl, by simp⟩
        | cons handler handlers =>
            obtain ⟨-, pushed, hpushed, hranks⟩ := tell_adds
              (({ s with tasks := rest } : Session ρ).push [.deliver graph event handlers]) graph event
              handler
            refine ⟨pushed ++ [.deliver graph event handlers], ?_, fun other hother => ?_⟩
            · rw [List.append_assoc]
              exact hpushed
            · rcases List.mem_append.mp hother with hother | hother
              · exact hlight other (hranks other hother)
              · rw [List.mem_singleton.mp hother]
                exact ⟨by simp [Task.Note, Task.rank], fun k hk => hk⟩
    | connect | attach | addNodes | removeNodes | removeEdges | finish =>
        exact absurd hnote (by simp [Task.Note, Task.rank])
    | _ => exact absurd (by simp [Task.rank]) hrank

end Calm

/-- Whether a call is bringing items into a graph, or is telling what has come, or is over. -/
inductive Phase (g : GraphId) (s : Session ρ) : Prop
  | brings (notes : List (Task ρ)) (duty : Task ρ) (htasks : s.tasks = notes ++ [duty])
      (hfeeds : duty.Feeds g) (hnotes : ∀ note ∈ notes, note.Note ∧ g ∉ note.graphs)
      (howed : notes ≠ [] → ∃ id, ¬(s.store.index g).Includes id ∧ duty.Promises id)
  | tells (notes : List (Task ρ)) (ending : Ending) (htasks : s.tasks = notes ++ [.finish ending])
      (hnotes : ∀ note ∈ notes, note.Note ∧ ∀ k ∈ note.graphs, k = g)
  | done (htasks : s.tasks = [])

namespace Phase

theorem of_advances (h : s.Advances g duty) : s.Phase g := by
  cases h with
  | feeds notes next htasks hfeeds hgraph hnotes howed hkept =>
      exact .brings notes next htasks hfeeds hnotes howed
  | tells notes ending htasks hnotes hkept => exact .tells notes ending htasks hnotes

theorem release (h : s.Phase g) (hgraph : g ∈ s.store.graphs) : s.release.Phase g := by
  cases h with
  | brings notes duty htasks hfeeds hnotes howed =>
      have hkept : g ∈ s.release.store.graphs := mem_graphs_release_of_task
        (htasks ▸ List.mem_append_right _ (List.mem_singleton_self duty)) hfeeds.mem_graphs hgraph
      refine .brings notes duty (s.tasks_release.trans htasks) hfeeds hnotes ?_
      rwa [s.index_release hkept]
  | tells notes ending htasks hnotes =>
      exact .tells notes ending (s.tasks_release.trans htasks) hnotes
  | done htasks => exact .done (s.tasks_release.trans htasks)

/-- Each step leaves a call in one of its phases. -/
theorem step
    (h : s.Phase g)
    (hcalm : Calm c interpret s)
    (hforestalled : ¬s.Forestalled) :
    (s.step interpret).Phase g := by
  have hnext : ∀ {note : Task ρ} {notes rest : List (Task ρ)} {P : GraphId → Prop},
      s.tasks = note :: (notes ++ rest) →
      (∀ other ∈ note :: notes, other.Note ∧ ∀ k ∈ other.graphs, P k) →
      ∃ notes', (s.step interpret).tasks = notes' ++ rest ∧
        ∀ other ∈ notes', other.Note ∧ ∀ k ∈ other.graphs, P k := by
    intro note notes rest P htasks hnotes
    obtain ⟨hnote, hgraphs⟩ := hnotes note List.mem_cons_self
    obtain ⟨pushed, hpushed, hwithin⟩ := hcalm.step_note_within htasks hnote
    refine ⟨pushed ++ notes, by rw [hpushed, List.append_assoc], fun other hother => ?_⟩
    rcases List.mem_append.mp hother with hother | hother
    · obtain ⟨hother, hsub⟩ := hwithin other hother
      exact ⟨hother, fun k hk => hgraphs k (hsub k hk)⟩
    · exact hnotes other (List.mem_cons_of_mem note hother)
  cases h with
  | brings notes duty htasks hfeeds hnotes howed =>
      cases notes with
      | nil => exact .of_advances (hcalm.step_feeds hforestalled htasks hfeeds)
      | cons note notes =>
          obtain ⟨notes', htasks', hnotes'⟩ := hnext (P := (· ≠ g)) htasks fun other hother =>
            ⟨(hnotes other hother).1, fun k hk heq => (hnotes other hother).2 (heq ▸ hk)⟩
          obtain ⟨-, hages, hkept⟩ := hcalm.step_note htasks (hnotes note List.mem_cons_self).1
          have hmem : duty ∈ notes ++ [duty] := List.mem_append_right _ (List.mem_singleton_self duty)
          have hgraph := hfeeds.mem_store (hcalm.orderly.ready duty
            (htasks ▸ List.mem_cons_of_mem note hmem))
          have hindex := (Store.Follows.ages hages hcalm.orderly.sound.toPristine g).index_eq
            (Or.inr (hkept duty hmem g hfeeds.mem_graphs hgraph)) (hcalm.orderly.sound.represented g)
          refine .brings notes' duty htasks' hfeeds
            (fun other hother => ⟨(hnotes' other hother).1, fun hg => (hnotes' other hother).2 g hg rfl⟩)
            fun _ => ?_
          rw [hindex]
          exact howed (List.cons_ne_nil _ _)
  | tells notes ending htasks hnotes =>
      cases notes with
      | nil => exact .done (List.isEmpty_iff.mp (hcalm.step_finish htasks).1)
      | cons note notes =>
          obtain ⟨notes', htasks', hnotes'⟩ := hnext (P := (· = g)) htasks hnotes
          exact .tells notes' ending htasks' hnotes'
  | done htasks =>
      refine .done ?_
      rw [step_of_idle (List.isEmpty_iff.mpr htasks), htasks]

/-- A command that adds a node or an edge begins by bringing items in, unless it ends at once. -/
theorem begin
    (hidle : s.tasks = [])
    (hsound : s.store.Sound c)
    (hbrings : cmd.BringsInto g) :
    (s.begin cmd).Phase g := by
  have hattach : ∀ (a : Attachment) (ending : Ending), a.graph = g →
      (s.push [.attach a ending]).Phase g := by
    intro a ending hgraph
    refine .brings [] (.attach a ending) ?_ hgraph (by simp) fun hne => absurd rfl hne
    rw [push, hidle]
    rfl
  have hgiven : ∀ (store : Store) (source target : Node) (edge : Edge) (as : Option String),
      store.Sound c →
        (({ s with store := store } : Session ρ).addEdge g source target (some edge) as).Phase g := by
    intro store source target edge as hsound
    rcases ({ s with store := store } : Session ρ).addGivenEdge_cases g source target edge as with
      ⟨outcome, heq⟩ | ⟨ending, heq⟩ | ⟨ending, hgraph, ⟨-, heq⟩ | ⟨previous, hhome, hother, heq⟩⟩
    · exact heq ▸ .done hidle
    · rw [heq]
      refine .tells [] ending ?_ (by simp)
      rw [push, hidle]
      rfl
    · rw [heq]
      refine .brings [] (.connect edge source target ending) ?_ hgraph (by simp)
        fun hne => absurd rfl hne
      rw [push, hidle]
      rfl
    · rw [heq]
      unfold withStore
      split
      · exact .done hidle
      · rename_i events store' hremove
        have hindex : store'.index g = store.index g :=
          (Store.Removes.removeEdge hremove).logs.others g (Ne.symm hother)
        have hout : ¬(store.index g).Includes (.edge edge.id) := fun hin =>
          hother (hsound.unique ((hsound.home_eq_some_iff (.edge edge.id)).mp hhome) hin)
        refine .brings [.dispatch previous events] (.connect edge source target ending) ?_ hgraph ?_
          fun _ => ⟨.edge edge.id, ?_, rfl⟩
        · change [.dispatch previous events, .connect edge source target ending] ++ s.tasks = _
          rw [hidle]
          rfl
        · simp [Task.Note, Task.rank, Task.graphs, Ne.symm hother]
        · change ¬(store'.index g).Includes _
          rwa [hindex]
  cases cmd with
  | addNode graph node =>
      obtain rfl : graph = g := hbrings
      rw [Session.begin]
      rcases s.addNode_cases graph node with ⟨outcome, heq⟩ | ⟨ending, heq⟩
      · exact heq ▸ .done hidle
      · exact heq ▸ hattach _ ending rfl
  | addEdge graph source target given as =>
      obtain rfl : graph = g := hbrings
      cases given with
      | some edge => exact hgiven s.store source target edge as hsound
      | none =>
          let created := s.store.createEdge (.root .edge) .null
          have hgrows := Store.Grows.createEdge hsound.toPristine (.root .edge) .null
          exact hgiven created.2 source target created.1 as (hsound.ages hgrows.toAges)
  | insertEdge graph edge =>
      obtain rfl : graph = g := hbrings
      rw [Session.begin]
      rcases s.insertEdge_cases graph edge with ⟨outcome, heq⟩ | ⟨ending, heq⟩
      · exact heq ▸ .done hidle
      · exact heq ▸ hattach _ ending rfl
  | _ => exact hbrings.elim

end Phase

end Session

end PatternGraph
