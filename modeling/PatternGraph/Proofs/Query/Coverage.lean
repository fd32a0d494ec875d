import Mathlib.Data.List.Nodup
import Mathlib.Data.Set.Basic
import PatternGraph.Proofs.DisjointSet.Classes
import PatternGraph.Query.Plan

/-!
# What a plan covers

A list of steps runs from a set of bound slots when every step finds the slots that it uses bound,
and bound to the right kind, and the slot that it binds still free.  The plan of a query runs from
nothing, binds every slot, and follows or checks every connection exactly once.  What carries the
walk through a component is that a connection is either still pending or part of a step, and that a
pending connection at a bound slot has that slot still in the queue.
-/

namespace PatternGraph

namespace Slot

/-- The slots that a slot lists in a role. -/
def partners (slot : Slot) : Role → List Nat
  | .source => slot.sources
  | .target => slot.targets
  | .endpoint => slot.ends

end Slot

namespace Slots

variable {s : Slots}

/-- Whether a slot is there and is for nodes. -/
def IsNode (s : Slots) (i : Nat) : Prop :=
  ∃ slot, s.slots[i]? = some slot ∧ slot.kind = .node

/-- Whether a slot is there and is for edges. -/
def IsEdge (s : Slots) (i : Nat) : Prop :=
  ∃ slot, s.slots[i]? = some slot ∧ slot.kind = .edge

theorem IsNode.lt_size {i : Nat} (hi : s.IsNode i) : i < s.size := by
  obtain ⟨slot, hslot, -⟩ := hi
  exact (Array.getElem?_eq_some_iff.mp hslot).1

theorem IsEdge.lt_size {i : Nat} (hi : s.IsEdge i) : i < s.size := by
  obtain ⟨slot, hslot, -⟩ := hi
  exact (Array.getElem?_eq_some_iff.mp hslot).1

/-- Every slot has a kind, and what an edge slot lists are node slots. -/
structure WellFormed (s : Slots) : Prop where
  settled : ∀ i < s.size, s.IsNode i ∨ s.IsEdge i
  linked : ∀ (edge : Nat) (slot : Slot) (role : Role), s.slots[edge]? = some slot →
    slot.kind = .edge → ∀ node ∈ slot.partners role, s.IsNode node

theorem firsts_spec (connections : List Connection) :
    (firsts connections).Nodup ∧ ∀ c, c ∈ firsts connections ↔ c ∈ connections := by
  have hfold : ∀ (rest seen : List Connection), seen.Nodup →
      (rest.foldl (fun seen c => if seen.contains c then seen else seen ++ [c]) seen).Nodup ∧
        ∀ c, c ∈ rest.foldl (fun seen c => if seen.contains c then seen else seen ++ [c]) seen ↔
          c ∈ seen ∨ c ∈ rest := by
    intro rest
    induction rest with
    | nil =>
        intro seen hseen
        simpa using hseen
    | cons d rest ih =>
        intro seen hseen
        rw [List.foldl_cons]
        by_cases hd : d ∈ seen
        · rw [if_pos (by simpa using hd)]
          obtain ⟨hnodup, hmem⟩ := ih seen hseen
          refine ⟨hnodup, fun c => ?_⟩
          rw [hmem, List.mem_cons]
          constructor
          · rintro (h | h)
            · exact Or.inl h
            · exact Or.inr (Or.inr h)
          · rintro (h | rfl | h)
            · exact Or.inl h
            · exact Or.inl hd
            · exact Or.inr h
        · rw [if_neg (by simpa using hd)]
          have hseen' : (seen ++ [d]).Nodup := by
            rw [List.nodup_append]
            refine ⟨hseen, by simp, ?_⟩
            rintro a ha b hb rfl
            rw [List.mem_singleton] at hb
            exact hd (hb ▸ ha)
          obtain ⟨hnodup, hmem⟩ := ih (seen ++ [d]) hseen'
          refine ⟨hnodup, fun c => ?_⟩
          rw [hmem, List.mem_append, List.mem_singleton, List.mem_cons, or_assoc]
  obtain ⟨hnodup, hmem⟩ := hfold connections [] List.nodup_nil
  refine ⟨hnodup, fun c => ?_⟩
  rw [firsts, hmem c]
  simp

theorem mem_connectionsOf (edge : Nat) (slot : Slot) (c : Connection) :
    c ∈ connectionsOf edge slot ↔
      slot.kind = .edge ∧ c.edge = edge ∧ c.node ∈ slot.partners c.role := by
  obtain ⟨node, edge', role⟩ := c
  by_cases hkind : slot.kind = .edge
  · cases role <;> simp [connectionsOf, hkind, Slot.partners, and_comm, eq_comm]
  · simp [connectionsOf, hkind]

theorem mem_connections (s : Slots) (c : Connection) :
    c ∈ s.connections ↔
      ∃ slot, s.slots[c.edge]? = some slot ∧ slot.kind = .edge ∧ c.node ∈ slot.partners c.role := by
  rw [connections, (firsts_spec _).2, List.mem_flatMap]
  constructor
  · rintro ⟨⟨slot, edge⟩, hslot, hc⟩
    obtain ⟨hkind, hedge, hnode⟩ := (mem_connectionsOf edge slot c).mp hc
    rw [List.mem_zipIdx_iff_getElem?] at hslot
    exact ⟨slot, by simpa [hedge] using hslot, hkind, hnode⟩
  · rintro ⟨slot, hslot, hkind, hnode⟩
    refine ⟨(slot, c.edge), ?_, (mem_connectionsOf c.edge slot c).mpr ⟨hkind, rfl, hnode⟩⟩
    rw [List.mem_zipIdx_iff_getElem?]
    simpa using hslot

/-- A connection joins a node slot and an edge slot. -/
theorem WellFormed.connection (hs : s.WellFormed) {c : Connection} (hc : c ∈ s.connections) :
    s.IsNode c.node ∧ s.IsEdge c.edge := by
  obtain ⟨slot, hslot, hkind, hnode⟩ := (s.mem_connections c).mp hc
  exact ⟨hs.linked c.edge slot c.role hslot hkind c.node hnode, slot, hslot, hkind⟩

theorem mem_pairChecks (s : Slots) (members : List Nat) (step : Step) :
    step ∈ s.pairChecks members ↔
      ∃ edge slot a b, step = .checkPair edge a b ∧ edge ∈ members ∧ s.slots[edge]? = some slot ∧
        slot.kind = .edge ∧ slot.ends = [a, b] := by
  rw [pairChecks, List.mem_filterMap]
  constructor
  · rintro ⟨edge, hedge, hstep⟩
    cases hslot : s.slots[edge]? with
    | none => simp [hslot] at hstep
    | some slot =>
        by_cases hkind : slot.kind = .edge
        · simp only [hslot, hkind, Option.bind_eq_bind, Option.bind_some, guard_true] at hstep
          split at hstep
          · rename_i a b hends
            exact ⟨edge, slot, a, b, by simpa using hstep.symm, hedge, hslot, hkind, hends⟩
          · simp at hstep
        · simp [hslot, hkind] at hstep
  · rintro ⟨edge, slot, a, b, rfl, hedge, hslot, hkind, hends⟩
    exact ⟨edge, hedge, by simp [hslot, hkind, hends]⟩

end Slots

namespace Step

/-- The connection that a step follows or checks. -/
def connection : Step → Option Connection
  | .traverse _ _ via => some via
  | .check c => some c
  | .scanNodes .. | .scanEdges .. | .checkPair .. => none

/-- Whether a step finds bound what it uses, and free what it binds. -/
def Ready (s : Slots) (bound : Set Nat) : Step → Prop
  | .scanNodes slot type =>
    slot ∉ bound ∧ ∃ found, s.slots[slot]? = some found ∧ found.kind = .node ∧
      found.scanType = some type
  | .scanEdges slot type =>
    slot ∉ bound ∧ ∃ found, s.slots[slot]? = some found ∧ found.kind = .edge ∧
      found.scanType = some type
  | .traverse origin target via =>
    origin ∈ bound ∧ target ∉ bound ∧ s.IsNode via.node ∧ s.IsEdge via.edge ∧
      ((origin = via.node ∧ target = via.edge) ∨ (origin = via.edge ∧ target = via.node))
  | .check c => c.node ∈ bound ∧ c.edge ∈ bound ∧ s.IsNode c.node ∧ s.IsEdge c.edge
  | .checkPair edge a b =>
    edge ∈ bound ∧ a ∈ bound ∧ b ∈ bound ∧ s.IsEdge edge ∧ s.IsNode a ∧ s.IsNode b

/-- The slots that a list of steps binds. -/
def boundBy (steps : List Step) : Set Nat :=
  {x | x ∈ steps.filterMap binds}

@[simp]
theorem mem_boundBy (steps : List Step) (x : Nat) :
    x ∈ boundBy steps ↔ ∃ step ∈ steps, step.binds = some x := by
  simp [boundBy]

theorem mem_boundBy_cons (step : Step) (steps : List Step) (x : Nat) :
    x ∈ boundBy (step :: steps) ↔ step.binds = some x ∨ x ∈ boundBy steps := by
  simp only [mem_boundBy, List.mem_cons, exists_eq_or_imp]

theorem mem_boundBy_append (before after : List Step) (x : Nat) :
    x ∈ boundBy (before ++ after) ↔ x ∈ boundBy before ∨ x ∈ boundBy after := by
  simp only [mem_boundBy, List.mem_append, or_and_right, exists_or]

/-- More bound slots do no harm, as long as a step does not bind one of them. -/
theorem Ready.union
    {s : Slots}
    {bound more : Set Nat}
    {step : Step}
    (h : step.Ready s bound)
    (hfree : ∀ x, step.binds = some x → x ∉ more) :
    step.Ready s (bound ∪ more) := by
  cases step with
  | scanNodes slot type => exact ⟨fun hx => hx.elim h.1 (hfree slot rfl), h.2⟩
  | scanEdges slot type => exact ⟨fun hx => hx.elim h.1 (hfree slot rfl), h.2⟩
  | traverse origin target via =>
      exact ⟨Or.inl h.1, fun hx => hx.elim h.2.1 (hfree target rfl), h.2.2⟩
  | check c => exact ⟨Or.inl h.1, Or.inl h.2.1, h.2.2⟩
  | checkPair edge a b => exact ⟨Or.inl h.1, Or.inl h.2.1, Or.inl h.2.2.1, h.2.2.2⟩

end Step

namespace Slots

variable {s : Slots}

/-- Whether every step of a list is ready when its turn comes. -/
def Runs (s : Slots) : Set Nat → List Step → Prop
  | _, [] => True
  | bound, step :: rest => step.Ready s bound ∧ s.Runs (bound ∪ Step.boundBy [step]) rest

theorem runs_append (bound : Set Nat) (before after : List Step) :
    s.Runs bound (before ++ after) ↔
      s.Runs bound before ∧ s.Runs (bound ∪ Step.boundBy before) after := by
  induction before generalizing bound with
  | nil =>
      have hnone : bound ∪ Step.boundBy [] = bound := by
        ext x
        simp
      simp [Runs, hnone]
  | cons step before ih =>
      have hstep : bound ∪ Step.boundBy [step] ∪ Step.boundBy before =
          bound ∪ Step.boundBy (step :: before) := by
        ext x
        simp [or_assoc]
      rw [List.cons_append, Runs, Runs, ih, hstep, and_assoc]

theorem Runs.union
    {bound more : Set Nat}
    {steps : List Step}
    (h : s.Runs bound steps)
    (hfree : ∀ x ∈ Step.boundBy steps, x ∉ more) :
    s.Runs (bound ∪ more) steps := by
  induction steps generalizing bound with
  | nil => trivial
  | cons step steps ih =>
      refine ⟨h.1.union fun x hx => hfree x (by simp [hx]), ?_⟩
      have hrest := ih h.2 fun x hx => hfree x (by
        rw [Step.mem_boundBy] at hx ⊢
        obtain ⟨later, hlater, hbinds⟩ := hx
        exact ⟨later, List.mem_cons_of_mem step hlater, hbinds⟩)
      rwa [Set.union_right_comm] at hrest

/-- Steps that bind nothing run as soon as all of them are ready. -/
theorem runs_of_ready
    {bound : Set Nat}
    {steps : List Step}
    (h : ∀ step ∈ steps, step.binds = none ∧ step.Ready s bound) :
    s.Runs bound steps := by
  induction steps with
  | nil => trivial
  | cons step steps ih =>
      obtain ⟨hbinds, hready⟩ := h step List.mem_cons_self
      have hsame : bound ∪ Step.boundBy [step] = bound := by
        ext x
        simp [hbinds]
      rw [Runs, hsame]
      exact ⟨hready, ih fun later hlater => h later (List.mem_cons_of_mem step hlater)⟩

/-- Every step of a list that runs is ready at some point of the run. -/
theorem Runs.ready_of_mem
    {bound : Set Nat}
    {steps : List Step}
    {step : Step}
    (h : s.Runs bound steps)
    (hstep : step ∈ steps) :
    ∃ earlier, (∀ x ∈ earlier, x ∈ bound ∪ Step.boundBy steps) ∧ step.Ready s earlier := by
  induction steps generalizing bound with
  | nil => cases hstep
  | cons first rest ih =>
      rcases List.mem_cons.mp hstep with rfl | hrest
      · exact ⟨bound, fun x hx => Or.inl hx, h.1⟩
      · obtain ⟨earlier, hearlier, hready⟩ := ih h.2 hrest
        refine ⟨earlier, fun x hx => ?_, hready⟩
        rcases hearlier x hx with (hx | hx) | hx
        · exact Or.inl hx
        · exact Or.inr ((Step.mem_boundBy_cons first rest x).mpr (Or.inl (by simpa using hx)))
        · exact Or.inr ((Step.mem_boundBy_cons first rest x).mpr (Or.inr hx))

end Slots

namespace Connection

theorem involves_iff (c : Connection) (x : Nat) :
    c.involves x = true ↔ x = c.node ∨ x = c.edge := by
  simp only [involves, Bool.or_eq_true, beq_iff_eq]
  rw [eq_comm, eq_comm (a := c.edge)]

end Connection

namespace Walk

variable {s : Slots} {members : List Nat} {links todo : List Connection} {origin current : Nat}
  {walk : Walk}

/--
A walk from an origin through the links of a component, while it follows the links of the current
slot; the list holds those of them that it has not looked at yet.
-/
structure Explores (s : Slots) (members : List Nat) (links : List Connection) (origin : Nat)
    (current : Nat) (todo : List Connection) (walk : Walk) : Prop where
  runs : s.Runs {origin} walk.steps.reverse
  linkSteps : ∀ step ∈ walk.steps, step.connection.isSome = true
  binds : ∀ x, x ∈ walk.bound ↔ x = origin ∨ x ∈ Step.boundBy walk.steps
  distinct : walk.bound.Nodup
  within : ∀ x ∈ walk.bound, x ∈ members
  queued : ∀ x ∈ walk.queue, x ∈ walk.bound
  links : (todo ++ walk.pending ++ walk.steps.filterMap Step.connection).Perm links
  pending : ∀ c ∈ walk.pending, ∀ x ∈ walk.bound, c.involves x = true → x ∈ walk.queue
  ahead : ∀ c ∈ todo, ∀ x ∈ walk.bound, c.involves x = true → x ∈ walk.queue ∨ x = current

/-- Every link joins a node slot and an edge slot of the component. -/
def Inside (s : Slots) (members : List Nat) (links : List Connection) : Prop :=
  ∀ c ∈ links, s.IsNode c.node ∧ s.IsEdge c.edge ∧ c.node ∈ members ∧ c.edge ∈ members

/-- Adding a step for the next connection keeps all links accounted for. -/
theorem perm_step
    {c : Connection}
    {step : Step}
    {pending : List Connection}
    {steps : List Step}
    (hstep : step.connection = some c)
    (hlinks : (c :: todo ++ pending ++ steps.filterMap Step.connection).Perm links) :
    (todo ++ pending ++ (step :: steps).filterMap Step.connection).Perm links := by
  rw [List.filterMap_cons_some hstep]
  exact List.perm_middle.trans hlinks

namespace Explores

/-- The steps of a walk run together with a further step that is ready in the end. -/
theorem runs_cons
    (h : walk.Explores s members links origin current todo)
    {step : Step}
    (hstep : step.Ready s {x | x ∈ walk.bound}) :
    s.Runs {origin} (step :: walk.steps).reverse := by
  have hbound : {origin} ∪ Step.boundBy walk.steps.reverse = {x | x ∈ walk.bound} := by
    ext x
    simp [h.binds]
  rw [List.reverse_cons, Slots.runs_append, hbound]
  exact ⟨h.runs, hstep, trivial⟩

theorem linkSteps_cons
    (h : walk.Explores s members links origin current todo)
    {step : Step}
    (hstep : step.connection.isSome = true) :
    ∀ step' ∈ step :: walk.steps, step'.connection.isSome = true := by
  intro step' hstep'
  rcases List.mem_cons.mp hstep' with rfl | hstep'
  · exact hstep
  · exact h.linkSteps step' hstep'

/-- The next link leads to a bound slot and is checked. -/
theorem check
    {c : Connection}
    (hinside : Inside s members links)
    (hnode : c.node ∈ walk.bound)
    (hedge : c.edge ∈ walk.bound)
    (h : walk.Explores s members links origin current (c :: todo)) :
    Explores s members links origin current todo
      { walk with steps := .check c :: walk.steps } := by
  obtain ⟨hisNode, hisEdge, -, -⟩ := hinside c (h.links.subset (by simp))
  exact
    { runs := h.runs_cons ⟨hnode, hedge, hisNode, hisEdge⟩
      linkSteps := h.linkSteps_cons rfl
      binds := by
        intro x
        rw [h.binds, Step.mem_boundBy_cons]
        simp [Step.binds]
      distinct := h.distinct
      within := h.within
      queued := h.queued
      links := perm_step rfl h.links
      pending := h.pending
      ahead := fun d hd => h.ahead d (List.mem_cons_of_mem c hd) }

/-- The next link leads from the current slot to a free one and binds it. -/
theorem traverse
    {c : Connection}
    {next : Nat}
    (hinside : Inside s members links)
    (hcurrent : current ∈ walk.bound)
    (hnext : next ∉ walk.bound)
    (hends : (current = c.node ∧ next = c.edge) ∨ (current = c.edge ∧ next = c.node))
    (h : walk.Explores s members links origin current (c :: todo)) :
    Explores s members links origin current todo
      { walk with
        bound := next :: walk.bound
        queue := walk.queue ++ [next]
        steps := .traverse current next c :: walk.steps } := by
  obtain ⟨hisNode, hisEdge, hnodeIn, hedgeIn⟩ := hinside c (h.links.subset (by simp))
  exact
    { runs := h.runs_cons ⟨hcurrent, hnext, hisNode, hisEdge, hends⟩
      linkSteps := h.linkSteps_cons rfl
      binds := by
        intro x
        rw [List.mem_cons, h.binds, Step.mem_boundBy_cons, Step.binds, Option.some.injEq,
          or_left_comm, eq_comm (a := x) (b := next)]
      distinct := List.nodup_cons.mpr ⟨hnext, h.distinct⟩
      within := by
        intro x hx
        rcases List.mem_cons.mp hx with rfl | hx
        · rcases hends with ⟨-, rfl⟩ | ⟨-, rfl⟩
          · exact hedgeIn
          · exact hnodeIn
        · exact h.within x hx
      queued := by
        intro x hx
        rcases List.mem_append.mp hx with hx | hx
        · exact List.mem_cons_of_mem _ (h.queued x hx)
        · exact List.mem_cons.mpr (Or.inl (List.mem_singleton.mp hx))
      links := perm_step rfl h.links
      pending := by
        intro d hd x hx hdx
        rcases List.mem_cons.mp hx with rfl | hx
        · exact List.mem_append.mpr (Or.inr List.mem_cons_self)
        · exact List.mem_append.mpr (Or.inl (h.pending d hd x hx hdx))
      ahead := by
        intro d hd x hx hdx
        rcases List.mem_cons.mp hx with rfl | hx
        · exact Or.inl (List.mem_append.mpr (Or.inr List.mem_cons_self))
        · rcases h.ahead d (List.mem_cons_of_mem c hd) x hx hdx with hq | hq
          · exact Or.inl (List.mem_append.mpr (Or.inl hq))
          · exact Or.inr hq }

/-- The next link is not at the current slot and stays pending. -/
theorem skip
    {c : Connection}
    (hc : ¬c.involves current = true)
    (h : walk.Explores s members links origin current (c :: todo)) :
    Explores s members links origin current todo
      { walk with pending := walk.pending ++ [c] } :=
  { runs := h.runs
    linkSteps := h.linkSteps
    binds := h.binds
    distinct := h.distinct
    within := h.within
    queued := h.queued
    links := by
      refine List.Perm.trans ?_ h.links
      rw [← List.append_assoc, List.append_assoc _ [c]]
      exact List.perm_middle
    pending := by
      intro d hd x hx hdx
      rcases List.mem_append.mp hd with hd | hd
      · exact h.pending d hd x hx hdx
      · rw [List.mem_singleton] at hd
        subst hd
        refine (h.ahead d List.mem_cons_self x hx hdx).resolve_right ?_
        rintro rfl
        exact hc hdx
    ahead := fun d hd => h.ahead d (List.mem_cons_of_mem c hd) }

/-- Following the links of a bound slot; as many slots are queued as are newly bound. -/
theorem follow
    (hinside : Inside s members links)
    (hcurrent : current ∈ walk.bound)
    (h : walk.Explores s members links origin current todo) :
    Explores s members links origin current [] (Walk.follow current todo walk) ∧
      (Walk.follow current todo walk).bound.length + walk.queue.length =
        walk.bound.length + (Walk.follow current todo walk).queue.length := by
  induction todo generalizing walk with
  | nil => exact ⟨h, rfl⟩
  | cons c todo ih =>
      rw [Walk.follow]
      by_cases hc : c.involves current = true
      · have hends : (current = c.node ∧ c.other current = c.edge) ∨
            (current = c.edge ∧ c.other current = c.node) := by
          unfold Connection.other
          split
          · rename_i heq
            exact Or.inl ⟨heq.symm, rfl⟩
          · rename_i hne
            exact Or.inr ⟨((c.involves_iff current).mp hc).resolve_left (Ne.symm hne), rfl⟩
        rw [if_pos hc]
        by_cases hother : c.other current ∈ walk.bound
        · rw [if_pos (by simpa using hother)]
          have hboth : c.node ∈ walk.bound ∧ c.edge ∈ walk.bound := by
            rcases hends with ⟨hnode, hedge⟩ | ⟨hedge, hnode⟩
            · exact ⟨hnode ▸ hcurrent, hedge ▸ hother⟩
            · exact ⟨hnode ▸ hother, hedge ▸ hcurrent⟩
          have hnext := h.check hinside hboth.1 hboth.2
          exact ih hcurrent hnext
        · rw [if_neg (by simpa using hother)]
          obtain ⟨hexplores, hlength⟩ := ih (List.mem_cons_of_mem _ hcurrent)
            (h.traverse hinside hcurrent hother hends)
          simp only [List.length_append, List.length_cons, List.length_nil] at hlength
          exact ⟨hexplores, by omega⟩
      · rw [if_neg hc]
        have hnext := h.skip hc
        exact ih hcurrent hnext

/-- With fuel for every slot that may still be queued, a walk ends with an empty queue. -/
theorem run
    (hinside : Inside s members links)
    (fuel : Nat)
    (hfuel : members.length + walk.queue.length ≤ fuel + walk.bound.length)
    (h : walk.Explores s members links origin current []) :
    (Walk.run fuel walk).Explores s members links origin current [] ∧
      (Walk.run fuel walk).queue = [] := by
  induction fuel generalizing walk current with
  | zero =>
      have hle : walk.bound.length ≤ members.length :=
        (h.distinct.subperm h.within).length_le
      refine ⟨h, List.eq_nil_of_length_eq_zero ?_⟩
      change walk.queue.length = 0
      omega
  | succ fuel ih =>
      rw [Walk.run]
      cases hqueue : walk.queue with
      | nil => exact ⟨h, hqueue⟩
      | cons next queue =>
          have hnext : next ∈ ({ walk with queue := queue, pending := [] } : Walk).bound :=
            h.queued next (by rw [hqueue]; simp)
          have hstart : Explores s members links origin next walk.pending
              { walk with queue := queue, pending := [] } :=
            { runs := h.runs
              linkSteps := h.linkSteps
              binds := h.binds
              distinct := h.distinct
              within := h.within
              queued := fun x hx => h.queued x (by rw [hqueue]; exact List.mem_cons_of_mem next hx)
              links := by simpa using h.links
              pending := by simp
              ahead := by
                intro c hc x hx hcx
                have hold := h.pending c hc x hx hcx
                rw [hqueue, List.mem_cons] at hold
                exact hold.symm }
          obtain ⟨hfollow, hlength⟩ := follow hinside hnext hstart
          rw [hqueue, List.length_cons] at hfuel
          simp only at hlength
          have hlast := ih (by omega) hfollow
          exact ⟨{ hlast.1 with ahead := by simp }, hlast.2⟩

/-- The walk before it has followed any link. -/
theorem start (horigin : origin ∈ members) :
    Explores s members links origin origin [] ⟨[origin], [origin], links, []⟩ :=
  { runs := trivial
    linkSteps := by simp
    binds := by simp
    distinct := List.nodup_singleton origin
    within := by simpa using horigin
    queued := fun x hx => hx
    links := by simp
    pending := fun _ _ x hx _ => hx
    ahead := by simp }

/-- Both ends of a link that a step follows or checks are bound. -/
theorem mem_bound_of_mem_steps
    {c : Connection}
    {step : Step}
    (hstep : step ∈ walk.steps)
    (hc : step.connection = some c)
    (h : walk.Explores s members links origin current []) :
    c.node ∈ walk.bound ∧ c.edge ∈ walk.bound := by
  obtain ⟨earlier, hearlier, hready⟩ := h.runs.ready_of_mem (List.mem_reverse.mpr hstep)
  have hbound : ∀ x ∈ earlier, x ∈ walk.bound := by
    intro x hx
    rw [h.binds]
    simpa using hearlier x hx
  cases step with
  | scanNodes slot type => cases hc
  | scanEdges slot type => cases hc
  | checkPair edge a b => cases hc
  | check d =>
      obtain rfl : d = c := Option.some.inj hc
      exact ⟨hbound _ hready.1, hbound _ hready.2.1⟩
  | traverse x y d =>
      obtain rfl : d = c := Option.some.inj hc
      have hx := hbound _ hready.1
      have hy : y ∈ walk.bound :=
        (h.binds y).mpr (Or.inr ((Step.mem_boundBy _ _).mpr ⟨_, hstep, rfl⟩))
      rcases hready.2.2.2.2 with ⟨rfl, rfl⟩ | ⟨rfl, rfl⟩
      · exact ⟨hx, hy⟩
      · exact ⟨hy, hx⟩

/-- When nothing is queued any more, a link has both of its ends bound or none. -/
theorem mem_bound_iff
    {c : Connection}
    (hqueue : walk.queue = [])
    (hc : c ∈ links)
    (h : walk.Explores s members links origin current []) :
    c.node ∈ walk.bound ↔ c.edge ∈ walk.bound := by
  have hplace := h.links.mem_iff.mpr hc
  rw [List.nil_append, List.mem_append, List.mem_filterMap] at hplace
  rcases hplace with hpending | ⟨step, hstep, hconnection⟩
  · have hnone : ∀ x ∈ walk.bound, ¬c.involves x = true := by
      intro x hx hcx
      have hqueued := h.pending c hpending x hx hcx
      rw [hqueue] at hqueued
      cases hqueued
    constructor
    · intro hx
      exact absurd ((c.involves_iff _).mpr (Or.inl rfl)) (hnone _ hx)
    · intro hx
      exact absurd ((c.involves_iff _).mpr (Or.inr rfl)) (hnone _ hx)
  · obtain ⟨hnode, hedge⟩ := h.mem_bound_of_mem_steps hstep hconnection
    exact ⟨fun _ => hedge, fun _ => hnode⟩

end Explores

end Walk

namespace Slots

variable {s : Slots}

/-- The step that opens a component scans its first slot. -/
theorem WellFormed.scan (hs : s.WellFormed) {i : Nat} (hi : i < s.size) :
    ∃ step, s.scan? i = some step ∧ step.binds = some i ∧ step.connection = none ∧
      (∀ edge a b, step ≠ .checkPair edge a b) ∧ step.Ready s ∅ := by
  rcases hs.settled i hi with ⟨slot, hslot, hkind⟩ | ⟨slot, hslot, hkind⟩
  · obtain ⟨type, htype⟩ : ∃ type, slot.scanType = some type := by
      unfold Slot.scanType
      cases slot.type <;> simp [hkind, SlotKind.itemKind]
    refine ⟨.scanNodes i type, ?_, rfl, rfl, by simp, by simp, slot, hslot, hkind, htype⟩
    simp [scan?, hslot, htype, hkind]
  · obtain ⟨type, htype⟩ : ∃ type, slot.scanType = some type := by
      unfold Slot.scanType
      cases slot.type <;> simp [hkind, SlotKind.itemKind]
    refine ⟨.scanEdges i type, ?_, rfl, rfl, by simp, by simp, slot, hslot, hkind, htype⟩
    simp [scan?, hslot, htype, hkind]

end Slots

/--
What the steps of a component do: they run from nothing, bind the slots of the component, follow or
check each of its links once, and check the pairs of its edge slots.
-/
structure Component.Covers (s : Slots) (c : Component) : Prop where
  runs : s.Runs ∅ c.steps
  binds : ∀ x, x ∈ Step.boundBy c.steps ↔ x ∈ c.slots
  links : (c.steps.filterMap Step.connection).Perm
    (s.connections.filter fun link => c.slots.contains link.node)
  pairs : ∀ edge a b, .checkPair edge a b ∈ c.steps ↔ edge ∈ c.slots ∧
    ∃ slot, s.slots[edge]? = some slot ∧ slot.kind = .edge ∧ slot.ends = [a, b]

/-- A set of slots that is connected by links and closed under them. -/
structure Slots.Connected (s : Slots) (members : List Nat) : Prop where
  nonempty : members ≠ []
  inside : ∀ x ∈ members, x < s.size
  closed : ∀ c ∈ s.connections, c.node ∈ members ↔ c.edge ∈ members
  joined : ∀ (B : Set Nat), (∀ c ∈ s.connections, c.node ∈ B ↔ c.edge ∈ B) →
    ∀ x ∈ members, ∀ y ∈ members, x ∈ B → y ∈ B

/--
A component starts with the scan of its first slot and ends with the checks of pairs.  In between are the
steps of a walk from that slot, which has come to every slot and has followed every link.
-/
theorem Plan.exists_walk
    {s : Slots}
    {members : List Nat}
    (hs : s.WellFormed)
    (hmembers : s.Connected members) :
    ∃ (origin : Nat) (scan : Step) (walk : Walk), members.head? = some origin ∧
      s.scan? origin = some scan ∧
      (Plan.component s s.connections members).steps =
        [scan] ++ walk.steps.reverse ++ s.pairChecks members ∧
      walk.Explores s members (s.connections.filter fun c => members.contains c.node) origin origin [] ∧
      (∀ x, x ∈ walk.bound ↔ x ∈ members) ∧ walk.pending = [] := by
  obtain ⟨origin, rest, hcons⟩ := List.exists_cons_of_ne_nil hmembers.nonempty
  have horigin : origin ∈ members := by simp [hcons]
  let links := s.connections.filter fun c => members.contains c.node
  have hlinks : ∀ c, c ∈ links ↔ c ∈ s.connections ∧ c.node ∈ members := by
    intro c
    simp [links]
  have hinside : Walk.Inside s members links := by
    intro c hc
    obtain ⟨hconnection, hnode⟩ := (hlinks c).mp hc
    obtain ⟨hisNode, hisEdge⟩ := hs.connection hconnection
    exact ⟨hisNode, hisEdge, hnode, (hmembers.closed c hconnection).mp hnode⟩
  obtain ⟨scan, hscan, -⟩ := hs.scan (hmembers.inside origin horigin)
  have hstart : Walk.Explores s members links origin origin [] ⟨[origin], [origin], links, []⟩ :=
    Walk.Explores.start horigin
  obtain ⟨hwalk, hqueue⟩ := hstart.run hinside members.length (by simp)
  have hsteps : (Plan.component s s.connections members).steps =
      [scan] ++ (Walk.run members.length ⟨[origin], [origin], links, []⟩).steps.reverse ++
        s.pairChecks members := by
    simp [Plan.component, hcons, hscan, links]
  generalize Walk.run members.length ⟨[origin], [origin], links, []⟩ = walk at hwalk hqueue hsteps
  have hall : ∀ x, x ∈ walk.bound ↔ x ∈ members := by
    intro x
    refine ⟨hwalk.within x, fun hx => ?_⟩
    refine hmembers.joined {x | x ∈ walk.bound} (fun c hc => ?_) origin horigin x hx
      ((hwalk.binds origin).mpr (Or.inl rfl))
    by_cases hnode : c.node ∈ members
    · exact hwalk.mem_bound_iff hqueue ((hlinks c).mpr ⟨hc, hnode⟩)
    · have hedge := (hmembers.closed c hc).not.mp hnode
      exact ⟨fun h => absurd (hwalk.within _ h) hnode, fun h => absurd (hwalk.within _ h) hedge⟩
  have hpending : walk.pending = [] := by
    rw [List.eq_nil_iff_forall_not_mem]
    intro c hc
    have hcLink : c ∈ links := hwalk.links.subset (by simp [hc])
    have hqueued := hwalk.pending c hc c.node ((hall _).mpr ((hlinks c).mp hcLink).2)
      ((c.involves_iff _).mpr (Or.inl rfl))
    rw [hqueue] at hqueued
    cases hqueued
  exact ⟨origin, scan, walk, by simp [hcons], hscan, hsteps, hwalk, hall, hpending⟩

theorem Plan.component_covers
    {s : Slots}
    {members : List Nat}
    (hs : s.WellFormed)
    (hmembers : s.Connected members) :
    (Plan.component s s.connections members).Covers s := by
  obtain ⟨origin, scan, walk, hhead, hscan, hsteps, hwalk, hall, hpending⟩ :=
    Plan.exists_walk hs hmembers
  have horigin : origin ∈ members := List.mem_of_mem_head? hhead
  obtain ⟨scan', hscan', hscanBinds, hscanLink, hscanPair, hscanReady⟩ :=
    hs.scan (hmembers.inside origin horigin)
  obtain rfl : scan = scan' := Option.some.inj (hscan.symm.trans hscan')
  have hpairLinks : (s.pairChecks members).filterMap Step.connection = [] := by
    rw [List.filterMap_eq_nil_iff]
    intro step hstep
    obtain ⟨edge, slot, a, b, rfl, -⟩ := (s.mem_pairChecks members step).mp hstep
    rfl
  have hpairBinds : ∀ x, x ∉ Step.boundBy (s.pairChecks members) := by
    intro x hx
    obtain ⟨step, hstep, hbinds⟩ := (Step.mem_boundBy _ x).mp hx
    obtain ⟨edge, slot, a, b, rfl, -⟩ := (s.mem_pairChecks members step).mp hstep
    cases hbinds
  have hbinds : ∀ x, x ∈ Step.boundBy (Plan.component s s.connections members).steps ↔
      x ∈ members := by
    intro x
    rw [← hall, hwalk.binds, hsteps, Step.mem_boundBy_append, Step.mem_boundBy_append]
    simp [hpairBinds x, hscanBinds, eq_comm]
  constructor
  · rw [hsteps, Slots.runs_append, Slots.runs_append]
    have hopened : (∅ ∪ Step.boundBy [scan] : Set Nat) = {origin} := by
      ext x
      simp [hscanBinds, eq_comm]
    rw [hopened]
    refine ⟨⟨⟨hscanReady, trivial⟩, hwalk.runs⟩, Slots.runs_of_ready fun step hstep => ?_⟩
    obtain ⟨edge, slot, a, b, rfl, hedge, hslot, hkind, hends⟩ :=
      (s.mem_pairChecks members step).mp hstep
    have hbound : ∀ x ∈ members,
        x ∈ (∅ ∪ Step.boundBy ([scan] ++ walk.steps.reverse) : Set Nat) := by
      intro x hx
      rw [← hall, hwalk.binds] at hx
      refine Or.inr ?_
      rw [Step.mem_boundBy_append]
      simpa [hscanBinds, eq_comm] using hx
    have hend : ∀ x ∈ slot.ends, x ∈ members ∧ s.IsNode x := by
      intro x hx
      have hlink : (⟨x, edge, .endpoint⟩ : Connection) ∈ s.connections :=
        (s.mem_connections _).mpr ⟨slot, hslot, hkind, hx⟩
      exact ⟨(hmembers.closed _ hlink).mpr hedge, (hs.connection hlink).1⟩
    obtain ⟨ha, haNode⟩ := hend a (by simp [hends])
    obtain ⟨hb, hbNode⟩ := hend b (by simp [hends])
    exact ⟨rfl, hbound _ hedge, hbound _ ha, hbound _ hb, ⟨slot, hslot, hkind⟩, haNode, hbNode⟩
  · exact hbinds
  · rw [hsteps, List.filterMap_append, List.filterMap_append, hpairLinks, List.append_nil]
    have hfollowed := hwalk.links
    rw [hpending, List.nil_append, List.nil_append] at hfollowed
    rw [List.filterMap_cons_none hscanLink, List.filterMap_nil, List.nil_append]
    exact ((List.reverse_perm _).filterMap _).trans hfollowed
  · intro edge a b
    have hscan : .checkPair edge a b ∉ [scan] := by
      simpa using (hscanPair edge a b).symm
    have hwalkStep : .checkPair edge a b ∉ walk.steps.reverse := by
      intro h
      have := hwalk.linkSteps _ (List.mem_reverse.mp h)
      cases this
    rw [hsteps, List.mem_append, List.mem_append, or_iff_right hscan, or_iff_right hwalkStep,
      s.mem_pairChecks]
    constructor
    · rintro ⟨edge', slot, a', b', heq, hedge, hslot, hkind, hends⟩
      cases heq
      exact ⟨hedge, slot, hslot, hkind, hends⟩
    · rintro ⟨hedge, slot, hslot, hkind, hends⟩
      exact ⟨edge, slot, a, b, rfl, hedge, hslot, hkind, hends⟩

namespace Slots

variable {s : Slots}

/-- The forest that tells the components of a query apart. -/
def forest (s : Slots) : DisjointSet :=
  s.connections.foldl (fun sets c => (sets.union c.node c.edge).2) (.singletons s.size)

/-- Two slots are in one class of the forest when connections lead from one to the other. -/
theorem WellFormed.forest_spec (hs : s.WellFormed) :
    s.forest.Forest ∧ s.forest.size = s.size ∧ ∀ u v, s.forest.Same u v ↔
      Relation.EqvGen (fun u v => ∃ c ∈ s.connections, u = c.node ∧ v = c.edge) u v := by
  obtain ⟨hforest, hsize, hsame⟩ := DisjointSet.foldl_union_spec Connection.node Connection.edge
    s.connections (DisjointSet.singletons_forest s.size) fun c hc => by
      obtain ⟨hnode, hedge⟩ := hs.connection hc
      rw [DisjointSet.size_singletons]
      exact ⟨hnode.lt_size, hedge.lt_size⟩
  refine ⟨hforest, hsize.trans (DisjointSet.size_singletons s.size), fun u v => ?_⟩
  refine (hsame u v).trans ⟨fun h => ?_, fun h => h.mono fun u v hc => Or.inr hc⟩
  induction h with
  | rel u v h =>
      rcases h with h | hc
      · rw [DisjointSet.Same, DisjointSet.rootOf_singletons, DisjointSet.rootOf_singletons] at h
        subst h
        exact .refl u
      · exact .rel u v hc
  | refl u => exact .refl u
  | symm u v _ ih => exact .symm u v ih
  | trans u v w _ _ ih₁ ih₂ => exact .trans u v w ih₁ ih₂

theorem WellFormed.connected_classOf (hs : s.WellFormed) {x : Nat} (hx : x < s.size) :
    s.Connected (s.forest.classOf s.size x) := by
  obtain ⟨-, -, hsame⟩ := hs.forest_spec
  have hlink : ∀ c ∈ s.connections, s.forest.Same c.node c.edge :=
    fun c hc => (hsame _ _).mpr (.rel _ _ ⟨c, hc, rfl, rfl⟩)
  constructor
  · exact List.ne_nil_of_mem (DisjointSet.mem_classOf.mpr ⟨hx, rfl⟩)
  · exact fun y hy => (DisjointSet.mem_classOf.mp hy).1
  · intro c hc
    obtain ⟨hnode, hedge⟩ := hs.connection hc
    rw [DisjointSet.mem_classOf, DisjointSet.mem_classOf]
    constructor
    · exact fun h => ⟨hedge.lt_size, (hlink c hc).symm.trans h.2⟩
    · exact fun h => ⟨hnode.lt_size, (hlink c hc).trans h.2⟩
  · intro B hB y hy z hz
    have hyz : s.forest.Same y z :=
      (DisjointSet.mem_classOf.mp hy).2.trans (DisjointSet.mem_classOf.mp hz).2.symm
    have hiff : ∀ u v, Relation.EqvGen
        (fun u v => ∃ c ∈ s.connections, u = c.node ∧ v = c.edge) u v → (u ∈ B ↔ v ∈ B) := by
      intro u v h
      induction h with
      | rel u v h =>
          obtain ⟨c, hc, rfl, rfl⟩ := h
          exact hB c hc
      | refl u => exact Iff.rfl
      | symm u v _ ih => exact ih.symm
      | trans u v w _ _ ih₁ ih₂ => exact ih₁.trans ih₂
    exact (hiff y z ((hsame y z).mp hyz)).mp

/-- The components of a plan are the classes of the forest, in the order of their first slots. -/
theorem WellFormed.components_eq (hs : s.WellFormed) :
    (Plan.ofSlots s).components = (s.forest.leaders s.size).map fun l =>
      Plan.component s s.connections (s.forest.classOf s.size l) := by
  obtain ⟨hforest, hsize, -⟩ := hs.forest_spec
  have hgroups := DisjointSet.groups_eq hforest
  rw [hsize] at hgroups
  change s.forest.groups.1.map _ = _
  rw [hgroups, List.map_map]
  rfl

theorem WellFormed.component_covers (hs : s.WellFormed) {c : Component}
    (hc : c ∈ (Plan.ofSlots s).components) : c.Covers s := by
  rw [hs.components_eq, List.mem_map] at hc
  obtain ⟨l, hl, rfl⟩ := hc
  exact Plan.component_covers hs (hs.connected_classOf (DisjointSet.mem_leaders.mp hl).1)

end Slots

namespace Plan

/-- The steps of all components, one after the other. -/
def steps (plan : Plan) : List Step :=
  plan.components.flatMap Component.steps

end Plan

namespace Slots

variable {s : Slots}

/-- Components that run on their own and share no slot run one after the other. -/
theorem runs_flatMap
    {bound : Set Nat}
    {components : List Component}
    (hcovers : ∀ c ∈ components, c.Covers s)
    (hapart : components.Pairwise fun c d => ∀ x ∈ c.slots, x ∉ d.slots)
    (hfree : ∀ c ∈ components, ∀ x ∈ c.slots, x ∉ bound) :
    s.Runs bound (components.flatMap Component.steps) := by
  induction components generalizing bound with
  | nil => trivial
  | cons c components ih =>
      rw [List.pairwise_cons] at hapart
      have hc := hcovers c List.mem_cons_self
      rw [List.flatMap_cons, runs_append]
      constructor
      · have hcFree : ∀ x ∈ Step.boundBy c.steps, x ∉ bound := fun x hx =>
          hfree c List.mem_cons_self x ((hc.binds x).mp hx)
        have hruns := hc.runs.union hcFree
        rwa [Set.empty_union] at hruns
      · refine ih (fun d hd => hcovers d (List.mem_cons_of_mem c hd)) hapart.2 ?_
        intro d hd x hx hbound
        rcases hbound with hbound | hbound
        · exact hfree d (List.mem_cons_of_mem c hd) x hx hbound
        · exact hapart.1 d hd x ((hc.binds x).mp hbound) hx

/--
What the steps of a whole plan do: they run from nothing, bind every slot, follow or check every
connection, and check the pairs of all edge slots.
-/
structure Covered (s : Slots) (steps : List Step) : Prop where
  runs : s.Runs ∅ steps
  binds : ∀ x, x ∈ Step.boundBy steps ↔ x < s.size
  links : ∀ c, (∃ step ∈ steps, step.connection = some c) ↔ c ∈ s.connections
  pairs : ∀ edge a b, .checkPair edge a b ∈ steps ↔
    ∃ slot, s.slots[edge]? = some slot ∧ slot.kind = .edge ∧ slot.ends = [a, b]

/-- No slot is in two components of a plan. -/
theorem WellFormed.components_apart (hs : s.WellFormed) :
    (Plan.ofSlots s).components.Pairwise fun c d => ∀ x ∈ c.slots, x ∉ d.slots := by
  rw [hs.components_eq, List.pairwise_map]
  refine (s.forest.leaders_pairwise s.size).imp fun {l m} hlm x hxl hxm => ?_
  exact hlm ((DisjointSet.mem_classOf.mp hxl).2.symm.trans (DisjointSet.mem_classOf.mp hxm).2)

theorem WellFormed.covered (hs : s.WellFormed) : s.Covered (Plan.ofSlots s).steps := by
  have hcovers := fun c hc => hs.component_covers (c := c) hc
  have hplace : ∀ x < s.size, ∃ c ∈ (Plan.ofSlots s).components, x ∈ c.slots := by
    intro x hx
    obtain ⟨l, hl, hsame⟩ := s.forest.exists_mem_leaders hx
    rw [hs.components_eq]
    exact ⟨_, List.mem_map_of_mem hl, DisjointSet.mem_classOf.mpr ⟨hx, hsame.symm⟩⟩
  have hinside : ∀ c ∈ (Plan.ofSlots s).components, ∀ x ∈ c.slots, x < s.size := by
    intro c hc x hx
    rw [hs.components_eq, List.mem_map] at hc
    obtain ⟨l, hl, rfl⟩ := hc
    exact (DisjointSet.mem_classOf.mp hx).1
  constructor
  · exact runs_flatMap hcovers hs.components_apart (by simp)
  · intro x
    rw [Step.mem_boundBy]
    constructor
    · rintro ⟨step, hstep, hbinds⟩
      obtain ⟨c, hc, hstep⟩ := List.mem_flatMap.mp hstep
      exact hinside c hc x
        (((hcovers c hc).binds x).mp ((Step.mem_boundBy _ x).mpr ⟨step, hstep, hbinds⟩))
    · intro hx
      obtain ⟨c, hc, hxc⟩ := hplace x hx
      obtain ⟨step, hstep, hbinds⟩ :=
        (Step.mem_boundBy _ x).mp (((hcovers c hc).binds x).mpr hxc)
      exact ⟨step, List.mem_flatMap.mpr ⟨c, hc, hstep⟩, hbinds⟩
  · intro link
    constructor
    · rintro ⟨step, hstep, hlink⟩
      obtain ⟨c, hc, hstep⟩ := List.mem_flatMap.mp hstep
      have hmem := (hcovers c hc).links.subset (List.mem_filterMap.mpr ⟨step, hstep, hlink⟩)
      exact (List.mem_filter.mp hmem).1
    · intro hlink
      obtain ⟨c, hc, hnode⟩ := hplace link.node (hs.connection hlink).1.lt_size
      have hmem := (hcovers c hc).links.mem_iff.mpr
        (List.mem_filter.mpr ⟨hlink, by simpa using hnode⟩)
      obtain ⟨step, hstep, hconnection⟩ := List.mem_filterMap.mp hmem
      exact ⟨step, List.mem_flatMap.mpr ⟨c, hc, hstep⟩, hconnection⟩
  · intro edge a b
    constructor
    · intro hstep
      obtain ⟨c, hc, hstep⟩ := List.mem_flatMap.mp hstep
      exact (((hcovers c hc).pairs edge a b).mp hstep).2
    · rintro ⟨slot, hslot, hkind, hends⟩
      obtain ⟨c, hc, hedge⟩ := hplace edge (Array.getElem?_eq_some_iff.mp hslot).1
      exact List.mem_flatMap.mpr ⟨c, hc,
        ((hcovers c hc).pairs edge a b).mpr ⟨hedge, slot, hslot, hkind, hends⟩⟩

end Slots

end PatternGraph
