import Mathlib.Data.List.Nodup
import PatternGraph.Proofs.Query.Expansion
import PatternGraph.Proofs.Query.NestedLoops

/-!
# The matches of a plan

An assignment satisfies the slots of a query when every slot holds a member of the graph that it
accepts, every connection is played out, and every edge slot with two ends in either role joins
exactly those two.  The search through a plan finds the satisfying assignments, each once.
-/

namespace PatternGraph

/-- Whether an assignment of an item to every slot is a match. -/
structure Slots.Satisfies (s : Slots) (g : Diagram) (row : Bindings) : Prop where
  total : row.size = s.size
  items : ∀ (i : Nat) (slot : Slot), s.slots[i]? = some slot →
    ∃ item, row[i]? = some (some item) ∧ g.Has item ∧ slot.accepts item = true
  links : ∀ c ∈ s.connections, g.Linked row c
  pairs : ∀ (edge : Nat) (slot : Slot) (a b : Nat), s.slots[edge]? = some slot →
    slot.kind = .edge → slot.ends = [a, b] → g.Paired row edge a b

/-- Whether a row binds every slot to an item. -/
structure Slots.Complete (s : Slots) (row : Bindings) : Prop where
  size : row.size = s.size
  bound : ∀ i < s.size, ∃ item, row[i]? = some (some item)

theorem Slots.Satisfies.complete {s : Slots} {g : Diagram} {row : Bindings}
    (h : s.Satisfies g row) : s.Complete row := by
  refine ⟨h.total, fun i hi => ?_⟩
  obtain ⟨item, hitem, -⟩ := h.items i _ (Array.getElem?_eq_getElem hi)
  exact ⟨item, hitem⟩

theorem Slots.Suits.noBindings (s : Slots) : s.Suits ∅ (Search.noBindings s) := by
  constructor
  · simp [Search.noBindings]
  · intro i hi
    cases hi
  · intro i hi _
    simp [Search.noBindings, hi]

namespace Slots.Fills

variable {s : Slots} {g : Diagram} {bound : Set Nat} {row other : Bindings}

/-- Two rows that bind the same slots to the same items are equal. -/
theorem ext
    (hrow : s.Fills g bound row)
    (hother : s.Fills g bound other)
    (hsame : ∀ i ∈ bound, other[i]? = row[i]?) :
    other = row := by
  apply Array.ext_getElem?
  intro i
  by_cases hi : i ∈ bound
  · exact hsame i hi
  · by_cases hlt : i < s.size
    · rw [hrow.free i hlt hi, hother.free i hlt hi]
    · rw [Array.getElem?_eq_none (by rw [hother.size]; omega),
        Array.getElem?_eq_none (by rw [hrow.size]; omega)]

theorem noBindings (s : Slots) (g : Diagram) : s.Fills g ∅ (Search.noBindings s) :=
  ⟨(Suits.noBindings s).size, nofun, (Suits.noBindings s).free⟩

end Slots.Fills

theorem Matches.inTurn_spec {α : Type} {below : α → Matches} {values : List α}
    (hbelow : ∀ a ∈ values, (below a).fault = none) :
    inTurn below values = ⟨values.flatMap fun a => (below a).found, none⟩ := by
  induction values with
  | nil => rfl
  | cons a values ih =>
      rw [inTurn, ih fun b hb => hbelow b (List.mem_cons_of_mem a hb), followedBy,
        hbelow a List.mem_cons_self]
      rfl

namespace Search

variable {s : Slots} {index : Index} {g : Diagram} {bound : Set Nat} {row : Bindings}
  {steps : List Step}

/-- What the loops over a list of steps find below a row that binds some slots already. -/
structure Completes (s : Slots) (g : Diagram) (bound : Set Nat) (row : Bindings)
    (steps : List Step) (m : Matches) : Prop where
  faultless : m.fault = none
  once : m.found.Nodup
  found : ∀ r, r ∈ m.found ↔ s.Fills g (bound ∪ Step.boundBy steps) r ∧
    (∀ i ∈ bound, r[i]? = row[i]?) ∧ ∀ step ∈ steps, step.Holds g r

/-- A check that fails leaves nothing, and one that holds leaves what the later steps find. -/
theorem Completes.check
    {step : Step}
    {m : Matches}
    (hready : step.Ready s bound)
    (hbinds : step.binds = none)
    (hholds : step.Holds g row)
    (hm : Completes s g bound row steps m) :
    Completes s g bound row (step :: steps) m := by
  have hbound : Step.boundBy (step :: steps) = Step.boundBy steps := by
    ext x
    rw [Step.mem_boundBy_cons]
    simp [hbinds]
  refine ⟨hm.faultless, hm.once, fun r => ?_⟩
  rw [hm.found, hbound]
  refine and_congr_right fun _ => and_congr_right fun hsame => ?_
  rw [List.forall_mem_cons]
  have hagree : ∀ i ∈ bound ∪ Step.boundBy [step], r[i]? = row[i]? := by
    intro i hi
    refine hsame i (hi.resolve_right ?_)
    simp [hbinds]
  exact (and_iff_right ((hready.holds_congr hagree).mpr hholds)).symm

theorem Completes.checkFails
    {step : Step}
    (hready : step.Ready s bound)
    (hbinds : step.binds = none)
    (hfails : ¬step.Holds g row) :
    Completes s g bound row (step :: steps) ⟨[], none⟩ := by
  refine ⟨rfl, List.nodup_nil, fun r => ?_⟩
  simp only [List.not_mem_nil, false_iff, not_and]
  intro _ hsame hall
  have hagree : ∀ i ∈ bound ∪ Step.boundBy [step], r[i]? = row[i]? := by
    intro i hi
    refine hsame i (hi.resolve_right ?_)
    simp [hbinds]
  exact hfails ((hready.holds_congr hagree).mp (hall step List.mem_cons_self))

/-- The loop over the candidates of a slot, each with what the later steps find. -/
theorem Completes.bind
    {step : Step}
    {x : Nat}
    {slot : Slot}
    {candidates : List Item}
    {below : Item → Matches}
    (hrow : s.Fills g bound row)
    (hready : step.Ready s bound)
    (hbinds : step.binds = some x)
    (hslot : s.slots[x]? = some slot)
    (hfree : x ∉ bound)
    (hnodup : candidates.Nodup)
    (hcandidates : ∀ item, item ∈ candidates ↔ slot.accepts item = true ∧ g.Has item ∧
      step.Holds g (row.setIfInBounds x (some item)))
    (hbelow : ∀ item ∈ candidates,
      Completes s g (bound ∪ {x}) (row.setIfInBounds x (some item)) steps (below item)) :
    Completes s g bound row (step :: steps) (Matches.inTurn below candidates) := by
  have hx : x < row.size := by
    rw [hrow.size]
    exact (Array.getElem?_eq_some_iff.mp hslot).1
  have hself : ∀ item : Item, (row.setIfInBounds x (some item))[x]? = some (some item) := by
    intro item
    simp [hx]
  have hother : ∀ (item : Item), ∀ i ∈ bound,
      (row.setIfInBounds x (some item))[i]? = row[i]? := by
    intro item i hi
    apply Array.getElem?_setIfInBounds_ne
    rintro rfl
    exact hfree hi
  have hbound : bound ∪ Step.boundBy (step :: steps) =
      bound ∪ {x} ∪ Step.boundBy steps := by
    ext y
    rw [Set.mem_union, Step.mem_boundBy_cons, hbinds, Option.some.injEq, eq_comm, ← or_assoc]
    rfl
  rw [Matches.inTurn_spec fun item hitem => (hbelow item hitem).faultless]
  constructor
  · rfl
  · rw [List.nodup_flatMap]
    refine ⟨fun item hitem => (hbelow item hitem).once, ?_⟩
    refine hnodup.imp_of_mem fun {item item'} hitem hitem' hne r hr hr' => hne ?_
    have hr := (((hbelow item hitem).found r).mp hr).2.1 x (Or.inr rfl)
    have hr' := (((hbelow item' hitem').found r).mp hr').2.1 x (Or.inr rfl)
    rw [hself] at hr hr'
    simpa [hr] using hr'
  · intro r
    rw [List.mem_flatMap, hbound]
    constructor
    · rintro ⟨item, hitem, hr⟩
      obtain ⟨hfills, hsame, hall⟩ := ((hbelow item hitem).found r).mp hr
      refine ⟨hfills, fun i hi => (hsame i (Or.inl hi)).trans (hother item i hi), ?_⟩
      have hagree : ∀ i ∈ bound ∪ Step.boundBy [step],
          r[i]? = (row.setIfInBounds x (some item))[i]? := by
        intro i hi
        refine hsame i (hi.imp id ?_)
        simp [hbinds, eq_comm]
      rw [List.forall_mem_cons]
      exact ⟨(hready.holds_congr hagree).mpr ((hcandidates item).mp hitem).2.2, hall⟩
    · rintro ⟨hfills, hsame, hall⟩
      rw [List.forall_mem_cons] at hall
      obtain ⟨slot', item, hslot', hrx, haccepts, hhas⟩ := hfills.item x (Or.inl (Or.inr rfl))
      obtain rfl : slot = slot' := by simpa [hslot] using hslot'
      have hagree : ∀ i ∈ bound ∪ {x}, r[i]? = (row.setIfInBounds x (some item))[i]? := by
        rintro i (hi | rfl)
        · rw [hother item i hi]
          exact hsame i hi
        · rw [hself, hrx]
      have hused : ∀ i ∈ bound ∪ Step.boundBy [step],
          r[i]? = (row.setIfInBounds x (some item))[i]? := by
        intro i hi
        refine hagree i (hi.imp id ?_)
        simp [hbinds, eq_comm]
      have hitem : item ∈ candidates :=
        (hcandidates item).mpr ⟨haccepts, hhas, (hready.holds_congr hused).mp hall.1⟩
      exact ⟨item, hitem, ((hbelow item hitem).found r).mpr ⟨hfills, hagree, hall.2⟩⟩

/-- The loops over steps that run find exactly the rows that complete the given one. -/
theorem loops_completes
    (h : index.Represents g)
    (hruns : s.Runs bound steps)
    (hrow : s.Fills g bound row) :
    Completes s g bound row steps (loops s index (steps.map .step) row) := by
  induction steps generalizing bound row with
  | nil =>
      refine ⟨rfl, List.nodup_singleton row, fun r => ?_⟩
      have hnone : bound ∪ Step.boundBy [] = bound := by
        ext x
        simp
      rw [hnone, List.map_nil, loops, List.mem_singleton]
      constructor
      · rintro rfl
        exact ⟨hrow, fun _ _ => rfl, by simp⟩
      · rintro ⟨hfills, hsame, -⟩
        exact hrow.ext hfills hsame
  | cons step steps ih =>
      obtain ⟨hready, hrest⟩ := hruns
      rw [List.map_cons, loops]
      cases hbinds : step.binds with
      | none =>
          have hbound : bound ∪ Step.boundBy [step] = bound := by
            ext x
            simp [hbinds]
          rw [hbound] at hrest
          obtain ⟨holds, hexpand, hiff⟩ := hready.expand_check h hrow.suits hbinds
          rw [hexpand]
          cases holds with
          | true => exact (ih hrest hrow).check hready hbinds (hiff.mp rfl)
          | false =>
              apply Completes.checkFails hready hbinds
              intro hholds
              cases hiff.mpr hholds
      | some x =>
          have hbound : bound ∪ Step.boundBy [step] = bound ∪ {x} := by
            ext y
            simp [hbinds, eq_comm, or_comm]
          rw [hbound] at hrest
          obtain ⟨slot, candidates, hslot, hfree, hexpand, hnodup, hcandidates⟩ :=
            hready.expand_bind h hrow.suits hbinds
          rw [hexpand]
          refine Completes.bind hrow hready hbinds hslot hfree hnodup hcandidates ?_
          intro item hitem
          obtain ⟨haccepts, hhas, -⟩ := (hcandidates item).mp hitem
          exact ih hrest (hrow.set hslot haccepts hhas)

end Search

namespace Slots

variable {s : Slots} {g : Diagram} {bound : Set Nat} {steps : List Step}

/-- Steps that run bind no slot twice, and none that is bound before. -/
theorem Runs.nodup_binds (h : s.Runs bound steps) :
    (steps.filterMap Step.binds).Nodup ∧ ∀ x ∈ Step.boundBy steps, x ∉ bound := by
  induction steps generalizing bound with
  | nil => simp
  | cons step steps ih =>
      obtain ⟨hnodup, hfree⟩ := ih h.2
      cases hbinds : step.binds with
      | none =>
          rw [List.filterMap_cons_none hbinds]
          refine ⟨hnodup, fun x hx hbound => ?_⟩
          rw [Step.mem_boundBy_cons, hbinds] at hx
          exact hfree x (hx.resolve_left nofun) (Or.inl hbound)
      | some y =>
          have hy : y ∉ bound := by
            have hready := h.1
            cases step with
            | scanNodes slot type => exact Option.some.inj hbinds ▸ hready.1
            | scanEdges slot type => exact Option.some.inj hbinds ▸ hready.1
            | traverse origin slot c => exact Option.some.inj hbinds ▸ hready.2.1
            | check c => cases hbinds
            | checkPair edge a b => cases hbinds
          rw [List.filterMap_cons_some hbinds, List.nodup_cons]
          refine ⟨⟨fun hlater => hfree y hlater (Or.inr (by simp [hbinds])), hnodup⟩, ?_⟩
          intro x hx hbound
          rw [Step.mem_boundBy_cons, hbinds, Option.some.injEq] at hx
          rcases hx with rfl | hx
          · exact hy hbound
          · exact hfree x hx (Or.inl hbound)

/-- Meeting the conditions of all steps of a plan is being a match. -/
theorem Covered.satisfies_iff (hcovered : s.Covered steps) (row : Bindings) :
    (s.Fills g (∅ ∪ Step.boundBy steps) row ∧ ∀ step ∈ steps, step.Holds g row) ↔
      s.Satisfies g row := by
  have hbound : ∀ i, i ∈ (∅ ∪ Step.boundBy steps : Set Nat) ↔ i < s.size := by
    intro i
    rw [Set.empty_union, hcovered.binds]
  constructor
  · rintro ⟨hfills, hall⟩
    constructor
    · exact hfills.size
    · intro i slot hslot
      have hi : i < s.size := (Array.getElem?_eq_some_iff.mp hslot).1
      obtain ⟨slot', item, hslot', hitem, haccepts, hhas⟩ := hfills.item i ((hbound i).mpr hi)
      obtain rfl : slot = slot' := by simpa [hslot] using hslot'
      exact ⟨item, hitem, hhas, haccepts⟩
    · intro c hc
      obtain ⟨step, hstep, hconnection⟩ := (hcovered.links c).mpr hc
      have hholds := hall step hstep
      cases step with
      | scanNodes slot type => cases hconnection
      | scanEdges slot type => cases hconnection
      | traverse x y d =>
          obtain rfl : d = c := Option.some.inj hconnection
          exact hholds
      | check d =>
          obtain rfl : d = c := Option.some.inj hconnection
          exact hholds
      | checkPair edge a b => cases hconnection
    · intro edge slot a b hslot hkind hends
      exact hall _ ((hcovered.pairs edge a b).mpr ⟨slot, hslot, hkind, hends⟩)
  · intro hrow
    refine ⟨⟨hrow.total, fun i hi => ?_, fun i hi hfree => absurd ((hbound i).mpr hi) hfree⟩, ?_⟩
    · obtain ⟨slot, hslot⟩ : ∃ slot, s.slots[i]? = some slot :=
        ⟨_, Array.getElem?_eq_getElem ((hbound i).mp hi)⟩
      obtain ⟨item, hitem, hhas, haccepts⟩ := hrow.items i slot hslot
      exact ⟨slot, item, hslot, hitem, haccepts, hhas⟩
    · intro step hstep
      cases step with
      | scanNodes slot type => trivial
      | scanEdges slot type => trivial
      | traverse x y c => exact hrow.links c ((hcovered.links c).mp ⟨_, hstep, rfl⟩)
      | check c => exact hrow.links c ((hcovered.links c).mp ⟨_, hstep, rfl⟩)
      | checkPair edge a b =>
          obtain ⟨slot, hslot, hkind, hends⟩ := (hcovered.pairs edge a b).mp hstep
          exact hrow.pairs edge slot a b hslot hkind hends

end Slots

namespace Search

variable {s : Slots} {index : Index} {row : Bindings}

/-- Entering components changes nothing for the loops. -/
theorem loops_components {components : List Component}
    (hsteps : ∀ c ∈ components, c.steps ≠ []) :
    loops s index (components.flatMap Component.moves) row =
      loops s index ((components.flatMap Component.steps).map .step) row := by
  have hprefix : ∀ (steps : List Step) (rest rest' : List Move),
      (∀ row, loops s index rest row = loops s index rest' row) →
      ∀ row, loops s index (steps.map .step ++ rest) row =
        loops s index (steps.map .step ++ rest') row := by
    intro steps rest rest' hrest
    induction steps with
    | nil => exact hrest
    | cons step steps ih =>
        intro row
        rw [List.map_cons, List.cons_append, List.cons_append, loops, loops]
        simp only [ih]
  induction components generalizing row with
  | nil => rfl
  | cons c components ih =>
      have hc : c.steps.isEmpty = false := by
        simpa using hsteps c List.mem_cons_self
      rw [List.flatMap_cons, List.flatMap_cons, List.map_append, Component.moves, hc]
      exact hprefix c.steps _ _ (fun row => ih fun d hd => hsteps d (List.mem_cons_of_mem c hd)) row

end Search

namespace Plan

theorem filterMap_binds_moves (plan : Plan) :
    plan.moves.filterMap Move.binds = plan.steps.filterMap Step.binds := by
  rw [moves, steps]
  split
  · rename_i hempty
    rw [isEmpty, List.isEmpty_iff] at hempty
    simp [hempty, Move.binds]
  · rw [List.filterMap_flatMap, List.filterMap_flatMap]
    congr 1
    funext c
    rw [Component.moves, List.filterMap_cons_none (by rfl)]
    split
    · rename_i hempty
      rw [List.isEmpty_iff] at hempty
      simp [hempty, Move.binds]
    · rw [List.filterMap_map]
      rfl

/-- A plan that binds no slot twice can be searched from the start. -/
theorem fresh_moves (plan : Plan) (s : Slots) (honce : (plan.steps.filterMap Step.binds).Nodup) :
    Search.Fresh plan.moves (Search.noBindings s) := by
  constructor
  · rwa [filterMap_binds_moves]
  · intro slot _ item
    simp only [Search.noBindings, Array.getElem?_replicate]
    split <;> simp

end Plan

namespace Slots.WellFormed

variable {s : Slots} {index : Index} {g : Diagram}

theorem components_steps_ne_nil (hs : s.WellFormed) {c : Component}
    (hc : c ∈ (Plan.ofSlots s).components) : c.steps ≠ [] := by
  intro hnil
  have hbinds := (hs.component_covers hc).binds
  rw [hs.components_eq, List.mem_map] at hc
  obtain ⟨l, hl, rfl⟩ := hc
  have hmem := (hbinds l).mpr (DisjointSet.mem_classOf.mpr ⟨(DisjointSet.mem_leaders.mp hl).1, rfl⟩)
  rw [hnil] at hmem
  simp at hmem

/-- The matches of a plan are the rows that complete the empty one. -/
theorem loops_moves (hs : s.WellFormed) (hsize : 0 < s.size) :
    Search.loops s index (Plan.ofSlots s).moves (Search.noBindings s) =
      Search.loops s index ((Plan.ofSlots s).steps.map .step) (Search.noBindings s) := by
  have hne : (Plan.ofSlots s).isEmpty = false := by
    obtain ⟨l, hl, -⟩ := s.forest.exists_mem_leaders hsize
    have hcomponents := hs.components_eq
    rw [Plan.isEmpty, hcomponents, List.isEmpty_map]
    cases hleaders : s.forest.leaders s.size with
    | nil => simp [hleaders] at hl
    | cons l rest => rfl
  rw [Plan.moves, hne]
  exact Search.loops_components fun c hc => hs.components_steps_ne_nil hc

theorem fresh_moves (hs : s.WellFormed) :
    Search.Fresh (Plan.ofSlots s).moves (Search.noBindings s) :=
  (Plan.ofSlots s).fresh_moves s hs.covered.runs.nodup_binds.1

/-- The nested loops of a plan find the assignments that satisfy the slots, each once. -/
theorem loops_spec (hs : s.WellFormed) (hsize : 0 < s.size) (h : index.Represents g) :
    ∃ found, Search.loops s index (Plan.ofSlots s).moves (Search.noBindings s) = ⟨found, none⟩ ∧
      found.Nodup ∧ ∀ row, row ∈ found ↔ s.Satisfies g row := by
  obtain ⟨hfault, honce, hfound⟩ :=
    Search.loops_completes h hs.covered.runs (Fills.noBindings s g)
  rw [← hs.loops_moves hsize] at hfault honce hfound
  generalize Search.loops s index (Plan.ofSlots s).moves (Search.noBindings s) = m
    at hfault honce hfound
  obtain ⟨found, fault⟩ := m
  obtain rfl : fault = none := hfault
  refine ⟨found, rfl, honce, fun row => ?_⟩
  rw [hfound, ← hs.covered.satisfies_iff]
  simp

/--
The search through the plan of well-formed slots finds exactly the assignments that satisfy the
slots, each once and without a fault, and finding only the first ones gives a prefix of them.
-/
theorem all_spec (hs : s.WellFormed) (hsize : 0 < s.size) (h : index.Represents g) :
    ∃ found, Matches.all s (Plan.ofSlots s) index = ⟨found, none⟩ ∧
      (∀ limit, Matches.first limit s (Plan.ofSlots s) index = ⟨found.take limit, none⟩) ∧
        found.Nodup ∧ ∀ row, row ∈ found ↔ s.Satisfies g row := by
  obtain ⟨found, hloops, honce, hfound⟩ := hs.loops_spec hsize h
  refine ⟨found, ?_, fun limit => ?_, honce, hfound⟩
  · rw [Matches.all, Search.start]
    apply Matches.ofProgress_gather
    rw [← hloops]
    exact (Search.descend_spec _ _ _ _ hs.fresh_moves).1
  · by_cases hlimit : limit = 0
    · simp [Matches.first, hlimit]
    · rw [Matches.first, if_neg hlimit, Search.start]
      apply Matches.ofProgress_gather_first hlimit
      rw [← hloops]
      exact (Search.descend_spec _ _ _ _ hs.fresh_moves).1

end Slots.WellFormed

end PatternGraph
