import PatternGraph.Proofs.Query.Agreement
import PatternGraph.Proofs.Query.Stacks

/-!
# The product of components

The steps of a component use no slot but those that they have bound themselves.  So a component finds
the same below whatever the components before it have found, and the matches of a plan are all ways to
choose one match of each component, in the order in which the choice for the first component changes
last.
-/

namespace PatternGraph

/-- The ways to choose one entry of each list; the choice from the first list changes last. -/
def choices {α : Type} : List (List α) → List (List α)
  | [] => [[]]
  | list :: rest => list.flatMap fun a => (choices rest).map (a :: ·)

theorem forall₂_of_mem_choices
    {α : Type}
    {lists : List (List α)}
    {chosen : List α}
    (h : chosen ∈ choices lists) :
    List.Forall₂ (· ∈ ·) chosen lists := by
  induction lists generalizing chosen with
  | nil =>
      obtain rfl := List.mem_singleton.mp h
      exact .nil
  | cons list rest ih =>
      obtain ⟨a, ha, hrest⟩ := List.mem_flatMap.mp h
      obtain ⟨others, hothers, rfl⟩ := List.mem_map.mp hrest
      exact .cons ha (ih hothers)

theorem choices_eq_nil
    {α : Type}
    {lists : List (List α)}
    (h : [] ∈ lists) :
    choices lists = [] := by
  induction lists with
  | nil => cases h
  | cons list rest ih =>
      rcases List.mem_cons.mp h with rfl | h
      · rfl
      · rw [choices, ih h]
        exact List.flatMap_eq_nil_iff.mpr fun _ _ => rfl

theorem length_choices
    {α : Type}
    (lists : List (List α)) :
    (choices lists).length = (lists.map List.length).prod := by
  induction lists with
  | nil => rfl
  | cons list rest ih =>
      have hsame : (fun a : α => ((choices rest).map (a :: ·)).length) =
          fun _ => (choices rest).length := funext fun a => List.length_map _
      rw [choices, List.length_flatMap, hsame, List.map_const', List.sum_replicate_nat, ih,
        List.map_cons, List.prod_cons]

namespace Matches

theorem followedBy_assoc (first second third : Matches) :
    (first.followedBy second).followedBy third = first.followedBy (second.followedBy third) := by
  obtain ⟨rows, fault⟩ := first
  obtain ⟨rows', fault'⟩ := second
  cases fault with
  | some fault => rfl
  | none =>
      cases fault' with
      | some fault' => rfl
      | none => simp [followedBy]

theorem inTurn_append
    {α : Type}
    (below : α → Matches)
    (list list' : List α) :
    inTurn below (list ++ list') = (inTurn below list).followedBy (inTurn below list') := by
  induction list with
  | nil => rfl
  | cons a list ih => rw [List.cons_append, inTurn, inTurn, ih, followedBy_assoc]

theorem inTurn_flatMap
    {α β : Type}
    (below : β → Matches)
    (values : α → List β)
    (list : List α) :
    inTurn below (list.flatMap values) = inTurn (fun a => inTurn below (values a)) list := by
  induction list with
  | nil => rfl
  | cons a list ih => rw [List.flatMap_cons, inTurn_append, inTurn, ih]

end Matches

namespace Bindings

/-- Whether some bindings bind a slot. -/
def Binds (row : Bindings) (i : Nat) : Prop :=
  ∃ item, row[i]? = some (some item)

/-- Bindings laid over others, which show where the former bind nothing. -/
def overlay (row base : Bindings) : Bindings :=
  Array.zipWith Option.or row base

/-- What several bindings bind together. -/
def union (s : Slots) (rows : List Bindings) : Bindings :=
  rows.foldl (fun base row => overlay row base) (Search.noBindings s)

theorem size_overlay
    {row base : Bindings}
    (h : row.size = base.size) :
    (overlay row base).size = base.size := by
  rw [overlay, Array.size_zipWith, h, Nat.min_self]

theorem getElem?_overlay (row base : Bindings) (i : Nat) :
    (overlay row base)[i]? = row[i]?.bind fun value => base[i]?.map value.or := by
  rw [overlay, Array.getElem?_zipWith]
  cases row[i]? <;> cases base[i]? <;> rfl

/-- What is bound already stays bound in bindings laid over others. -/
theorem overlay_of_bound
    {row base : Bindings}
    {i : Nat}
    {item : Item}
    (hsize : row.size = base.size)
    (hitem : row[i]? = some (some item)) :
    (overlay row base)[i]? = some (some item) := by
  have hi : i < base.size := hsize ▸ (Array.getElem?_eq_some_iff.mp hitem).1
  rw [getElem?_overlay, hitem, Array.getElem?_eq_getElem hi]
  rfl

/-- Bindings laid over others bind what either of them binds, if they bind different slots. -/
theorem overlay_eq_some_iff
    {row base : Bindings}
    {i : Nat}
    {item : Item}
    (hsize : row.size = base.size)
    (hapart : Binds row i → ¬Binds base i) :
    (overlay row base)[i]? = some (some item) ↔
      row[i]? = some (some item) ∨ base[i]? = some (some item) := by
  by_cases hi : i < base.size
  · rw [getElem?_overlay]
    rw [Binds, Binds] at hapart
    rw [Array.getElem?_eq_getElem hi, Array.getElem?_eq_getElem (hsize ▸ hi)] at hapart ⊢
    cases hrow : row[i] with
    | none => simp
    | some a =>
        rw [hrow] at hapart
        have hnot := hapart ⟨a, rfl⟩
        simp only [Option.bind_some, Option.map_some]
        exact (or_iff_left fun hbase => hnot ⟨item, hbase⟩).symm
  · rw [getElem?_overlay, Array.getElem?_eq_none (hsize ▸ Nat.le_of_not_lt hi),
      Array.getElem?_eq_none (Nat.le_of_not_lt hi)]
    simp

theorem overlay_set (row base : Bindings) (x : Nat) (item : Item) :
    overlay (row.setIfInBounds x (some item)) base =
      (overlay row base).setIfInBounds x (some item) := by
  apply Array.ext_getElem?
  intro i
  rw [getElem?_overlay]
  by_cases hx : x = i
  · subst hx
    rw [Array.getElem?_setIfInBounds_self, Array.getElem?_setIfInBounds_self, overlay,
      Array.size_zipWith]
    by_cases hrow : x < row.size
    · by_cases hbase : x < base.size
      · simp [hrow, hbase]
      · simp [hbase]
    · simp [hrow]
  · rw [Array.getElem?_setIfInBounds_ne hx, Array.getElem?_setIfInBounds_ne hx, getElem?_overlay]

theorem overlay_noBindings
    {s : Slots}
    {base : Bindings}
    (h : base.size = s.size) :
    overlay (Search.noBindings s) base = base := by
  apply Array.ext_getElem?
  intro i
  rw [getElem?_overlay, Search.noBindings, Array.getElem?_replicate]
  split
  · cases base[i]? <;> rfl
  · rw [Array.getElem?_eq_none (by omega)]
    rfl

/-- Several bindings of different slots bind together what any of them binds. -/
theorem union_eq_some_iff
    {s : Slots}
    {rows : List Bindings}
    {i : Nat}
    {item : Item}
    (hsize : ∀ row ∈ rows, row.size = s.size)
    (hapart : rows.Pairwise fun row other => Binds row i → ¬Binds other i) :
    (union s rows)[i]? = some (some item) ↔ ∃ row ∈ rows, row[i]? = some (some item) := by
  have hfold : ∀ base : Bindings, base.size = s.size →
      (∀ row ∈ rows, Binds row i → ¬Binds base i) →
      ((rows.foldl (fun base row => overlay row base) base)[i]? = some (some item) ↔
        base[i]? = some (some item) ∨ ∃ row ∈ rows, row[i]? = some (some item)) := by
    induction rows with
    | nil => simp
    | cons row rows ih =>
        intro base hbase hfree
        rw [List.pairwise_cons] at hapart
        have hrow := hsize row List.mem_cons_self
        have hover : ∀ item, (overlay row base)[i]? = some (some item) ↔
            row[i]? = some (some item) ∨ base[i]? = some (some item) :=
          fun _ => overlay_eq_some_iff (hrow.trans hbase.symm) (hfree row List.mem_cons_self)
        rw [List.foldl_cons, ih (fun r hr => hsize r (List.mem_cons_of_mem row hr)) hapart.2 _
          ((size_overlay (hrow.trans hbase.symm)).trans hbase), hover]
        · simp only [List.mem_cons, exists_eq_or_imp]
          tauto
        · rintro r hr hbound ⟨b, hb⟩
          rcases (hover b).mp hb with hb | hb
          · exact hapart.1 r hr ⟨b, hb⟩ hbound
          · exact hfree r (List.mem_cons_of_mem row hr) hbound ⟨b, hb⟩
  have hnone : (Search.noBindings s)[i]? ≠ some (some item) := by
    rw [Search.noBindings, Array.getElem?_replicate]
    split <;> simp
  rw [union, hfold (Search.noBindings s) (by simp [Search.noBindings]) ?_, or_iff_right hnone]
  rintro row _ _ ⟨b, hb⟩
  rw [Search.noBindings, Array.getElem?_replicate] at hb
  split at hb <;> simp at hb

end Bindings

namespace Slots

variable {s : Slots} {row row' : Bindings} {i : Nat}

theorem boundNode_congr (h : row'[i]? = row[i]?) : s.boundNode row' i = s.boundNode row i := by
  rw [boundNode, boundNode, bound, bound, h]

theorem boundEdge_congr (h : row'[i]? = row[i]?) : s.boundEdge row' i = s.boundEdge row i := by
  rw [boundEdge, boundEdge, bound, bound, h]

end Slots

/-- A step that is ready looks at the slots bound before it, and at no others. -/
theorem Step.Ready.expand_congr_row
    {s : Slots}
    {index : Index}
    {bound : Set Nat}
    {row row' : Bindings}
    {step : Step}
    (hready : step.Ready s bound)
    (hsame : ∀ i ∈ bound, row'[i]? = row[i]?) :
    step.expand s index row' = step.expand s index row := by
  cases step with
  | scanNodes slot type => rfl
  | scanEdges slot type => rfl
  | traverse origin target c =>
      have horigin := hsame origin hready.1
      rw [expand, expand, Slots.boundNode_congr horigin, Slots.boundEdge_congr horigin]
  | check c =>
      rw [expand, expand, Slots.boundNode_congr (hsame _ hready.1),
        Slots.boundEdge_congr (hsame _ hready.2.1)]
  | checkPair edge a b =>
      rw [expand, expand, Slots.boundEdge_congr (hsame _ hready.1),
        Slots.boundNode_congr (hsame _ hready.2.1), Slots.boundNode_congr (hsame _ hready.2.2.1)]

section Components

variable {s : Slots} {index : Index} {g : Diagram} {bound : Set Nat} {row base : Bindings}

/-- Steps find the same over any bindings as on their own, and each time what is below them follows. -/
theorem Step.loops_overlay
    {steps : List Step}
    (below : Bindings → Matches)
    (h : index.Represents g)
    (hruns : s.Runs bound steps)
    (hrow : s.Fills g bound row)
    (hbase : base.size = s.size) :
    Step.loops s index below steps (Bindings.overlay row base) =
      Matches.inTurn (fun row => below (Bindings.overlay row base))
        (Search.loops s index (steps.map .step) row).found := by
  induction steps generalizing bound row with
  | nil => exact (Matches.followedBy_nil _).symm
  | cons step steps ih =>
      obtain ⟨hready, hrest⟩ := hruns
      have hsame : ∀ i ∈ bound, (Bindings.overlay row base)[i]? = row[i]? := by
        intro i hi
        obtain ⟨slot, item, -, hitem, -⟩ := hrow.item i hi
        rw [hitem]
        exact Bindings.overlay_of_bound (hrow.size.trans hbase.symm) hitem
      rw [Step.loops, List.map_cons, Search.loops, hready.expand_congr_row hsame]
      cases hbinds : step.binds with
      | none =>
          have hbound : bound ∪ Step.boundBy [step] = bound := by
            ext x
            simp [hbinds]
          rw [hbound] at hrest
          obtain ⟨holds, hexpand, -⟩ := hready.expand_check h hrow.suits hbinds
          rw [hexpand]
          cases holds with
          | true => exact ih hrest hrow
          | false => rfl
      | some x =>
          have hbound : bound ∪ Step.boundBy [step] = bound ∪ {x} := by
            ext y
            simp [hbinds, eq_comm, or_comm]
          rw [hbound] at hrest
          obtain ⟨slot, candidates, hslot, -, hexpand, -, hcandidates⟩ :=
            hready.expand_bind h hrow.suits hbinds
          have hset : ∀ item ∈ candidates,
              s.Fills g (bound ∪ {x}) (row.setIfInBounds x (some item)) := fun item hitem =>
            hrow.set hslot ((hcandidates item).mp hitem).1 ((hcandidates item).mp hitem).2.1
          rw [hexpand]
          dsimp only
          rw [Matches.inTurn_spec fun item hitem =>
            (Search.loops_completes h hrest (hset item hitem)).faultless, Matches.inTurn_flatMap]
          refine Matches.inTurn_congr fun item hitem => ?_
          rw [← Bindings.overlay_set]
          exact ih hrest (hset item hitem)

namespace Component

variable {components : List Component}

/-- The matches of a component on its own. -/
def alone (s : Slots) (index : Index) (c : Component) : List Bindings :=
  (Search.loops s index (c.steps.map .step) (Search.noBindings s)).found

/-- A component that covers its slots finds bindings of exactly these slots. -/
theorem Covers.mem_alone
    {c : Component}
    (hc : c.Covers s)
    (h : index.Represents g)
    (hrow : row ∈ c.alone s index) :
    row.size = s.size ∧ ∀ i, Bindings.Binds row i ↔ i ∈ c.slots := by
  obtain ⟨hfills, -, -⟩ :=
    ((Search.loops_completes h hc.runs (Slots.Fills.noBindings s g)).found row).mp hrow
  have hbound : ∀ i, i ∈ (∅ ∪ Step.boundBy c.steps : Set Nat) ↔ i ∈ c.slots := by
    intro i
    rw [Set.empty_union, hc.binds]
  refine ⟨hfills.size, fun i => ⟨?_, fun hi => ?_⟩⟩
  · rintro ⟨item, hitem⟩
    by_contra hi
    have hlt : i < s.size := hfills.size ▸ (Array.getElem?_eq_some_iff.mp hitem).1
    have hfree := hfills.free i hlt fun hin => hi ((hbound i).mp hin)
    rw [hitem] at hfree
    cases hfree
  · obtain ⟨slot, item, -, hitem, -⟩ := hfills.item i ((hbound i).mpr hi)
    exact ⟨item, hitem⟩

/-- Matches that are chosen from components without a common slot bind different slots. -/
theorem apart_of_chosen
    {rows : List Bindings}
    (h : index.Represents g)
    (hcovers : ∀ c ∈ components, c.Covers s)
    (hapart : components.Pairwise fun c d => ∀ x ∈ c.slots, x ∉ d.slots)
    (hchosen : List.Forall₂ (fun row c => row ∈ c.alone s index) rows components) :
    (∀ row ∈ rows, ∃ c ∈ components, row ∈ c.alone s index) ∧
      ∀ i, rows.Pairwise fun row other => Bindings.Binds row i → ¬Bindings.Binds other i := by
  induction hchosen with
  | nil => exact ⟨by simp, fun i => .nil⟩
  | @cons row c rows components hrow hrest ih =>
      rw [List.pairwise_cons] at hapart
      obtain ⟨hfrom, hrows⟩ := ih (fun d hd => hcovers d (List.mem_cons_of_mem c hd)) hapart.2
      refine ⟨fun other hother => ?_, fun i => List.pairwise_cons.mpr ⟨fun other hother => ?_, hrows i⟩⟩
      · rcases List.mem_cons.mp hother with rfl | hother
        · exact ⟨c, List.mem_cons_self, hrow⟩
        · obtain ⟨d, hd, hother⟩ := hfrom other hother
          exact ⟨d, List.mem_cons_of_mem c hd, hother⟩
      · intro hbound hbound'
        obtain ⟨d, hd, hother⟩ := hfrom other hother
        have hc := (hcovers c List.mem_cons_self).mem_alone h hrow
        have hd' := (hcovers d (List.mem_cons_of_mem c hd)).mem_alone h hother
        exact hapart.1 d hd i ((hc.2 i).mp hbound) ((hd'.2 i).mp hbound')

/-- Components find all ways to choose a match of each of them. -/
theorem loops_eq_choices
    (h : index.Represents g)
    (hcovers : ∀ c ∈ components, c.Covers s)
    (hsteps : ∀ c ∈ components, c.steps ≠ [])
    (hbase : base.size = s.size) :
    Component.loops s index components base =
      ⟨(choices (components.map (alone s index))).map
        (List.foldl (fun base row => Bindings.overlay row base) base), none⟩ := by
  induction components generalizing base with
  | nil => rfl
  | cons c components ih =>
      have hc := hcovers c List.mem_cons_self
      have hnonempty : c.steps.isEmpty = false := by simpa using hsteps c List.mem_cons_self
      have hover : ∀ row ∈ c.alone s index,
          Component.loops s index components (Bindings.overlay row base) = _ := fun row hrow =>
        ih (fun d hd => hcovers d (List.mem_cons_of_mem c hd))
          (fun d hd => hsteps d (List.mem_cons_of_mem c hd))
          ((Bindings.size_overlay ((hc.mem_alone h hrow).1.trans hbase.symm)).trans hbase)
      have hloops : Step.loops s index (Component.loops s index components) c.steps base =
          Matches.inTurn (fun row => Component.loops s index components (Bindings.overlay row base))
            (c.alone s index) := by
        have hsteps := Step.loops_overlay (Component.loops s index components) h hc.runs
          (Slots.Fills.noBindings s g) hbase
        rwa [Bindings.overlay_noBindings hbase] at hsteps
      rw [Component.loops, if_neg (by simp [hnonempty]), hloops, Matches.inTurn_congr hover,
        Matches.inTurn_spec fun _ _ => rfl, List.map_cons, choices, List.map_flatMap]
      simp only [List.map_map]
      rfl

end Component

end Components

namespace Plan

variable {s : Slots} {index : Index} {g : Diagram}

/--
Whether the matches of a plan are the product of those of its components, each planned on its own: a
component gives bindings of exactly its slots, and the plan gives the unions of all ways to choose one
of them for each component, the choice for the first component changing last.
-/
structure Multiplies (plan : Plan) (s : Slots) (index : Index) (parts : List (List Bindings))
    (found : List Bindings) : Prop where
  each : List.Forall₂ (fun part rows => Plan.Gives ⟨[part]⟩ s index rows ∧ ∀ row ∈ rows,
    row.size = s.size ∧ ∀ i, Bindings.Binds row i ↔ i ∈ part.slots)
    plan.components parts
  whole : plan.Gives s index found
  product : found = (choices parts).map (Bindings.union s)
  union : ∀ rows ∈ choices parts, ∀ (i : Nat) (item : Item),
    (Bindings.union s rows)[i]? = some (some item) ↔ ∃ row ∈ rows, row[i]? = some (some item)
  count : found.length = (parts.map List.length).prod
  empty : [] ∈ parts → found = []

/-- A component that covers its slots, planned on its own, gives its matches. -/
theorem gives_alone
    {c : Component}
    (h : index.Represents g)
    (hc : c.Covers s)
    (hsteps : c.steps ≠ []) :
    Plan.Gives ⟨[c]⟩ s index (c.alone s index) := by
  have hnonempty : c.steps.isEmpty = false := by simpa using hsteps
  refine gives_of_loops ?_ (by simpa [steps] using hc.runs.nodup_binds.1)
  have hloops : Search.loops s index (c.steps.map .step ++ []) (Search.noBindings s) = _ :=
    Search.loops_steps c.steps [] (Search.noBindings s)
  rw [List.append_nil] at hloops
  have hfault := (Search.loops_completes h hc.runs (Slots.Fills.noBindings s g)).faultless
  rw [Plan.loops, isEmpty, List.isEmpty_cons, if_neg Bool.false_ne_true, Component.loops,
    if_neg (by simp [hnonempty])]
  change Step.loops s index (Search.loops s index []) c.steps (Search.noBindings s) = _
  rw [← hloops, Component.alone]
  exact congrArg (Matches.mk _) hfault

end Plan

namespace CompiledQuery

variable {query : Query} {c : CompiledQuery} {index : Index} {g : Diagram}

/--
The matches of a compiled query that has a component are the product of the matches of its components,
on the content of every graph.
-/
theorem multiplies_components
    (hcompile : query.compile = .ok c)
    (h : index.Represents g)
    (hne : c.plan.components ≠ []) :
    ∃ parts found, c.plan.Multiplies c.slots index parts found := by
  have hs := Query.wellFormed_of_compile hcompile
  have honce := nodup_binds ⟨query, hcompile⟩
  obtain ⟨s, plan⟩ := c
  obtain rfl : plan = Plan.ofSlots s := (Query.of_compile hcompile).2
  have hcovers := fun d hd => hs.component_covers (c := d) hd
  have hsteps := fun d hd => hs.components_steps_ne_nil (c := d) hd
  let parts := (Plan.ofSlots s).components.map (Component.alone s index)
  let found := (choices parts).map (Bindings.union s)
  have hloops : (Plan.ofSlots s).loops s index = ⟨found, none⟩ := by
    rw [Plan.loops, Plan.isEmpty, if_neg (by simpa using hne)]
    exact Component.loops_eq_choices h hcovers hsteps (by simp [Search.noBindings])
  have hcount : found.length = (parts.map List.length).prod := by
    rw [List.length_map, length_choices]
  refine ⟨parts, found, ?_, Plan.gives_of_loops hloops honce, rfl, fun rows hrows i item => ?_,
    hcount, fun hempty => ?_⟩
  · rw [List.forall₂_map_right_iff, List.forall₂_same]
    intro d hd
    exact ⟨Plan.gives_alone h (hcovers d hd) (hsteps d hd),
      fun row hrow => (hcovers d hd).mem_alone h hrow⟩
  · have hchosen := List.forall₂_map_right_iff.mp (forall₂_of_mem_choices hrows)
    obtain ⟨hfrom, hapart⟩ := Component.apart_of_chosen h hcovers hs.components_apart hchosen
    refine Bindings.union_eq_some_iff (fun row hrow => ?_) (hapart i)
    obtain ⟨d, hd, hrow⟩ := hfrom row hrow
    exact ((hcovers d hd).mem_alone h hrow).1
  · exact List.map_eq_nil_iff.mpr (choices_eq_nil hempty)

/-- Two nodes in separate patterns, asked of a graph of two nodes. -/
theorem multiplies_two_scans :
    let ops : List Index.Operation :=
      [.insertNode ⟨⟨1⟩, .root .node⟩, .insertNode ⟨⟨2⟩, .root .node⟩]
    ∃ c parts found, Query.compile (.list [.nodeType (.root .node), .nodeType (.root .node)]) = .ok c ∧
      c.plan.components.length = 2 ∧
      c.plan.Multiplies c.slots (Index.after ops) parts found ∧ found.length = 4 := by
  intro ops
  obtain ⟨c, hcompile, hcheck⟩ := Query.exists_of_compiles
    (.list [.nodeType (.root .node), .nodeType (.root .node)])
    (fun c => decide (c.plan.components.length = 2 ∧
      (Matches.all c.slots c.plan (Index.after ops)).found.length = 4)) (by decide +kernel)
  obtain ⟨hcomponents, hlength⟩ := of_decide_eq_true hcheck
  have hne : c.plan.components ≠ [] := fun hnil => by simp [hnil] at hcomponents
  obtain ⟨parts, found, hproduct⟩ :=
    multiplies_components hcompile (Index.after_represents ops) hne
  rw [hproduct.whole.all] at hlength
  exact ⟨c, parts, found, hcompile, hcomponents, hproduct, hlength⟩

/-- A query without patterns has no component, and has no match where there is one way to choose. -/
theorem empty_query_is_no_product :
    ∃ c, Query.compile (.list []) = .ok c ∧ c.plan.Gives c.slots (Index.after []) [] ∧
      choices ([] : List (List Bindings)) = [[]] ∧
      ¬∃ parts found, c.plan.Multiplies c.slots (Index.after []) parts found := by
  obtain ⟨c, hcompile, hcheck⟩ := Query.exists_of_compiles (.list [])
    (fun c => c.plan.components.isEmpty) (by decide +kernel)
  have hnone : c.plan.components = [] := List.isEmpty_iff.mp hcheck
  have hloops : c.plan.loops c.slots (Index.after []) = ⟨[], none⟩ := by
    rw [Plan.loops, Plan.isEmpty, hcheck, if_pos rfl]
  have hgives := Plan.gives_of_loops hloops (nodup_binds ⟨_, hcompile⟩)
  refine ⟨c, hcompile, hgives, rfl, ?_⟩
  rintro ⟨parts, found, hproduct⟩
  have hparts := hproduct.each
  rw [hnone, List.forall₂_nil_left_iff] at hparts
  have hfound : found = [Bindings.union c.slots []] := by
    rw [hproduct.product, hparts]
    rfl
  have hall := hproduct.whole.all
  rw [hgives.all, hfound] at hall
  cases hall

end CompiledQuery

end PatternGraph
