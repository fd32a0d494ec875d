import PatternGraph.Proofs.Query.Naming

/-!
# The form of a plan

Every query that can be lowered has a plan, and the plan has a certain form.  Its components part the
slots by connection and are in the order of their least slots.  A component scans its least slot, then
binds each other slot once from a slot that is bound by then, following each of its links once, and
checks the links that it has not followed; in the end it checks the pairs, and nothing else.
-/

namespace PatternGraph

namespace Slots

variable {s : Slots} {members : List Nat}

/-- Whether a slot for edges lists a slot in a role. -/
def Connects (s : Slots) (c : Connection) : Prop :=
  ∃ slot, s.slots[c.edge]? = some slot ∧ slot.kind = .edge ∧ c.node ∈ slot.partners c.role

/-- Whether two slots are connected, by any number of links in any direction. -/
def Together (s : Slots) : Nat → Nat → Prop :=
  Relation.EqvGen fun u v => ∃ c, s.Connects c ∧ u = c.node ∧ v = c.edge

/-- Whether a step scans for a slot, by the slot's own kind and type. -/
def Scans (s : Slots) (x : Nat) (step : Step) : Prop :=
  ∃ slot type, s.slots[x]? = some slot ∧ slot.scanType = some type ∧
    (slot.kind = .node ∧ step = .scanNodes x type ∨ slot.kind = .edge ∧ step = .scanEdges x type)

/--
Whether steps follow the links of a component from its first slot.  Each of them binds a slot from one
that is bound by then, or checks a link between two of those; together they bind each other slot once,
and take up each link once.
-/
structure Follows (s : Slots) (members : List Nat) (origin : Nat) (steps : List Step) : Prop where
  runs : s.Runs {origin} steps
  each : ∀ step ∈ steps, (∃ x y link, step = .traverse x y link) ∨ ∃ link, step = .check link
  binds : (steps.filterMap Step.binds).Perm members.tail
  once : (steps.filterMap Step.connection).Nodup
  links : ∀ c, c ∈ steps.filterMap Step.connection ↔ s.Connects c ∧ c.node ∈ members

/-- Whether steps check the pairs of a component, one for each edge slot with two ends in either role. -/
structure ChecksPairs (s : Slots) (members : List Nat) (steps : List Step) : Prop where
  once : steps.Nodup
  pairs : ∀ step, step ∈ steps ↔ ∃ edge slot a b, edge ∈ members ∧ s.slots[edge]? = some slot ∧
    slot.kind = .edge ∧ slot.ends = [a, b] ∧ step = .checkPair edge a b

theorem connects_iff_mem (s : Slots) (c : Connection) : s.Connects c ↔ c ∈ s.connections :=
  (s.mem_connections c).symm

theorem nodup_connections (s : Slots) : s.connections.Nodup :=
  (firsts_spec _).1

theorem WellFormed.scans (hs : s.WellFormed) {x : Nat} {step : Step} (hx : x < s.size)
    (hstep : s.scan? x = some step) : s.Scans x step := by
  have hslot : s.slots[x]? = some s.slots[x] := Array.getElem?_eq_getElem hx
  have hkind : s.slots[x].kind = .node ∨ s.slots[x].kind = .edge := by
    rcases hs.settled x hx with ⟨slot, hslot', hkind⟩ | ⟨slot, hslot', hkind⟩
    · obtain rfl := Option.some.inj (hslot'.symm.trans hslot)
      exact Or.inl hkind
    · obtain rfl := Option.some.inj (hslot'.symm.trans hslot)
      exact Or.inr hkind
  cases htype : s.slots[x].scanType with
  | none => simp [scan?, hslot, htype] at hstep
  | some type =>
      refine ⟨_, type, hslot, htype, ?_⟩
      rcases hkind with hkind | hkind
      · exact Or.inl ⟨hkind, by simpa [scan?, hslot, htype, hkind] using hstep.symm⟩
      · exact Or.inr ⟨hkind, by simpa [scan?, hslot, htype, hkind] using hstep.symm⟩

theorem checksPairs (s : Slots) (hmembers : members.Nodup) :
    s.ChecksPairs members (s.pairChecks members) := by
  constructor
  · refine hmembers.filterMap fun edge edge' step hstep hstep' => ?_
    have hedge : ∀ x, step ∈ s.pairChecks [x] → ∃ a b, step = .checkPair x a b := by
      intro x hx
      obtain ⟨e, slot, a, b, rfl, he, -⟩ := (s.mem_pairChecks [x] step).mp hx
      exact ⟨a, b, by rw [List.mem_singleton.mp he]⟩
    obtain ⟨a, b, rfl⟩ := hedge edge (List.mem_filterMap.mpr ⟨edge, List.mem_cons_self, hstep⟩)
    obtain ⟨a', b', heq⟩ := hedge edge' (List.mem_filterMap.mpr ⟨edge', List.mem_cons_self, hstep'⟩)
    exact (Step.checkPair.inj heq).1
  · intro step
    rw [s.mem_pairChecks]
    constructor
    · rintro ⟨edge, slot, a, b, rfl, hedge, hslot, hkind, hends⟩
      exact ⟨edge, slot, a, b, hedge, hslot, hkind, hends, rfl⟩
    · rintro ⟨edge, slot, a, b, hedge, hslot, hkind, hends, rfl⟩
      exact ⟨edge, slot, a, b, rfl, hedge, hslot, hkind, hends⟩

end Slots

/-- Whether the steps of a component are a scan of its first slot, links to follow, and pairs to check. -/
def Component.WellPlanned (s : Slots) (c : Component) : Prop :=
  ∃ origin scan links pairs, c.slots.head? = some origin ∧ c.steps = scan :: (links ++ pairs) ∧
    s.Scans origin scan ∧ s.Follows c.slots origin links ∧ s.ChecksPairs c.slots pairs

namespace Walk.Explores

variable {s : Slots} {members : List Nat} {origin : Nat} {walk : Walk}

/-- A walk binds each member but the one that it starts from. -/
theorem binds_perm {rest : List Nat} (hnodup : (origin :: rest).Nodup)
    (hall : ∀ x, x ∈ walk.bound ↔ x ∈ origin :: rest) {links : List Connection}
    (h : walk.Explores s (origin :: rest) links origin origin []) :
    (walk.steps.reverse.filterMap Step.binds).Perm rest := by
  obtain ⟨horigin, hrest⟩ := List.nodup_cons.mp hnodup
  obtain ⟨honce, hfree⟩ := h.runs.nodup_binds
  rw [List.perm_ext_iff_of_nodup honce hrest]
  intro x
  have hbound : x ∈ walk.steps.reverse.filterMap Step.binds ↔ x ∈ Step.boundBy walk.steps := by
    simp
  have hin := (h.binds x).symm.trans (hall x)
  rw [hbound]
  constructor
  · intro hx
    refine (List.mem_cons.mp (hin.mp (Or.inr hx))).resolve_left ?_
    exact hfree x (by simpa using hx)
  · intro hx
    refine (hin.mpr (List.mem_cons_of_mem origin hx)).resolve_left ?_
    rintro rfl
    exact horigin hx

/-- A walk that has come to every slot, and has no link left, has followed all of them. -/
theorem follows
    (hhead : members.head? = some origin)
    (hnodup : members.Nodup)
    (hall : ∀ x, x ∈ walk.bound ↔ x ∈ members)
    (hpending : walk.pending = [])
    (h : walk.Explores s members (s.connections.filter fun c => members.contains c.node) origin origin []) :
    s.Follows members origin walk.steps.reverse := by
  obtain ⟨rest, rfl⟩ : ∃ rest, members = origin :: rest := by
    cases members with
    | nil => cases hhead
    | cons x rest => exact ⟨rest, by rw [Option.some.inj hhead]⟩
  have hlinks : (walk.steps.reverse.filterMap Step.connection).Perm
      (s.connections.filter fun c => (origin :: rest).contains c.node) := by
    have hfollowed := h.links
    rw [hpending, List.nil_append, List.nil_append] at hfollowed
    exact ((List.reverse_perm _).filterMap _).trans hfollowed
  refine ⟨h.runs, fun step hstep => ?_, h.binds_perm hnodup hall, ?_, fun c => ?_⟩
  · have hlink := h.linkSteps step (List.mem_reverse.mp hstep)
    cases step with
    | traverse x y link => exact Or.inl ⟨x, y, link, rfl⟩
    | check link => exact Or.inr ⟨link, rfl⟩
    | scanNodes x type => cases hlink
    | scanEdges x type => cases hlink
    | checkPair edge a b => cases hlink
  · exact hlinks.nodup_iff.mpr (s.nodup_connections.filter _)
  · rw [hlinks.mem_iff, List.mem_filter, s.connects_iff_mem, List.contains_iff_mem]

end Walk.Explores

namespace Slots

variable {s : Slots} {members : List Nat}

theorem WellFormed.component_wellPlanned (hs : s.WellFormed) (hmembers : s.Connected members)
    (hnodup : members.Nodup) : (Plan.component s s.connections members).WellPlanned s := by
  obtain ⟨origin, scan, walk, hhead, hscan, hsteps, hwalk, hall, hpending⟩ :=
    Plan.exists_walk hs hmembers
  have horigin : origin < s.size := hmembers.inside origin (List.mem_of_mem_head? hhead)
  refine ⟨origin, scan, walk.steps.reverse, s.pairChecks members, hhead, ?_, hs.scans horigin hscan,
    hwalk.follows hhead hnodup hall hpending, s.checksPairs hnodup⟩
  rw [hsteps, List.append_assoc]
  rfl

/-- The classes of the forest are the slots that are connected with one another. -/
theorem WellFormed.same_iff_together (hs : s.WellFormed) (u v : Nat) :
    s.forest.Same u v ↔ s.Together u v := by
  have hlinks : (fun u v => ∃ c ∈ s.connections, u = c.node ∧ v = c.edge) =
      fun u v => ∃ c, s.Connects c ∧ u = c.node ∧ v = c.edge := by
    funext u v
    simp only [connects_iff_mem]
  rw [hs.forest_spec.2.2, hlinks]
  rfl

theorem pairwise_classOf (s : Slots) (l : Nat) :
    (s.forest.classOf s.size l).Pairwise (· < ·) :=
  List.pairwise_lt_range.filter _

end Slots

/--
Whether the components of a plan part the slots by connection, in the order of their least slots, and
each of them is planned well.
-/
structure Plan.WellPlanned (s : Slots) (plan : Plan) : Prop where
  partition : (plan.components.flatMap Component.slots).Perm (List.range s.size)
  connected : ∀ u < s.size, ∀ v < s.size,
    (∃ c ∈ plan.components, u ∈ c.slots ∧ v ∈ c.slots) ↔ s.Together u v
  ordered : plan.components.Pairwise fun c d => ∃ x ∈ c.slots, ∀ y ∈ d.slots, x < y
  ascending : ∀ c ∈ plan.components, c.slots.Pairwise (· < ·)
  components : ∀ c ∈ plan.components, c.WellPlanned s

namespace Slots

variable {s : Slots}

theorem WellFormed.partition (hs : s.WellFormed) :
    ((Plan.ofSlots s).components.flatMap Component.slots).Perm (List.range s.size) := by
  have hslots : (Plan.ofSlots s).components.flatMap Component.slots =
      (s.forest.leaders s.size).flatMap (s.forest.classOf s.size) := by
    rw [hs.components_eq, List.flatMap_map]
    rfl
  have hnodup : ((s.forest.leaders s.size).flatMap (s.forest.classOf s.size)).Nodup := by
    rw [List.nodup_flatMap]
    refine ⟨fun l _ => (s.pairwise_classOf l).imp Nat.ne_of_lt, ?_⟩
    refine (s.forest.leaders_pairwise s.size).imp fun {l m} hlm x hxl hxm => ?_
    exact hlm ((DisjointSet.mem_classOf.mp hxl).2.symm.trans (DisjointSet.mem_classOf.mp hxm).2)
  rw [hslots, List.perm_ext_iff_of_nodup hnodup List.nodup_range]
  intro x
  rw [List.mem_flatMap, List.mem_range]
  constructor
  · rintro ⟨l, -, hx⟩
    exact (DisjointSet.mem_classOf.mp hx).1
  · intro hx
    obtain ⟨l, hl, hsame⟩ := s.forest.exists_mem_leaders hx
    exact ⟨l, hl, DisjointSet.mem_classOf.mpr ⟨hx, hsame.symm⟩⟩

/-- The slots of a component are those that are connected with any of them. -/
theorem WellFormed.together_iff (hs : s.WellFormed) {u v : Nat} (hu : u < s.size) (hv : v < s.size) :
    (∃ c ∈ (Plan.ofSlots s).components, u ∈ c.slots ∧ v ∈ c.slots) ↔ s.Together u v := by
  rw [← hs.same_iff_together, hs.components_eq]
  constructor
  · rintro ⟨c, hc, huc, hvc⟩
    obtain ⟨l, -, rfl⟩ := List.mem_map.mp hc
    exact (DisjointSet.mem_classOf.mp huc).2.trans (DisjointSet.mem_classOf.mp hvc).2.symm
  · intro huv
    obtain ⟨l, hl, hsame⟩ := s.forest.exists_mem_leaders hu
    exact ⟨_, List.mem_map_of_mem hl, DisjointSet.mem_classOf.mpr ⟨hu, hsame.symm⟩,
      DisjointSet.mem_classOf.mpr ⟨hv, huv.symm.trans hsame.symm⟩⟩

/-- The leader of a class is below the members of every later class. -/
theorem WellFormed.ordered (hs : s.WellFormed) :
    (Plan.ofSlots s).components.Pairwise fun c d => ∃ x ∈ c.slots, ∀ y ∈ d.slots, x < y := by
  have hsorted : (s.forest.leaders s.size).Pairwise (· < ·) := List.pairwise_lt_range.filter _
  rw [hs.components_eq, List.pairwise_map]
  refine hsorted.imp_of_mem fun {l m} hl hm hlt => ?_
  refine ⟨l, DisjointSet.mem_classOf.mpr ⟨(DisjointSet.mem_leaders.mp hl).1, rfl⟩, fun y hy => ?_⟩
  have hleast : ¬y < m := fun hym =>
    (DisjointSet.mem_leaders.mp hm).2 y hym (DisjointSet.mem_classOf.mp hy).2
  omega

theorem WellFormed.wellPlanned (hs : s.WellFormed) : (Plan.ofSlots s).WellPlanned s := by
  refine ⟨hs.partition, fun u hu v hv => hs.together_iff hu hv, hs.ordered, fun c hc => ?_,
    fun c hc => ?_⟩
  · rw [hs.components_eq] at hc
    obtain ⟨l, -, rfl⟩ := List.mem_map.mp hc
    exact s.pairwise_classOf l
  · rw [hs.components_eq] at hc
    obtain ⟨l, hl, rfl⟩ := List.mem_map.mp hc
    exact hs.component_wellPlanned (hs.connected_classOf (DisjointSet.mem_leaders.mp hl).1)
      ((s.pairwise_classOf l).imp Nat.ne_of_lt)

end Slots

namespace Query

variable {query : Query} {s : Slots}

/-- A query that can be lowered has a plan, and the plan is a good one. -/
theorem plans_well (h : query.lower = .ok s) : ∃ plan, Plan.make s = .ok plan ∧ plan.WellPlanned s :=
  ⟨Plan.ofSlots s, make_of_lower h, (wellFormed_of_lower h).wellPlanned⟩

/-- Three nodes in a ring, two of them at the ends of one more edge, and an edge on its own. -/
theorem plans_ring_well :
    ∃ s plan, lower (.list [
        .nodeFragment (.any (.root .node)) (some "a") [] [(.leadsTo, .reference "b"), (.joinedWith, .reference "b")],
        .nodeFragment (.any (.root .node)) (some "b") [] [(.leadsTo, .reference "c")],
        .nodeFragment (.any (.root .node)) (some "c") [] [(.leadsTo, .reference "a")],
        .edgeType (.root .edge)]) = .ok s ∧
      Plan.make s = .ok plan ∧ plan.WellPlanned s := by
  obtain ⟨c, hc, -⟩ := exists_of_compiles (.list [
    .nodeFragment (.any (.root .node)) (some "a") [] [(.leadsTo, .reference "b"), (.joinedWith, .reference "b")],
    .nodeFragment (.any (.root .node)) (some "b") [] [(.leadsTo, .reference "c")],
    .nodeFragment (.any (.root .node)) (some "c") [] [(.leadsTo, .reference "a")],
    .edgeType (.root .edge)]) (fun _ => true) (by decide +kernel)
  obtain ⟨plan, hplan, hwell⟩ := plans_well (of_compile hc).1
  exact ⟨c.slots, plan, (of_compile hc).1, hplan, hwell⟩

end Query

end PatternGraph
