import Mathlib.Data.List.Basic
import PatternGraph.Proofs.Index.Diagram

/-!
# The index of a diagram

The six maps of an index are determined by a diagram, `Index.Represents` says how, and every
operation on an index does to the diagram behind it what its name says.  The buckets are handled
first: filing an item and taking it out again act on the types of its own chain only.
-/

namespace PatternGraph

namespace Buckets

variable {subject : Subject}

/-- Every item is filed under the types of its chain and nowhere else, and no bucket is empty. -/
structure Files (buckets : Buckets subject) (chain : Ident subject → Option (List TypeId)) :
    Prop where
  mem : ∀ (t : TypeId) (x : Ident subject),
    (∃ bucket, buckets[t]? = some bucket ∧ x ∈ bucket) ↔ ∃ types, chain x = some types ∧ t ∈ types
  tidy : ∀ (t : TypeId) (bucket : Std.ExtTreeSet (Ident subject)),
    buckets[t]? = some bucket → ∃ x, x ∈ bucket

theorem getElem?_file (x : Ident subject) (types : List TypeId) (buckets : Buckets subject)
    (t : TypeId) :
    (buckets.file x types)[t]? =
      if t ∈ types then some ((buckets[t]?.getD ∅).insert x) else buckets[t]? := by
  induction types generalizing buckets with
  | nil => simp [file]
  | cons u types ih =>
      have hstep : buckets.file x (u :: types) =
          file x types (buckets.alter u fun bucket => some ((bucket.getD ∅).insert x)) := rfl
      rw [hstep, ih, Std.ExtTreeMap.getElem?_alter]
      by_cases hu : u = t
      · subst hu
        by_cases ht : u ∈ types
        · have hidem : ∀ bucket : Std.ExtTreeSet (Ident subject),
              (bucket.insert x).insert x = bucket.insert x := by
            intro bucket
            ext y
            simp
          simp [ht, hidem]
        · simp [ht]
      · simp [hu, Ne.symm hu]

/-- What is left in a bucket after an item has been taken out. -/
theorem withdraw_eq_some_iff (x : Ident subject)
    (bucket : Option (Std.ExtTreeSet (Ident subject))) (rest : Std.ExtTreeSet (Ident subject)) :
    withdraw x bucket = some rest ↔
      ∃ full, bucket = some full ∧ full.erase x = rest ∧ ∃ y, y ∈ rest := by
  cases bucket with
  | none => simp [withdraw]
  | some full =>
      have hnonempty : (full.erase x).isEmpty = false ↔ ∃ y, y ∈ full.erase x := by
        rw [Std.ExtTreeSet.isEmpty_eq_false_iff, Std.ExtTreeSet.eq_empty_iff_forall_not_mem]
        simp only [not_forall, not_not]
      simp only [withdraw, Option.bind_some, Option.some.injEq, exists_eq_left']
      cases hempty : (full.erase x).isEmpty with
      | true =>
          simp only [if_true, reduceCtorEq, false_iff, not_and]
          rintro rfl
          rw [← hnonempty, hempty]
          simp
      | false =>
          simp only [Bool.false_eq_true, if_false, Option.some.injEq]
          constructor
          · rintro rfl
            exact ⟨rfl, hnonempty.mp hempty⟩
          · exact And.left

theorem withdraw_withdraw (x : Ident subject) (bucket : Option (Std.ExtTreeSet (Ident subject))) :
    withdraw x (withdraw x bucket) = withdraw x bucket := by
  have hidem : ∀ full : Std.ExtTreeSet (Ident subject), (full.erase x).erase x = full.erase x := by
    intro full
    ext y
    simp
  ext rest
  rw [withdraw_eq_some_iff, withdraw_eq_some_iff]
  constructor
  · rintro ⟨once, honce, rfl, hsome⟩
    obtain ⟨full, hfull, rfl, -⟩ := (withdraw_eq_some_iff x bucket once).mp honce
    rw [hidem] at hsome ⊢
    exact ⟨full, hfull, rfl, hsome⟩
  · rintro ⟨full, hfull, rfl, hsome⟩
    exact ⟨full.erase x, (withdraw_eq_some_iff x bucket _).mpr ⟨full, hfull, rfl, hsome⟩,
      hidem full, hsome⟩

theorem getElem?_unfile (x : Ident subject) (types : List TypeId) (buckets : Buckets subject)
    (t : TypeId) :
    (buckets.unfile x types)[t]? =
      if t ∈ types then withdraw x buckets[t]? else buckets[t]? := by
  induction types generalizing buckets with
  | nil => simp [unfile]
  | cons u types ih =>
      have hstep : buckets.unfile x (u :: types) =
          unfile x types (buckets.alter u (withdraw x)) := rfl
      rw [hstep, ih, Std.ExtTreeMap.getElem?_alter]
      by_cases hu : u = t
      · subst hu
        by_cases ht : u ∈ types
        · simp [ht, withdraw_withdraw]
        · simp [ht]
      · simp [hu, Ne.symm hu]

theorem mem_under (buckets : Buckets subject) (t : TypeId) (x : Ident subject) :
    x ∈ buckets.under t ↔ ∃ bucket, buckets[t]? = some bucket ∧ x ∈ bucket := by
  unfold under
  cases buckets[t]? <;> simp

theorem ordered_under (buckets : Buckets subject) (t : TypeId) :
    (buckets.under t).Pairwise fun a b => compare a b = .lt := by
  unfold under
  cases buckets[t]? with
  | none => exact List.Pairwise.nil
  | some bucket => exact bucket.ordered_toList

variable {buckets : Buckets subject} {chain : Ident subject → Option (List TypeId)}

theorem Files.file (h : buckets.Files chain) (x : Ident subject) (hx : chain x = none)
    (types : List TypeId) :
    (buckets.file x types).Files fun y => if y = x then some types else chain y := by
  constructor
  · intro t y
    rw [getElem?_file]
    by_cases hy : y = x
    · subst hy
      have hnot := (h.mem t y).not.mpr (by simp [hx])
      by_cases ht : t ∈ types
      · simp [ht]
      · simp only [ht, if_false, if_true, Option.some.injEq, exists_eq_left', iff_false]
        exact hnot
    · simp only [hy, if_false]
      rw [← h.mem t y]
      by_cases ht : t ∈ types
      · simp only [ht, if_true, Option.some.injEq, exists_eq_left', Std.ExtTreeSet.mem_insert,
          Std.LawfulEqCmp.compare_eq_iff_eq, Ne.symm hy, false_or]
        cases hb : buckets[t]? with
        | none => simp
        | some bucket => simp
      · simp [ht]
  · intro t bucket hbucket
    rw [getElem?_file] at hbucket
    split at hbucket
    · rw [← Option.some.inj hbucket]
      exact ⟨x, by simp⟩
    · exact h.tidy t bucket hbucket

theorem Files.unfile (h : buckets.Files chain) (x : Ident subject) (types : List TypeId)
    (hx : chain x = some types) :
    (buckets.unfile x types).Files fun y => if y = x then none else chain y := by
  constructor
  · intro t y
    rw [getElem?_unfile]
    by_cases ht : t ∈ types
    · simp only [ht, if_true, withdraw_eq_some_iff]
      by_cases hy : y = x
      · subst hy
        simp only [if_true, reduceCtorEq, false_and, exists_false, iff_false, not_exists, not_and]
        rintro bucket ⟨full, -, rfl, -⟩
        simp
      · simp only [hy, if_false]
        rw [← h.mem t y]
        constructor
        · rintro ⟨-, ⟨full, hfull, rfl, -⟩, hmem⟩
          exact ⟨full, hfull, Std.ExtTreeSet.mem_of_mem_erase hmem⟩
        · rintro ⟨full, hfull, hmem⟩
          have hleft : y ∈ full.erase x := by
            simpa [Ne.symm hy] using hmem
          exact ⟨full.erase x, ⟨full, hfull, rfl, y, hleft⟩, hleft⟩
    · simp only [ht, if_false]
      rw [h.mem t y]
      by_cases hy : y = x
      · subst hy
        simp [hx, ht]
      · simp [hy]
  · intro t bucket hbucket
    rw [getElem?_unfile] at hbucket
    split at hbucket
    · obtain ⟨-, -, -, hsome⟩ := (withdraw_eq_some_iff x _ bucket).mp hbucket
      exact hsome
    · exact h.tidy t bucket hbucket

/-- Buckets are determined by what is filed in them. -/
theorem Files.unique {other : Buckets subject} (h : buckets.Files chain)
    (hother : other.Files chain) : buckets = other := by
  apply Std.ExtTreeMap.ext_getElem?
  intro t
  have hmem : ∀ x, (∃ bucket, buckets[t]? = some bucket ∧ x ∈ bucket) ↔
      ∃ bucket, other[t]? = some bucket ∧ x ∈ bucket := by
    intro x
    rw [h.mem, hother.mem]
  cases hb : buckets[t]? with
  | none =>
      cases ho : other[t]? with
      | none => rfl
      | some bucket =>
          obtain ⟨x, hx⟩ := hother.tidy t bucket ho
          have := (hmem x).mpr ⟨bucket, ho, hx⟩
          simp [hb] at this
  | some bucket =>
      cases ho : other[t]? with
      | none =>
          obtain ⟨x, hx⟩ := h.tidy t bucket hb
          have := (hmem x).mp ⟨bucket, hb, hx⟩
          simp [ho] at this
      | some bucket' =>
          congr 1
          ext x
          simpa [hb, ho] using hmem x

end Buckets

namespace Index

/--
An index shows a diagram: its maps hold the members and the ends of the edges, each member is filed
under the types of its chain, and each node has the edges that leave it and those that reach it.
-/
structure Represents (index : Index) (g : Diagram) : Prop where
  nodes : index.nodes = g.nodes
  edges : ∀ id : EdgeId, index.edges[id]? = g.wires[id]?.map Wire.edge
  nodesByType : index.nodesByType.Files fun id => g.nodes[id]?.map fun n => n.type.ancestors
  edgesByType : index.edgesByType.Files fun id => g.wires[id]?.map fun w => w.edge.type.ancestors
  ends : ∀ id : EdgeId, index.ends[id]? = g.wires[id]?.map Wire.ends
  incidence : ∀ id : NodeId, id ∈ index.incidence ↔ id ∈ g.nodes
  outgoing : ∀ (id : NodeId) (i : Incidence), index.incidence[id]? = some i →
    ∀ e, e ∈ i.outgoing ↔ ∃ w, g.wires[e]? = some w ∧ w.ends.source = id
  incoming : ∀ (id : NodeId) (i : Incidence), index.incidence[id]? = some i →
    ∀ e, e ∈ i.incoming ↔ ∃ w, g.wires[e]? = some w ∧ w.ends.target = id

theorem represents_empty : Index.empty.Represents .empty := by
  constructor <;> simp [Index.empty, Diagram.empty]
  all_goals
    constructor <;> simp

/-- The neighbourhoods after an edge has been entered at both of its ends. -/
theorem getElem?_attachEnds (edge : EdgeId) (ends : Ends)
    (incidence : Std.ExtTreeMap NodeId Incidence)
    (hsource : incidence[ends.source]?.isSome = true)
    (htarget : incidence[ends.target]?.isSome = true) (id : NodeId) :
    ((incidence.alter ends.source fun i =>
        let i := i.getD .empty
        some { i with outgoing := i.outgoing.insert edge }).alter ends.target fun i =>
        let i := i.getD .empty
        some { i with incoming := i.incoming.insert edge })[id]? =
      incidence[id]?.map fun i : Incidence =>
        Incidence.mk (if ends.source = id then i.outgoing.insert edge else i.outgoing)
          (if ends.target = id then i.incoming.insert edge else i.incoming) := by
  obtain ⟨s, hs⟩ := Option.isSome_iff_exists.mp hsource
  obtain ⟨t, ht⟩ := Option.isSome_iff_exists.mp htarget
  simp only [Std.ExtTreeMap.getElem?_alter, Std.LawfulEqCmp.compare_eq_iff_eq]
  by_cases hsid : ends.source = id
  · subst hsid
    by_cases htid : ends.target = ends.source
    · simp [htid, hs]
    · simp [htid, hs]
  · by_cases htid : ends.target = id
    · subst htid
      simp [hsid, ht]
    · simp [hsid, htid]

/-- The neighbourhoods after an edge has been taken out at both of its ends. -/
theorem getElem?_detachEnds (edge : EdgeId) (ends : Ends)
    (incidence : Std.ExtTreeMap NodeId Incidence) (id : NodeId) :
    (detachEnds edge ends incidence)[id]? =
      incidence[id]?.map fun i : Incidence =>
        Incidence.mk (if ends.source = id then i.outgoing.erase edge else i.outgoing)
          (if ends.target = id then i.incoming.erase edge else i.incoming) := by
  simp only [detachEnds, Std.ExtTreeMap.getElem?_modify, Std.LawfulEqCmp.compare_eq_iff_eq]
  by_cases hs : ends.source = id <;> by_cases ht : ends.target = id <;>
    cases hi : incidence[id]? <;> simp [hs, ht, hi]

/-- The values of a map at the keys that pass a test, in the order of the map. -/
theorem filterMap_getElem?_eq {subject : Subject} {β : Type}
    (m : Std.ExtTreeMap (Ident subject) β) (p : β → Bool) (keys : List (Ident subject))
    (hkeys : keys.Pairwise fun a b => compare a b = .lt)
    (hmem : ∀ k, k ∈ keys ↔ ∃ v, m[k]? = some v ∧ p v = true) :
    keys.filterMap (fun k => m[k]?) =
      (m.toList.filter fun entry => p entry.2).map Prod.snd := by
  let entries := m.toList.filter fun entry => p entry.2
  have hentries : ∀ entry ∈ entries, m[entry.1]? = some entry.2 := by
    intro entry hentry
    exact Std.ExtTreeMap.mem_toList_iff_getElem?_eq_some.mp (List.mem_filter.mp hentry).1
  have hsorted : (entries.map Prod.fst).Pairwise fun a b => compare a b = .lt := by
    rw [List.pairwise_map]
    exact (m.ordered_keys_toList).filter _
  have heq : keys = entries.map Prod.fst := by
    have hnodup : ∀ xs : List (Ident subject),
        (xs.Pairwise fun a b => compare a b = .lt) → xs.Nodup := by
      intro xs hxs
      refine hxs.imp ?_
      rintro a b hab rfl
      simp at hab
    refine List.Perm.eq_of_pairwise ?_ hkeys hsorted
      ((List.perm_ext_iff_of_nodup (hnodup _ hkeys) (hnodup _ hsorted)).mpr ?_)
    · intro a b _ _ hab hba
      rw [Std.OrientedCmp.gt_of_lt hab] at hba
      simp at hba
    · intro k
      rw [hmem]
      simp only [List.mem_map, entries, List.mem_filter, Prod.exists,
        Std.ExtTreeMap.mem_toList_iff_getElem?_eq_some, exists_and_right, exists_eq_right]
  rw [heq, List.filterMap_map]
  have hpoint : ∀ entry ∈ entries,
      ((fun k => m[k]?) ∘ Prod.fst) entry = (some ∘ Prod.snd) entry :=
    hentries
  rw [List.filterMap_congr hpoint, List.filterMap_eq_map]

/-- The edges that a set names, if it names exactly the edges that pass a test. -/
theorem filterMap_wires_eq (g : Diagram) (ids : Std.ExtTreeSet EdgeId) (p : Wire → Bool)
    (hids : ∀ e, e ∈ ids ↔ ∃ w, g.wires[e]? = some w ∧ p w = true) :
    ids.toList.filterMap (fun id => g.wires[id]?.map Wire.edge) =
      (g.wires.toList.filter fun entry => p entry.2).map fun entry => entry.2.edge := by
  have hvalues := filterMap_getElem?_eq g.wires p ids.toList ids.ordered_toList
    (by simpa using hids)
  rw [← List.map_filterMap, hvalues, List.map_map]
  rfl

namespace Represents

variable {index other : Index} {g : Diagram}

/-- A diagram determines all six maps. -/
theorem unique (h : index.Represents g) (hother : other.Represents g) : index = other := by
  have hincidence : index.incidence = other.incidence := by
    apply Std.ExtTreeMap.ext_getElem?
    intro id
    have hmem : id ∈ index.incidence ↔ id ∈ other.incidence := by
      rw [h.incidence, hother.incidence]
    cases hi : index.incidence[id]? with
    | none =>
        rw [Std.ExtTreeMap.mem_iff_isSome_getElem?, hi] at hmem
        simpa [eq_comm] using hmem
    | some i =>
        rw [Std.ExtTreeMap.mem_iff_isSome_getElem?, hi] at hmem
        obtain ⟨j, hj⟩ := Option.isSome_iff_exists.mp
          (Std.ExtTreeMap.mem_iff_isSome_getElem?.mp (hmem.mp rfl))
        rw [hj]
        have hout : i.outgoing = j.outgoing := by
          ext e
          rw [h.outgoing id i hi, hother.outgoing id j hj]
        have hin : i.incoming = j.incoming := by
          ext e
          rw [h.incoming id i hi, hother.incoming id j hj]
        cases i
        cases j
        simp_all
  have hedges : index.edges = other.edges := by
    apply Std.ExtTreeMap.ext_getElem?
    intro id
    rw [h.edges, hother.edges]
  have hends : index.ends = other.ends := by
    apply Std.ExtTreeMap.ext_getElem?
    intro id
    rw [h.ends, hother.ends]
  have hnodes : index.nodes = other.nodes := h.nodes.trans hother.nodes.symm
  have hnodesByType := h.nodesByType.unique hother.nodesByType
  have hedgesByType := h.edgesByType.unique hother.edgesByType
  cases index
  cases other
  simp_all

theorem mem_edges (h : index.Represents g) (id : EdgeId) : id ∈ index.edges ↔ id ∈ g.wires := by
  rw [Std.ExtTreeMap.mem_iff_isSome_getElem?, Std.ExtTreeMap.mem_iff_isSome_getElem?, h.edges,
    Option.isSome_map]

/-- What the neighbourhood of a node holds; a node outside the graph has none. -/
theorem mem_incidenceOf (h : index.Represents g) (id : NodeId) (e : EdgeId) :
    (e ∈ (index.incidenceOf id).outgoing ↔ ∃ w, g.wires[e]? = some w ∧ w.ends.source = id) ∧
      (e ∈ (index.incidenceOf id).incoming ↔ ∃ w, g.wires[e]? = some w ∧ w.ends.target = id) := by
  unfold incidenceOf
  rw [Std.ExtTreeMap.getD_eq_getD_getElem?]
  cases hi : index.incidence[id]? with
  | some i => exact ⟨h.outgoing id i hi e, h.incoming id i hi e⟩
  | none =>
      have habsent : id ∉ g.nodes := by
        rw [← h.incidence, Std.ExtTreeMap.mem_iff_isSome_getElem?, hi]
        simp
      have hnone : ∀ w, g.wires[e]? = some w → w.ends.source ≠ id ∧ w.ends.target ≠ id := by
        intro w hw
        obtain ⟨hs, ht⟩ := g.closed e w hw
        exact ⟨fun heq => habsent (heq ▸ hs), fun heq => habsent (heq ▸ ht)⟩
      simp only [Option.getD_none, Incidence.empty, Std.ExtTreeSet.not_mem_empty, false_iff,
        not_exists, not_and]
      exact ⟨fun w hw => (hnone w hw).1, fun w hw => (hnone w hw).2⟩

theorem mem_all_incidenceOf (h : index.Represents g) (id : NodeId) (e : EdgeId) :
    e ∈ (index.incidenceOf id).all ↔ ∃ w, g.wires[e]? = some w ∧ w.ends.touch id = true := by
  rw [Incidence.all, Std.ExtTreeSet.mem_union_iff, (h.mem_incidenceOf id e).1,
    (h.mem_incidenceOf id e).2, ← exists_or]
  simp only [← and_or_left, Ends.touch, Bool.or_eq_true, beq_iff_eq]

/-- Adding a node. -/
theorem insertNode (h : index.Represents g) (n : Node) (hn : n.id ∉ g.nodes) :
    (index.insertNode n).1 = true ∧ (index.insertNode n).2.Represents (g.addNode n) := by
  have hnot : ¬index.nodes.contains n.id = true := by
    rw [← Std.ExtTreeMap.mem_iff_contains, h.nodes]
    exact hn
  have hget : g.nodes[n.id]? = none := Std.ExtTreeMap.getElem?_eq_none hn
  have hfree : n.id ∉ index.incidence := by
    rwa [h.incidence]
  have hunwired : ∀ (e : EdgeId) (w : Wire), g.wires[e]? = some w →
      w.ends.source ≠ n.id ∧ w.ends.target ≠ n.id := by
    intro e w hw
    obtain ⟨hs, ht⟩ := g.closed e w hw
    exact ⟨fun heq => hn (heq ▸ hs), fun heq => hn (heq ▸ ht)⟩
  have hincidence : ∀ id : NodeId,
      (index.incidence.insertIfNew n.id Incidence.empty)[id]? =
        if id = n.id then some .empty else index.incidence[id]? := by
    intro id
    rw [Std.ExtTreeMap.getElem?_insertIfNew]
    by_cases hid : id = n.id
    · subst hid
      simp [hfree]
    · simp [hid, Ne.symm hid]
  rw [Index.insertNode, if_neg hnot]
  refine ⟨rfl, ?_⟩
  constructor
  · simp [Diagram.addNode, h.nodes]
  · exact h.edges
  · have := h.nodesByType.file n.id (by simp [hget]) n.type.ancestors
    convert this using 2 with id
    rw [Diagram.addNode, getElem?_insert_eq]
    by_cases hid : id = n.id
    · simp [hid]
    · simp [hid]
  · exact h.edgesByType
  · exact h.ends
  · intro id
    simp [Diagram.addNode, h.incidence]
  · intro id i hi e
    rw [hincidence] at hi
    split at hi
    · rename_i hid
      rw [← Option.some.inj hi, hid]
      simp only [Incidence.empty, Std.ExtTreeSet.not_mem_empty, false_iff, not_exists, not_and]
      exact fun w hw => (hunwired e w hw).1
    · exact h.outgoing id i hi e
  · intro id i hi e
    rw [hincidence] at hi
    split at hi
    · rename_i hid
      rw [← Option.some.inj hi, hid]
      simp only [Incidence.empty, Std.ExtTreeSet.not_mem_empty, false_iff, not_exists, not_and]
      exact fun w hw => (hunwired e w hw).2
    · exact h.incoming id i hi e

/-- Adding an edge between two nodes. -/
theorem insertEdge (h : index.Represents g) (e : Edge) (ends : Ends) (he : e.id ∉ g.wires)
    (hends : ends.source ∈ g.nodes ∧ ends.target ∈ g.nodes) :
    ∃ index', index.insertEdge e ends = .ok (true, index') ∧
      index'.Represents (g.addEdge e ends hends) := by
  have hnot : ¬index.edges.contains e.id = true := by
    rw [← Std.ExtTreeMap.mem_iff_contains, h.mem_edges]
    exact he
  have hindexed : index.nodes.contains ends.source = true ∧
      index.nodes.contains ends.target = true := by
    rw [← Std.ExtTreeMap.mem_iff_contains, ← Std.ExtTreeMap.mem_iff_contains, h.nodes]
    exact hends
  have hget : g.wires[e.id]? = none := Std.ExtTreeMap.getElem?_eq_none he
  have hwires : ∀ id : EdgeId, (g.addEdge e ends hends).wires[id]? =
      if id = e.id then some ⟨e, ends⟩ else g.wires[id]? :=
    fun id => getElem?_insert_eq g.wires e.id id ⟨e, ends⟩
  have hpresent : ∀ id ∈ g.nodes, index.incidence[id]?.isSome = true := by
    intro id hid
    rwa [← Std.ExtTreeMap.mem_iff_isSome_getElem?, h.incidence]
  have hlookup := getElem?_attachEnds e.id ends index.incidence
    (hpresent _ hends.1) (hpresent _ hends.2)
  refine ⟨_, by rw [Index.insertEdge, if_neg hnot, if_pos hindexed], ?_⟩
  constructor
  · exact h.nodes
  · intro id
    rw [hwires, getElem?_insert_eq]
    by_cases hid : id = e.id
    · simp [hid]
    · simp [hid, h.edges]
  · exact h.nodesByType
  · have := h.edgesByType.file e.id (by simp [hget]) e.type.ancestors
    convert this using 2 with id
    rw [hwires]
    by_cases hid : id = e.id
    · simp [hid]
    · simp [hid]
  · intro id
    rw [hwires, getElem?_insert_eq]
    by_cases hid : id = e.id
    · simp [hid]
    · simp [hid, h.ends]
  · intro id
    rw [Std.ExtTreeMap.mem_iff_isSome_getElem?, hlookup, Option.isSome_map,
      ← Std.ExtTreeMap.mem_iff_isSome_getElem?]
    exact h.incidence id
  · intro id i hi x
    rw [hlookup, Option.map_eq_some_iff] at hi
    obtain ⟨j, hj, rfl⟩ := hi
    rw [hwires]
    by_cases hx : x = e.id
    · subst hx
      by_cases hid : ends.source = id
      · simp [hid]
      · simp [hid, h.outgoing id j hj, hget]
    · by_cases hid : ends.source = id
      · simp [hid, hx, Ne.symm hx, h.outgoing id j hj]
      · simp [hid, hx, h.outgoing id j hj]
  · intro id i hi x
    rw [hlookup, Option.map_eq_some_iff] at hi
    obtain ⟨j, hj, rfl⟩ := hi
    rw [hwires]
    by_cases hx : x = e.id
    · subst hx
      by_cases hid : ends.target = id
      · simp [hid]
      · simp [hid, h.incoming id j hj, hget]
    · by_cases hid : ends.target = id
      · simp [hid, hx, Ne.symm hx, h.incoming id j hj]
      · simp [hid, hx, h.incoming id j hj]

/-- Removing an edge. -/
theorem removeEdge (h : index.Represents g) (id : EdgeId) :
    (g.wires[id]? = none ∧ index.removeEdge id = none) ∨
      ∃ w index', g.wires[id]? = some w ∧ index.removeEdge id = some (w.edge, index') ∧
        index'.Represents (g.dropEdge id) := by
  cases hw : g.wires[id]? with
  | none =>
      left
      simp [Index.removeEdge, h.edges, hw]
  | some w =>
      right
      have hwires := g.getElem?_dropEdge id
      refine ⟨w, _, rfl, by simp only [Index.removeEdge, h.edges, hw, Option.map_some]; rfl, ?_⟩
      have hends : index.ends[id]? = some w.ends := by
        rw [h.ends, hw]
        rfl
      simp only [hends]
      constructor
      · exact h.nodes
      · intro x
        rw [hwires, getElem?_erase_eq]
        by_cases hx : x = id
        · simp [hx]
        · simp [hx, h.edges]
      · exact h.nodesByType
      · have := h.edgesByType.unfile id w.edge.type.ancestors (by simp [hw])
        convert this using 2 with x
        rw [hwires]
        by_cases hx : x = id
        · simp [hx]
        · simp [hx]
      · intro x
        rw [hwires, getElem?_erase_eq]
        by_cases hx : x = id
        · simp [hx]
        · simp [hx, h.ends]
      · intro n
        rw [Std.ExtTreeMap.mem_iff_isSome_getElem?, getElem?_detachEnds, Option.isSome_map,
          ← Std.ExtTreeMap.mem_iff_isSome_getElem?]
        exact h.incidence n
      · intro n i hi x
        rw [getElem?_detachEnds, Option.map_eq_some_iff] at hi
        obtain ⟨j, hj, rfl⟩ := hi
        rw [hwires]
        by_cases hx : x = id
        · subst hx
          by_cases hn : w.ends.source = n
          · simp [hn]
          · simp [hn, h.outgoing n j hj, hw]
        · by_cases hn : w.ends.source = n
          · simp [hn, hx, Ne.symm hx, h.outgoing n j hj]
          · simp [hn, hx, h.outgoing n j hj]
      · intro n i hi x
        rw [getElem?_detachEnds, Option.map_eq_some_iff] at hi
        obtain ⟨j, hj, rfl⟩ := hi
        rw [hwires]
        by_cases hx : x = id
        · subst hx
          by_cases hn : w.ends.target = n
          · simp [hn]
          · simp [hn, h.incoming n j hj, hw]
        · by_cases hn : w.ends.target = n
          · simp [hn, hx, Ne.symm hx, h.incoming n j hj]
          · simp [hn, hx, h.incoming n j hj]

/-- Removing several edges. -/
theorem removeEdges (h : index.Represents g) (ids : List EdgeId) (hids : ids.Nodup) :
    (index.removeEdges ids).1 = ids.filterMap (fun id => g.wires[id]?.map Wire.edge) ∧
      (index.removeEdges ids).2.Represents (g.keepWires fun e _ => !ids.contains e) := by
  induction ids generalizing index g with
  | nil =>
      refine ⟨rfl, ?_⟩
      rw [g.keepWires_nil]
      exact h
  | cons id ids ih =>
      obtain ⟨hid, hids⟩ := List.nodup_cons.mp hids
      have hkeep := g.keepWires_dropEdge id ids
      have hrest : ids.filterMap (fun e => (g.dropEdge id).wires[e]?.map Wire.edge) =
          ids.filterMap fun e => g.wires[e]?.map Wire.edge := by
        apply List.filterMap_congr
        intro e he
        have hne : e ≠ id := fun heq => hid (heq ▸ he)
        rw [Diagram.getElem?_dropEdge, if_neg hne]
      rcases h.removeEdge id with ⟨hw, hnone⟩ | ⟨w, index', hw, hsome, hindex'⟩
      · have hsame := g.dropEdge_of_getElem?_eq_none hw
        simp only [Index.removeEdges, hnone, List.filterMap_cons, hw, Option.map_none]
        rw [← hkeep, hsame]
        exact ih h hids
      · obtain ⟨hedges, hindex⟩ := ih hindex' hids
        simp only [Index.removeEdges, hsome, List.filterMap_cons, hw, Option.map_some]
        rw [hedges, hrest, ← hkeep]
        exact ⟨rfl, hindex⟩

/-- Removing a node with its edges. -/
theorem removeNode (h : index.Represents g) (id : NodeId) :
    (g.nodes[id]? = none ∧ index.removeNode id = none) ∨
      ∃ n index', g.nodes[id]? = some n ∧
        index.removeNode id = some (n, g.edgesAt id, index') ∧
        index'.Represents (g.dropNode id) := by
  cases hn : g.nodes[id]? with
  | none =>
      left
      simp [Index.removeNode, h.nodes, hn]
  | some n =>
      right
      let ids := (index.incidenceOf id).all
      have hids : ∀ e, e ∈ ids ↔ ∃ w, g.wires[e]? = some w ∧ w.ends.touch id = true :=
        h.mem_all_incidenceOf id
      have hdistinct : ids.toList.Nodup := by
        refine ids.distinct_toList.imp ?_
        rintro a b hab rfl
        simp at hab
      obtain ⟨hedges, hrest⟩ := h.removeEdges ids.toList hdistinct
      rw [filterMap_wires_eq g ids _ hids] at hedges
      -- what is left of the wires once the edges at the node are gone
      have hwires : ∀ e : EdgeId,
          (g.keepWires fun e _ => !ids.toList.contains e).wires[e]? =
            (g.dropNode id).wires[e]? := by
        intro e
        rw [Diagram.getElem?_keepWires, Diagram.dropNode, Std.ExtTreeMap.getElem?_filter']
        cases hw : g.wires[e]? with
        | none => rfl
        | some w =>
            have htouch : e ∈ ids ↔ w.ends.touch id = true := by
              simp [hids, hw]
            simp [Option.filter, htouch]
      refine ⟨n, _, rfl, by
        rw [Index.removeNode, h.nodes, hn, Option.map_some]
        simp only
        rw [hedges]
        rfl, ?_⟩
      constructor
      · have hnodes : (index.removeEdges ids.toList).2.nodes = g.nodes := hrest.nodes
        change (index.removeEdges ids.toList).2.nodes.erase id = g.nodes.erase id
        rw [hnodes]
      · intro e
        rw [← hwires]
        exact hrest.edges e
      · have := hrest.nodesByType.unfile id n.type.ancestors
          (by simp [Diagram.keepWires, hn])
        convert this using 2 with m
        rw [Diagram.dropNode, getElem?_erase_eq]
        by_cases hm : m = id
        · simp [hm]
        · simp [hm, Diagram.keepWires]
      · have := hrest.edgesByType
        convert this using 2 with e
        rw [← hwires]
      · intro e
        rw [← hwires]
        exact hrest.ends e
      · intro m
        have := hrest.incidence m
        simp only [Diagram.dropNode, Std.ExtTreeMap.mem_erase]
        rw [this]
        simp [Diagram.keepWires]
      · intro m i hi e
        rw [← hwires]
        exact hrest.outgoing m i (of_getElem?_erase hi).2 e
      · intro m i hi e
        rw [← hwires]
        exact hrest.incoming m i (of_getElem?_erase hi).2 e

/-- The nodes filed under a type are those whose types descend from it. -/
theorem nodesOfType_eq (h : index.Represents g) (t : TypeId) :
    index.nodesOfType t = g.nodeList.filter fun n => n.type.ancestors.contains t := by
  have hmem : ∀ id, id ∈ index.nodesByType.under t ↔
      ∃ n, g.nodes[id]? = some n ∧ n.type.ancestors.contains t = true := by
    intro id
    rw [Buckets.mem_under, h.nodesByType.mem]
    cases g.nodes[id]? <;> simp
  rw [Index.nodesOfType, h.nodes,
    filterMap_getElem?_eq g.nodes _ _ (index.nodesByType.ordered_under t) hmem,
    Diagram.nodeList, List.filter_map]
  rfl

/-- The edges filed under a type are those whose types descend from it. -/
theorem edgesOfType_eq (h : index.Represents g) (t : TypeId) :
    index.edgesOfType t = g.edgeList.filter fun e => e.type.ancestors.contains t := by
  have hmem : ∀ id, id ∈ index.edgesByType.under t ↔
      ∃ w, g.wires[id]? = some w ∧ w.edge.type.ancestors.contains t = true := by
    intro id
    rw [Buckets.mem_under, h.edgesByType.mem]
    cases g.wires[id]? <;> simp
  have hvalues :=
    filterMap_getElem?_eq g.wires _ _ (index.edgesByType.ordered_under t) hmem
  simp only [Index.edgesOfType, h.edges]
  rw [← List.map_filterMap, hvalues, Diagram.edgeList, List.filter_map, List.map_map]
  rfl

/-- Every operation does the same to an index and to the diagram behind it. -/
theorem apply (h : index.Represents g) (op : Operation) :
    (index.apply op).1 = (g.apply op).1 ∧ (index.apply op).2.Represents (g.apply op).2 := by
  cases op with
  | insertNode n =>
      by_cases hn : n.id ∈ g.nodes
      · have hindexed : index.nodes.contains n.id = true := by
          rwa [← Std.ExtTreeMap.mem_iff_contains, h.nodes]
        simp only [Index.apply, Index.insertNode, hindexed, if_true, Diagram.apply, hn]
        exact ⟨trivial, h⟩
      · obtain ⟨habsent, hindex⟩ := h.insertNode n hn
        simp only [Index.apply, Diagram.apply, hn, if_false, habsent]
        exact ⟨trivial, hindex⟩
  | insertEdge e ends =>
      by_cases he : e.id ∈ g.wires
      · have hindexed : index.edges.contains e.id = true := by
          rwa [← Std.ExtTreeMap.mem_iff_contains, h.mem_edges]
        simp only [Index.apply, Index.insertEdge, hindexed, if_true, Diagram.apply, he]
        exact ⟨trivial, h⟩
      · by_cases hends : ends.source ∈ g.nodes ∧ ends.target ∈ g.nodes
        · obtain ⟨index', hinsert, hindex'⟩ := h.insertEdge e ends he hends
          simp only [Index.apply, hinsert, Diagram.apply, he, if_false, hends, and_self, dif_pos]
          exact ⟨trivial, hindex'⟩
        · have habsent : ¬index.edges.contains e.id = true := by
            rwa [← Std.ExtTreeMap.mem_iff_contains, h.mem_edges]
          have hloose : ¬(index.nodes.contains ends.source = true ∧
              index.nodes.contains ends.target = true) := by
            rwa [← Std.ExtTreeMap.mem_iff_contains, ← Std.ExtTreeMap.mem_iff_contains, h.nodes]
          simp only [Index.apply, Index.insertEdge, if_neg habsent, if_neg hloose, Diagram.apply,
            he, if_false, hends, dif_neg, not_false_eq_true]
          exact ⟨trivial, h⟩
  | removeEdge id =>
      rcases h.removeEdge id with ⟨hw, hnone⟩ | ⟨w, index', hw, hsome, hindex'⟩
      · have hsame := g.dropEdge_of_getElem?_eq_none hw
        simp only [Index.apply, hnone, Diagram.apply, hw, Option.map_none, hsame]
        exact ⟨trivial, h⟩
      · simp only [Index.apply, hsome, Diagram.apply, hw, Option.map_some]
        exact ⟨trivial, hindex'⟩
  | removeNode id =>
      rcases h.removeNode id with ⟨hn, hnone⟩ | ⟨n, index', hn, hsome, hindex'⟩
      · have hfree := g.dropNode_of_getElem?_eq_none hn
        simp only [Index.apply, hnone, Diagram.apply, hn, Option.map_none, hfree]
        exact ⟨trivial, h⟩
      · simp only [Index.apply, hsome, Diagram.apply, hn, Option.map_some]
        exact ⟨trivial, hindex'⟩

theorem run (h : index.Represents g) (ops : List Operation) :
    (index.run ops).1 = (g.run ops).1 ∧ (index.run ops).2.Represents (g.run ops).2 := by
  induction ops generalizing index g with
  | nil => exact ⟨rfl, h⟩
  | cons op ops ih =>
      obtain ⟨hreport, hstep⟩ := h.apply op
      obtain ⟨hreports, hrun⟩ := ih hstep
      simp only [Index.run, Diagram.run]
      rw [hreport, hreports]
      exact ⟨rfl, hrun⟩

end Represents

theorem after_represents (ops : List Operation) :
    (after ops).Represents (Diagram.after ops) :=
  (represents_empty.run ops).2

/--
An index and a diagram that undergo the same changes report the same, and the index shows the
diagram, which determines it.  Listing by type gives the members whose types descend from the given
one, and these as well as the edges at a node come in order of creation.
-/
theorem run_refines_diagram (ops : List Operation) :
    (empty.run ops).1 = (Diagram.empty.run ops).1 ∧
      (after ops).Represents (Diagram.after ops) ∧
      (∀ index, index.Represents (Diagram.after ops) → index = after ops) ∧
      (∀ t : NodeType, (after ops).nodesOfType t.id =
        (Diagram.after ops).nodeList.filter fun n => n.type.isA t) ∧
      (∀ t : EdgeType, (after ops).edgesOfType t.id =
        (Diagram.after ops).edgeList.filter fun e => e.type.isA t) ∧
      ((Diagram.after ops).nodeList.Pairwise fun m n => m.id.number < n.id.number) ∧
      ((Diagram.after ops).edgeList.Pairwise fun d e => d.id.number < e.id.number) ∧
      ∀ n, ((Diagram.after ops).edgesAt n).Pairwise fun d e => d.id.number < e.id.number := by
  have h := after_represents ops
  refine ⟨(represents_empty.run ops).1, h, fun index hindex => hindex.unique h, ?_, ?_,
    Diagram.ordered_nodeList _, Diagram.ordered_edgeList _, Diagram.ordered_edgesAt _⟩
  · intro t
    exact h.nodesOfType_eq t.id
  · intro t
    exact h.edgesOfType_eq t.id

end Index

end PatternGraph
