import PatternGraph.Proofs.Index.Refinement
import PatternGraph.Proofs.Query.Lowered
import PatternGraph.Proofs.Query.Satisfaction
import PatternGraph.Proofs.Query.Scattering

/-!
# The matches of a query

The slots of a query that compiles are well-formed, so its plan finds all assignments that satisfy
the slots, and finds each of them once.
-/

namespace PatternGraph

/-- Planning changes nothing about a plan, and only checks it. -/
theorem Plan.eq_ofSlots_of_make {s : Slots} {plan : Plan} (h : Plan.make s = .ok plan) :
    plan = Plan.ofSlots s := by
  unfold Plan.make at h
  split at h
  · cases h
  · exact (Except.ok.inj h).symm

namespace Query

variable {types : List ItemType} {query : Query} {s : Slots} {tags : List Place}

/-- A place that something is said about has a slot. -/
theorem LowersTo.slot_of_subject
    {clause : Clause Place}
    (h : query.LowersTo types s tags)
    (hclause : clause ∈ query.clauses.flatMap Clause.expand) :
    ∃ (i : Nat) (slot : Slot), tags[i]? = some clause.subject ∧ s.slots[i]? = some slot ∧
      slot.Fits types tags (query.clauses.flatMap Clause.expand) clause.subject := by
  obtain ⟨i, hi⟩ := List.mem_iff_getElem?.mp (h.subjects clause hclause)
  have hlt : i < s.slots.size := by
    rw [← h.length]
    exact (List.getElem?_eq_some_iff.mp hi).1
  have hslot : s.slots[i]? = some s.slots[i] := Array.getElem?_eq_getElem hlt
  exact ⟨i, _, hi, hslot, h.fits i _ _ hslot hi⟩

/-- A place has a slot, and the slot has the kind that is said of the place. -/
theorem LowersTo.slot_of_member
    {place : Place}
    {kind : Kind}
    (h : query.LowersTo types s tags)
    (hmember : .member place kind ∈ query.clauses.flatMap Clause.expand) :
    ∃ (i : Nat) (slot : Slot), tags[i]? = some place ∧ s.slots[i]? = some slot ∧
      slot.kind.itemKind = some kind := by
  obtain ⟨i, slot, hi, hslot, hfits⟩ := h.slot_of_subject hmember
  exact ⟨i, slot, hi, hslot, (hfits.kind kind).mpr hmember⟩

theorem LowersTo.exists_tag
    {i : Nat}
    {slot : Slot}
    (h : query.LowersTo types s tags)
    (hslot : s.slots[i]? = some slot) :
    ∃ place, tags[i]? = some place ∧
      slot.Fits types tags (query.clauses.flatMap Clause.expand) place := by
  have hlt : i < tags.length := by
    rw [h.length]
    exact (Array.getElem?_eq_some_iff.mp hslot).1
  have htag : tags[i]? = some tags[i] := List.getElem?_eq_getElem hlt
  exact ⟨_, htag, h.fits i slot _ hslot htag⟩

theorem LowersTo.index_unique
    {i j : Nat}
    {place : Place}
    (h : query.LowersTo types s tags)
    (hi : tags[i]? = some place)
    (hj : tags[j]? = some place) :
    i = j :=
  List.getElem?_inj (List.getElem?_eq_some_iff.mp hi).1 h.nodup |>.mp (hi.trans hj.symm)

/-- The places in which the slots are shown are those of the query, each of them once. -/
theorem LowersTo.placed (h : query.LowersTo types s tags) : s.Placed := by
  have houtputs : s.slots.toList.map Slot.outputs =
      tags.map (query.vars.map Place.var).positionsOf := by
    refine List.ext_getElem? fun i => ?_
    rw [List.getElem?_map, List.getElem?_map, Array.getElem?_toList]
    cases hslot : s.slots[i]? with
    | none =>
        have htag : tags[i]? = none := by
          rw [List.getElem?_eq_none_iff, h.length]
          exact Array.getElem?_eq_none_iff.mp hslot
        rw [htag]
        rfl
    | some slot =>
        obtain ⟨place, htag, -⟩ := h.exists_tag hslot
        rw [htag, Option.map_some, Option.map_some, h.shown i slot place hslot htag]
  have hopened : ∀ place ∈ (query.vars.map Place.var).values, place ∈ tags := by
    intro place hplace
    obtain ⟨v, hv, rfl⟩ := List.mem_map.mp hplace
    exact h.opened v hv
  rw [Slots.Placed, h.shape, List.flatMap_def, houtputs, ← List.flatMap_def]
  exact Layout.perm_positionsOf h.nodup hopened

/-- What a place of the query speaks about is what the slot that is shown there is for. -/
theorem LowersTo.outputs (h : query.LowersTo types s tags) :
    s.outputs.values.map (fun i => tags[i]?) = query.vars.values.map fun v => some (.var v) := by
  refine List.ext_getElem? fun k => ?_
  rw [List.getElem?_map, List.getElem?_map]
  have hvalues : s.outputs.values[k]? =
      s.shape.positions[k]?.map fun q => s.slots.toList.findIdx (·.outputs.contains q) :=
    List.getElem?_map
  cases hposition : s.shape.positions[k]? with
  | none =>
      have hnone : query.vars.values[k]? = none := by
        rw [List.getElem?_eq_none_iff, query.vars.fits]
        rwa [h.shape, List.getElem?_eq_none_iff] at hposition
      rw [hvalues, hposition, hnone]
      rfl
  | some q =>
      obtain ⟨slot, hslot, hshown⟩ := h.placed.exists_slot (List.mem_of_getElem? hposition)
      rw [Array.getElem?_toList] at hslot
      obtain ⟨place, htag, -⟩ := h.exists_tag hslot
      rw [h.shown _ slot place hslot htag] at hshown
      have hvar := Layout.getElem?_of_mem_positionsOf hshown (h.shape ▸ hposition)
      obtain ⟨v, hv, rfl⟩ := Option.map_eq_some_iff.mp (List.getElem?_map.symm.trans hvar)
      rw [hvalues, hposition, hv, Option.map_some, Option.map_some, Option.map_some, htag]

/-- The slots of a query have a kind, and edge slots list node slots only. -/
theorem LowersTo.wellFormed (h : query.LowersTo types s tags) : s.WellFormed := by
  constructor
  · intro i hi
    have hslot : s.slots[i]? = some s.slots[i] := Array.getElem?_eq_getElem hi
    have hkind := h.settled _ (Array.mem_of_getElem? hslot)
    cases hcase : s.slots[i].kind with
    | unknown => exact absurd hcase hkind
    | node => exact Or.inl ⟨_, hslot, hcase⟩
    | edge => exact Or.inr ⟨_, hslot, hcase⟩
  · intro edge slot role hslot hkind node hnode
    obtain ⟨place, -, hfits⟩ := h.exists_tag hslot
    have hpartners := hfits.partners (by rw [hkind]; exact nofun) role
    have hmem := hpartners.subset (List.mem_map_of_mem hnode)
    obtain ⟨n, hn, htag⟩ := List.mem_map.mp hmem
    obtain ⟨hmember, -⟩ := h.played n place role (Clause.mem_players.mp hn)
    obtain ⟨j, other, hj, hother, hotherKind⟩ := h.slot_of_member hmember
    obtain rfl := h.index_unique htag.symm hj
    refine ⟨other, hother, ?_⟩
    cases hcase : other.kind with
    | node => rfl
    | edge =>
        rw [hcase] at hotherKind
        cases hotherKind
    | unknown =>
        rw [hcase] at hotherKind
        cases hotherKind

/-- What a compiled query consists of. -/
theorem of_compile {c : CompiledQuery} (h : query.compile = .ok c) :
    query.lower = .ok c.slots ∧ c.plan = Plan.ofSlots c.slots := by
  unfold compile at h
  cases hlower : query.lower with
  | error fault =>
      rw [hlower] at h
      cases h
  | ok s =>
      simp only [hlower, Except.bind, bind] at h
      cases hmake : Plan.make s with
      | error fault =>
          rw [hmake] at h
          cases h
      | ok plan =>
          rw [hmake] at h
          cases h
          exact ⟨rfl, Plan.eq_ofSlots_of_make hmake⟩

/-- Nothing depends on types when none are to be compared. -/
theorem exists_lowersTo (h : query.lower = .ok s) : ∃ tags, query.LowersTo [] s tags := by
  have hroot : (ItemType.root .edge).Mediates [] := nofun
  exact lower_lowersTo hroot (fun _ _ _ => nofun) h

theorem wellFormed_of_lower (h : query.lower = .ok s) : s.WellFormed := by
  obtain ⟨tags, htags⟩ := exists_lowersTo h
  exact htags.wellFormed

theorem wellFormed_of_compile {c : CompiledQuery} (h : query.compile = .ok c) :
    c.slots.WellFormed :=
  wellFormed_of_lower (of_compile h).1

/--
Whatever a graph holds, a compiled query finds exactly the assignments of members that satisfy its
slots, each of them once and without a fault.  Taking only the first ones gives a prefix of them.
-/
theorem compile_finds_satisfying
    {c : CompiledQuery}
    (h : query.compile = .ok c)
    (hsize : 0 < c.slots.size)
    (ops : List Index.Operation) :
    ∃ found, Matches.all c.slots c.plan (Index.after ops) = ⟨found, none⟩ ∧
      (∀ limit, Matches.first limit c.slots c.plan (Index.after ops) = ⟨found.take limit, none⟩) ∧
      found.Nodup ∧
      ∀ row, row ∈ found ↔ c.slots.Satisfies (Diagram.after ops) row := by
  rw [(of_compile h).2]
  exact (wellFormed_of_compile h).all_spec hsize (Index.after_represents ops)

theorem exists_of_compiles (query : Query) (p : CompiledQuery → Bool)
    (h : query.compile.toOption.any p = true) : ∃ c, query.compile = .ok c ∧ p c = true := by
  cases hcompile : query.compile with
  | error fault =>
      rw [hcompile] at h
      cases h
  | ok c =>
      rw [hcompile] at h
      exact ⟨c, rfl, h⟩

/-- A node that is joined with itself, on a graph with one self-loop. -/
theorem compile_finds_self_loop :
    ∃ c, compile (.single (.nodeFragment (.any (.root .node)) (some "a") []
        [(.joinedWith, .reference "a")])) = .ok c ∧ 0 < c.slots.size ∧
      ∃ found, Matches.all c.slots c.plan (Index.after
          [.insertNode ⟨⟨0⟩, .root .node⟩, .insertEdge ⟨⟨1⟩, .root .edge⟩ ⟨⟨0⟩, ⟨0⟩⟩]) = ⟨found, none⟩ ∧
        found.Nodup ∧ ∀ row, row ∈ found ↔ c.slots.Satisfies (Diagram.after
          [.insertNode ⟨⟨0⟩, .root .node⟩, .insertEdge ⟨⟨1⟩, .root .edge⟩ ⟨⟨0⟩, ⟨0⟩⟩]) row := by
  obtain ⟨c, hc, hsize⟩ := exists_of_compiles
    (.single (.nodeFragment (.any (.root .node)) (some "a") [] [(.joinedWith, .reference "a")]))
    (fun c => decide (0 < c.slots.size)) (by decide +kernel)
  have hsize := of_decide_eq_true hsize
  obtain ⟨found, hall, -, honce, hfound⟩ := compile_finds_satisfying hc hsize _
  exact ⟨c, hc, hsize, found, hall, honce, hfound⟩

end Query

end PatternGraph
