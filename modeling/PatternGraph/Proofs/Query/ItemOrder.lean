import PatternGraph.Proofs.Query.Answers
import PatternGraph.Proofs.Query.Correspondence
import PatternGraph.Proofs.Query.Naming
import PatternGraph.Proofs.Query.Reordering

/-!
# Lists of patterns in another order

Two lists of the same patterns, in different orders and with their relations in different orders,
are accepted or refused together, and have the same rows but for the order of the positions.
-/

namespace PatternGraph.Query

variable {n : Nat} {items items' : Fin n → Pattern} {π : Equiv.Perm (Fin n)}
  {g : Diagram}

theorem mem_parts_ofFn {part : Path × Pattern} : part ∈ (parts (.list (List.ofFn items))) ↔
    ∃ i : Fin n, part ∈ (items i).parts [(i : Nat)] := by
  have hwhole := Pattern.eq_flatMap_finRange
    (fun k items => (items.zipIdx k).flatMap fun entry => entry.1.parts [entry.2])
    (fun i p => p.parts [i]) (fun _ => rfl) (fun _ _ _ => by simp) items 0
  change part ∈ (List.ofFn items).zipIdx.flatMap (fun entry => entry.1.parts [entry.2]) ↔ _
  rw [hwhole]
  simp

theorem patternClauses_ofFn (names : List String) (items : Fin n → Pattern) :
    Lowering.patternClauses names (List.ofFn items) 0 =
      (List.finRange n).flatMap fun i : Fin n => (items i).clauses names [(i : Nat)] := by
  have hwhole := Pattern.eq_flatMap_finRange
    (fun k items => Lowering.patternClauses names items k) (fun i p => p.clauses names [i])
    (fun _ => rfl) (fun _ _ _ => by simp [Lowering.patternClauses]) items 0
  simpa using hwhole

/-- A list of items is a row if an assignment that meets the clauses gives it to the patterns. -/
theorem isRow_ofFn {g : Diagram} {row : Row} : IsRow (.list (List.ofFn items)) g row ↔
    ∃ σ, Means g (clauses (.list (List.ofFn items))) σ ∧
      row = .list (List.ofFn fun i : Fin n => σ ((items i).var [(i : Nat)])) := by
  refine exists_congr fun σ => and_congr_right fun _ => ?_
  have hlayout : (vars (.list (List.ofFn items))).map σ =
      .list (List.ofFn fun i : Fin n => σ ((items i).var [(i : Nat)])) := by
    refine Layout.eq_of_values (by simp [vars, Layout.map, Layout.list]) ?_
    refine List.ext_getElem (by simp [vars, Layout.map, Layout.list]) fun i hi hi' => ?_
    simp [vars, Layout.map, Layout.list]
  rw [hlayout]

section

variable (h : ∀ i, (items i).Reordered (items' (π i)))

include h

theorem reordered_symm (i : Fin n) : (items' i).Reordered (items (π.symm i)) := by
  simpa using (h (π.symm i)).symm

/-- Each part of one list is a part of the other one, reordered. -/
theorem exists_part {part : Path × Pattern} (hpart : part ∈ parts (.list (List.ofFn items))) :
    ∃ part' ∈ parts (.list (List.ofFn items')), part.2.Reordered part'.2 := by
  obtain ⟨i, hpart⟩ := mem_parts_ofFn.mp hpart
  obtain ⟨part', hpart', hpair⟩ := (h i).exists_part _ [(π i : Nat)] part hpart
  exact ⟨part', mem_parts_ofFn.mpr ⟨π i, hpart'⟩, hpair⟩

theorem names_subset : names (.list (List.ofFn items)) ⊆ names (.list (List.ofFn items')) := by
  intro x hx
  obtain ⟨part, hpart, hname⟩ := List.mem_filterMap.mp hx
  obtain ⟨part', hpart', hpair⟩ := exists_part h hpart
  exact List.mem_filterMap.mpr ⟨part', hpart', hpair.name?_eq.trans hname⟩

theorem nodeNames_subset :
    nodeNames (.list (List.ofFn items)) ⊆ nodeNames (.list (List.ofFn items')) := by
  intro x hx
  obtain ⟨part, hpart, huses⟩ := List.mem_flatMap.mp hx
  obtain ⟨part', hpart', hpair⟩ := exists_part h hpart
  exact List.mem_flatMap.mpr ⟨part', hpart', hpair.nodeUses_subset huses⟩

theorem placedNames_subset :
    placedNames (.list (List.ofFn items)) ⊆ placedNames (.list (List.ofFn items')) := by
  intro x hx
  obtain ⟨part, hpart, hplaced⟩ := List.mem_flatMap.mp hx
  obtain ⟨part', hpart', hpair⟩ := exists_part h hpart
  exact List.mem_flatMap.mpr ⟨part', hpart', hpair.placedUses_subset hplaced⟩

/-- The clauses of one list are those of the other one, renamed and in another order. -/
theorem exists_rename :
    ∃ ρ : Path → Path, Function.Injective ρ ∧
      (∀ i : Fin n, (items' (π i)).var [(π i : Nat)] = ((items i).var [(i : Nat)]).rename ρ) ∧
      (clauses (.list (List.ofFn items'))).Perm
        ((clauses (.list (List.ofFn items))).map (Clause.rename ρ)) := by
  choose inside hinside using fun i => (h i).exists_renames
  have hpath : ∀ (i : Fin n) q, Path.branch π inside (q ++ [(i : Nat)]) =
      inside i q ++ [(π i : Nat)] := fun i q => Path.branch_append q i
  have hperm : ∀ names names' : List String, (∀ x, x ∈ names' ↔ x ∈ names) →
      (Lowering.patternClauses names' (List.ofFn items') 0).Perm
        ((Lowering.patternClauses names (List.ofFn items) 0).map
          (Clause.rename (Path.branch π inside))) := by
    intro names names' hnames
    rw [patternClauses_ofFn, patternClauses_ofFn]
    exact Pattern.flatMap_finRange_perm π _ fun i =>
      (hinside i).perm names names' _ _ _ hnames (hpath i)
  have hedges : ∀ x, x ∈ edgeNames (.list (List.ofFn items')) ↔
      x ∈ edgeNames (.list (List.ofFn items)) :=
    mem_edgeNames_of_rename [] (fun _ => List.not_mem_nil) (hperm [] [] fun _ => Iff.rfl)
  refine ⟨Path.branch π inside, Path.branch_injective fun i => (hinside i).injective, fun i => ?_,
    hperm _ _ hedges⟩
  have hhere : Path.branch π inside [(i : Nat)] = [(π i : Nat)] := by
    simpa [(hinside i).nil] using hpath i []
  rw [← (h i).var_eq, hhere]

/-- A list meets the conditions that the list in another order meets. -/
theorem meets_of_reordered {condition : Condition}
    (hmeets : Meets (.list (List.ofFn items')) condition) :
    Meets (.list (List.ofFn items)) condition := by
  obtain ⟨ρ, hρ, -, hclauses⟩ := exists_rename h
  have hmem : ∀ clause ∈ clauses (.list (List.ofFn items)),
      clause.rename ρ ∈ clauses (.list (List.ofFn items')) :=
    fun clause hclause => hclauses.mem_iff.mpr (List.mem_map_of_mem hclause)
  cases condition with
  | names => exact fun x hx => hmeets x (names_subset h hx)
  | kinds =>
      refine ⟨fun part hpart => ?_, fun x hnode hedge => ?_⟩
      · obtain ⟨part', hpart', hpair⟩ := exists_part h hpart
        exact hpair.strayEdges_eq_nil (hmeets.1 part' hpart')
      · exact hmeets.2 x (nodeNames_subset h hnode)
          (mem_edgeNames_iff.mpr (hmem _ (mem_edgeNames_iff.mp hedge)))
  | types => exact fun x t u ht hu => hmeets x t u (hmem _ ht) (hmem _ hu)
  | instances => exact fun x a b ha hb => hmeets x a b (hmem _ ha) (hmem _ hb)
  | ends =>
      intro e
      have hperm := Clause.players_perm_relabel (Var.rename_injective hρ) hclauses e .endpoint
      rw [← List.length_map (Var.rename ρ), ← hperm.length_eq]
      exact hmeets _
  | places =>
      exact fun x hx => placedNames_subset (reordered_symm h) (hmeets x (names_subset h hx))

/-- A row of a list, put in another order, is a row of the list in that order. -/
theorem isRow_of_reordered {values : Fin n → Item}
    (hrow : IsRow (.list (List.ofFn items')) g (.list (List.ofFn values))) :
    IsRow (.list (List.ofFn items)) g (.list (List.ofFn (values ∘ π))) := by
  obtain ⟨ρ, hρ, hvars, hclauses⟩ := exists_rename h
  obtain ⟨σ, hσ, hrow⟩ := isRow_ofFn.mp hrow
  refine isRow_ofFn.mpr ⟨fun v => σ (v.rename ρ), hσ.of_rename hρ hclauses, ?_⟩
  have hvalues := List.ofFn_injective (congrArg Layout.values hrow)
  rw [hvalues]
  simp only [← hvars]
  rfl

theorem isRow_iff_of_reordered {values : Fin n → Item} :
    IsRow (.list (List.ofFn items')) g (.list (List.ofFn values)) ↔
      IsRow (.list (List.ofFn items)) g (.list (List.ofFn (values ∘ π))) := by
  refine ⟨isRow_of_reordered h, fun hrow => ?_⟩
  have hback := isRow_of_reordered (reordered_symm h) hrow
  rwa [Function.comp_assoc, Equiv.self_comp_symm, Function.comp_id] at hback

section

variable {v : Vocabulary} {types : List ItemType} (hv : v.Holds types)
  (htypes : ∀ x t, .isA x t ∈ clauses (.list (List.ofFn items)) → t ∈ types)

include htypes

/-- A list in another order mentions the same types. -/
theorem type_mem_of_reordered (x : Var) (t : ItemType)
    (ht : .isA x t ∈ clauses (.list (List.ofFn items'))) : t ∈ types := by
  obtain ⟨ρ, -, -, hclauses⟩ := exists_rename (reordered_symm h)
  exact htypes _ t (hclauses.mem_iff.mpr (List.mem_map_of_mem ht))

include hv

/-- A list is accepted if and only if the list in another order is. -/
theorem exists_lower_iff_of_reordered
    (hitems : ∀ a b, Mentions (.list (List.ofFn items)) a → Mentions (.list (List.ofFn items)) b →
      a.id = b.id → a = b) :
    (∃ s, lower (.list (List.ofFn items)) = .ok s) ↔
      ∃ s, lower (.list (List.ofFn items')) = .ok s := by
  have hmentions : ∀ a, Mentions (.list (List.ofFn items')) a → Mentions (.list (List.ofFn items)) a := by
    rintro a ⟨x, hx⟩
    obtain ⟨ρ, -, -, hclauses⟩ := exists_rename (reordered_symm h)
    exact ⟨_, hclauses.mem_iff.mpr (List.mem_map_of_mem hx)⟩
  rw [exists_lower_iff hv htypes hitems, exists_lower_iff hv (type_mem_of_reordered h htypes)
    fun a b ha hb => hitems a b (hmentions a ha) (hmentions b hb)]
  exact ⟨fun hmeets condition => meets_of_reordered (reordered_symm h) (hmeets condition),
    fun hmeets condition => meets_of_reordered h (hmeets condition)⟩

/-- Lists in different orders are lowered to the same slots under other numbers. -/
theorem corresponds_of_reordered
    {s s' : Slots}
    (hlower : lower (.list (List.ofFn items)) = .ok s)
    (hlower' : lower (.list (List.ofFn items')) = .ok s') :
    ∃ f, s.Corresponds types f s' ∧
      ∀ i : Fin n, s'.outputs.values[(π i : Nat)]? = s.outputs.values[(i : Nat)]?.map f := by
  obtain ⟨ρ, hρ, hvars, hclauses⟩ := exists_rename h
  have hroot := hv.mediates (hv.root_mem .edge)
  obtain ⟨tags, hlowers, hbears⟩ := lower_lowersTo_bears hroot
    (fun x t ht => hv.mediates (htypes x t ht)) hlower
  obtain ⟨tags', hlowers', hbears'⟩ := lower_lowersTo_bears hroot
    (fun x t ht => hv.mediates (type_mem_of_reordered h htypes x t ht)) hlower'
  obtain ⟨f, hcorresponds, hf⟩ := hlowers.exists_corresponds hv hρ hclauses hlowers' hbears hbears'
  refine ⟨f, hcorresponds, fun i => ?_⟩
  obtain ⟨j, hj, htag⟩ := hlowers.tag_of_output (j := (i : Nat)) (x := (items i).var [(i : Nat)])
    (by simp [vars, Layout.list])
  obtain ⟨j', hj', htag'⟩ := hlowers'.tag_of_output (j := (π i : Nat))
    (x := (items' (π i)).var [(π i : Nat)]) (by simp [vars, Layout.list])
  have hplace := hf j _ htag
  rw [Place.rename, ← hvars] at hplace
  rw [hj, hj', hlowers'.index_unique htag' hplace]
  rfl

/-- Lists in different orders have the same rows, each in the order of its list. -/
theorem rows_of_reordered
    {c c' : CompiledQuery}
    (hcompile : compile (.list (List.ofFn items)) = .ok c)
    (hcompile' : compile (.list (List.ofFn items')) = .ok c')
    (ops : List Index.Operation)
    (hmembers : ∀ item, (Diagram.after ops).Has item → item.type ∈ types) :
    ∃ rows rows', c.collect (Index.after ops) = .ok rows ∧ c'.collect (Index.after ops) = .ok rows' ∧
      (∀ row ∈ rows ++ rows', ∃ values : Fin n → Item, row = .list (List.ofFn values)) ∧
      ∀ values : Fin n → Item, .list (List.ofFn values) ∈ rows' ↔
        .list (List.ofFn (values ∘ π)) ∈ rows := by
  cases n with
  | zero =>
      exact ⟨[], [], collect_of_compile_empty hcompile rfl _, collect_of_compile_empty hcompile' rfl _,
        by simp, by simp⟩
  | succ n =>
      obtain ⟨rows, hcollect, -, hrows⟩ := collect_of_compile hv htypes hcompile
        (by simp [Layout.list]) (Index.after_represents ops) hmembers
      obtain ⟨rows', hcollect', -, hrows'⟩ := collect_of_compile hv (type_mem_of_reordered h htypes)
        hcompile' (by simp [Layout.list]) (Index.after_represents ops) hmembers
      refine ⟨rows, rows', hcollect, hcollect', fun row hrow => ?_, fun values => ?_⟩
      · rcases List.mem_append.mp hrow with hrow | hrow
        · obtain ⟨σ, -, hvalues⟩ := isRow_ofFn.mp ((hrows row).mp hrow)
          exact ⟨_, hvalues⟩
        · obtain ⟨σ, -, hvalues⟩ := isRow_ofFn.mp ((hrows' row).mp hrow)
          exact ⟨_, hvalues⟩
      · rw [hrows, hrows']
        exact isRow_iff_of_reordered h

end

end

end PatternGraph.Query
