import Mathlib.Logic.Equiv.Fin.Basic
import PatternGraph.Proofs.Query.Interpretation

/-!
# Renaming occurrences

Where in a query a pattern stands matters to what it means only so far as different patterns stand
in different places.  Clauses whose paths are renamed, one to one, mean the same of the renamed
variables, in whatever order they are.
-/

namespace PatternGraph

variable {ρ : Path → Path}

/-- The same variable when what is written at a path is written elsewhere. -/
def Var.rename (ρ : Path → Path) : Var → Var
  | name x => name x
  | item id => item id
  | occurrence path => occurrence (ρ path)

theorem Var.rename_injective (hρ : Function.Injective ρ) : Function.Injective (rename ρ) := by
  intro v w h
  cases v <;> cases w <;> simp_all [rename, hρ.eq_iff]

theorem Var.rename_eq_name {v : Var} {x : String} : v.rename ρ = name x ↔ v = name x := by
  cases v <;> simp [rename]

/-- The same place when what is written at a path is written elsewhere. -/
def Place.rename (ρ : Path → Path) : Place → Place
  | var v => var (v.rename ρ)
  | implied path => implied (ρ path)

theorem Place.rename_injective (hρ : Function.Injective ρ) : Function.Injective (rename ρ) := by
  intro p q h
  cases p <;> cases q <;> simp_all [rename, (Var.rename_injective hρ).eq_iff, hρ.eq_iff]

namespace Clause

section

variable {ν μ : Type} {f : ν → μ}

/-- The same clause about other variables, of relations written elsewhere. -/
def relabel (f : ν → μ) (ρ : Path → Path) : Clause ν → Clause μ
  | member x kind => member (f x) kind
  | same x item => same (f x) item
  | isA x type => isA (f x) type
  | isNot x type => isNot (f x) type
  | plays node edge role => plays (f node) (f edge) role
  | joined path a b role => joined (ρ path) (f a) (f b) role

theorem holds_relabel {g : Diagram} {σ : μ → Item} {clause : Clause ν} :
    (clause.relabel f ρ).Holds g σ ↔ clause.Holds g fun x => σ (f x) := by
  cases clause <;> exact Iff.rfl

theorem relabel_injective (hf : Function.Injective f) (hρ : Function.Injective ρ) :
    Function.Injective (relabel f ρ) := by
  intro clause clause' h
  cases clause <;> cases clause' <;> simp_all [relabel, hf.eq_iff, hρ.eq_iff]

/-- A clause about a variable comes from one about the variable that is relabelled to it. -/
theorem relabel_eq_iff {clause : Clause ν} {clause' : Clause μ} : clause.relabel f ρ = clause' ↔
    match clause' with
    | member y kind => ∃ x, f x = y ∧ clause = member x kind
    | same y item => ∃ x, f x = y ∧ clause = same x item
    | isA y type => ∃ x, f x = y ∧ clause = isA x type
    | isNot y type => ∃ x, f x = y ∧ clause = isNot x type
    | plays n e role => ∃ x y, f x = n ∧ f y = e ∧ clause = plays x y role
    | joined path a b role => ∃ q x y, ρ q = path ∧ f x = a ∧ f y = b ∧ clause = joined q x y role := by
  cases clause <;> cases clause' <;> simp [relabel]

variable [DecidableEq ν] [DecidableEq μ] {clauses : List (Clause ν)} {clauses' : List (Clause μ)}

/-- The players on a relabelled edge are the relabelled players. -/
theorem players_map_relabel (hf : Function.Injective f) (clauses : List (Clause ν)) (e : ν)
    (role : Role) : players (f e) role (clauses.map (relabel f ρ)) = (players e role clauses).map f := by
  rw [players, players, List.filterMap_map, List.map_filterMap]
  congr 1
  funext clause
  cases clause with
  | plays n e' role' =>
      by_cases hplays : e' = e ∧ role' = role
      · simp [relabel, hplays]
      · simp [relabel, hf.eq_iff, hplays]
  | member x kind => rfl
  | same x item => rfl
  | isA x type => rfl
  | isNot x type => rfl
  | joined path a b role' => rfl

/-- In what order relabelled clauses stand matters to the order of the players only. -/
theorem players_perm_relabel (hf : Function.Injective f)
    (hclauses : clauses'.Perm (clauses.map (relabel f ρ))) (e : ν) (role : Role) :
    (players (f e) role clauses').Perm ((players e role clauses).map f) := by
  rw [← players_map_relabel hf]
  exact hclauses.filterMap _

end

/-- The same clause when what is written at a path is written elsewhere. -/
def rename (ρ : Path → Path) : Clause Var → Clause Var :=
  relabel (Var.rename ρ) ρ

/-- Spelling out a renamed clause is renaming what the clause spells out. -/
theorem expand_rename (clause : Clause Var) :
    (clause.rename ρ).expand = clause.expand.map (relabel (Place.rename ρ) ρ) := by
  cases clause <;> rfl

theorem expand_perm_rename {clauses clauses' : List (Clause Var)}
    (hclauses : clauses'.Perm (clauses.map (rename ρ))) :
    (clauses'.flatMap expand).Perm ((clauses.flatMap expand).map (relabel (Place.rename ρ) ρ)) := by
  refine (hclauses.flatMap_right expand).trans (.of_eq ?_)
  rw [List.flatMap_map, List.map_flatMap]
  exact List.flatMap_congr fun clause _ => expand_rename clause

end Clause

/-- What meets renamed clauses meets the clauses, as an assignment to the renamed variables. -/
theorem Means.of_rename
    {g : Diagram}
    {σ : Var → Item}
    {clauses clauses' : List (Clause Var)}
    (hρ : Function.Injective ρ)
    (hclauses : clauses'.Perm (clauses.map (Clause.rename ρ)))
    (h : Means g clauses' σ) :
    Means g clauses fun v => σ (v.rename ρ) := by
  constructor
  · intro clause hclause
    exact Clause.holds_relabel.mp (h.each _ (hclauses.mem_iff.mpr (List.mem_map_of_mem hclause)))
  · intro e a b hplayers
    have hperm := Clause.players_perm_relabel (Var.rename_injective hρ) hclauses e .endpoint
    rw [hplayers, List.map_cons, List.map_cons, List.map_nil] at hperm
    rcases List.perm_pair.mp hperm with heq | heq
    · exact h.ends _ _ _ heq
    · exact (h.ends _ _ _ heq).symm

/-- What meets clauses is what an assignment that meets renamed clauses gives to renamed variables. -/
theorem Means.exists_rename
    {g : Diagram}
    {σ : Var → Item}
    {clauses clauses' : List (Clause Var)}
    (hρ : Function.Injective ρ)
    (hclauses : clauses'.Perm (clauses.map (Clause.rename ρ)))
    (h : Means g clauses σ) :
    ∃ σ', Means g clauses' σ' ∧ ∀ v, σ' (v.rename ρ) = σ v := by
  have : Nonempty Var := ⟨.name ""⟩
  obtain ⟨back, hback⟩ := (Var.rename_injective hρ).hasLeftInverse
  have hσ : (fun v => σ (back (Var.rename ρ v))) = σ := funext fun v => congrArg σ (hback v)
  refine ⟨σ ∘ back, ⟨fun clause' hclause' => ?_, fun e' a' b' hplayers' => ?_⟩, congrFun hσ⟩
  · obtain ⟨clause, hclause, rfl⟩ := List.mem_map.mp (hclauses.mem_iff.mp hclause')
    refine Clause.holds_relabel.mpr ?_
    rw [Function.comp_def, hσ]
    exact h.each clause hclause
  · -- The edge has players, so that it is a renamed edge.
    have ha : a' ∈ Clause.players e' .endpoint clauses' := hplayers' ▸ List.mem_cons_self
    obtain ⟨clause, -, heq⟩ := List.mem_map.mp (hclauses.mem_iff.mp (Clause.mem_players.mp ha))
    obtain ⟨-, e, -, rfl, -⟩ := Clause.relabel_eq_iff.mp heq
    have hperm := Clause.players_perm_relabel (Var.rename_injective hρ) hclauses e .endpoint
    obtain ⟨a, b, hplayers⟩ : ∃ a b, Clause.players e .endpoint clauses = [a, b] := by
      refine List.length_eq_two.mp ?_
      rw [← List.length_map (Var.rename ρ), ← hperm.length_eq, hplayers', List.length_cons,
        List.length_singleton]
    have hjoins : g.ItemJoins (σ (back (e.rename ρ))) (σ (back (a.rename ρ))) (σ (back (b.rename ρ))) := by
      rw [hback, hback, hback]
      exact h.ends e a b hplayers
    rw [hplayers, hplayers', List.map_cons, List.map_cons, List.map_nil] at hperm
    rcases List.perm_pair.mp hperm.symm with heq | heq
    · obtain ⟨rfl, rfl⟩ : a.rename ρ = a' ∧ b.rename ρ = b' := by simpa using heq
      exact hjoins
    · obtain ⟨rfl, rfl⟩ : b.rename ρ = a' ∧ a.rename ρ = b' := by simpa [and_comm] using heq
      exact hjoins.symm

namespace Path

variable {n : Nat} {π : Equiv.Perm (Fin n)} {inside : Fin n → Path → Path}

/--
The path to what is written at a path, when one of `n` patterns stands in the place of another and
the paths inside each of them are renamed.
-/
def branch (π : Equiv.Perm (Fin n)) (inside : Fin n → Path → Path) (path : Path) : Path :=
  match path.getLast? with
  | none => path
  | some i => if hi : i < n then inside ⟨i, hi⟩ path.dropLast ++ [(π ⟨i, hi⟩ : Nat)] else path

theorem branch_append (q : Path) (i : Fin n) :
    branch π inside (q ++ [(i : Nat)]) = inside i q ++ [(π i : Nat)] := by
  simp [branch]

theorem branch_injective (hinside : ∀ i, Function.Injective (inside i)) :
    Function.Injective (branch π inside) := by
  have hcases : ∀ path : Path, (∃ q, ∃ i : Fin n, path = q ++ [(i : Nat)]) ∨
      (∀ q, ∀ i : Fin n, path ≠ q ++ [(i : Nat)]) ∧ branch π inside path = path := by
    intro path
    rcases List.eq_nil_or_concat path with rfl | ⟨q, i, rfl⟩
    · exact Or.inr ⟨by simp, rfl⟩
    · rw [List.concat_eq_append]
      by_cases hi : i < n
      · exact Or.inl ⟨q, ⟨i, hi⟩, rfl⟩
      · refine Or.inr ⟨fun q' i' heq => hi ?_, by simp [branch, hi]⟩
        have := (List.append_inj' heq rfl).2
        simp only [List.cons.injEq, and_true] at this
        exact this ▸ i'.isLt
  intro path path' h
  rcases hcases path with ⟨q, i, rfl⟩ | ⟨hnot, hpath⟩
  · rw [branch_append] at h
    rcases hcases path' with ⟨q', i', rfl⟩ | ⟨hnot', hpath'⟩
    · rw [branch_append] at h
      obtain ⟨hq, hi⟩ := List.append_inj' h rfl
      simp only [List.cons.injEq, and_true] at hi
      obtain rfl := π.injective (Fin.ext hi)
      rw [hinside i hq]
    · rw [hpath'] at h
      exact absurd h.symm (hnot' _ _)
  · rcases hcases path' with ⟨q', i', rfl⟩ | ⟨-, hpath'⟩
    · rw [hpath, branch_append] at h
      exact absurd h (hnot _ _)
    · rwa [hpath, hpath'] at h

section

variable {number : Nat → Nat} {within : Nat → Path → Path}

/--
The path to what is written at a path, when every pattern gets another number and the paths inside
each of them are renamed.
-/
def graft (number : Nat → Nat) (within : Nat → Path → Path) (path : Path) : Path :=
  match path.getLast? with
  | none => path
  | some i => within i path.dropLast ++ [number i]

theorem graft_append (q : Path) (i : Nat) :
    graft number within (q ++ [i]) = within i q ++ [number i] := by
  simp [graft]

theorem graft_injective (hnumber : Function.Injective number)
    (hwithin : ∀ i, Function.Injective (within i)) : Function.Injective (graft number within) := by
  have hne : ∀ q i, graft number within (q ++ [i]) ≠ [] := fun q i => by simp [graft_append]
  intro path path' h
  rcases List.eq_nil_or_concat' path with rfl | ⟨q, i, rfl⟩
  · rcases List.eq_nil_or_concat' path' with rfl | ⟨q', i', rfl⟩
    · rfl
    · exact absurd h.symm (hne q' i')
  · rcases List.eq_nil_or_concat' path' with rfl | ⟨q', i', rfl⟩
    · exact absurd h (hne q i)
    · rw [graft_append, graft_append] at h
      obtain ⟨hq, hi⟩ := List.append_inj' h rfl
      obtain rfl := hnumber (List.singleton_injective hi)
      rw [hwithin i hq]

end

end Path

end PatternGraph
