import Std.Data.ExtTreeMap

/-!
# Looking things up

What is found in a map after a change of one key, with a case for that key and one for all others,
and that any entry which is found counts for a test of all entries.
-/

namespace PatternGraph

variable {α β : Type} [Ord α] [Std.TransOrd α]

section Change

variable [Std.LawfulEqOrd α] [DecidableEq α] {m : Std.ExtTreeMap α β} {k k' : α} {v w : β}

theorem getElem?_insert_eq (m : Std.ExtTreeMap α β) (k k' : α) (v : β) :
    (m.insert k v)[k']? = if k' = k then some v else m[k']? := by
  rw [Std.ExtTreeMap.getElem?_insert]
  by_cases hk : k' = k
  · simp [hk]
  · simp [hk, Ne.symm hk]

theorem getElem?_erase_eq (m : Std.ExtTreeMap α β) (k k' : α) :
    (m.erase k)[k']? = if k' = k then none else m[k']? := by
  rw [Std.ExtTreeMap.getElem?_erase]
  by_cases hk : k' = k
  · simp [hk]
  · simp [hk, Ne.symm hk]

theorem getElem?_modify_eq (m : Std.ExtTreeMap α β) (k k' : α) (f : β → β) :
    (m.modify k f)[k']? = if k' = k then m[k']?.map f else m[k']? := by
  rw [Std.ExtTreeMap.getElem?_modify]
  by_cases hk : k' = k
  · subst hk
    simp
  · simp [hk, Ne.symm hk]

theorem eq_or_of_getElem?_insert (h : (m.insert k v)[k']? = some w) :
    k' = k ∧ w = v ∨ k' ≠ k ∧ m[k']? = some w := by
  rw [getElem?_insert_eq] at h
  split at h
  · rename_i hk
    exact Or.inl ⟨hk, (Option.some.inj h).symm⟩
  · rename_i hk
    exact Or.inr ⟨hk, h⟩

theorem of_getElem?_erase (h : (m.erase k)[k']? = some w) : k' ≠ k ∧ m[k']? = some w := by
  rw [getElem?_erase_eq] at h
  split at h
  · cases h
  · rename_i hk
    exact ⟨hk, h⟩

end Change

theorem any_eq_any_toList (m : Std.ExtTreeMap α β) (p : α → β → Bool) :
    m.any p = m.toList.any fun entry => p entry.1 entry.2 := by
  have hloop : m.any p = Id.run (do
      for entry in m do
        if p entry.1 entry.2 then return true
      return false) := by
    obtain ⟨inner⟩ := m
    induction inner using Std.ExtDTreeMap.inductionOn with
    | _ t => rfl
  rw [hloop, Std.ExtTreeMap.forIn_eq_forIn_toList]
  generalize m.toList = entries
  induction entries with
  | nil => rfl
  | cons entry entries ih =>
      rw [List.any_cons, ← ih, List.forIn_cons]
      by_cases hp : p entry.1 entry.2 = true
      · simp [hp]
      · simp [hp]

theorem any_of_getElem?
    [Std.LawfulEqOrd α]
    {m : Std.ExtTreeMap α β}
    {p : α → β → Bool}
    {k : α}
    {v : β}
    (h : m[k]? = some v)
    (hp : p k v = true) :
    m.any p = true := by
  rw [any_eq_any_toList, List.any_eq_true]
  exact ⟨(k, v), Std.ExtTreeMap.mem_toList_iff_getElem?_eq_some.mpr h, hp⟩

theorem any_eq_true_iff
    [Std.LawfulEqOrd α]
    (m : Std.ExtTreeMap α β)
    (p : α → β → Bool) :
    m.any p = true ↔ ∃ k v, m[k]? = some v ∧ p k v = true := by
  rw [any_eq_any_toList, List.any_eq_true]
  simp only [Prod.exists, Std.ExtTreeMap.mem_toList_iff_getElem?_eq_some]

theorem all_eq_all_toList (m : Std.ExtTreeMap α β) (p : α → β → Bool) :
    m.all p = m.toList.all fun entry => p entry.1 entry.2 := by
  have hloop : m.all p = Id.run (do
      for entry in m do
        if p entry.1 entry.2 = false then return false
      return true) := by
    obtain ⟨inner⟩ := m
    induction inner using Std.ExtDTreeMap.inductionOn with
    | _ t => rfl
  rw [hloop, Std.ExtTreeMap.forIn_eq_forIn_toList]
  generalize m.toList = entries
  induction entries with
  | nil => rfl
  | cons entry entries ih =>
      rw [List.all_cons, ← ih, List.forIn_cons]
      by_cases hp : p entry.1 entry.2 = true
      · simp [hp]
      · simp [hp]

theorem all_eq_true_iff
    [Std.LawfulEqOrd α]
    (m : Std.ExtTreeMap α β)
    (p : α → β → Bool) :
    m.all p = true ↔ ∀ k v, m[k]? = some v → p k v = true := by
  rw [all_eq_all_toList, List.all_eq_true]
  simp only [Prod.forall, Std.ExtTreeMap.mem_toList_iff_getElem?_eq_some]

/-- A map is filtered only if the filter takes something out, which makes no difference. -/
theorem getElem?_filter_unless
    [Std.LawfulEqOrd α]
    (m : Std.ExtTreeMap α β)
    (p : α → β → Bool)
    (k : α) :
    (if m.all p then m else m.filter p)[k]? = m[k]?.filter (p k) := by
  split
  · rename_i hall
    cases hk : m[k]? with
    | none => rfl
    | some v => rw [Option.filter_some, if_pos ((all_eq_true_iff m p).mp hall k v hk)]
  · exact Std.ExtTreeMap.getElem?_filter'

end PatternGraph
