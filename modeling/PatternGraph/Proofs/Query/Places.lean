import PatternGraph.Proofs.Query.Extension

/-!
# The places of a pattern

Every occurrence of a pattern in a query has a path, and the slots that only one occurrence can open
are known by paths.  Different parts of a query have different ones.
-/

namespace PatternGraph

namespace Place

/-- Whether a place is known by a path that starts inside the pattern at some path. -/
def Under (path : Path) : Place → Prop
  | .var (.occurrence q) | .implied q => path <:+ q
  | .var (.name _) | .var (.item _) => False

/-- Whether a place belongs to the pattern at some path itself, and not to its relation to another. -/
def Below (path : Path) (place : Place) : Prop :=
  place.Under path ∧ place ≠ .implied path

variable {path : Path} {place : Place} {i j : Nat}

theorem Under.not_isShared (h : place.Under path) : ¬place.IsShared := by
  cases place with
  | implied q => exact id
  | var v =>
      cases v with
      | occurrence q => exact id
      | name x => exact absurd h id
      | item id => exact absurd h fun h => h

/-- Different relations of a fragment have different places. -/
theorem Under.unique (hi : place.Under (i :: path)) (hj : place.Under (j :: path)) : i = j := by
  have hpath : ∀ q, i :: path <:+ q → j :: path <:+ q → i = j := by
    intro q hi hj
    have hsame := List.suffix_of_suffix_length_le hi hj (by simp)
    exact (List.cons.inj (hsame.eq_of_length (by simp))).1
  cases place with
  | implied q => exact hpath q hi hj
  | var v =>
      cases v with
      | occurrence q => exact hpath q hi hj
      | name x => exact absurd hi id
      | item id => exact absurd hi fun h => h

theorem not_cons_suffix : ¬i :: path <:+ path :=
  fun h => (Nat.lt_succ_self path.length).not_ge h.length_le

theorem Under.below (h : place.Under (i :: path)) : place.Below path := by
  have hpath : ∀ q, i :: path <:+ q → path <:+ q ∧ path ≠ q := by
    intro q hq
    refine ⟨(List.suffix_cons i path).trans hq, ?_⟩
    rintro rfl
    exact not_cons_suffix hq
  cases place with
  | implied q =>
      obtain ⟨hsuffix, hne⟩ := hpath q h
      exact ⟨hsuffix, fun heq => hne (Place.implied.inj heq).symm⟩
  | var v =>
      cases v with
      | occurrence q => exact ⟨(hpath q h).1, nofun⟩
      | name x => exact absurd h id
      | item id => exact absurd h fun h => h

end Place

namespace Pattern

mutual

/-- The places that only a pattern written at some path has slots for. -/
def places (path : Path) : Pattern → List Place
  | nodeFragment _ _ _ relations | edgeFragment _ _ _ relations =>
    .var (.occurrence path) :: relationPlaces path 0 relations
  | nodeType _ | edgeType _ | node _ | edge _ | reference _ => [.var (.occurrence path)]
termination_by structural p => p

/-- The places that only the relations of a fragment have slots for, and the edges they imply. -/
def relationPlaces (path : Path) (i : Nat) : List (Relation × Pattern) → List Place
  | [] => []
  | (_, p) :: rest =>
    .implied (i :: path) :: p.places (i :: path) ++ relationPlaces path (i + 1) rest
termination_by structural relations => relations

end

mutual

theorem below_of_mem_places : ∀ (p : Pattern) (path : Path) (place : Place),
    place ∈ p.places path → place.Below path
  | nodeType _, path, place, h | edgeType _, path, place, h | node _, path, place, h
  | edge _, path, place, h | reference _, path, place, h => by
      obtain rfl := List.mem_singleton.mp h
      exact ⟨List.suffix_rfl, nofun⟩
  | nodeFragment _ _ _ relations, path, place, h
  | edgeFragment _ _ _ relations, path, place, h => by
      rcases List.mem_cons.mp h with rfl | h
      · exact ⟨List.suffix_rfl, nofun⟩
      · obtain ⟨j, -, hj⟩ := under_of_mem_relationPlaces relations path 0 place h
        exact hj.below

theorem under_of_mem_relationPlaces :
    ∀ (relations : List (Relation × Pattern)) (path : Path) (i : Nat) (place : Place),
      place ∈ relationPlaces path i relations → ∃ j, i ≤ j ∧ place.Under (j :: path)
  | [], _, _, _, h => absurd h List.not_mem_nil
  | (_, p) :: rest, path, i, place, h => by
      rw [relationPlaces, List.cons_append, List.mem_cons, List.mem_append] at h
      rcases h with rfl | h | h
      · exact ⟨i, le_rfl, List.suffix_rfl⟩
      · exact ⟨i, le_rfl, (below_of_mem_places p (i :: path) place h).1⟩
      · obtain ⟨j, hj, hunder⟩ := under_of_mem_relationPlaces rest path (i + 1) place h
        exact ⟨j, (Nat.le_succ i).trans hj, hunder⟩

end

mutual

theorem nodup_places : ∀ (p : Pattern) (path : Path), (p.places path).Nodup
  | nodeType _, _ | edgeType _, _ | node _, _ | edge _, _ | reference _, _ =>
      List.nodup_singleton _
  | nodeFragment _ _ _ relations, path | edgeFragment _ _ _ relations, path => by
      rw [places, List.nodup_cons]
      refine ⟨fun h => ?_, nodup_relationPlaces relations path 0⟩
      obtain ⟨j, -, hj⟩ := under_of_mem_relationPlaces relations path 0 _ h
      exact Place.not_cons_suffix hj

theorem nodup_relationPlaces : ∀ (relations : List (Relation × Pattern)) (path : Path) (i : Nat),
    (relationPlaces path i relations).Nodup
  | [], _, _ => List.nodup_nil
  | (_, p) :: rest, path, i => by
      rw [relationPlaces, List.nodup_append, List.nodup_cons]
      refine ⟨⟨fun h => (below_of_mem_places p _ _ h).2 rfl, nodup_places p _⟩,
        nodup_relationPlaces rest path (i + 1), ?_⟩
      rintro place hfirst _ hrest rfl
      obtain ⟨j, hj, hunder⟩ := under_of_mem_relationPlaces rest path (i + 1) place hrest
      have hunder' : place.Under (i :: path) := by
        rcases List.mem_cons.mp hfirst with rfl | hfirst
        · exact List.suffix_rfl
        · exact (below_of_mem_places p _ _ hfirst).1
      have := hunder'.unique hunder
      omega

end

end Pattern

namespace Query

/-- The places that only one pattern of a query has slots for. -/
def places (items : List Pattern) (i : Nat) : List Place :=
  (items.zipIdx i).flatMap fun (p, i) => p.places [i]

theorem places_cons (p : Pattern) (items : List Pattern) (i : Nat) :
    places (p :: items) i = p.places [i] ++ places items (i + 1) := by
  simp [places]

theorem under_of_mem_places {items : List Pattern} {i : Nat} {place : Place}
    (h : place ∈ places items i) : ∃ j, i ≤ j ∧ place.Under [j] := by
  obtain ⟨⟨p, j⟩, hp, hplace⟩ := List.mem_flatMap.mp h
  exact ⟨j, (List.mem_zipIdx hp).1, (Pattern.below_of_mem_places p _ _ hplace).1⟩

theorem nodup_places (items : List Pattern) (i : Nat) : (places items i).Nodup := by
  induction items generalizing i with
  | nil => exact List.nodup_nil
  | cons p items ih =>
      rw [places_cons, List.nodup_append]
      refine ⟨Pattern.nodup_places p _, ih (i + 1), ?_⟩
      rintro place hfirst _ hrest rfl
      obtain ⟨j, hj, hunder⟩ := under_of_mem_places hrest
      have := (Pattern.below_of_mem_places p _ _ hfirst).1.unique hunder
      omega

end Query

end PatternGraph
