import Mathlib.Data.Finset.Card
import Mathlib.Data.List.Range
import Mathlib.Logic.Function.Iterate
import Mathlib.Logic.Relation
import PatternGraph.DisjointSet

/-!
# The classes of a forest

Two elements of a forest are in one class when their trees have the same root.  A climb reaches the
root because a height grows along every path, which bounds the length of the path by the number of
elements.  Shortening paths keeps all roots, and joining two trees merges their classes, so the
classes after a series of unions are those of the generated equivalence.
-/

namespace PatternGraph.DisjointSet

variable {s : DisjointSet} {x y r : Nat}

/-- Parents stay within the bound, and some height grows from every element to its parent. -/
structure Forest (s : DisjointSet) : Prop where
  inside : ∀ x < s.size, s.parentOf x < s.size
  rising : ∃ height : Nat → Nat, ∀ x, s.parentOf x ≠ x → height x < height (s.parentOf x)

/-- Whether a height grows from every element to its parent. -/
def Rises (s : DisjointSet) (height : Nat → Nat) : Prop :=
  ∀ x, s.parentOf x ≠ x → height x < height (s.parentOf x)

/-- Two different roots. -/
structure Apart (s : DisjointSet) (a b : Nat) : Prop where
  inside : a < s.size
  inside' : b < s.size
  root : s.parentOf a = a
  root' : s.parentOf b = b
  ne : a ≠ b

theorem Apart.symm {a b : Nat} (h : s.Apart a b) : s.Apart b a :=
  ⟨h.inside', h.inside, h.root', h.root, h.ne.symm⟩

/-- Whether two elements are in one class. -/
def Same (s : DisjointSet) (x y : Nat) : Prop :=
  s.rootOf x = s.rootOf y

theorem parentOf_of_size_le (hx : s.size ≤ x) : s.parentOf x = x := by
  have hx : s.parent.size ≤ x := hx
  simp [parentOf, hx]

theorem lt_size_of_parentOf_ne (hx : s.parentOf x ≠ x) : x < s.size := by
  by_contra hout
  exact hx (parentOf_of_size_le (Nat.le_of_not_lt hout))

theorem climb_eq_iterate (s : DisjointSet) (fuel x : Nat) :
    s.climb fuel x = s.parentOf^[fuel] x := by
  induction fuel generalizing x with
  | zero => rfl
  | succ fuel ih =>
      rw [climb, Function.iterate_succ_apply]
      by_cases hx : s.parentOf x = x
      · rw [if_pos hx, hx, Function.iterate_fixed hx]
      · rw [if_neg hx, ih]

/-- The number of elements above a given one in height. -/
def above (s : DisjointSet) (height : Nat → Nat) (x : Nat) : Nat :=
  ((Finset.range s.size).filter fun y => height x < height y).card

theorem above_le_size (s : DisjointSet) (height : Nat → Nat) (x : Nat) :
    s.above height x ≤ s.size := by
  simpa [above] using Finset.card_filter_le (Finset.range s.size) fun y => height x < height y

theorem above_parentOf_lt
    {height : Nat → Nat}
    (hs : s.Forest)
    (hheight : s.Rises height)
    (hx : s.parentOf x ≠ x) :
    s.above height (s.parentOf x) < s.above height x := by
  have hlt := hheight x hx
  have hparent : s.parentOf x < s.size := hs.inside x (lt_size_of_parentOf_ne hx)
  apply Finset.card_lt_card
  rw [Finset.ssubset_iff_of_subset]
  · exact ⟨s.parentOf x, by simp [hparent, hlt], by simp⟩
  · intro y hy
    simp only [Finset.mem_filter] at hy ⊢
    exact ⟨hy.1, by omega⟩

/-- A climb with as much fuel as there are higher elements ends at a root. -/
theorem parentOf_iterate_of_above_le
    {height : Nat → Nat}
    (hs : s.Forest)
    (hheight : s.Rises height)
    (fuel x : Nat)
    (hfuel : s.above height x ≤ fuel) :
    s.parentOf (s.parentOf^[fuel] x) = s.parentOf^[fuel] x := by
  induction fuel generalizing x with
  | zero =>
      by_contra hx
      have := above_parentOf_lt hs hheight hx
      simp only [Function.iterate_zero, id_eq] at this
      omega
  | succ fuel ih =>
      by_cases hx : s.parentOf x = x
      · rw [Function.iterate_fixed hx, hx]
      · have := above_parentOf_lt hs hheight hx
        rw [Function.iterate_succ_apply]
        exact ih _ (by omega)

theorem rootOf_eq_iterate (s : DisjointSet) (x : Nat) :
    s.rootOf x = s.parentOf^[s.size] x :=
  s.climb_eq_iterate s.size x

/-- Ranks play no part in a climb. -/
theorem rootOf_ranked (s : DisjointSet) (ranks : Array Nat) (x : Nat) :
    rootOf ⟨s.parent, ranks⟩ x = s.rootOf x := by
  rw [rootOf_eq_iterate, rootOf_eq_iterate]
  rfl

theorem rootOf_eq_self (hr : s.parentOf r = r) : s.rootOf r = r := by
  rw [rootOf_eq_iterate, Function.iterate_fixed hr]

namespace Forest

/-- Every climb ends at a root. -/
theorem parentOf_rootOf (hs : s.Forest) (x : Nat) : s.parentOf (s.rootOf x) = s.rootOf x := by
  obtain ⟨height, hheight⟩ := hs.rising
  rw [rootOf_eq_iterate]
  exact parentOf_iterate_of_above_le hs hheight s.size x (s.above_le_size height x)

theorem rootOf_parentOf (hs : s.Forest) (x : Nat) : s.rootOf (s.parentOf x) = s.rootOf x := by
  calc
    s.rootOf (s.parentOf x) = s.parentOf^[s.size] (s.parentOf x) := s.rootOf_eq_iterate _
    _ = s.parentOf (s.parentOf^[s.size] x) := by
      rw [← Function.iterate_succ_apply, Function.iterate_succ_apply']
    _ = s.parentOf (s.rootOf x) := by rw [rootOf_eq_iterate]
    _ = s.rootOf x := hs.parentOf_rootOf x

theorem rootOf_rootOf (hs : s.Forest) (x : Nat) : s.rootOf (s.rootOf x) = s.rootOf x :=
  rootOf_eq_self (hs.parentOf_rootOf x)

/-- A climb stays within the bound. -/
theorem iterate_lt_size (hs : s.Forest) (hx : x < s.size) (k : Nat) : s.parentOf^[k] x < s.size := by
  induction k with
  | zero => exact hx
  | succ k ih =>
      rw [Function.iterate_succ_apply']
      exact hs.inside _ ih

theorem rootOf_lt_size (hs : s.Forest) (hx : x < s.size) : s.rootOf x < s.size := by
  rw [rootOf_eq_iterate]
  exact hs.iterate_lt_size hx s.size

/-- The roots are the only assignment that agrees along parents and fixes the roots. -/
theorem eq_rootOf
    {f : Nat → Nat}
    (hs : s.Forest)
    (hparent : ∀ x, f (s.parentOf x) = f x)
    (hroot : ∀ r, s.parentOf r = r → f r = r)
    (x : Nat) :
    f x = s.rootOf x := by
  have hclimb : ∀ n, f (s.parentOf^[n] x) = f x := by
    intro n
    induction n with
    | zero => rfl
    | succ n ih => rw [Function.iterate_succ_apply', hparent, ih]
  rw [← hclimb s.size, ← rootOf_eq_iterate]
  exact hroot _ (hs.parentOf_rootOf x)

/-- A root is higher than everything below it. -/
theorem height_lt_rootOf
    {height : Nat → Nat}
    (hheight : s.Rises height)
    (x : Nat)
    (hx : s.rootOf x ≠ x) :
    height x < height (s.rootOf x) := by
  have hclimb : ∀ n, s.parentOf^[n] x = x ∨ height x < height (s.parentOf^[n] x) := by
    intro n
    induction n with
    | zero => exact Or.inl rfl
    | succ n ih =>
        rw [Function.iterate_succ_apply']
        generalize hz : s.parentOf^[n] x = z at ih
        by_cases hfix : s.parentOf z = z
        · rwa [hfix]
        · have hrise := hheight z hfix
          rcases ih with rfl | ih
          · exact Or.inr hrise
          · exact Or.inr (ih.trans hrise)
  rw [rootOf_eq_iterate] at hx ⊢
  exact (hclimb s.size).resolve_left hx

end Forest

@[simp]
theorem size_hang (s : DisjointSet) (x r : Nat) : (s.hang x r).size = s.size := by
  simp [hang, size]

theorem parentOf_hang (hx : x < s.size) (r y : Nat) :
    (s.hang x r).parentOf y = if y = x then r else s.parentOf y := by
  have hx : x < s.parent.size := hx
  by_cases hy : y = x
  · subst hy
    simp [parentOf, hang, hx]
  · simp [parentOf, hang, Array.getD_eq_getD_getElem?, hy, Ne.symm hy]

/-- A height that grows along paths still does when an element is hung directly below its root. -/
theorem Rises.hang_rootOf
    {height : Nat → Nat}
    (hheight : s.Rises height)
    (hx : x < s.size) :
    (s.hang x (s.rootOf x)).Rises height := by
  intro y hy
  rw [parentOf_hang hx] at hy ⊢
  by_cases hyx : y = x
  · subst hyx
    rw [if_pos rfl] at hy ⊢
    exact Forest.height_lt_rootOf hheight y hy
  · rw [if_neg hyx] at hy ⊢
    exact hheight y hy

namespace Forest

/-- Hanging an element directly below its root keeps all roots. -/
theorem hang_rootOf (hs : s.Forest) (hx : x < s.size) :
    (s.hang x (s.rootOf x)).Forest ∧ (s.hang x (s.rootOf x)).rootOf = s.rootOf := by
  have hforest : (s.hang x (s.rootOf x)).Forest := by
    constructor
    · intro y hy
      rw [size_hang] at hy ⊢
      rw [parentOf_hang hx]
      split
      · exact hs.rootOf_lt_size hx
      · exact hs.inside y hy
    · obtain ⟨height, hheight⟩ := hs.rising
      exact ⟨height, Rises.hang_rootOf hheight hx⟩
  refine ⟨hforest, funext fun y => (hforest.eq_rootOf ?_ ?_ y).symm⟩
  · intro z
    rw [parentOf_hang hx]
    split
    · rename_i hz
      rw [hz, hs.rootOf_rootOf]
    · exact hs.rootOf_parentOf z
  · intro z hz
    rw [parentOf_hang hx] at hz
    by_cases hzx : z = x
    · subst hzx
      rwa [if_pos rfl] at hz
    · rw [if_neg hzx] at hz
      exact rootOf_eq_self hz

/-- Hanging one root below another moves its whole tree there. -/
theorem hang_root
    {a b : Nat}
    (hs : s.Forest)
    (hab : s.Apart a b) :
    (s.hang a b).Forest ∧
      ∀ y, (s.hang a b).rootOf y = if s.rootOf y = a then b else s.rootOf y := by
  obtain ⟨ha, hb, hroot, hroot', hne⟩ := hab
  have hforest : (s.hang a b).Forest := by
    constructor
    · intro y hy
      rw [size_hang] at hy ⊢
      rw [parentOf_hang ha]
      split
      · exact hb
      · exact hs.inside y hy
    · obtain ⟨height, hheight⟩ := hs.rising
      -- Everything outside the moved tree is lifted above the root of the moved tree.
      refine ⟨fun y => if s.rootOf y = a then height y else height y + height a + 1, ?_⟩
      intro y hy
      rw [parentOf_hang ha] at hy ⊢
      by_cases hya : y = a
      · subst hya
        simp only [rootOf_eq_self hroot, rootOf_eq_self hroot', hne.symm, if_true, if_false]
        omega
      · rw [if_neg hya] at hy ⊢
        have hrise := hheight y hy
        simp only [hs.rootOf_parentOf]
        split <;> omega
  refine ⟨hforest, fun y => (hforest.eq_rootOf
    (f := fun y => if s.rootOf y = a then b else s.rootOf y) ?_ ?_ y).symm⟩
  · intro z
    rw [parentOf_hang ha]
    by_cases hza : z = a
    · subst hza
      simp [rootOf_eq_self hroot, rootOf_eq_self hroot']
    · simp only [if_neg hza, hs.rootOf_parentOf]
  · intro z hz
    rw [parentOf_hang ha] at hz
    by_cases hza : z = a
    · rw [if_pos hza] at hz
      omega
    · rw [if_neg hza] at hz
      simp [rootOf_eq_self hz, hza]

end Forest

/-- Whether a forest comes from another one by shortening paths. -/
structure Shortened (s t : DisjointSet) : Prop where
  forest : t.Forest
  size : t.size = s.size
  roots : t.rootOf = s.rootOf
  rank : t.rank = s.rank
  rises : ∀ height, s.Rises height → t.Rises height

namespace Shortened

variable {t u : DisjointSet}

theorem refl (hs : s.Forest) : s.Shortened s :=
  ⟨hs, rfl, rfl, rfl, fun _ h => h⟩

theorem trans (h : s.Shortened t) (h' : t.Shortened u) : s.Shortened u :=
  ⟨h'.forest, h'.size.trans h.size, h'.roots.trans h.roots, h'.rank.trans h.rank,
    fun height hheight => h'.rises height (h.rises height hheight)⟩

theorem rankOf (h : s.Shortened t) : t.rankOf = s.rankOf := by
  funext x
  rw [DisjointSet.rankOf, DisjointSet.rankOf, h.rank]

/-- The root of an element is a root of the shortened forest too. -/
theorem parentOf_rootOf (h : s.Shortened t) (x : Nat) : t.parentOf (s.rootOf x) = s.rootOf x := by
  rw [← h.roots]
  exact h.forest.parentOf_rootOf x

/-- Different roots are different roots of the shortened forest too. -/
theorem apart_rootOf (h : s.Shortened t) (hs : s.Forest) (hx : x < s.size) (hy : y < s.size)
    (hne : s.rootOf x ≠ s.rootOf y) :
    t.Apart (s.rootOf x) (s.rootOf y) := by
  refine ⟨?_, ?_, h.parentOf_rootOf x, h.parentOf_rootOf y, hne⟩
  · rw [h.size]
    exact hs.rootOf_lt_size hx
  · rw [h.size]
    exact hs.rootOf_lt_size hy

end Shortened

/-- Shortening a path keeps all roots, ranks and heights. -/
theorem compress_shortened
    (hs : s.Forest)
    (fuel : Nat)
    (hx : x < s.size)
    (hr : s.rootOf x = r) :
    s.Shortened (s.compress r fuel x) := by
  induction fuel generalizing s x with
  | zero => exact .refl hs
  | succ fuel ih =>
      rw [compress]
      split
      · exact .refl hs
      · subst hr
        obtain ⟨hforest, hroots⟩ := hs.hang_rootOf hx
        have hhang : s.Shortened (s.hang x (s.rootOf x)) :=
          ⟨hforest, size_hang _ _ _, hroots, rfl, fun _ hheight => hheight.hang_rootOf hx⟩
        have hnext : (s.hang x (s.rootOf x)).rootOf (s.parentOf x) = s.rootOf x := by
          rw [hroots, hs.rootOf_parentOf]
        exact hhang.trans (ih hforest (by simpa using hs.inside x hx) hnext)

theorem find_shortened (hs : s.Forest) (hx : x < s.size) : s.Shortened (s.find x).2 :=
  compress_shortened hs s.size hx rfl

/-- Two look-ups in a row shorten paths only. -/
theorem find_find_shortened (hs : s.Forest) (hx : x < s.size) (hy : y < s.size) :
    s.Shortened ((s.find x).2.find y).2 := by
  have hfirst := find_shortened hs hx
  exact hfirst.trans (find_shortened hfirst.forest (by rwa [hfirst.size]))

theorem find_fst (s : DisjointSet) (x : Nat) : (s.find x).1 = s.rootOf x := rfl

theorem parentOf_singletons (n x : Nat) : (singletons n).parentOf x = x := by
  by_cases hx : x < n
  · simp [singletons, parentOf, hx]
  · simp [singletons, parentOf, hx]

theorem singletons_forest (n : Nat) : (singletons n).Forest := by
  constructor
  · intro x hx
    rwa [parentOf_singletons]
  · exact ⟨id, fun x hx => absurd (parentOf_singletons n x) hx⟩

@[simp]
theorem size_singletons (n : Nat) : (singletons n).size = n := by
  simp [singletons, size]

theorem rootOf_singletons (n x : Nat) : (singletons n).rootOf x = x :=
  rootOf_eq_self (parentOf_singletons n x)

/-- Joins two roots, of which the one of smaller rank is hung below the other. -/
def link (s : DisjointSet) (a b : Nat) : DisjointSet :=
  if s.rankOf a < s.rankOf b then s.hang a b
  else if s.rankOf b < s.rankOf a then s.hang b a
  else ⟨(s.hang b a).parent, s.rank.setIfInBounds a (min rankLimit (s.rankOf a + 1))⟩

/-- A union looks up both roots, and links them if they differ. -/
theorem union_eq (hs : s.Forest) (hx : x < s.size) :
    s.union x y =
      if s.rootOf x = s.rootOf y then (false, ((s.find x).2.find y).2)
      else (true, ((s.find x).2.find y).2.link (s.rootOf x) (s.rootOf y)) := by
  have hroot : ((s.find x).2.find y).1 = s.rootOf y := by
    rw [find_fst, (find_shortened hs hx).roots]
  simp only [union, hroot, find_fst]
  by_cases hsame : s.rootOf x = s.rootOf y
  · rw [if_pos hsame, if_pos hsame]
  · rw [if_neg hsame, if_neg hsame, link]
    split
    · rfl
    · split
      · rfl
      · rfl

/-- One of two linked roots is hung below the other, whatever happens to the ranks. -/
theorem parent_link (s : DisjointSet) (a b : Nat) :
    (s.link a b).parent = (s.hang a b).parent ∨ (s.link a b).parent = (s.hang b a).parent := by
  rw [link]
  split
  · exact Or.inl rfl
  · split
    · exact Or.inr rfl
    · exact Or.inr rfl

/-- Ranks play no part in what is a forest. -/
theorem Forest.ranked (hs : s.Forest) (ranks : Array Nat) : Forest ⟨s.parent, ranks⟩ :=
  ⟨hs.inside, hs.rising⟩

/-- Linking two roots merges their trees. -/
theorem link_spec
    {a b : Nat}
    (hs : s.Forest)
    (hab : s.Apart a b) :
    (s.link a b).Forest ∧ (s.link a b).size = s.size ∧
      ∀ u v, (s.link a b).Same u v ↔
        s.Same u v ∨ (s.rootOf u = a ∧ s.rootOf v = b) ∨ (s.rootOf u = b ∧ s.rootOf v = a) := by
  have hlinked : ∀ t : DisjointSet, (s.link a b).parent = t.parent → t.Forest → t.size = s.size →
      (∀ u v, t.Same u v ↔
        s.Same u v ∨ (s.rootOf u = a ∧ s.rootOf v = b) ∨ (s.rootOf u = b ∧ s.rootOf v = a)) →
      (s.link a b).Forest ∧ (s.link a b).size = s.size ∧
        ∀ u v, (s.link a b).Same u v ↔
          s.Same u v ∨ (s.rootOf u = a ∧ s.rootOf v = b) ∨ (s.rootOf u = b ∧ s.rootOf v = a) := by
    intro t hparent ht hsize hsame
    have heq : s.link a b = ⟨t.parent, (s.link a b).rank⟩ := by rw [← hparent]
    rw [heq]
    refine ⟨ht.ranked _, hsize, fun u v => ?_⟩
    rw [Same, rootOf_ranked t _ u, rootOf_ranked t _ v]
    exact hsame u v
  rcases s.parent_link a b with hparent | hparent
  · obtain ⟨hforest, hroots⟩ := hs.hang_root hab
    refine hlinked _ hparent hforest (size_hang _ _ _) fun u v => ?_
    have hne := hab.ne
    simp only [Same, hroots]
    grind
  · obtain ⟨hforest, hroots⟩ := hs.hang_root hab.symm
    refine hlinked _ hparent hforest (size_hang _ _ _) fun u v => ?_
    have hne := hab.ne
    simp only [Same, hroots]
    grind

/-- The forest after a union: the classes of the two elements are merged. -/
theorem union_spec (hs : s.Forest) (hx : x < s.size) (hy : y < s.size) :
    (s.union x y).2.Forest ∧ (s.union x y).2.size = s.size ∧
      ((s.union x y).1 = true ↔ ¬s.Same x y) ∧
        ∀ u v, (s.union x y).2.Same u v ↔
          s.Same u v ∨ (s.Same u x ∧ s.Same v y) ∨ (s.Same u y ∧ s.Same v x) := by
  rw [union_eq hs hx]
  have hfound := find_find_shortened hs hx hy
  generalize ((s.find x).2.find y).2 = t at hfound
  by_cases hsame : s.rootOf x = s.rootOf y
  · rw [if_pos hsame]
    refine ⟨hfound.forest, hfound.size, by simp [Same, hsame], fun u v => ?_⟩
    simp only [Same, hfound.roots, hsame]
    grind
  · rw [if_neg hsame]
    obtain ⟨hforest, hsize, hmerged⟩ :=
      link_spec hfound.forest (hfound.apart_rootOf hs hx hy hsame)
    refine ⟨hforest, hsize.trans hfound.size, by simp [Same, hsame], fun u v => ?_⟩
    rw [hmerged, hfound.roots]
    simp only [Same, hfound.roots]

theorem same_equivalence (s : DisjointSet) : Equivalence s.Same :=
  ⟨fun _ => rfl, fun h => h.symm, fun h h' => h.trans h'⟩

/-- What is connected once one more pair is. -/
theorem eqvGen_or_pair {α : Type} {R : α → α → Prop} {a b u v : α} :
    Relation.EqvGen (fun u v => R u v ∨ (u = a ∧ v = b)) u v ↔
      Relation.EqvGen R u v ∨ (Relation.EqvGen R u a ∧ Relation.EqvGen R v b) ∨
        (Relation.EqvGen R u b ∧ Relation.EqvGen R v a) := by
  have hmono : ∀ {u v}, Relation.EqvGen R u v →
      Relation.EqvGen (fun u v => R u v ∨ (u = a ∧ v = b)) u v :=
    fun h => h.mono fun _ _ h => Or.inl h
  have hpair : Relation.EqvGen (fun u v => R u v ∨ (u = a ∧ v = b)) a b :=
    .rel _ _ (Or.inr ⟨rfl, rfl⟩)
  constructor
  · intro h
    induction h with
    | rel u v h =>
        rcases h with h | ⟨rfl, rfl⟩
        · exact Or.inl (.rel _ _ h)
        · exact Or.inr (Or.inl ⟨.refl _, .refl _⟩)
    | refl u => exact Or.inl (.refl u)
    | symm u v _ ih =>
        rcases ih with h | ⟨hu, hv⟩ | ⟨hu, hv⟩
        · exact Or.inl (.symm _ _ h)
        · exact Or.inr (Or.inr ⟨hv, hu⟩)
        · exact Or.inr (Or.inl ⟨hv, hu⟩)
    | trans u v w _ _ ih ih' =>
        rcases ih with h | ⟨hu, hv⟩ | ⟨hu, hv⟩
        · rcases ih' with h' | ⟨hv', hw⟩ | ⟨hv', hw⟩
          · exact Or.inl (.trans _ _ _ h h')
          · exact Or.inr (Or.inl ⟨.trans _ _ _ h hv', hw⟩)
          · exact Or.inr (Or.inr ⟨.trans _ _ _ h hv', hw⟩)
        · rcases ih' with h' | ⟨hv', hw⟩ | ⟨hv', hw⟩
          · exact Or.inr (Or.inl ⟨hu, .trans _ _ _ (.symm _ _ h') hv⟩)
          · exact Or.inr (Or.inl ⟨hu, hw⟩)
          · exact Or.inl (.trans _ _ _ hu (.symm _ _ hw))
        · rcases ih' with h' | ⟨hv', hw⟩ | ⟨hv', hw⟩
          · exact Or.inr (Or.inr ⟨hu, .trans _ _ _ (.symm _ _ h') hv⟩)
          · exact Or.inl (.trans _ _ _ hu (.symm _ _ hw))
          · exact Or.inr (Or.inr ⟨hu, hw⟩)
  · rintro (h | ⟨hu, hv⟩ | ⟨hu, hv⟩)
    · exact hmono h
    · exact .trans _ _ _ (hmono hu) (.trans _ _ _ hpair (.symm _ _ (hmono hv)))
    · exact .trans _ _ _ (hmono hu) (.trans _ _ _ (.symm _ _ hpair) (.symm _ _ (hmono hv)))

/-- After a series of unions, the classes are generated by the earlier ones and the united pairs. -/
theorem foldl_union_spec
    {α : Type}
    (left right : α → Nat)
    (links : List α)
    (hs : s.Forest)
    (hin : ∀ c ∈ links, left c < s.size ∧ right c < s.size) :
    let t := links.foldl (fun s c => (s.union (left c) (right c)).2) s
    t.Forest ∧ t.size = s.size ∧ ∀ u v, t.Same u v ↔
      Relation.EqvGen (fun u v => s.Same u v ∨ ∃ c ∈ links, u = left c ∧ v = right c) u v := by
  induction links using List.reverseRecOn with
  | nil =>
      refine ⟨hs, rfl, fun u v => ?_⟩
      simp [s.same_equivalence.eqvGen_iff]
  | append_singleton links c ih =>
      obtain ⟨hforest, hsize, hsame⟩ := ih fun d hd => hin d (List.mem_append_left _ hd)
      obtain ⟨hleft, hright⟩ := hin c (by simp)
      rw [← hsize] at hleft hright
      obtain ⟨hforest', hsize', -, hsame'⟩ := union_spec hforest hleft hright
      rw [List.foldl_append]
      refine ⟨hforest', hsize'.trans hsize, fun u v => ?_⟩
      have hlinks : (fun u v => s.Same u v ∨ ∃ d ∈ links ++ [c], u = left d ∧ v = right d) =
          fun u v => (s.Same u v ∨ ∃ d ∈ links, u = left d ∧ v = right d) ∨
            (u = left c ∧ v = right c) := by
        funext u v
        simp [or_and_right, exists_or, or_assoc]
      rw [hlinks, eqvGen_or_pair]
      simp only [← hsame]
      exact hsame' u v

/-- The least members of classes, ascending, among the numbers below a bound. -/
def leaders (s : DisjointSet) (bound : Nat) : List Nat :=
  (List.range bound).filter fun x => (List.range x).all fun y => s.rootOf y != s.rootOf x

/-- The members of a class, ascending, among the numbers below a bound. -/
def classOf (s : DisjointSet) (bound x : Nat) : List Nat :=
  (List.range bound).filter fun y => s.rootOf y == s.rootOf x

theorem mem_leaders {bound : Nat} :
    x ∈ s.leaders bound ↔ x < bound ∧ ∀ y < x, ¬s.Same y x := by
  simp [leaders, Same]

theorem mem_classOf {bound : Nat} : y ∈ s.classOf bound x ↔ y < bound ∧ s.Same y x := by
  simp [classOf, Same]

/-- Every class has a leader. -/
theorem exists_mem_leaders {bound : Nat} (hx : x < bound) : ∃ l ∈ s.leaders bound, s.Same l x := by
  induction x using Nat.strongRecOn with
  | ind x ih =>
      by_cases hfirst : ∀ y < x, ¬s.Same y x
      · exact ⟨x, mem_leaders.mpr ⟨hx, hfirst⟩, rfl⟩
      · push Not at hfirst
        obtain ⟨y, hy, hsame⟩ := hfirst
        obtain ⟨l, hl, hly⟩ := ih y hy (hy.trans hx)
        exact ⟨l, hl, hly.trans hsame⟩

/-- Different leaders lead different classes. -/
theorem leaders_pairwise (s : DisjointSet) (bound : Nat) :
    (s.leaders bound).Pairwise fun l m => s.rootOf l ≠ s.rootOf m := by
  have hsorted : (s.leaders bound).Pairwise (· < ·) := List.pairwise_lt_range.filter _
  refine hsorted.imp_of_mem fun {l m} hl hm hlt => ?_
  exact (mem_leaders.mp hm).2 l hlt

theorem place_map
    {f : Nat → Nat}
    {g : Nat → List Nat}
    {ls : List Nat}
    {l : Nat}
    (hdistinct : ls.Pairwise fun l m => f l ≠ f m)
    (hl : l ∈ ls) :
    place (f l) x (ls.map fun m => (f m, g m)) =
      ls.map fun m => (f m, if f m = f l then x :: g m else g m) := by
  induction ls with
  | nil => simp at hl
  | cons m ls ih =>
      rw [List.pairwise_cons] at hdistinct
      rw [List.map_cons, List.map_cons, place]
      by_cases hm : f m = f l
      · rw [if_pos hm, if_pos hm]
        congr 1
        apply List.map_congr_left
        intro k hk
        rw [if_neg fun h => hdistinct.1 k hk (hm.trans h.symm)]
      · have hl : l ∈ ls := (List.mem_cons.mp hl).resolve_left fun h => hm (by rw [h])
        rw [if_neg hm, if_neg hm, ih hdistinct.2 hl]

theorem place_of_forall_ne
    {groups : List (Nat × List Nat)}
    (hnew : ∀ group ∈ groups, group.1 ≠ r) :
    place r x groups = groups ++ [(r, [x])] := by
  induction groups with
  | nil => rfl
  | cons group groups ih =>
      rw [place, if_neg (hnew group List.mem_cons_self),
        ih fun g hg => hnew g (List.mem_cons_of_mem group hg), List.cons_append]

/-- The groups once the numbers below a bound have been placed. -/
def table (s : DisjointSet) (bound : Nat) : List (Nat × List Nat) :=
  (s.leaders bound).map fun l => (s.rootOf l, (s.classOf bound l).reverse)

theorem place_table (s : DisjointSet) (bound : Nat) :
    place (s.rootOf bound) bound (s.table bound) = s.table (bound + 1) := by
  have hclass : ∀ l, s.classOf (bound + 1) l =
      s.classOf bound l ++ if s.rootOf bound = s.rootOf l then [bound] else [] := by
    intro l
    simp [classOf, List.range_succ, List.filter_append, List.filter_singleton]
  by_cases hfirst : ∀ y < bound, ¬s.Same y bound
  · have hleaders : s.leaders (bound + 1) = s.leaders bound ++ [bound] := by
      have : ((List.range bound).all fun y => s.rootOf y != s.rootOf bound) = true := by
        simpa [Same] using hfirst
      simp [leaders, List.range_succ, List.filter_append, this]
    have hnone : s.classOf bound bound = [] := by
      simpa [classOf, List.filter_eq_nil_iff, Same] using hfirst
    have hother : ∀ l ∈ s.leaders bound, s.rootOf bound ≠ s.rootOf l := by
      intro l hl h
      exact hfirst l (mem_leaders.mp hl).1 h.symm
    rw [place_of_forall_ne]
    · rw [table, table, hleaders, List.map_append]
      congr 1
      · apply List.map_congr_left
        intro l hl
        rw [hclass, if_neg (hother l hl), List.append_nil]
      · simp [hclass, hnone]
    · simp only [table, List.mem_map]
      rintro group ⟨l, hl, rfl⟩
      exact (hother l hl).symm
  · push Not at hfirst
    obtain ⟨y, hy, hsame⟩ := hfirst
    obtain ⟨l, hl, hly⟩ := s.exists_mem_leaders hy
    have hroot : s.rootOf bound = s.rootOf l := (hly.trans hsame).symm
    have hleaders : s.leaders (bound + 1) = s.leaders bound := by
      have : ¬((List.range bound).all fun y => s.rootOf y != s.rootOf bound) = true := by
        simp only [List.all_eq_true, List.mem_range, bne_iff_ne, not_forall]
        exact ⟨y, hy, fun h => h hsame⟩
      simp [leaders, List.range_succ, List.filter_append, this]
    rw [table, hroot, place_map (s.leaders_pairwise bound) hl, table, hleaders]
    apply List.map_congr_left
    intro m hm
    rw [hclass, hroot]
    by_cases hml : s.rootOf m = s.rootOf l
    · simp [hml]
    · simp [hml, Ne.symm hml]

theorem gather_spec
    (hs : s.Forest)
    (bound : Nat)
    (k : Nat)
    (hk : bound + k = s.size) :
    (gather (List.range' bound k) s (s.table bound)).1 = s.table s.size := by
  induction k generalizing s bound with
  | zero => rw [← hk, List.range'_zero, gather, Nat.add_zero]
  | succ k ih =>
      have hfind := find_shortened hs (x := bound) (by omega)
      have htable : ∀ b, (s.find bound).2.table b = s.table b := by
        intro b
        simp [table, leaders, classOf, hfind.roots]
      have hrest := ih hfind.forest (bound + 1) (by rw [hfind.size]; omega)
      rw [htable, htable, hfind.size] at hrest
      rw [← place_table] at hrest
      rw [List.range'_succ]
      exact hrest

/-- Looking up the roots of listed elements shortens paths only. -/
theorem gather_shortened
    (hs : s.Forest)
    (elements : List Nat)
    (hin : ∀ x ∈ elements, x < s.size)
    (groups : List (Nat × List Nat)) :
    s.Shortened (gather elements s groups).2 := by
  induction elements generalizing s groups with
  | nil => exact .refl hs
  | cons x elements ih =>
      have hfind := find_shortened hs (hin x List.mem_cons_self)
      refine hfind.trans (ih hfind.forest (fun y hy => ?_) _)
      rw [hfind.size]
      exact hin y (List.mem_cons_of_mem x hy)

/-- The groups of a forest are its classes, each once and ascending, in the order of their leaders. -/
theorem groups_eq (hs : s.Forest) :
    s.groups.1 = (s.leaders s.size).map fun l => s.classOf s.size l := by
  have hgather := gather_spec hs 0 s.size (by omega)
  have hstart : s.table 0 = [] := rfl
  rw [hstart, ← List.range_eq_range'] at hgather
  change (gather (List.range s.size) s []).1.map (fun group => group.2.reverse) = _
  rw [hgather, table, List.map_map]
  simp

end PatternGraph.DisjointSet
