import Mathlib.Data.List.Sort
import PatternGraph.Proofs.DisjointSet.Classes

/-!
# Calls on a forest

A forest starts with one set for each number, and is then looked at and joined in any order.  Looking
up a root rewrites parents on the way, so every call leaves another forest behind.  Whatever the calls
have been, both loops of the next look-up end inside the forest, and the classes are the connected
components of the pairs that have been united.
-/

namespace PatternGraph.DisjointSet

variable {s t : DisjointSet} {n x r : Nat}

/-- The loop that goes up from an element, parent by parent: whether it ends, and at which root. -/
inductive Climbs (s : DisjointSet) : Nat → Nat → Prop
  | stop {root : Nat} (hin : root < s.size) (hroot : s.parentOf root = root) : Climbs s root root
  | up {x root : Nat} (hin : x < s.size) (hparent : s.parentOf x ≠ x)
      (rest : Climbs s (s.parentOf x) root) : Climbs s x root

/-- The loop that hangs a path below its root, element by element: whether it ends, and with what. -/
inductive Shortens (root : Nat) : DisjointSet → Nat → DisjointSet → Prop
  | stop {s : DisjointSet} {x : Nat} (hin : x < s.size) (hparent : s.parentOf x = root) :
      Shortens root s x s
  | hang {s t : DisjointSet} {x : Nat} (hin : x < s.size) (hparent : s.parentOf x ≠ root)
      (rest : Shortens root (s.hang x root) (s.parentOf x) t) : Shortens root s x t

/-- A root has nothing above it in height when it is the only element that can be reached. -/
theorem parentOf_eq_self_of_above_le_zero
    {height : Nat → Nat}
    (hs : s.Forest)
    (hheight : s.Rises height)
    (habove : s.above height x ≤ 0) :
    s.parentOf x = x := by
  by_contra hx
  have := above_parentOf_lt hs hheight hx
  omega

/-- The first loop of a look-up ends, as the elements that are higher get fewer. -/
theorem climbs_climb
    {height : Nat → Nat}
    (hs : s.Forest)
    (hheight : s.Rises height)
    (fuel : Nat)
    (hx : x < s.size)
    (hfuel : s.above height x ≤ fuel) :
    s.Climbs x (s.climb fuel x) := by
  induction fuel generalizing x with
  | zero => exact .stop hx (parentOf_eq_self_of_above_le_zero hs hheight hfuel)
  | succ fuel ih =>
      rw [climb]
      split
      case isTrue hroot => exact .stop hx hroot
      case isFalse hparent =>
        have := above_parentOf_lt hs hheight hparent
        exact .up hx hparent (ih (hs.inside x hx) (by omega))

/-- The second loop of a look-up ends for the same reason: it leaves all heights as they are. -/
theorem shortens_compress
    {height : Nat → Nat}
    (hs : s.Forest)
    (hheight : s.Rises height)
    (fuel : Nat)
    (hx : x < s.size)
    (hr : s.rootOf x = r)
    (hfuel : s.above height x ≤ fuel) :
    Shortens r s x (s.compress r fuel x) := by
  have hself : s.parentOf x = x → s.parentOf x = r := fun hroot => by
    rw [hroot, ← hr, rootOf_eq_self hroot]
  induction fuel generalizing s x with
  | zero => exact .stop hx (hself (parentOf_eq_self_of_above_le_zero hs hheight hfuel))
  | succ fuel ih =>
      rw [compress]
      split
      case isTrue hparent => exact .stop hx hparent
      case isFalse hparent =>
        subst hr
        obtain ⟨hforest, hroots⟩ := hs.hang_rootOf hx
        have hlower := above_parentOf_lt hs hheight fun hroot => hparent (hself hroot)
        have habove : (s.hang x (s.rootOf x)).above height (s.parentOf x) =
            s.above height (s.parentOf x) := by
          rw [above, size_hang, above]
        have hnext : (s.hang x (s.rootOf x)).rootOf (s.parentOf x) = s.rootOf x := by
          rw [hroots, hs.rootOf_parentOf]
        refine .hang hx hparent (ih hforest (hheight.hang_rootOf hx) ?_ hnext (by omega) fun hroot => ?_)
        · simpa using hs.inside x hx
        · rw [hroot, ← hnext, rootOf_eq_self hroot]

/-- Both loops of a look-up end, with the root and the forest that the look-up gives. -/
theorem Forest.find_ends (hs : s.Forest) (hx : x < s.size) :
    s.Climbs x (s.find x).1 ∧ Shortens (s.find x).1 s x (s.find x).2 := by
  obtain ⟨height, hheight⟩ := hs.rising
  have hfuel := s.above_le_size height x
  exact ⟨climbs_climb hs hheight s.size hx hfuel, shortens_compress hs hheight s.size hx rfl hfuel⟩

/-- A call on a forest over the numbers below `n`. -/
inductive Call (n : Nat) where
  | find (x : Fin n)
  | union (x y : Fin n)
  | groups
deriving DecidableEq, Repr

/-- The forest that a call leaves behind. -/
def Call.run : Call n → DisjointSet → DisjointSet
  | .find x, s => (s.find x).2
  | .union x y, s => (s.union x y).2
  | .groups, s => s.groups.2

/-- The forest after a series of calls, the first of them on one set for each number. -/
def after (calls : List (Call n)) : DisjointSet :=
  calls.foldl (fun s call => call.run s) (singletons n)

/-- Whether two numbers are connected by the pairs that a series of calls has united. -/
def Connected (calls : List (Call n)) : Fin n → Fin n → Prop :=
  Relation.EqvGen fun x y => .union x y ∈ calls

theorem after_append (calls : List (Call n)) (call : Call n) :
    after (calls ++ [call]) = call.run (after calls) := by
  rw [after, after, List.foldl_append]
  rfl

/-- A call other than a union shortens paths only. -/
theorem Call.run_shortened
    (hs : s.Forest)
    (hsize : s.size = n)
    (call : Call n)
    (hcall : ∀ x y, call ≠ .union x y) :
    s.Shortened (call.run s) := by
  cases call with
  | find x => exact find_shortened hs (hsize ▸ x.isLt)
  | union x y => exact absurd rfl (hcall x y)
  | groups => exact gather_shortened hs _ (fun x hx => List.mem_range.mp hx) []

theorem connected_append_of_ne
    (calls : List (Call n))
    {call : Call n}
    (hcall : ∀ x y, call ≠ .union x y) :
    Connected (calls ++ [call]) = Connected calls := by
  have hpairs : ∀ x y, .union x y ∈ calls ++ [call] ↔ .union x y ∈ calls := by
    intro x y
    simp [(hcall x y).symm]
  simp only [Connected, hpairs]

theorem connected_append_union (calls : List (Call n)) (x y u v : Fin n) :
    Connected (calls ++ [.union x y]) u v ↔
      Connected calls u v ∨ (Connected calls u x ∧ Connected calls v y) ∨
        (Connected calls u y ∧ Connected calls v x) := by
  have hpairs : (fun u v => Call.union u v ∈ calls ++ [.union x y]) =
      fun u v => .union u v ∈ calls ∨ (u = x ∧ v = y) := by
    funext u v
    simp
  rw [Connected, hpairs, eqvGen_or_pair]
  rfl

/-- After any calls there is a forest whose classes are the connected components. -/
theorem after_spec (calls : List (Call n)) :
    (after calls).Forest ∧ (after calls).size = n ∧
      ∀ u v : Fin n, (after calls).Same u v ↔ Connected calls u v := by
  induction calls using List.reverseRecOn with
  | nil =>
      refine ⟨singletons_forest n, size_singletons n, fun u v => ?_⟩
      change (singletons n).rootOf u = (singletons n).rootOf v ↔ _
      rw [rootOf_singletons, rootOf_singletons, Fin.val_inj]
      constructor
      · rintro rfl
        exact .refl u
      · intro h
        induction h with
        | rel u v h => simp at h
        | refl u => rfl
        | symm u v _ ih => exact ih.symm
        | trans u v w _ _ ih ih' => exact ih.trans ih'
  | append_singleton calls call ih =>
      obtain ⟨hforest, hsize, hsame⟩ := ih
      rw [after_append]
      by_cases hcall : ∀ x y, call ≠ .union x y
      · have hrun := call.run_shortened hforest hsize hcall
        refine ⟨hrun.forest, hrun.size.trans hsize, fun u v => ?_⟩
        rw [connected_append_of_ne calls hcall, ← hsame, Same, Same, hrun.roots]
      · push Not at hcall
        obtain ⟨x, y, rfl⟩ := hcall
        obtain ⟨hforest', hsize', -, hmerged⟩ :=
          union_spec hforest (by rw [hsize]; exact x.isLt) (by rw [hsize]; exact y.isLt)
        refine ⟨hforest', hsize'.trans hsize, fun u v => ?_⟩
        rw [connected_append_union, ← hsame, ← hsame, ← hsame, ← hsame, ← hsame]
        exact hmerged u v

/--
Whether a list has the classes of a relation on the numbers below `n`, each of them once and in ascending
order, by their least members.
-/
structure ListsClasses (R : Fin n → Fin n → Prop) (groups : List (List Nat)) : Prop where
  classes : ∀ group, group ∈ groups ↔
    group.Pairwise (· < ·) ∧ ∃ x : Fin n, ∀ y, y ∈ group ↔ ∃ h : y < n, R x ⟨y, h⟩
  ordered : groups.Pairwise fun group later =>
    ∃ least ∈ group, (∀ y ∈ group, least ≤ y) ∧ ∀ y ∈ later, least < y

/-- The groups of a forest are the classes of any relation that its classes agree with. -/
theorem Forest.groups_listsClasses
    {R : Fin n → Fin n → Prop}
    (hs : s.Forest)
    (hsize : s.size = n)
    (hsame : ∀ u v : Fin n, s.Same u v ↔ R u v) :
    ListsClasses R s.groups.1 := by
  have hclass : ∀ (l : Fin n) (y : Nat), y ∈ s.classOf n l ↔ ∃ h : y < n, R l ⟨y, h⟩ := by
    intro l y
    rw [mem_classOf]
    constructor
    · rintro ⟨hy, hl⟩
      exact ⟨hy, (hsame l ⟨y, hy⟩).mp hl.symm⟩
    · rintro ⟨hy, hl⟩
      exact ⟨hy, ((hsame l ⟨y, hy⟩).mpr hl).symm⟩
  have hascending : ∀ l, (s.classOf n l).Pairwise (· < ·) := fun l => List.pairwise_lt_range.filter _
  rw [groups_eq hs, hsize]
  constructor
  · intro group
    constructor
    · intro hgroup
      obtain ⟨l, hl, rfl⟩ := List.mem_map.mp hgroup
      exact ⟨hascending l, ⟨l, (mem_leaders.mp hl).1⟩, hclass ⟨l, (mem_leaders.mp hl).1⟩⟩
    · rintro ⟨hgroup, x, hx⟩
      obtain ⟨l, hl, hlx⟩ := s.exists_mem_leaders x.isLt
      refine List.mem_map.mpr ⟨l, hl, (hascending l).eq_of_mem_iff hgroup fun {y} => ?_⟩
      rw [hx, ← hclass, mem_classOf, mem_classOf, Same, Same, hlx]
  · rw [List.pairwise_map]
    refine List.Pairwise.imp_of_mem (fun {l m} hl hm hlt => ?_) (List.pairwise_lt_range.filter _)
    refine ⟨l, mem_classOf.mpr ⟨(mem_leaders.mp hl).1, rfl⟩, fun y hy => ?_, fun y hy => ?_⟩
    · by_contra hless
      exact (mem_leaders.mp hl).2 y (by omega) (mem_classOf.mp hy).2
    · by_contra hless
      have hym := (mem_classOf.mp hy).2
      rcases Nat.lt_or_eq_of_le (Nat.le_of_not_lt hless) with hyl | rfl
      · exact (mem_leaders.mp hm).2 y (hyl.trans hlt) hym
      · exact (mem_leaders.mp hm).2 y hlt hym

/--
After any series of look-ups, unions and listings, both loops of a look-up end, and it leaves all classes
as they are; two elements have the same root exactly when the pairs united so far connect them; a union
tells whether its elements were not connected before; and the groups are the connected components, by
their least members.  The look-ups that a union or a listing makes are among these: each comes after
the calls so far and the look-ups before it.
-/
theorem finds_connected_components (calls : List (Call n)) :
    let s := after calls
    (∀ x : Fin n, s.Climbs x (s.find x).1 ∧ Shortens (s.find x).1 s x (s.find x).2 ∧
      ∀ u v : Fin n, (s.find x).2.Same u v ↔ s.Same u v) ∧
    (∀ x y : Fin n, (s.find x).1 = ((s.find x).2.find y).1 ↔ Connected calls x y) ∧
    (∀ x y : Fin n, (s.union x y).1 = true ↔ ¬Connected calls x y) ∧
    ListsClasses (Connected calls) s.groups.1 := by
  intro s
  obtain ⟨hforest, hsize, hsame⟩ := after_spec calls
  have hin : ∀ x : Fin n, (x : Nat) < s.size := fun x => by
    rw [hsize]
    exact x.isLt
  refine ⟨fun x => ?_, fun x y => ?_, fun x y => ?_, hforest.groups_listsClasses hsize hsame⟩
  · obtain ⟨hclimbs, hshortens⟩ := hforest.find_ends (hin x)
    refine ⟨hclimbs, hshortens, fun u v => ?_⟩
    rw [Same, Same, (find_shortened hforest (hin x)).roots]
  · rw [find_fst, find_fst, (find_shortened hforest (hin x)).roots]
    exact hsame x y
  · obtain ⟨-, -, hnew, -⟩ := union_spec hforest (hin x) (hin y)
    rw [hnew, hsame]

/-- Of five elements three are united, one of the pairs twice over. -/
example :
    let s := after ([.union 3 1, .union 1 4, .find 3, .union 4 3] : List (Call 5))
    s.groups.1 = [[0], [1, 3, 4], [2]] ∧ (s.union 4 1).1 = false ∧ (s.union 2 4).1 = true := by
  decide

end PatternGraph.DisjointSet
