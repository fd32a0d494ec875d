import Mathlib.Algebra.Group.Nat.Defs
import Mathlib.Data.Nat.Log
import PatternGraph.Proofs.DisjointSet.Calls

/-!
# Ranks

A rank is no height, as paths are shortened without a change of ranks.  But it grows along every path,
and a root of rank `r` has at least `2 ^ r` elements in its class: a rank goes up by one only when two
roots of the same rank are linked.  So ranks and paths are at most as long as the logarithm of the
number of elements, and the limit of a rank is out of reach.
-/

namespace PatternGraph.DisjointSet

variable {s t : DisjointSet} {n a b x y : Nat}

/-- Ranks grow along every path, and no class is smaller than the rank of its root tells. -/
structure Ranked (s : DisjointSet) : Prop where
  sized : s.rank.size = s.size
  rises : s.Rises s.rankOf
  members : ∀ r < s.size, s.parentOf r = r → 2 ^ s.rankOf r ≤ (s.classOf s.size r).length

theorem nodup_classOf (s : DisjointSet) (bound x : Nat) : (s.classOf bound x).Nodup :=
  List.nodup_range.filter _

theorem length_classOf_le (s : DisjointSet) (bound x : Nat) : (s.classOf bound x).length ≤ bound := by
  simpa [classOf] using List.length_filter_le (fun y => s.rootOf y == s.rootOf x) (List.range bound)

/-- A class that takes in another one is at least as large. -/
theorem length_classOf_le_of_same
    {bound : Nat}
    (hsame : ∀ z, s.Same z x → t.Same z y) :
    (s.classOf bound x).length ≤ (t.classOf bound y).length := by
  refine ((s.nodup_classOf bound x).subperm fun z hz => ?_).length_le
  obtain ⟨hz, hzx⟩ := mem_classOf.mp hz
  exact mem_classOf.mpr ⟨hz, hsame z hzx⟩

/-- Two classes have no more elements together than a list that has the elements of both. -/
theorem length_classOf_add_le
    {bound : Nat}
    {elements : List Nat}
    (hapart : ¬s.Same x y)
    (hmem : ∀ z < bound, s.Same z x ∨ s.Same z y → z ∈ elements) :
    (s.classOf bound x).length + (s.classOf bound y).length ≤ elements.length := by
  rw [← List.length_append]
  refine (List.Nodup.subperm ?_ fun z hz => ?_).length_le
  · refine (s.nodup_classOf bound x).append (s.nodup_classOf bound y) fun z hx hy => ?_
    exact hapart ((mem_classOf.mp hx).2.symm.trans (mem_classOf.mp hy).2)
  · rcases List.mem_append.mp hz with hz | hz
    · exact hmem z (mem_classOf.mp hz).1 (Or.inl (mem_classOf.mp hz).2)
    · exact hmem z (mem_classOf.mp hz).1 (Or.inr (mem_classOf.mp hz).2)

theorem Apart.not_same (hab : s.Apart a b) : ¬s.Same a b := by
  rw [Same, rootOf_eq_self hab.root, rootOf_eq_self hab.root']
  exact hab.ne

theorem rankOf_hang (s : DisjointSet) (x root y : Nat) : (s.hang x root).rankOf y = s.rankOf y := rfl

/-- Raises the rank of an element by one. -/
def raise (s : DisjointSet) (x : Nat) : DisjointSet :=
  { s with rank := s.rank.setIfInBounds x (s.rankOf x + 1) }

theorem parentOf_raise (s : DisjointSet) (x y : Nat) : (s.raise x).parentOf y = s.parentOf y := rfl

theorem rootOf_raise (s : DisjointSet) (x y : Nat) : (s.raise x).rootOf y = s.rootOf y :=
  s.rootOf_ranked _ y

theorem size_raise (s : DisjointSet) (x : Nat) : (s.raise x).size = s.size := rfl

theorem rankOf_raise (hx : x < s.rank.size) (y : Nat) :
    (s.raise x).rankOf y = if y = x then s.rankOf x + 1 else s.rankOf y := by
  by_cases hyx : y = x
  · subst hyx
    simp [raise, rankOf, hx]
  · simp [raise, rankOf, Array.getD_eq_getD_getElem?, hyx, Ne.symm hyx]

theorem singletons_ranked (n : Nat) : (singletons n).Ranked := by
  have hrank : ∀ x, (singletons n).rankOf x = 0 := fun x => by
    simp [rankOf, singletons, Array.getD_eq_getD_getElem?, Array.getElem?_replicate]
    split <;> rfl
  refine ⟨by simp [singletons, size], fun x hx => absurd (parentOf_singletons n x) hx, fun r hr _ => ?_⟩
  rw [hrank]
  exact List.length_pos_of_mem (mem_classOf.mpr ⟨hr, rfl⟩)

namespace Ranked

/-- Shortening paths leaves ranks and classes as they are. -/
theorem shortened (h : s.Ranked) (hs : s.Forest) (ht : s.Shortened t) : t.Ranked := by
  refine ⟨?_, ?_, fun r hr hroot => ?_⟩
  · rw [ht.rank, ht.size, h.sized]
  · rw [ht.rankOf]
    exact ht.rises _ h.rises
  · have hself : s.rootOf r = r := by rw [← ht.roots, rootOf_eq_self hroot]
    have hclass : t.classOf s.size r = s.classOf s.size r := by simp only [classOf, ht.roots]
    rw [ht.size] at hr ⊢
    rw [ht.rankOf, hclass]
    refine h.members r hr ?_
    rw [← hself]
    exact hs.parentOf_rootOf r

theorem rankOf_le_rootOf (h : s.Ranked) (x : Nat) : s.rankOf x ≤ s.rankOf (s.rootOf x) := by
  by_cases hx : s.rootOf x = x
  · rw [hx]
  · exact (Forest.height_lt_rootOf h.rises x hx).le

/-- No rank tells of more elements than there are. -/
theorem two_pow_rankOf_le_size (h : s.Ranked) (hs : s.Forest) (hx : x < s.size) :
    2 ^ s.rankOf x ≤ s.size := by
  calc
    2 ^ s.rankOf x ≤ 2 ^ s.rankOf (s.rootOf x) := Nat.pow_le_pow_right (by decide) (h.rankOf_le_rootOf x)
    _ ≤ (s.classOf s.size (s.rootOf x)).length :=
      h.members _ (hs.rootOf_lt_size hx) (hs.parentOf_rootOf x)
    _ ≤ s.size := s.length_classOf_le _ _

theorem rankOf_le_log (h : s.Ranked) (hs : s.Forest) (hx : x < s.size) :
    s.rankOf x ≤ Nat.log 2 s.size :=
  Nat.le_log_of_pow_le (by decide) (h.two_pow_rankOf_le_size hs hx)

/-- A chain of parents is not longer than the rank at its end. -/
theorem le_rankOf_iterate
    (h : s.Ranked)
    (k x : Nat)
    (hchain : ∀ i < k, s.parentOf (s.parentOf^[i] x) ≠ s.parentOf^[i] x) :
    k ≤ s.rankOf (s.parentOf^[k] x) := by
  induction k with
  | zero => exact Nat.zero_le _
  | succ k ih =>
      rw [Function.iterate_succ_apply']
      have hbelow := ih fun i hi => hchain i (by omega)
      have hrise := h.rises _ (hchain k (by omega))
      omega

theorem chain_le_log
    (h : s.Ranked)
    (hs : s.Forest)
    (k x : Nat)
    (hchain : ∀ i < k, s.parentOf (s.parentOf^[i] x) ≠ s.parentOf^[i] x) :
    k ≤ Nat.log 2 s.size := by
  rcases Nat.eq_zero_or_pos k with rfl | hk
  · exact Nat.zero_le _
  · have hx : x < s.size := lt_size_of_parentOf_ne (hchain 0 hk)
    exact (h.le_rankOf_iterate k x hchain).trans (h.rankOf_le_log hs (hs.iterate_lt_size hx k))

/-- Two roots of the same rank have twice as many elements as the rank of one of them tells. -/
theorem two_pow_succ_le
    (h : s.Ranked)
    (hab : s.Apart a b)
    (hrank : s.rankOf a = s.rankOf b) :
    2 ^ (s.rankOf a + 1) ≤ (s.classOf s.size a).length + (s.classOf s.size b).length := by
  have hmembers := h.members a hab.inside hab.root
  have hmembers' := h.members b hab.inside' hab.root'
  rw [← hrank] at hmembers'
  rw [Nat.pow_succ]
  omega

/-- Among fewer than `2 ^ 256` elements no rank goes up from the limit. -/
theorem rankOf_succ_le_limit
    (h : s.Ranked)
    (hsize : s.size < 2 ^ 256)
    (hab : s.Apart a b)
    (hrank : s.rankOf a = s.rankOf b) :
    s.rankOf a + 1 ≤ rankLimit := by
  have htogether : (s.classOf s.size a).length + (s.classOf s.size b).length ≤ s.size := by
    rw [← List.length_range (n := s.size)]
    exact length_classOf_add_le hab.not_same fun z hz _ => by simpa using hz
  have hpow : 2 ^ (s.rankOf a + 1) < 2 ^ 256 :=
    ((h.two_pow_succ_le hab hrank).trans htogether).trans_lt hsize
  have hrank : s.rankOf a + 1 < 256 := (Nat.pow_lt_pow_iff_right (by decide)).mp hpow
  exact Nat.le_of_lt_succ hrank

/-- Hanging a root below one of larger rank keeps ranks in order. -/
theorem hang
    (h : s.Ranked)
    (hs : s.Forest)
    (hab : s.Apart a b)
    (hrank : s.rankOf a < s.rankOf b) :
    (s.hang a b).Ranked := by
  obtain ⟨-, hroots⟩ := hs.hang_root hab
  refine ⟨?_, fun y hy => ?_, fun r hr hself => ?_⟩
  · rw [size_hang]
    exact h.sized
  · rw [rankOf_hang, rankOf_hang]
    rw [parentOf_hang hab.inside] at hy ⊢
    split
    case isTrue hya => rwa [hya]
    case isFalse hya =>
      rw [if_neg hya] at hy
      exact h.rises y hy
  · rw [size_hang] at hr ⊢
    rw [parentOf_hang hab.inside] at hself
    by_cases hra : r = a
    · rw [if_pos hra] at hself
      exact absurd (hself.trans hra).symm hab.ne
    · rw [if_neg hra] at hself
      refine (h.members r hr hself).trans (length_classOf_le_of_same fun z hz => ?_)
      rw [Same] at hz ⊢
      rw [hroots, hroots, hz]

/-- Ranks still grow along every path when the root of two linked ones goes up. -/
theorem rises_hang_raise
    (h : s.Ranked)
    (hab : s.Apart a b)
    (hrank : s.rankOf a = s.rankOf b) :
    ((s.hang b a).raise a).Rises ((s.hang b a).raise a).rankOf := by
  have hin : a < (s.hang b a).rank.size := h.sized ▸ hab.inside
  intro y hy
  rw [parentOf_raise, parentOf_hang hab.inside'] at hy ⊢
  rw [rankOf_raise hin, rankOf_raise hin, rankOf_hang, rankOf_hang, rankOf_hang]
  by_cases hyb : y = b
  · subst hyb
    simp [hab.ne.symm, hrank]
  · rw [if_neg hyb] at hy ⊢
    have hrise := h.rises y hy
    have hya : y ≠ a := fun hya => hy (hya ▸ hab.root)
    rw [if_neg hya]
    split
    case isTrue hend =>
      rw [hend] at hrise
      omega
    case isFalse hend => exact hrise

/-- The root of two linked ones has the elements of both, and every other root has what it had. -/
theorem members_hang_raise
    {r : Nat}
    (h : s.Ranked)
    (hs : s.Forest)
    (hab : s.Apart a b)
    (hrank : s.rankOf a = s.rankOf b)
    (hr : r < s.size)
    (hself : ((s.hang b a).raise a).parentOf r = r) :
    2 ^ ((s.hang b a).raise a).rankOf r ≤ (((s.hang b a).raise a).classOf s.size r).length := by
  have hin : a < (s.hang b a).rank.size := h.sized ▸ hab.inside
  obtain ⟨-, hroots⟩ := hs.hang_root hab.symm
  have hrootOf : ∀ y, ((s.hang b a).raise a).rootOf y = if s.rootOf y = b then a else s.rootOf y :=
    fun y => by rw [rootOf_raise, hroots]
  rw [parentOf_raise, parentOf_hang hab.inside'] at hself
  rw [rankOf_raise hin, rankOf_hang, rankOf_hang]
  have hrb : r ≠ b := fun hrb => by
    rw [if_pos hrb] at hself
    exact hab.ne (hself.trans hrb)
  rw [if_neg hrb] at hself
  by_cases hra : r = a
  · subst hra
    rw [if_pos rfl]
    refine (h.two_pow_succ_le hab hrank).trans ?_
    refine length_classOf_add_le hab.not_same fun z hz hsame => mem_classOf.mpr ⟨hz, ?_⟩
    simp only [Same, hrootOf, rootOf_eq_self hab.root, rootOf_eq_self hab.root'] at hsame ⊢
    grind
  · rw [if_neg hra]
    refine (h.members r hr hself).trans (length_classOf_le_of_same fun z hz => ?_)
    rw [Same] at hz ⊢
    rw [hrootOf, hrootOf, hz]

/-- A root goes up in rank when another one of the same rank is hung below it. -/
theorem hang_raise
    (h : s.Ranked)
    (hs : s.Forest)
    (hab : s.Apart a b)
    (hrank : s.rankOf a = s.rankOf b) :
    ((s.hang b a).raise a).Ranked := by
  have hsize : ((s.hang b a).raise a).size = s.size := by rw [size_raise, size_hang]
  refine ⟨?_, h.rises_hang_raise hab hrank, fun r hr hself => ?_⟩
  · rw [hsize, ← h.sized]
    exact Array.size_setIfInBounds ..
  · rw [hsize] at hr ⊢
    exact h.members_hang_raise hs hab hrank hr hself

/-- Linking two roots of the same rank raises the first one by one. -/
theorem link_of_rankOf_eq
    (h : s.Ranked)
    (hsize : s.size < 2 ^ 256)
    (hab : s.Apart a b)
    (hrank : s.rankOf a = s.rankOf b) :
    s.link a b = (s.hang b a).raise a := by
  rw [DisjointSet.link, if_neg (by omega), if_neg (by omega),
    min_eq_right (h.rankOf_succ_le_limit hsize hab hrank)]
  rfl

/-- Linking keeps ranks in order, as long as the limit of a rank is out of reach. -/
theorem link
    (h : s.Ranked)
    (hs : s.Forest)
    (hsize : s.size < 2 ^ 256)
    (hab : s.Apart a b) :
    (s.link a b).Ranked := by
  rcases Nat.lt_trichotomy (s.rankOf a) (s.rankOf b) with hless | hrank | hmore
  · rw [DisjointSet.link, if_pos hless]
    exact h.hang hs hab hless
  · rw [h.link_of_rankOf_eq hsize hab hrank]
    exact h.hang_raise hs hab hrank
  · rw [DisjointSet.link, if_neg (by omega), if_pos hmore]
    exact h.hang hs hab.symm hmore

/-- A union of two classes whose roots have the same rank raises the rank of the first root by one. -/
theorem rankOf_union
    (h : s.Ranked)
    (hs : s.Forest)
    (hsize : s.size < 2 ^ 256)
    (hx : x < s.size)
    (hy : y < s.size)
    (hne : s.rootOf x ≠ s.rootOf y)
    (hrank : s.rankOf (s.rootOf x) = s.rankOf (s.rootOf y)) :
    (s.union x y).2.rankOf (s.rootOf x) = s.rankOf (s.rootOf x) + 1 := by
  have hfound := find_find_shortened hs hx hy
  have hranked := h.shortened hs hfound
  have hin : s.rootOf x < ((s.find x).2.find y).2.rank.size := by
    rw [hranked.sized, hfound.size]
    exact hs.rootOf_lt_size hx
  rw [union_eq hs hx, if_neg hne, hranked.link_of_rankOf_eq (by rwa [hfound.size])
    (hfound.apart_rootOf hs hx hy hne) (by rwa [hfound.rankOf])]
  dsimp only
  rw [rankOf_raise (by exact hin), if_pos rfl, rankOf_hang, hfound.rankOf]

end Ranked

/-- After any calls on fewer than `2 ^ 256` elements, ranks are in order. -/
theorem after_ranked (calls : List (Call n)) (hn : n < 2 ^ 256) : (after calls).Ranked := by
  induction calls using List.reverseRecOn with
  | nil => exact singletons_ranked n
  | append_singleton calls call ih =>
      obtain ⟨hforest, hsize, -⟩ := after_spec calls
      rw [after_append]
      by_cases hcall : ∀ x y, call ≠ .union x y
      · exact ih.shortened hforest (call.run_shortened hforest hsize hcall)
      · push Not at hcall
        obtain ⟨x, y, rfl⟩ := hcall
        have hx : x < (after calls).size := by rw [hsize]; exact x.isLt
        have hy : y < (after calls).size := by rw [hsize]; exact y.isLt
        have hfound := find_find_shortened hforest hx hy
        have hranked := ih.shortened hforest hfound
        rw [Call.run, union_eq hforest hx]
        split
        case isTrue hsame => exact hranked
        case isFalse hne =>
          refine hranked.link hfound.forest ?_ (hfound.apart_rootOf hforest hx hy hne)
          rw [hfound.size, hsize]
          exact hn

/--
After any series of calls on fewer than `2 ^ 256` elements, ranks grow from every element to its parent,
and a root of rank `r` has at least `2 ^ r` elements in its class.  So no rank is larger than the
logarithm of the number of elements; when two roots of the same rank are linked, the rank that goes up
is not held back by the limit; and no chain of parents is longer than the logarithm.
-/
theorem ranks_stay_logarithmic (calls : List (Call n)) (hn : n < 2 ^ 256) :
    let s := after calls
    (∀ x, s.parentOf x ≠ x → s.rankOf x < s.rankOf (s.parentOf x)) ∧
    (∀ r : Fin n, s.parentOf r = r → 2 ^ s.rankOf r ≤ (s.classOf n r).length) ∧
    (∀ x : Fin n, s.rankOf x ≤ Nat.log 2 n) ∧
    (∀ x y : Fin n, s.rootOf x ≠ s.rootOf y → s.rankOf (s.rootOf x) = s.rankOf (s.rootOf y) →
      (s.union x y).2.rankOf (s.rootOf x) = s.rankOf (s.rootOf x) + 1) ∧
    ∀ x k, (∀ i < k, s.parentOf (s.parentOf^[i] x) ≠ s.parentOf^[i] x) → k ≤ Nat.log 2 n := by
  intro s
  obtain ⟨hforest, hsize, -⟩ := after_spec calls
  have hranked := after_ranked calls hn
  have hin : ∀ x : Fin n, (x : Nat) < s.size := fun x => by
    rw [hsize]
    exact x.isLt
  refine ⟨hranked.rises, fun r hroot => ?_, fun x => ?_, fun x y hne hrank => ?_,
    fun x k hchain => ?_⟩
  · have hmembers := hranked.members r (hin r) hroot
    rwa [hsize] at hmembers
  · have hlog := hranked.rankOf_le_log hforest (hin x)
    rwa [hsize] at hlog
  · exact hranked.rankOf_union hforest (by rwa [hsize]) (hin x) (hin y) hne hrank
  · have hlog := hranked.chain_le_log hforest k x hchain
    rwa [hsize] at hlog

/--
Four elements that are united two and two, and then all, reach the bounds: the root of all goes up to
rank two, and the last element is two parents below it.
-/
theorem four_united_reach_log :
    let pairs : List (Call 4) := [.union 0 1, .union 2 3]
    let s := after (pairs ++ [.union 1 3])
    4 < 2 ^ 256 ∧ (after pairs).rootOf 1 ≠ (after pairs).rootOf 3 ∧
      (after pairs).rankOf ((after pairs).rootOf 1) = (after pairs).rankOf ((after pairs).rootOf 3) ∧
      ((after pairs).union 1 3).2.rankOf ((after pairs).rootOf 1) =
        (after pairs).rankOf ((after pairs).rootOf 1) + 1 ∧
      s.parentOf 0 = 0 ∧ s.rankOf 0 = 2 ∧ 2 ^ s.rankOf 0 ≤ (s.classOf 4 0).length ∧
      (∀ i < 2, s.parentOf (s.parentOf^[i] 3) ≠ s.parentOf^[i] 3) ∧ 2 ≤ Nat.log 2 4 := by
  intro pairs s
  have hfew : 4 < 2 ^ 256 := by decide
  have hapart : (after pairs).rootOf 1 ≠ (after pairs).rootOf 3 := by decide
  have hsame : (after pairs).rankOf ((after pairs).rootOf 1) =
      (after pairs).rankOf ((after pairs).rootOf 3) := by decide
  have hroot : s.parentOf 0 = 0 := by decide
  have hchain : ∀ i < 2, s.parentOf (s.parentOf^[i] 3) ≠ s.parentOf^[i] 3 := by decide
  obtain ⟨-, -, -, hraised, -⟩ := ranks_stay_logarithmic pairs hfew
  obtain ⟨-, hmembers, -, -, hlog⟩ := ranks_stay_logarithmic (pairs ++ [.union 1 3]) hfew
  exact ⟨hfew, hapart, hsame, hraised 1 3 hapart hsame, hroot, by decide, hmembers 0 hroot, hchain,
    hlog 3 2 hchain⟩

end PatternGraph.DisjointSet
