import Mathlib.Algebra.Order.BigOperators.Group.List
import Mathlib.Algebra.Order.Group.Nat
import PatternGraph.Proofs.Store.Sound
import PatternGraph.Store.Preflight

/-!
# What comes along

A detached node that comes into a graph draws along the edges that it remembers, and an edge draws
along its ends.  `Drawn` is the least set of items that contains some roots and is closed under this.
A preflight that accepts some nodes has looked at every edge that they draw along.
-/

namespace PatternGraph

namespace Store

/-- Whether an item is among those that some roots draw along, by the remembered edges that count. -/
inductive Drawn (store : Store) (counts : EdgeId → Prop) (roots : List ItemId) : ItemId → Prop
  | root {id : ItemId} (hid : id ∈ roots) : Drawn store counts roots id
  | remembered {n : Node} {e : Edge} (hn : Drawn store counts roots (.node n.id))
      (hfree : store.graphOfNode n = none) (he : e ∈ (store.nodeState n).pending)
      (hcounts : counts e.id) : Drawn store counts roots (.edge e.id)
  | source {e : Edge} {n : Node} (he : Drawn store counts roots (.edge e.id))
      (hn : (store.edgeState e).source = some n) : Drawn store counts roots (.node n.id)
  | target {e : Edge} {n : Node} (he : Drawn store counts roots (.edge e.id))
      (hn : (store.edgeState e).target = some n) : Drawn store counts roots (.node n.id)

theorem Drawn.mono
    {store : Store}
    {counts counts' : EdgeId → Prop}
    {roots : List ItemId}
    {id : ItemId}
    (h : store.Drawn counts roots id)
    (hcounts : ∀ n, ∀ e ∈ (store.nodeState n).pending, counts e.id → counts' e.id) :
    store.Drawn counts' roots id := by
  induction h with
  | root hid => exact .root hid
  | remembered hn hfree he hcount ih => exact .remembered ih hfree he (hcounts _ _ he hcount)
  | source he hn ih => exact .source ih hn
  | target he hn ih => exact .target ih hn

/-- What created roots draw along has been created. -/
theorem Drawn.issued
    {c : Catalogue}
    {store : Store}
    {counts : EdgeId → Prop}
    {roots : List ItemId}
    {id : ItemId}
    (h : store.Drawn counts roots id)
    (hsound : store.Sound c)
    (hroots : ∀ root ∈ roots, store.Issued root) :
    store.Issued id := by
  cases h with
  | root hid => exact hroots id hid
  | remembered hn hfree he hcount => exact (hsound.pending _ _ he).2
  | source he hn => exact (hsound.source _ _ hn).2
  | target he hn => exact (hsound.target _ _ hn).2

section Walk

variable {store : Store}

/-- How many edges the nodes that have not been seen remember. -/
def unseen (store : Store) (seen : Std.ExtTreeSet NodeId) : Nat :=
  ((store.nodes.toList.filter fun entry => !seen.contains entry.1).map
    fun entry => entry.2.pending.length).sum

theorem pendingCount_eq (store : Store) : store.pendingCount = store.unseen ∅ := by
  rw [pendingCount, unseen, Std.ExtTreeMap.foldl_eq_foldl_toList, List.sum_eq_foldl,
    List.foldl_map]
  simp [Std.ExtTreeSet.contains_empty]

theorem sum_filter_add_le
    {α : Type}
    (f : α → Nat)
    {p q : α → Bool}
    {a : α}
    {l : List α}
    (ha : a ∈ l)
    (hp : p a = true)
    (hq : q a = false)
    (hle : ∀ b, q b = true → p b = true) :
    ((l.filter q).map f).sum + f a ≤ ((l.filter p).map f).sum := by
  have hrest : ∀ l : List α, ((l.filter q).map f).sum ≤ ((l.filter p).map f).sum := fun l =>
    ((l.monotone_filter_right hle).map f).sum_le_sum fun _ _ => Nat.zero_le _
  induction l with
  | nil => cases ha
  | cons b l ih =>
      rcases List.mem_cons.mp ha with rfl | ha
      · have := hrest l
        simp only [List.filter_cons, hp, hq, Bool.false_eq_true, if_false, if_true, List.map_cons,
          List.sum_cons]
        omega
      · have := ih ha
        cases hqb : q b with
        | false =>
            cases hpb : p b with
            | false => simpa [List.filter_cons, hqb, hpb] using this
            | true =>
                simp only [List.filter_cons, hqb, hpb, Bool.false_eq_true, if_false, if_true,
                  List.map_cons, List.sum_cons]
                omega
        | true =>
            simp only [List.filter_cons, hqb, hle b hqb, if_true, List.map_cons, List.sum_cons]
            omega

/-- A node that has been seen no longer counts. -/
theorem unseen_insert
    {seen : Std.ExtTreeSet NodeId}
    {n : Node}
    (hn : seen.contains n.id = false) :
    store.unseen (seen.insert n.id) + (store.nodeState n).pending.length ≤ store.unseen seen := by
  have hle : ∀ entry : NodeId × NodeState, (!(seen.insert n.id).contains entry.1) = true →
      (!seen.contains entry.1) = true := by
    intro entry hentry
    simp only [Std.ExtTreeSet.contains_insert, Bool.not_or, Bool.and_eq_true] at hentry
    exact hentry.2
  by_cases hmem : n.id ∈ store.nodes
  · have hentry : (n.id, store.nodeState n) ∈ store.nodes.toList := by
      rw [Std.ExtTreeMap.mem_toList_iff_getElem?_eq_some, nodeState,
        Std.ExtTreeMap.getD_eq_getD_getElem?, Std.ExtTreeMap.getElem?_eq_some_getElem hmem]
      rfl
    exact sum_filter_add_le (fun entry => entry.2.pending.length) hentry (by simp [hn])
      (by simp [Std.ExtTreeSet.contains_insert]) hle
  · rw [nodeState, Std.ExtTreeMap.getD_eq_fallback hmem]
    exact ((store.nodes.toList.monotone_filter_right hle).map _).sum_le_sum
      fun _ _ => Nat.zero_le _

/-- Whether an edge has both ends, of which the detached ones belong to a set of nodes. -/
def Covers (store : Store) (nodes : NodeId → Prop) (e : Edge) : Prop :=
  ∃ s t, store.endpoints? e = some (s, t) ∧ (store.graphOfNode s = none → nodes s.id) ∧
    (store.graphOfNode t = none → nodes t.id)

/-- An inspection that succeeds stacks the detached ends of all edges that it looks at. -/
theorem inspect_covers
    {node : Node}
    {seen : Std.ExtTreeSet NodeId}
    {edges : List Edge}
    {stack stack' : List Node}
    (h : store.inspect node seen edges stack = .ok stack') :
    (∀ n ∈ stack, n ∈ stack') ∧ stack'.length ≤ stack.length + 2 * edges.length ∧
      ∀ e ∈ edges, store.Covers (fun id => id ∈ seen ∨ ∃ n ∈ stack', n.id = id) e := by
  induction edges generalizing stack with
  | nil =>
      obtain rfl := Except.ok.inj h
      exact ⟨fun _ hn => hn, Nat.le_refl _, fun _ he => absurd he List.not_mem_nil⟩
  | cons e edges ih =>
      rw [inspect] at h
      split at h
      · cases h
      · rename_i s t hends
        obtain ⟨hstack, hlength, hcovers⟩ := ih h
        have hfound : ∀ n ∈ [t, s], store.graphOfNode n = none →
            n.id ∈ seen ∨ ∃ m ∈ stack', m.id = n.id := by
          intro n hn hfree
          by_cases hseen : n.id ∈ seen
          · exact Or.inl hseen
          · refine Or.inr ⟨n, hstack n (List.mem_append_left _ ?_), rfl⟩
            rw [Std.ExtTreeSet.mem_iff_contains] at hseen
            exact List.mem_filter.mpr ⟨List.mem_filter.mpr ⟨hn, by simp [hfree]⟩, by simp [hseen]⟩
        refine ⟨fun n hn => hstack n (List.mem_append_right _ hn), ?_, fun f hf => ?_⟩
        · have htwo := (List.length_filter_le (fun n : Node => !seen.contains n.id)
            (store.detached [t, s])).trans (List.length_filter_le _ [t, s])
          rw [List.length_append] at hlength
          simp only [List.length_cons, List.length_nil] at htwo ⊢
          omega
        · rcases List.mem_cons.mp hf with rfl | hf
          · exact ⟨s, t, hends, hfound s (by simp), hfound t (by simp)⟩
          · exact hcovers f hf

/-- A walk that succeeds has met a set of nodes that is closed under going along remembered edges. -/
theorem survey_covers
    {fuel : Nat}
    {seen : Std.ExtTreeSet NodeId}
    {stack : List Node}
    (hfuel : stack.length + 2 * store.unseen seen ≤ fuel)
    (h : store.survey fuel seen stack = .ok ()) :
    ∃ met : NodeId → Prop, (∀ id ∈ seen, met id) ∧ (∀ n ∈ stack, met n.id) ∧
      ∀ n : Node, met n.id → n.id ∉ seen → ∀ e ∈ store.pendingEdges n, store.Covers met e := by
  have hnone : ∀ seen : Std.ExtTreeSet NodeId, ∃ met : NodeId → Prop, (∀ id ∈ seen, met id) ∧
      (∀ n ∈ ([] : List Node), met n.id) ∧
      ∀ n : Node, met n.id → n.id ∉ seen → ∀ e ∈ store.pendingEdges n, store.Covers met e :=
    fun seen => ⟨(· ∈ seen), fun _ hid => hid, fun _ hn => absurd hn List.not_mem_nil,
      fun _ hn hnot => absurd hn hnot⟩
  induction fuel generalizing seen stack with
  | zero =>
      obtain rfl : stack = [] := List.eq_nil_of_length_eq_zero (by omega)
      exact hnone seen
  | succ fuel ih =>
      cases stack with
      | nil => exact hnone seen
      | cons n stack =>
          rw [List.length_cons] at hfuel
          rw [survey] at h
          split at h
          · rename_i hseen
            obtain ⟨met, hold, hstack, hclosed⟩ := ih (by omega) h
            refine ⟨met, hold, fun m hm => ?_, hclosed⟩
            rcases List.mem_cons.mp hm with rfl | hm
            · exact hold _ (Std.ExtTreeSet.mem_iff_contains.mpr hseen)
            · exact hstack m hm
          · rename_i hseen
            dsimp only at h
            split at h
            · cases h
            · rename_i stack' hinspect
              obtain ⟨hkept, hlength, hcovers⟩ := inspect_covers hinspect
              have hcount : store.unseen (seen.insert n.id) + (store.nodeState n).pending.length ≤
                  store.unseen seen := unseen_insert (Bool.eq_false_iff.mpr hseen)
              have hpending : (store.pendingEdges n).length ≤ (store.nodeState n).pending.length :=
                List.length_filter_le _ _
              obtain ⟨met, hold, hstack, hclosed⟩ := ih (by omega) h
              refine ⟨met, fun id hid => hold id (Std.ExtTreeSet.mem_insert.mpr (Or.inr hid)),
                fun m hm => ?_, fun m hm hnot e he => ?_⟩
              · rcases List.mem_cons.mp hm with rfl | hm
                · exact hold _ Std.ExtTreeSet.mem_insert_self
                · exact hstack m (hkept m hm)
              · by_cases hid : m.id = n.id
                · have he' : e ∈ store.pendingEdges n := by
                    rwa [pendingEdges, nodeState, hid] at he
                  obtain ⟨s, t, hends, hs, ht⟩ := hcovers e he'
                  have hmet : ∀ id, id ∈ seen.insert n.id ∨ (∃ m ∈ stack', m.id = id) → met id := by
                    rintro id (hid | ⟨m, hm, rfl⟩)
                    · exact hold id hid
                    · exact hstack m hm
                  exact ⟨s, t, hends, fun hfree => hmet _ (hs hfree), fun hfree => hmet _ (ht hfree)⟩
                · refine hclosed m hm (fun hmem => ?_) e he
                  rcases Std.ExtTreeSet.mem_insert.mp hmem with heq | hmem
                  · exact hid (Std.LawfulEqCmp.compare_eq_iff_eq.mp heq).symm
                  · exact hnot hmem

/-- A preflight that accepts some nodes has looked at all edges that they draw along. -/
theorem endpoints_of_preflight
    {roots : List Node}
    {e : Edge}
    (h : store.preflight roots = .ok ())
    (hdrawn : store.Drawn (· ∈ store.edges) (roots.map fun n => .node n.id) (.edge e.id)) :
    ∃ s t, store.endpoints? e = some (s, t) := by
  rw [preflight, pendingCount_eq] at h
  obtain ⟨met, -, hstack, hclosed⟩ := survey_covers (Nat.le_refl _) h
  -- the nodes that are drawn along have been met, and the edges are covered by what has been met
  have hmet : ∀ id, store.Drawn (· ∈ store.edges) (roots.map fun n => .node n.id) id →
      (∀ n : Node, id = .node n.id → store.graphOfNode n = none → met n.id) ∧
        ∀ e : Edge, id = .edge e.id → store.Covers met e := by
    intro id hid
    induction hid with
    | root hroot =>
        obtain ⟨r, hr, rfl⟩ := List.mem_map.mp hroot
        refine ⟨fun n hn hfree => ?_, fun _ heq => ItemId.noConfusion heq⟩
        obtain hid := ItemId.node.inj hn
        rw [← hid]
        refine hstack r (List.mem_reverse.mpr (List.mem_filter.mpr ⟨hr, ?_⟩))
        rw [graphOfNode, nodeState, hid]
        exact Option.isNone_iff_eq_none.mpr hfree
    | @remembered n e hn hfree he halive ih =>
        refine ⟨fun _ heq => ItemId.noConfusion heq, fun f hf => ?_⟩
        have hpending : e ∈ store.pendingEdges n :=
          List.mem_filter.mpr ⟨he, Std.ExtTreeMap.mem_iff_contains.mp halive⟩
        obtain ⟨s, t, hends, hst⟩ := hclosed n (ih.1 n rfl hfree) Std.ExtTreeSet.not_mem_empty e
          hpending
        refine ⟨s, t, ?_, hst⟩
        rw [← hends, endpoints?, endpoints?, edgeState, edgeState, ItemId.edge.inj hf]
    | @source e n he hn ih =>
        refine ⟨fun m hm hfree => ?_, fun _ heq => ItemId.noConfusion heq⟩
        obtain ⟨s, t, hends, hs, ht⟩ := ih.2 e rfl
        have hsource := ((store.endpoints?_eq_some_iff e s t).mp hends).1
        obtain rfl := Option.some.inj (hn.symm.trans hsource)
        rw [← ItemId.node.inj hm]
        refine hs ?_
        rwa [graphOfNode, nodeState, ItemId.node.inj hm]
    | @target e n he hn ih =>
        refine ⟨fun m hm hfree => ?_, fun _ heq => ItemId.noConfusion heq⟩
        obtain ⟨s, t, hends, hs, ht⟩ := ih.2 e rfl
        have htarget := ((store.endpoints?_eq_some_iff e s t).mp hends).2
        obtain rfl := Option.some.inj (hn.symm.trans htarget)
        rw [← ItemId.node.inj hm]
        refine ht ?_
        rwa [graphOfNode, nodeState, ItemId.node.inj hm]
  obtain ⟨s, t, hends, -⟩ := (hmet _ hdrawn).2 e rfl
  exact ⟨s, t, hends⟩

end Walk

end Store

end PatternGraph
