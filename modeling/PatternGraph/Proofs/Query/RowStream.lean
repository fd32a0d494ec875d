import Mathlib.Data.List.SplitLengths
import PatternGraph.Proofs.Query.GoingOn
import PatternGraph.Proofs.Query.Pulls
import PatternGraph.Proofs.Query.RowBytes
import PatternGraph.Proofs.Query.SlotTable

/-!
# Rows taken a few at a time

Each match that is still to come from a stream is projected to a row, and a row is given unless its
items were given before.  Taking rows goes on from one match to the next until enough rows are new, and
leaves the rest for later.  So whatever numbers of rows are asked for, on a graph that does not change they
are cut from one list: the rows of the matches, without those that repeat an earlier one.
-/

namespace PatternGraph

theorem eraseDupsBy_loop_congr {α : Type} {r r' : α → α → Bool} (l kept : List α)
    (h : ∀ a ∈ l, ∀ b ∈ kept ++ l, r a b = r' a b) :
    List.eraseDupsBy.loop r l kept = List.eraseDupsBy.loop r' l kept := by
  induction l generalizing kept with
  | nil => rfl
  | cons a l ih =>
      have hany : kept.any (r a) = kept.any (r' a) := by
        rw [Bool.eq_iff_iff, List.any_eq_true, List.any_eq_true]
        refine exists_congr fun b => and_congr_right fun hb => ?_
        rw [h a List.mem_cons_self b (List.mem_append_left _ hb)]
      have hkept : ∀ b ∈ l, ∀ c ∈ kept ++ l, r b c = r' b c := by
        intro b hb c hc
        refine h b (List.mem_cons_of_mem a hb) c ?_
        rcases List.mem_append.mp hc with hc | hc
        · exact List.mem_append_left _ hc
        · exact List.mem_append_right _ (List.mem_cons_of_mem a hc)
      rw [List.eraseDupsBy.loop, List.eraseDupsBy.loop, hany]
      cases kept.any (r' a) with
      | true => exact ih kept hkept
      | false =>
          refine ih (a :: kept) fun b hb c hc => ?_
          rcases List.mem_cons.mp hc with rfl | hc
          · exact h b (List.mem_cons_of_mem _ hb) _ (List.mem_append_right _ List.mem_cons_self)
          · exact hkept b hb c hc

/-- What is kept depends on which of the values given are said to be the same. -/
theorem eraseDupsBy_congr {α : Type} {r r' : α → α → Bool} {l : List α}
    (h : ∀ a ∈ l, ∀ b ∈ l, r a b = r' a b) : l.eraseDupsBy r = l.eraseDupsBy r' :=
  eraseDupsBy_loop_congr l [] h

namespace Harvest

/-- Of some rows those whose items have not been seen before, each where it comes first. -/
def unseen (seen : Std.ExtTreeSet (List ItemId)) : List Row → List Row
  | [] => []
  | row :: rows =>
    if seen.contains row.ids then unseen seen rows else row :: unseen (seen.insert row.ids) rows

/-- A set of what has been seen does what the list of kept rows does. -/
theorem loop_eq_unseen
    {seen : Std.ExtTreeSet (List ItemId)}
    (rows kept : List Row)
    (hseen : ∀ ids, seen.contains ids = true ↔ ∃ row ∈ kept, row.ids = ids) :
    List.eraseDupsBy.loop (fun a b => a.ids == b.ids) rows kept = kept.reverse ++ unseen seen rows := by
  induction rows generalizing seen kept with
  | nil => simp [List.eraseDupsBy.loop, unseen]
  | cons row rows ih =>
      have hany : kept.any (fun b => row.ids == b.ids) = seen.contains row.ids := by
        rw [Bool.eq_iff_iff, hseen, List.any_eq_true]
        refine exists_congr fun r => and_congr_right fun _ => ?_
        rw [beq_iff_eq, eq_comm]
      rw [List.eraseDupsBy.loop, unseen, hany]
      cases hcontains : seen.contains row.ids with
      | true => exact ih kept hseen
      | false =>
          have hinsert : ∀ ids, (seen.insert row.ids).contains ids = true ↔
              ∃ r ∈ row :: kept, r.ids = ids := by
            intro ids
            rw [List.exists_mem_cons_iff, ← hseen, Std.ExtTreeSet.contains_insert, Bool.or_eq_true,
              beq_iff_eq, Std.LawfulEqCmp.compare_eq_iff_eq]
          simp only [ih (row :: kept) hinsert, List.reverse_cons, List.append_assoc,
            List.singleton_append, Bool.false_eq_true, if_false]

theorem eraseDupsBy_eq_unseen (rows : List Row) :
    rows.eraseDupsBy (fun a b => a.ids == b.ids) = unseen ∅ rows :=
  loop_eq_unseen rows [] (by simp)

theorem unseen_of_seen {seen : Std.ExtTreeSet (List ItemId)} {row : Row}
    (h : seen.contains row.ids = true) (rows : List Row) :
    unseen seen (row :: rows) = unseen seen rows :=
  if_pos h

theorem unseen_of_new {seen : Std.ExtTreeSet (List ItemId)} {row : Row}
    (h : seen.contains row.ids = false) (rows : List Row) :
    unseen seen (row :: rows) = row :: unseen (seen.insert row.ids) rows :=
  if_neg (Bool.not_eq_true _ ▸ h)

/-- The first ones of some rows, as many as are wanted. -/
def admitted (wanted : Option Nat) (rows : List Row) : List Row :=
  wanted.elim rows rows.take

/-- The rows that are left when as many as are wanted have been given. -/
def deferred (wanted : Option Nat) (rows : List Row) : List Row :=
  wanted.elim [] rows.drop

end Harvest

/-- Whether certain rows are those of the matches that are still to come from a stream on an index. -/
def StreamState.Owes (c : CompiledQuery) (index : Index) (rows : List Row) (state : StreamState) :
    Prop :=
  ∃ found, state.Leaves c index ⟨found, none⟩ ∧ found.map c.slots.project = rows.map .ok

/-- Whether a search has gathered certain rows, and left certain rows for later. -/
def Progress.Gathers (c : CompiledQuery) (index : Index) (given left : List Row) :
    Progress Harvest → Prop
  | .halted harvest leaf marks =>
    harvest.rows.reverse = given ∧
      ∃ rows, StreamState.Owes c index rows (.paused leaf marks) ∧
        Harvest.unseen harvest.seen rows = left
  | .exhausted harvest _ => harvest.rows.reverse = given ∧ left = []
  | .failed _ _ => False

/-- Whether a search has added to a harvest the new ones of some rows, as many as are wanted. -/
def Progress.AddsTo (c : CompiledQuery) (index : Index) (harvest : Harvest) (rows : List Row)
    (progress : Progress Harvest) : Prop :=
  progress.Gathers c index
    (harvest.rows.reverse ++ Harvest.admitted harvest.wanted (Harvest.unseen harvest.seen rows))
    (Harvest.deferred harvest.wanted (Harvest.unseen harvest.seen rows))

namespace Progress.AddsTo

variable {c : CompiledQuery} {index : Index} {rows : List Row} {row : Row}
  {progress : Progress Harvest}

/-- A row that was seen before makes no difference. -/
theorem of_seen {harvest : Harvest} (hseen : harvest.seen.contains row.ids = true)
    (h : progress.AddsTo c index harvest rows) : progress.AddsTo c index harvest (row :: rows) := by
  rwa [AddsTo, Harvest.unseen_of_seen hseen]

/-- A row that is new comes first, and one fewer is wanted after it. -/
theorem of_new {seen : Std.ExtTreeSet (List ItemId)} {taken : List Row} {wanted : Option Nat}
    (hnew : seen.contains row.ids = false) (hwanted : wanted ≠ some 0)
    (h : progress.AddsTo c index ⟨seen.insert row.ids, row :: taken, wanted.map (· - 1)⟩ rows) :
    progress.AddsTo c index ⟨seen, taken, wanted⟩ (row :: rows) := by
  rw [AddsTo, Harvest.unseen_of_new hnew]
  cases wanted with
  | none => simpa [AddsTo, Harvest.admitted, Harvest.deferred] using h
  | some n =>
      cases n with
      | zero => exact absurd rfl hwanted
      | succ n => simpa [AddsTo, Harvest.admitted, Harvest.deferred] using h

end Progress.AddsTo

namespace StreamState.Owes

variable {c : CompiledQuery} {index : Index} {rows : List Row} {row : Row} {state : StreamState}

/-- When no rows are to come, the search has come to its end. -/
theorem exhausted (h : state.Owes c index [])
    (hfresh : Search.Fresh c.plan.moves (Search.noBindings c.slots)) :
    ∃ bindings, c.proceed index (fun _ _ => .halt ()) () state = .exhausted () bindings := by
  obtain ⟨found, hleaves, hfound⟩ := h
  obtain rfl : found = [] := List.map_eq_nil_iff.mp hfound
  have hcomes := hleaves.proceed hfresh
  cases hprogress : c.proceed index (fun _ _ => .halt ()) () state with
  | exhausted acc bindings => exact ⟨bindings, rfl⟩
  | failed acc fault =>
      rw [hprogress] at hcomes
      cases hcomes
  | halted acc leaf marks =>
      rw [hprogress] at hcomes
      obtain ⟨later, hlater, -⟩ := hcomes
      cases hlater

/-- When rows are to come, the search stops at the match of the first one, and the others are to come. -/
theorem halted (h : state.Owes c index (row :: rows))
    (hfresh : Search.Fresh c.plan.moves (Search.noBindings c.slots)) :
    ∃ leaf marks, c.proceed index (fun _ _ => .halt ()) () state = .halted () leaf marks ∧
      c.slots.project leaf = .ok row ∧ Owes c index rows (.paused leaf marks) := by
  obtain ⟨found, hleaves, hfound⟩ := h
  have hcomes := hleaves.proceed hfresh
  cases hprogress : c.proceed index (fun _ _ => .halt ()) () state with
  | exhausted acc bindings =>
      rw [hprogress] at hcomes
      cases hcomes
      cases hfound
  | failed acc fault =>
      rw [hprogress] at hcomes
      cases hcomes
  | halted acc leaf marks =>
      rw [hprogress] at hcomes
      obtain ⟨⟨found', fault⟩, hlater, hleaves'⟩ := hcomes
      cases hlater
      rw [List.map_cons, List.map_cons, List.cons.injEq] at hfound
      exact ⟨leaf, marks, rfl, hfound.1, found', hleaves', hfound.2⟩

/-- Going on from a stream gathers the new ones of the rows to come, as many as are wanted. -/
theorem addsTo (h : state.Owes c index rows)
    (hfresh : Search.Fresh c.plan.moves (Search.noBindings c.slots))
    (harvest : Harvest) (hwanted : harvest.wanted ≠ some 0) :
    (c.proceed index (Harvest.gather c.slots) harvest state).AddsTo c index harvest rows := by
  induction rows generalizing state harvest with
  | nil =>
      obtain ⟨bindings, hend⟩ := h.exhausted hfresh
      rw [c.proceed_eq_followed, hend]
      obtain ⟨seen, taken, wanted⟩ := harvest
      cases wanted <;> simp [Progress.followed, Progress.AddsTo, Progress.Gathers, Harvest.unseen,
        Harvest.admitted, Harvest.deferred]
  | cons row rows ih =>
      obtain ⟨leaf, marks, hstop, hproject, hlater⟩ := h.halted hfresh
      have honward : ∀ harvest : Harvest, harvest.wanted ≠ some 0 →
          (Search.resume c.slots index (Harvest.gather c.slots) marks harvest leaf).AddsTo c index
            harvest rows := fun harvest => ih hlater harvest
      rw [c.proceed_eq_followed, hstop, Progress.followed, Harvest.gather, hproject]
      cases hseen : harvest.seen.contains row.ids with
      | true =>
          simp only [hseen, if_true]
          exact (honward harvest hwanted).of_seen hseen
      | false =>
          simp only [hseen, Bool.false_eq_true, if_false, Harvest.add]
          obtain ⟨seen, taken, wanted⟩ := harvest
          cases wanted with
          | none => exact .of_new hseen hwanted (honward _ hwanted)
          | some n =>
              by_cases hn : 1 < n
              · simp only [hn, if_true]
                refine .of_new hseen hwanted (honward _ fun hzero => ?_)
                have hlast : n - 1 = 0 := Option.some.inj hzero
                omega
              · have hpos : n ≠ 0 := fun hzero => hwanted (congrArg some hzero)
                obtain rfl : n = 1 := by omega
                simp only [lt_irrefl, if_false, Progress.AddsTo, Harvest.unseen_of_new hseen]
                exact ⟨by simp [Harvest.admitted], rows, hlater, rfl⟩

end StreamState.Owes

namespace Stream

variable {stream : Stream} {index : Index} {rest : List Row}

/-- Whether certain rows are those that are still to come from a stream on an index. -/
def Owes (index : Index) (rest : List Row) (stream : Stream) : Prop :=
  ∃ rows, stream.state.Owes stream.query index rows ∧ Harvest.unseen stream.seen rows = rest

/-- Taking rows gives the first ones of those that are to come, and leaves the others. -/
theorem take_of_owes (h : stream.Owes index rest)
    (hfresh : Search.Fresh stream.query.plan.moves (Search.noBindings stream.query.slots))
    (limit : Nat) :
    (stream.take limit index).1 = .ok (rest.take limit) ∧
      (stream.take limit index).2.query = stream.query ∧
      (stream.take limit index).2.Owes index (rest.drop limit) := by
  rw [take]
  by_cases hlimit : limit = 0
  · rw [if_pos hlimit, hlimit, List.take_zero, List.drop_zero]
    exact ⟨rfl, rfl, h⟩
  · obtain ⟨rows, howes, rfl⟩ := h
    have hgathers := howes.addsTo hfresh ⟨stream.seen, [], some limit⟩
      fun hzero => hlimit (Option.some.inj hzero)
    rw [if_neg hlimit]
    generalize stream.query.proceed index (Harvest.gather stream.query.slots)
      ⟨stream.seen, [], some limit⟩ stream.state = progress at hgathers ⊢
    cases progress with
    | failed harvest fault => exact hgathers.elim
    | exhausted harvest bindings =>
        obtain ⟨hgiven, hleft⟩ := hgathers
        refine ⟨congrArg Except.ok hgiven, rfl, [], ⟨[], rfl, rfl⟩, ?_⟩
        exact hleft.symm
    | halted harvest leaf marks =>
        obtain ⟨hgiven, later, hlater, hleft⟩ := hgathers
        exact ⟨congrArg Except.ok hgiven, rfl, later, hlater, hleft⟩

/-- Taking rows again and again cuts those that are to come into pieces. -/
theorem takes_of_owes (stream : Stream) (h : stream.Owes index rest)
    (hfresh : Search.Fresh stream.query.plan.moves (Search.noBindings stream.query.slots))
    (limits : List Nat) :
    stream.takes (limits.map fun limit => (limit, index)) =
      (limits.splitLengths rest).map .ok := by
  induction limits generalizing stream rest with
  | nil => rfl
  | cons limit limits ih =>
      obtain ⟨hgiven, hquery, hrest⟩ := take_of_owes h hfresh limit
      rw [List.map_cons, takes, hgiven, ih _ hrest (by rwa [hquery]), List.splitLengths_cons,
        List.map_cons]

end Stream

/-- Collecting all rows at once gives those that are to come from a stream at its start. -/
theorem CompiledQuery.collect_of_owes {c : CompiledQuery} {index : Index} {rest : List Row}
    (h : (Stream.ofQuery c).Owes index rest)
    (hfresh : Search.Fresh c.plan.moves (Search.noBindings c.slots)) :
    c.collect index = .ok rest := by
  obtain ⟨rows, howes, rfl⟩ := h
  have hgathers : (Search.start c.slots c.plan index (Harvest.gather c.slots) ⟨∅, [], none⟩).Gathers c
      index (Harvest.unseen ∅ rows) [] := howes.addsTo hfresh ⟨∅, [], none⟩ (by simp)
  rw [collect]
  generalize Search.start c.slots c.plan index (Harvest.gather c.slots) ⟨∅, [], none⟩ = progress
    at hgathers ⊢
  cases progress with
  | failed harvest fault => exact hgathers.elim
  | exhausted harvest bindings => exact congrArg Except.ok hgathers.1
  | halted harvest leaf marks => exact congrArg Except.ok hgathers.1

end PatternGraph
