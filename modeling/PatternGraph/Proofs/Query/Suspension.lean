import PatternGraph.Proofs.Query.Naming

/-!
# Searches that are interrupted

A search that its visitor stops keeps the bindings of a match and a mark for each choice that is
still open.  Resumed later, it looks things up in an index that may have changed in the meantime, and
so the items that it holds on to need not be members any more.  What it needs is less: that every
bound slot holds an item that the slot accepts.

`Pauses` says what the marks of a stopped search have to do with the moves that led there.  No match
comes twice, because each comes with the matches that still lie `Ahead`: those that differ from it
first at some open choice, and have one of the remaining candidates there.
-/

namespace PatternGraph

/-- Whether a row binds every slot to an item that the slot accepts. -/
structure Slots.Full (s : Slots) (row : Bindings) : Prop where
  size : row.size = s.size
  items : ∀ (i : Nat) (slot : Slot), s.slots[i]? = some slot →
    ∃ item, row[i]? = some (some item) ∧ slot.accepts item = true

namespace Slots

variable {s : Slots} {bound : Set Nat} {row : Bindings}

theorem Suits.full (hrow : s.Suits bound row) (hall : ∀ i < s.size, i ∈ bound) : s.Full row := by
  refine ⟨hrow.size, fun i slot hslot => ?_⟩
  obtain ⟨slot', item, hslot', hitem, haccepts⟩ :=
    hrow.item i (hall i (Array.getElem?_eq_some_iff.mp hslot).1)
  obtain rfl : slot = slot' := by simpa [hslot] using hslot'
  exact ⟨item, hitem, haccepts⟩

/-- A row that binds every slot can be shown. -/
theorem Full.exists_project (hrow : s.Full row) (hplaced : s.Placed) : ∃ r, s.project row = .ok r := by
  refine ⟨_, hplaced.project_eq fun i hi => ?_⟩
  obtain ⟨item, hitem, -⟩ := hrow.items i _ (Array.getElem?_eq_getElem hi)
  exact ⟨item, by rw [lookup, hitem, Option.join_some]⟩

/--
Whether the steps among the moves that are left are ready when their turn comes, and the moves end
with every slot bound unless they give up.
-/
def Leads (s : Slots) : Set Nat → List Move → Prop
  | bound, [] => ∀ i < s.size, i ∈ bound
  | bound, .enter :: moves => s.Leads bound moves
  | _, .stop :: _ => True
  | bound, .step step :: moves => step.Ready s bound ∧ s.Leads (bound ∪ Step.boundBy [step]) moves

theorem Leads.of_steps
    {steps : List Step}
    {moves : List Move}
    (hruns : s.Runs bound steps)
    (hmoves : s.Leads (bound ∪ Step.boundBy steps) moves) :
    s.Leads bound (steps.map .step ++ moves) := by
  induction steps generalizing bound with
  | nil =>
      have hnone : bound ∪ Step.boundBy [] = bound := by
        ext x
        simp
      rwa [hnone] at hmoves
  | cons step steps ih =>
      have hbound : bound ∪ Step.boundBy (step :: steps) =
          bound ∪ Step.boundBy [step] ∪ Step.boundBy steps := by
        ext x
        simp [or_assoc]
      rw [hbound] at hmoves
      exact ⟨hruns.1, ih hruns.2 hmoves⟩

/-- The moves of components that run lead on to what comes after them. -/
theorem Leads.of_components
    {components : List Component}
    (hsteps : ∀ c ∈ components, c.steps ≠ [])
    (hruns : s.Runs bound (components.flatMap Component.steps))
    (hall : ∀ i < s.size, i ∈ bound ∪ Step.boundBy (components.flatMap Component.steps)) :
    s.Leads bound (components.flatMap Component.moves) := by
  induction components generalizing bound with
  | nil => exact fun i hi => by simpa using hall i hi
  | cons c components ih =>
      rw [List.flatMap_cons, runs_append] at hruns
      have hc : c.steps.isEmpty = false := by
        simpa using hsteps c List.mem_cons_self
      rw [List.flatMap_cons, Component.moves, hc]
      refine Leads.of_steps hruns.1 (ih (fun d hd => hsteps d (List.mem_cons_of_mem c hd)) hruns.2 ?_)
      intro i hi
      have hmem := hall i hi
      rw [List.flatMap_cons, Set.mem_union, Step.mem_boundBy_append] at hmem
      simpa [or_assoc] using hmem

theorem WellFormed.leads (hs : s.WellFormed) : s.Leads ∅ (Plan.ofSlots s).moves := by
  rw [Plan.moves]
  split
  · trivial
  · exact Leads.of_components (fun c hc => hs.components_steps_ne_nil hc) hs.covered.runs
      fun i hi => Or.inr ((hs.covered.binds i).mpr hi)

end Slots

theorem Step.Ready.not_mem
    {s : Slots}
    {bound : Set Nat}
    {step : Step}
    {x : Nat}
    (hready : step.Ready s bound)
    (hbinds : step.binds = some x) :
    x ∉ bound := by
  cases step with
  | scanNodes slot type =>
      obtain rfl : slot = x := Option.some.inj hbinds
      exact hready.1
  | scanEdges slot type =>
      obtain rfl : slot = x := Option.some.inj hbinds
      exact hready.1
  | traverse origin target via =>
      obtain rfl : target = x := Option.some.inj hbinds
      exact hready.2.1
  | check c => cases hbinds
  | checkPair edge a b => cases hbinds

theorem Step.boundBy_of_binds {step : Step} {x : Nat} (hbinds : step.binds = some x) :
    Step.boundBy [step] = {x} := by
  ext y
  simp [hbinds, eq_comm]

theorem Step.union_boundBy_of_binds_none
    {step : Step}
    (bound : Set Nat)
    (hbinds : step.binds = none) :
    bound ∪ Step.boundBy [step] = bound := by
  ext x
  simp [hbinds]

namespace Search

variable {s : Slots} {bound : Set Nat} {moves : List Move} {marks : List Mark}
  {row leaf next : Bindings}

/--
Whether a search through some moves, from the bindings `row`, may have stopped at the match `leaf`
with these marks open: the bindings from before each component that it has entered, and for each
slot that it has bound the candidates that are left, which the slot accepts and which do not repeat
themselves or the item it is bound to.
-/
inductive Pauses (s : Slots) :
    Set Nat → List Move → Bindings → List Mark → Bindings → Prop
  | leaf {bound : Set Nat} {row : Bindings} : Pauses s bound [] row [] row
  | enter {bound : Set Nat} {moves : List Move} {row leaf : Bindings} {marks : List Mark}
      (below : Pauses s bound moves row marks leaf) :
      Pauses s bound (.enter :: moves) row (.boundary row :: marks) leaf
  | check {bound : Set Nat} {step : Step} {moves : List Move} {row leaf : Bindings}
      {marks : List Mark}
      (hbinds : step.binds = none)
      (below : Pauses s bound moves row marks leaf) :
      Pauses s bound (.step step :: moves) row marks leaf
  | choice {bound : Set Nat} {step : Step} {moves : List Move} {row leaf : Bindings}
      {marks : List Mark} {x : Nat} {slot : Slot} {candidates rest : List Item} {item : Item}
      (hbinds : step.binds = some x)
      (hslot : s.slots[x]? = some slot)
      (haccepts : ∀ i ∈ item :: rest, slot.accepts i = true)
      (honce : (item :: rest).Nodup)
      (below : Pauses s (bound ∪ {x}) moves (row.setIfInBounds x (some item)) marks leaf) :
      Pauses s bound (.step step :: moves) row (.choice x candidates rest moves :: marks) leaf

/-- Whether a match may still come when a search has stopped at another one. -/
def Ahead : List Mark → Bindings → Bindings → Prop
  | [], _, _ => False
  | .boundary _ :: marks, leaf, next => Ahead marks leaf next
  | .choice x _ rest _ :: marks, leaf, next =>
    (∃ item ∈ rest, next[x]? = some (some item)) ∨ (next[x]? = leaf[x]? ∧ Ahead marks leaf next)

namespace Pauses

/-- The slots bound before the moves are still bound to the same items. -/
theorem keeps
    (h : Pauses s bound moves row marks leaf)
    (hleads : s.Leads bound moves) :
    ∀ i ∈ bound, leaf[i]? = row[i]? := by
  induction h with
  | leaf => exact fun _ _ => rfl
  | enter below ih => exact ih hleads
  | check hbinds below ih =>
      obtain ⟨-, hrest⟩ := hleads
      rw [Step.union_boundBy_of_binds_none _ hbinds] at hrest
      exact ih hrest
  | choice hbinds hslot haccepts honce below ih =>
      obtain ⟨hready, hrest⟩ := hleads
      rw [Step.boundBy_of_binds hbinds] at hrest
      intro i hi
      rw [ih hrest i (Or.inl hi), Array.getElem?_setIfInBounds_ne]
      rintro rfl
      exact hready.not_mem hbinds hi

/-- A search stops at a match only when every slot is bound. -/
theorem full
    (h : Pauses s bound moves row marks leaf)
    (hleads : s.Leads bound moves)
    (hrow : s.Suits bound row) :
    s.Full leaf := by
  induction h with
  | leaf => exact hrow.full hleads
  | enter below ih => exact ih hleads hrow
  | check hbinds below ih =>
      obtain ⟨-, hrest⟩ := hleads
      rw [Step.union_boundBy_of_binds_none _ hbinds] at hrest
      exact ih hrest hrow
  | choice hbinds hslot haccepts honce below ih =>
      obtain ⟨-, hrest⟩ := hleads
      rw [Step.boundBy_of_binds hbinds] at hrest
      exact ih hrest (hrow.set hslot (haccepts _ List.mem_cons_self))

/-- The match below a choice has the item that was chosen. -/
theorem chosen
    {x : Nat}
    {slot : Slot}
    {item : Item}
    (below : Pauses s (bound ∪ {x}) moves (row.setIfInBounds x (some item)) marks leaf)
    (hleads : s.Leads (bound ∪ {x}) moves)
    (hrow : s.Suits bound row)
    (hslot : s.slots[x]? = some slot) :
    leaf[x]? = some (some item) := by
  have hx : x < row.size := by
    rw [hrow.size]
    exact (Array.getElem?_eq_some_iff.mp hslot).1
  rw [below.keeps hleads x (Or.inr rfl)]
  simp [hx]

/-- A match that lies ahead is another one. -/
theorem ne_of_ahead
    (h : Pauses s bound moves row marks leaf)
    (hleads : s.Leads bound moves)
    (hrow : s.Suits bound row)
    (hahead : Ahead marks leaf next) :
    next ≠ leaf := by
  induction h with
  | leaf => exact hahead.elim
  | enter below ih => exact ih hleads hrow hahead
  | check hbinds below ih =>
      obtain ⟨-, hrest⟩ := hleads
      rw [Step.union_boundBy_of_binds_none _ hbinds] at hrest
      exact ih hrest hrow hahead
  | choice hbinds hslot haccepts honce below ih =>
      obtain ⟨-, hrest⟩ := hleads
      rw [Step.boundBy_of_binds hbinds] at hrest
      rcases hahead with ⟨other, hother, hnext⟩ | ⟨-, hahead⟩
      · rintro rfl
        rw [below.chosen hrest hrow hslot, Option.some.injEq, Option.some.injEq] at hnext
        exact (List.nodup_cons.mp honce).1 (hnext ▸ hother)
      · exact ih hrest (hrow.set hslot (haccepts _ List.mem_cons_self)) hahead

end Pauses

end Search

namespace Progress

variable {σ : Type} {s : Slots} {bound : Set Nat} {moves : List Move} {marks : List Mark}
  {row leaf : Bindings} {progress : Progress σ}

/-- Whether a search has not failed, and has either cleaned up or stopped at a match. -/
def Sound (s : Slots) (bound : Set Nat) (moves : List Move) (row : Bindings) : Progress σ → Prop
  | .halted _ leaf marks => Search.Pauses s bound moves row marks leaf
  | .failed .. => False
  | .exhausted _ row' => row' = row

/-- Whether a match that a search has come to, and all that lie ahead of it, are among some rows. -/
def Within (rows : Set Bindings) : Progress σ → Prop
  | .halted _ leaf marks => leaf ∈ rows ∧ ∀ next, Search.Ahead marks leaf next → next ∈ rows
  | .failed .. | .exhausted .. => True

theorem Sound.restoring (h : progress.Sound s bound moves row) :
    (progress.restoring row).Sound s bound (.enter :: moves) row := by
  cases progress with
  | halted acc leaf marks => exact .enter h
  | failed acc fault => exact h
  | exhausted acc row' => rfl

theorem Within.mono
    {rows rows' : Set Bindings}
    (h : progress.Within rows)
    (hsubset : rows ⊆ rows') :
    progress.Within rows' := by
  cases progress with
  | halted acc leaf marks => exact ⟨hsubset h.1, fun next hnext => hsubset (h.2 next hnext)⟩
  | failed acc fault => trivial
  | exhausted acc row' => trivial

theorem Within.restoring {rows : Set Bindings} (h : progress.Within rows) :
    (progress.restoring row).Within rows := by
  cases progress with
  | halted acc leaf marks => exact h
  | failed acc fault => trivial
  | exhausted acc row' => trivial

theorem Sound.check {step : Step} (hbinds : step.binds = none)
    (h : progress.Sound s bound moves row) : progress.Sound s bound (.step step :: moves) row := by
  cases progress with
  | halted acc leaf marks => exact .check hbinds h
  | failed acc fault => exact h
  | exhausted acc row' => exact h

end Progress

namespace Search

variable {σ : Type} {s : Slots} {index : Index} {g : Diagram} {bound : Set Nat}
  {moves : List Move} {marks : List Mark} {row leaf : Bindings}
  {visit : σ → Bindings → Verdict σ}

/-- Trying the candidates of a slot, on whatever rows differ from the given one at that slot only. -/
theorem tryEach_sound
    {step : Step}
    {x : Nat}
    {slot : Slot}
    {below : σ → Bindings → Progress σ}
    (candidates rest : List Item)
    (acc : σ)
    (current : Bindings)
    (hbinds : step.binds = some x)
    (hslot : s.slots[x]? = some slot)
    (hrow : s.Suits bound row)
    (hfree : x ∉ bound)
    (hleads : s.Leads (bound ∪ {x}) moves)
    (haccepts : ∀ item ∈ rest, slot.accepts item = true)
    (honce : rest.Nodup)
    (hcurrent : ∀ value, current.setIfInBounds x value = row.setIfInBounds x value)
    (hbelow : ∀ item acc, slot.accepts item = true →
      (below acc (row.setIfInBounds x (some item))).Sound s (bound ∪ {x}) moves
        (row.setIfInBounds x (some item))) :
    (tryEach below x candidates moves rest acc current).Sound s bound (.step step :: moves) row ∧
      (tryEach below x candidates moves rest acc current).Within
        {r | ∃ item ∈ rest, r[x]? = some (some item)} := by
  induction rest generalizing acc current with
  | nil =>
      refine ⟨?_, trivial⟩
      have hlt : x < s.size := (Array.getElem?_eq_some_iff.mp hslot).1
      rw [tryEach, Progress.Sound, hcurrent]
      exact setIfInBounds_none fun item hitem => by simp [hrow.free x hlt hfree] at hitem
  | cons item rest ih =>
      have hitem := haccepts item List.mem_cons_self
      have hprogress := hbelow item acc hitem
      rw [tryEach, hcurrent]
      generalize below acc (row.setIfInBounds x (some item)) = progress at hprogress
      cases progress with
      | failed acc' fault => exact hprogress.elim
      | exhausted acc' row' =>
          obtain rfl : row' = row.setIfInBounds x (some item) := hprogress
          obtain ⟨hsound, hwithin⟩ := ih acc' (row.setIfInBounds x (some item))
            (fun i hi => haccepts i (List.mem_cons_of_mem item hi)) (List.nodup_cons.mp honce).2
            fun value => by simp
          refine ⟨hsound, hwithin.mono ?_⟩
          rintro r ⟨i, hi, hr⟩
          exact ⟨i, List.mem_cons_of_mem item hi, hr⟩
      | halted acc' leaf marks =>
          have hleaf := hprogress.chosen hleads hrow hslot
          refine ⟨.choice hbinds hslot haccepts honce hprogress,
            ⟨item, List.mem_cons_self, hleaf⟩, fun next hnext => ?_⟩
          rcases hnext with ⟨other, hother, hnext⟩ | ⟨hnext, -⟩
          · exact ⟨other, List.mem_cons_of_mem item hother, hnext⟩
          · exact ⟨item, List.mem_cons_self, hnext.trans hleaf⟩

/-- A search through moves that lead on does not fail, whatever the index holds. -/
theorem descend_sound
    (h : index.Represents g)
    (hvisit : ∀ acc row fault, s.Full row → visit acc row ≠ .fail fault)
    (moves : List Move)
    (acc : σ)
    (hleads : s.Leads bound moves)
    (hrow : s.Suits bound row) :
    (descend s index visit moves acc row).Sound s bound moves row := by
  induction moves generalizing bound row acc with
  | nil =>
      rw [descend]
      cases hcase : visit acc row with
      | next acc' => rfl
      | halt acc' => exact .leaf
      | fail fault => exact (hvisit acc row fault (hrow.full hleads) hcase).elim
  | cons move moves ih =>
      cases move with
      | enter =>
          rw [descend]
          exact (ih acc hleads hrow).restoring
      | stop => rfl
      | step step =>
          obtain ⟨hready, hrest⟩ := hleads
          rw [descend]
          cases hbinds : step.binds with
          | none =>
              rw [Step.union_boundBy_of_binds_none _ hbinds] at hrest
              obtain ⟨holds, hexpand, -⟩ := hready.expand_check h hrow hbinds
              rw [hexpand]
              cases holds with
              | true => exact (ih acc hrest hrow).check hbinds
              | false => rfl
          | some x =>
              rw [Step.boundBy_of_binds hbinds] at hrest
              obtain ⟨slot, candidates, hslot, hfree, hexpand, honce, hcandidates⟩ :=
                hready.expand_bind h hrow hbinds
              rw [hexpand]
              exact (tryEach_sound candidates candidates acc row hbinds hslot hrow hfree hrest
                (fun item hitem => ((hcandidates item).mp hitem).1) honce (fun _ => rfl)
                fun item acc hitem => ih acc hrest (hrow.set hslot hitem)).1

/-- A search that is resumed does not fail, and comes to matches only that lay ahead of it. -/
theorem resume_sound
    (h : index.Represents g)
    (hvisit : ∀ acc row fault, s.Full row → visit acc row ≠ .fail fault)
    (acc : σ)
    (hpauses : Pauses s bound moves row marks leaf)
    (hleads : s.Leads bound moves)
    (hrow : s.Suits bound row) :
    (resume s index visit marks acc leaf).Sound s bound moves row ∧
      (resume s index visit marks acc leaf).Within {next | Ahead marks leaf next} := by
  induction hpauses with
  | leaf => exact ⟨rfl, trivial⟩
  | enter below ih =>
      obtain ⟨hsound, hwithin⟩ := ih hleads hrow
      rw [resume]
      exact ⟨hsound.restoring, hwithin.restoring⟩
  | check hbinds below ih =>
      obtain ⟨-, hrest⟩ := hleads
      rw [Step.union_boundBy_of_binds_none _ hbinds] at hrest
      obtain ⟨hsound, hwithin⟩ := ih hrest hrow
      exact ⟨hsound.check hbinds, hwithin⟩
  | @choice bound step moves row leaf marks x slot candidates rest item hbinds hslot haccepts honce
      below ih =>
      obtain ⟨hready, hrest⟩ := hleads
      rw [Step.boundBy_of_binds hbinds] at hrest
      obtain ⟨hsound, hwithin⟩ := ih hrest (hrow.set hslot (haccepts item List.mem_cons_self))
      have hleaf := below.chosen hrest hrow hslot
      rw [resume]
      generalize resume s index visit marks acc leaf = progress at hsound hwithin
      cases progress with
      | failed acc' fault => exact hsound.elim
      | exhausted acc' row' =>
          obtain rfl : row' = row.setIfInBounds x (some item) := hsound
          obtain ⟨htried, hwithin⟩ := tryEach_sound candidates rest acc'
            (row.setIfInBounds x (some item)) hbinds hslot hrow (hready.not_mem hbinds) hrest
            (fun i hi => haccepts i (List.mem_cons_of_mem item hi)) (List.nodup_cons.mp honce).2
            (fun value => by simp)
            fun i acc hi => descend_sound h hvisit moves acc hrest (hrow.set hslot hi)
          exact ⟨htried, hwithin.mono fun next hnext => Or.inl hnext⟩
      | halted acc' leaf' marks' =>
          have hleaf' := Pauses.chosen hsound hrest hrow hslot
          refine ⟨.choice hbinds hslot haccepts honce hsound,
            Or.inr ⟨hleaf'.trans hleaf.symm, hwithin.1⟩, fun next hnext => ?_⟩
          rcases hnext with ⟨other, hother, hnext⟩ | ⟨hnext, hahead⟩
          · exact Or.inl ⟨other, hother, hnext⟩
          · exact Or.inr ⟨hnext.trans (hleaf'.trans hleaf.symm), hwithin.2 next hahead⟩

end Search

end PatternGraph
