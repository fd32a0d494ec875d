import PatternGraph.Query.Rows

/-!
# Going on from a match

A search that its visitor lets go on from a match is one that stops at the match and is resumed there.
So all that a visitor makes of a search comes from what it makes of the first match and from what a search
that is resumed makes of the others.
-/

namespace PatternGraph

variable {σ : Type}

/-- What a visitor makes of a search that has stopped at its first match. -/
def Progress.followed (s : Slots) (index : Index) (visit : σ → Bindings → Verdict σ) (acc : σ) :
    Progress Unit → Progress σ
  | .halted _ leaf marks =>
    match visit acc leaf with
    | .next acc => Search.resume s index visit marks acc leaf
    | .halt acc => .halted acc leaf marks
    | .fail fault => .failed acc fault
  | .failed _ fault => .failed acc fault
  | .exhausted _ row => .exhausted acc row

namespace Search

variable {s : Slots} {index : Index} {visit : σ → Bindings → Verdict σ}

theorem followed_restoring (acc : σ) (saved : Bindings) (progress : Progress Unit) :
    (progress.restoring saved).followed s index visit acc =
      (progress.followed s index visit acc).restoring saved := by
  cases progress with
  | exhausted first row => rfl
  | failed first fault => rfl
  | halted first leaf marks =>
      simp only [Progress.restoring, Progress.within, Progress.followed]
      cases visit acc leaf with
      | next acc' => rfl
      | halt acc' => rfl
      | fail fault => rfl

/-- From a match below a choice, a search goes on below it, and then to the candidates that are left. -/
theorem followed_choice (acc : σ) (first : Unit) (leaf : Bindings) (marks : List Mark) (slot : Nat)
    (candidates rest : List Item) (moves : List Move) :
    (match (Progress.halted first leaf marks).followed s index visit acc with
      | .exhausted acc row => tryEach (descend s index visit moves) slot candidates moves rest acc row
      | progress => progress.within (.choice slot candidates rest moves)) =
      (Progress.halted first leaf (.choice slot candidates rest moves :: marks)).followed s index visit
        acc := by
  simp only [Progress.followed]
  cases visit acc leaf with
  | next acc' => rfl
  | halt acc' => rfl
  | fail fault => rfl

/-- Whether the search `below` stops at its first match wherever `onward` comes to it and goes on. -/
def Follows (s : Slots) (index : Index) (visit : σ → Bindings → Verdict σ)
    (onward : σ → Bindings → Progress σ) (below : Unit → Bindings → Progress Unit) : Prop :=
  ∀ acc row, onward acc row = (below () row).followed s index visit acc

theorem Follows.tryEach
    {moves : List Move}
    {below : Unit → Bindings → Progress Unit}
    (h : Follows s index visit (descend s index visit moves) below)
    (slot : Nat)
    (candidates rest : List Item) :
    Follows s index visit (tryEach (descend s index visit moves) slot candidates moves rest)
      (tryEach below slot candidates moves rest) := by
  induction rest with
  | nil => exact fun acc row => rfl
  | cons item rest ih =>
      intro acc row
      rw [Search.tryEach, Search.tryEach, h]
      cases below () (row.setIfInBounds slot (some item)) with
      | exhausted first row' => exact ih acc row'
      | failed first fault => rfl
      | halted first leaf marks => exact followed_choice acc first leaf marks slot candidates rest moves

theorem follows_descend (moves : List Move) :
    Follows s index visit (descend s index visit moves)
      (descend s index (fun _ _ => .halt ()) moves) := by
  induction moves with
  | nil =>
      intro acc row
      rw [descend, descend, Progress.followed]
      cases visit acc row with
      | next acc' => rfl
      | halt acc' => rfl
      | fail fault => rfl
  | cons move moves ih =>
      intro acc row
      cases move with
      | enter => rw [descend, descend, ih, followed_restoring]
      | stop => rfl
      | step step =>
          rw [descend, descend]
          cases step.expand s index row with
          | error fault => rfl
          | ok expansion =>
              cases expansion with
              | check holds =>
                  cases holds with
                  | true => exact ih acc row
                  | false => rfl
              | bind slot candidates => exact ih.tryEach slot candidates candidates acc row

theorem follows_resume (marks : List Mark) :
    Follows s index visit (resume s index visit marks) (resume s index (fun _ _ => .halt ()) marks) := by
  induction marks with
  | nil => exact fun acc row => rfl
  | cons mark marks ih =>
      intro acc row
      cases mark with
      | boundary saved => rw [resume, resume, ih, followed_restoring]
      | choice slot candidates rest moves =>
          rw [resume, resume, ih]
          cases resume s index (fun _ _ => .halt ()) marks () row with
          | exhausted first row' => exact (follows_descend moves).tryEach slot candidates rest acc row'
          | failed first fault => rfl
          | halted first leaf marks' =>
              exact followed_choice acc first leaf marks' slot candidates rest moves

end Search

/-- To go on from a stream is to stop at the next match, and then to do what the visitor says. -/
theorem CompiledQuery.proceed_eq_followed (c : CompiledQuery) (index : Index)
    (visit : σ → Bindings → Verdict σ) (acc : σ) (state : StreamState) :
    c.proceed index visit acc state =
      (c.proceed index (fun _ _ => .halt ()) () state).followed c.slots index visit acc := by
  cases state with
  | fresh => exact Search.follows_descend c.plan.moves acc (Search.noBindings c.slots)
  | paused row marks => exact Search.follows_resume marks acc row
  | finished => rfl

end PatternGraph
