import PatternGraph.Proofs.Lookup
import PatternGraph.Proofs.Session.Reachable

/-!
# Courses of a session

A turn is a step, or a request of a client while nothing is in progress.  A course consists of turns, from
any state on, and keeps every state that it has been in, together with the commands that were begun there.
Commands are begun by scripts as well, in the midst of what is in progress.
-/

namespace PatternGraph

variable {ρ : Type}

/-- A state of a session, and the commands that were begun in it. -/
structure Stage (ρ : Type) where
  state : Session ρ
  begun : List (Command ρ)

namespace Session

variable {r s s' : Session ρ} {interpret : Interpreter ρ} {begun trace : List (Command ρ)}
  {past : List (Stage ρ)}

/-- Whether a request or a step leads from one session to another, and begins the listed commands. -/
inductive Turn (s : Session ρ) : List (Command ρ) → Session ρ → Prop
  | request (interpret : Interpreter ρ) (request : ρ) (hidle : s.idle = true)
      (hproper : ∀ c ∈ interpret.reads s.names request, c.Proper s) :
      Turn s (interpret.reads s.names request)
        ({ s with log := [] }.issueRequest interpret request).release
  | step (interpret : Interpreter ρ) (hproper : ∀ c ∈ s.upcoming interpret, c.Proper s) :
      Turn s (s.upcoming interpret) (s.step interpret)

/-- A command that is begun in a turn is carried out in what the turn finds. -/
theorem Turn.begins
    {c : Command ρ}
    (h : s.Turn begun s')
    (hc : c ∈ begun) :
    c.Proper s ∧ ∃ t : Session ρ, t.boards = s.boards ∧ t.queries = s.queries ∧
      t.observers = s.observers ∧ s' = (t.begin c).release := by
  have hreads : ∀ {interpret : Interpreter ρ} {t : Session ρ} {request : ρ},
      c ∈ interpret.reads t.names request →
        t.issueRequest interpret request = t.begin c := by
    intro interpret t request hmem
    rw [Interpreter.reads] at hmem
    rw [issueRequest]
    cases hread : interpret t.names request with
    | error refusal =>
        rw [hread] at hmem
        cases hmem
    | ok c' =>
        rw [hread] at hmem
        obtain rfl := List.mem_singleton.mp hmem
        rfl
  cases h with
  | request interpret request hidle hproper =>
      refine ⟨hproper c hc, { s with log := [] }, rfl, rfl, rfl, ?_⟩
      exact congrArg release (hreads (t := { s with log := [] }) hc)
  | step interpret hproper =>
      refine ⟨hproper c hc, ?_⟩
      cases htasks : s.tasks with
      | nil =>
          rw [upcoming, htasks] at hc
          cases hc
      | cons task rest =>
          rw [upcoming, htasks] at hc
          cases task with
          | script label requests =>
              cases requests with
              | nil => cases hc
              | cons request requests =>
                  let t := ({ s with tasks := rest } : Session ρ).push
                    [.record label, .script label requests]
                  refine ⟨t, rfl, rfl, rfl, ?_⟩
                  rw [Session.step, htasks]
                  exact congrArg release (hreads (t := t) hc)
          | _ => cases hc

/-- Whether turns lead from one session to another through the listed stages, latest first. -/
inductive Course (r : Session ρ) : List (Stage ρ) → Session ρ → Prop
  | refl : Course r [] r
  | turn {past : List (Stage ρ)} {s s' : Session ρ} {begun : List (Command ρ)}
      (h : Course r past s) (hturn : s.Turn begun s') : Course r (⟨s, begun⟩ :: past) s'

theorem Reaches.turn (h : Reaches trace s) (hturn : s.Turn begun s') :
    Reaches (begun ++ trace) s' := by
  cases hturn with
  | request interpret request hidle hproper => exact h.request interpret request hproper
  | step interpret hproper => exact h.step interpret hproper

namespace Course

theorem reaches (h : Course r past s) (hr : Reaches trace r) :
    Reaches (past.flatMap Stage.begun ++ trace) s := by
  induction h with
  | refl => exact hr
  | turn h hturn ih =>
      rw [List.flatMap_cons, List.append_assoc]
      exact ih.turn hturn

theorem trans
    {t : Session ρ}
    {later : List (Stage ρ)}
    (h : Course r past s)
    (h' : Course s later t) :
    Course r (later ++ past) t := by
  induction h' with
  | refl => exact h
  | turn _ hturn ih => exact ih.turn hturn

/-- A course has come through courses to each of its stages. -/
theorem of_mem {t : Session ρ} (h : Course r past s) (ht : t ∈ s :: past.map Stage.state) :
    ∃ before, Course r before t := by
  induction h with
  | refl =>
      obtain rfl := List.mem_singleton.mp ht
      exact ⟨[], .refl⟩
  | turn h hturn ih =>
      rcases List.mem_cons.mp ht with rfl | ht
      · exact ⟨_, h.turn hturn⟩
      · exact ih ht

end Course

section Clients

/-- Whether a command makes sense, computed. -/
def isProper (s : Session ρ) : Command ρ → Bool
  | .destroyQuery id => s.names.queries.any fun _ other => other == id
  | .observe _ graph _ => graph.number ≤ s.store.graphCount
  | .openQuery _ graph _ _ => graph.number ≤ s.store.graphCount
  | _ => true

theorem isProper_eq_true_iff (s : Session ρ) (c : Command ρ) : s.isProper c = true ↔ c.Proper s := by
  cases c with
  | destroyQuery id => simp [isProper, Command.Proper, any_eq_true_iff]
  | observe as graph query => exact decide_eq_true_iff
  | openQuery as graph query cached => exact decide_eq_true_iff
  | _ => exact iff_of_true rfl trivial

instance (s : Session ρ) (c : Command ρ) : Decidable (c.Proper s) :=
  decidable_of_iff _ (s.isProper_eq_true_iff c)

/-- Whether the scripts that the next steps run issue only commands that make sense. -/
def Sensible (interpret : Interpreter ρ) : Nat → Session ρ → Prop
  | 0, _ => True
  | fuel + 1, s =>
    (∀ c ∈ s.upcoming interpret, c.Proper s) ∧ (s.step interpret).Sensible interpret fuel

instance decidableSensible (interpret : Interpreter ρ) :
    ∀ fuel s, Decidable (Sensible interpret fuel s)
  | 0, _ => inferInstanceAs (Decidable True)
  | fuel + 1, s =>
    have := decidableSensible interpret fuel (s.step interpret)
    inferInstanceAs (Decidable (_ ∧ _))

/-- The stages that a run goes through, latest first. -/
def stages (interpret : Interpreter ρ) : Nat → Session ρ → List (Stage ρ)
  | 0, _ => []
  | fuel + 1, s =>
    if s.idle then []
    else stages interpret fuel (s.step interpret) ++ [⟨s, s.upcoming interpret⟩]

/-- The stages of a client's requests, each of which is carried out before the next one is made. -/
def agenda (interpret : Interpreter ρ) (fuel : Nat) : List ρ → Session ρ → List (Stage ρ)
  | [], _ => []
  | request :: rest, s =>
    agenda interpret fuel rest (Session.request interpret fuel s request) ++
      ((Session.request interpret 0 s request).stages interpret fuel ++
        [⟨s, interpret.reads s.names request⟩])

/-- Whether a client's requests make sense, each after the one before has been carried out. -/
def MayAsk (interpret : Interpreter ρ) (fuel : Nat) : List ρ → Session ρ → Prop
  | [], _ => True
  | request :: rest, s =>
    s.idle = true ∧ (∀ c ∈ interpret.reads s.names request, c.Proper s) ∧
      (Session.request interpret 0 s request).Sensible interpret fuel ∧
      MayAsk interpret fuel rest (Session.request interpret fuel s request)

instance decidableMayAsk (interpret : Interpreter ρ) (fuel : Nat) :
    ∀ requests s, Decidable (MayAsk interpret fuel requests s)
  | [], _ => inferInstanceAs (Decidable True)
  | request :: rest, s =>
    have := decidableMayAsk interpret fuel rest (Session.request interpret fuel s request)
    inferInstanceAs (Decidable (_ ∧ _ ∧ _ ∧ _))

namespace Course

theorem run
    (h : Course r past s)
    (fuel : Nat)
    (hsensible : s.Sensible interpret fuel) :
    Course r (s.stages interpret fuel ++ past) (s.run interpret fuel) := by
  induction fuel generalizing past s with
  | zero => exact h
  | succ fuel ih =>
      rw [Session.run, stages]
      split
      · exact h
      · rw [List.append_assoc]
        exact ih (h.turn (.step interpret hsensible.1)) hsensible.2

/-- Requests that make sense continue a course. -/
theorem requested
    (h : Course r past s)
    (interpret : Interpreter ρ)
    (fuel : Nat)
    (requests : List ρ)
    (hrequests : MayAsk interpret fuel requests s) :
    Course r (agenda interpret fuel requests s ++ past)
      (requests.foldl (Session.request interpret fuel) s) := by
  induction requests generalizing past s with
  | nil => exact h
  | cons request rest ih =>
      obtain ⟨hidle, hproper, hsensible, hrest⟩ := hrequests
      have hdone : Course r
          ((Session.request interpret 0 s request).stages interpret fuel ++
            ⟨s, interpret.reads s.names request⟩ :: past)
          (Session.request interpret fuel s request) :=
        (h.turn (.request interpret request hidle hproper)).run fuel hsensible
      have hall := ih hdone hrest
      rw [agenda, List.append_assoc, List.append_assoc]
      exact hall

end Course

end Clients

end Session

end PatternGraph
