import Mathlib.Data.Prod.Lex
import PatternGraph.Proofs.Session.Agreement

/-!
# Running on

A run comes to at most one end, and what a client issues in turn leads from histories to histories.
While handlers do not mutate, a run tells all that is to be told and then goes on with the duty
below: every note leaves lighter notes only.  What lasts while things are created and let go is still
so when the duty goes on.
-/

namespace PatternGraph

variable {ρ : Type} {c : Catalogue} {interpret : Interpreter ρ}

namespace Task

theorem lighter_wellFounded : WellFounded (Lighter : Task ρ → Task ρ → Prop) := by
  have hlex : WellFounded (InvImage (Prod.Lex (· < ·) (· < ·))
      fun task : Task ρ => (task.rank, task.size)) :=
    InvImage.wf _ (Nat.lt_wfRel.wf.prod_lex Nat.lt_wfRel.wf)
  refine Subrelation.wf (fun {task other} h => ?_) hlex
  change Prod.Lex _ _ (task.rank, task.size) (other.rank, other.size)
  exact Prod.lex_def.mpr h

end Task

namespace Session

variable {s t : Session ρ} {P Q : Session ρ → Prop}

section Runs

/-- A run comes to a session that is as required. -/
inductive Eventually (interpret : Interpreter ρ) (Q : Session ρ → Prop) : Session ρ → Prop
  | now {s : Session ρ} (h : Q s) : Eventually interpret Q s
  | later {s : Session ρ} (h : Eventually interpret Q (s.step interpret)) :
      Eventually interpret Q s

namespace Eventually

theorem trans
    (h : Eventually interpret P s)
    (hnext : ∀ t, P t → Eventually interpret Q t) :
    Eventually interpret Q s := by
  induction h with
  | now hnow => exact hnext _ hnow
  | later _ ih => exact .later ih

theorem mono (h : Eventually interpret P s) (hPQ : ∀ t, P t → Q t) : Eventually interpret Q s :=
  h.trans fun t ht => .now (hPQ t ht)

end Eventually

theorem step_of_idle (h : s.idle = true) : s.step interpret = s := by
  rw [step, List.isEmpty_iff.mp h]

theorem run_of_idle (h : s.idle = true) (fuel : Nat) : s.run interpret fuel = s := by
  cases fuel with
  | zero => rfl
  | succ fuel => rw [run, if_pos h]

/-- What each step preserves holds after a run. -/
theorem run_preserves
    {P : Session ρ → Prop}
    (hstep : ∀ t, P t → P (t.step interpret))
    (h : P s)
    (fuel : Nat) :
    P (s.run interpret fuel) := by
  induction fuel generalizing s with
  | zero => exact h
  | succ fuel ih =>
      rw [run]
      split
      · exact h
      · exact ih (hstep s h)

/-- A run that one step brings to its end is where it began, or at the end. -/
theorem run_of_step_idle (h : (s.step interpret).idle = true) (fuel : Nat) :
    s.run interpret fuel = s ∨ s.run interpret fuel = s.step interpret := by
  cases fuel with
  | zero => exact Or.inl rfl
  | succ fuel =>
      rw [run]
      split
      · exact Or.inl rfl
      · exact Or.inr (run_of_idle h fuel)

/-- Enough steps bring a run to where it comes eventually. -/
theorem Eventually.exists_fuel (h : Eventually interpret Q s) :
    ∃ fuel, Q (s.run interpret fuel) := by
  induction h with
  | now hnow => exact ⟨0, hnow⟩
  | @later s _ ih =>
      obtain ⟨fuel, hfuel⟩ := ih
      by_cases hidle : s.idle = true
      · rw [step_of_idle hidle] at hfuel
        exact ⟨fuel, hfuel⟩
      · refine ⟨fuel + 1, ?_⟩
        rwa [run, if_neg hidle]

/-- A run comes to at most one end. -/
theorem run_eq_of_idle
    {fuel fuel' : Nat}
    (h : (s.run interpret fuel).idle = true)
    (h' : (s.run interpret fuel').idle = true) :
    s.run interpret fuel = s.run interpret fuel' := by
  induction fuel generalizing fuel' s with
  | zero => exact (run_of_idle h fuel').symm
  | succ fuel ih =>
      by_cases hidle : s.idle = true
      · rw [run_of_idle hidle, run_of_idle hidle]
      · cases fuel' with
        | zero => exact absurd h' hidle
        | succ fuel' =>
            rw [run, if_neg hidle] at h h' ⊢
            rw [run, if_neg hidle]
            exact ih h h'

/-- What a run comes to in the end holds of every end. -/
theorem Eventually.of_idle
    {fuel : Nat}
    (h : Eventually interpret (fun t => t.idle = true ∧ Q t) s)
    (hidle : (s.run interpret fuel).idle = true) :
    Q (s.run interpret fuel) := by
  obtain ⟨fuel', hidle', hQ⟩ := h.exists_fuel
  rwa [run_eq_of_idle hidle hidle']

theorem abides_of_idle_now
    {permits : Command ρ → Prop}
    (h : s.idle = true)
    (fuel : Nat) :
    s.Abides c permits interpret fuel := by
  induction fuel with
  | zero => trivial
  | succ fuel ih =>
      refine ⟨fun cmd hcmd => ?_, by rwa [step_of_idle h]⟩
      rw [upcoming, List.isEmpty_iff.mp h] at hcmd
      cases hcmd

/-- A run that has come to its end goes on as it has abided. -/
theorem abides_of_idle
    {permits : Command ρ → Prop}
    (fuel : Nat)
    (h : s.Abides c permits interpret fuel)
    (hidle : (s.run interpret fuel).idle = true)
    (more : Nat) :
    s.Abides c permits interpret more := by
  induction fuel generalizing s more with
  | zero => exact abides_of_idle_now hidle more
  | succ fuel ih =>
      by_cases hnow : s.idle = true
      · exact abides_of_idle_now hnow more
      · rw [run, if_neg hnow] at hidle
        cases more with
        | zero => trivial
        | succ more => exact ⟨h.1, ih h.2 hidle more⟩

end Runs

section Clients

/-- Carries out a command of a client who has no scripts. -/
def carryOut (fuel : Nat) (s : Session Unit) (cmd : Command Unit) : Session Unit :=
  Session.request (fun _ _ => .ok cmd) fuel s ()

/-- Whether a client may issue some commands in turn, each after the one before has ended. -/
def MayIssue (c : Catalogue) (permits : Command Unit → Prop) (fuel : Nat) :
    List (Command Unit) → Session Unit → Prop
  | [], _ => True
  | cmd :: rest, s =>
    s.idle = true ∧ cmd.Genuine c s.store ∧
      (s.carryOut 0 cmd).Abides c permits (fun _ _ => .ok cmd) fuel ∧
      MayIssue c permits fuel rest (s.carryOut fuel cmd)

instance decidableMayIssue (c : Catalogue) (permits : Command Unit → Prop)
    [DecidablePred permits] (fuel : Nat) : ∀ cmds s, Decidable (MayIssue c permits fuel cmds s)
  | [], _ => inferInstanceAs (Decidable True)
  | cmd :: rest, s =>
    have := decidableMayIssue c permits fuel rest (s.carryOut fuel cmd)
    inferInstanceAs (Decidable (_ ∧ _ ∧ _ ∧ _))

/-- What a client issues in turn goes on with a history. -/
theorem History.carriedOut
    {permits : Command Unit → Prop}
    {fuel : Nat}
    {past : List (Session Unit)}
    {s : Session Unit}
    {cmds : List (Command Unit)}
    (h : History c permits past s)
    (hissue : MayIssue c permits fuel cmds s) :
    ∃ later, History c permits (later ++ past) (cmds.foldl (carryOut fuel) s) := by
  induction cmds generalizing past s with
  | nil => exact ⟨[], h⟩
  | cons cmd rest ih =>
      obtain ⟨hidle, hgenuine, habides, hrest⟩ := hissue
      obtain ⟨middle, hdone⟩ := (h.issued cmd hidle () hgenuine).run _ fuel habides
      have hdone : History c permits (middle ++ s :: past) (s.carryOut fuel cmd) := hdone
      obtain ⟨later, hlater⟩ := ih hdone hrest
      exact ⟨later ++ (middle ++ [s]), by simpa using hlater⟩

/-- The states that a run leaves behind, latest first. -/
def passed (interpret : Interpreter ρ) : Nat → Session ρ → List (Session ρ)
  | 0, _ => []
  | fuel + 1, s => if s.idle then [] else passed interpret fuel (s.step interpret) ++ [s]

/-- Requests that are numbers of listed commands. -/
def numbered (cmds : List (Command Nat)) : Interpreter Nat := fun _ n =>
  match cmds[n]? with
  | some cmd => .ok cmd
  | none => .error .malformed

/-- The states that a client leaves behind who makes some requests in turn, latest first. -/
def trail (interpret : Interpreter ρ) (fuel : Nat) : List ρ → Session ρ → List (Session ρ)
  | [], _ => []
  | request :: rest, s =>
    trail interpret fuel rest (Session.request interpret fuel s request) ++
      ((Session.request interpret 0 s request).passed interpret fuel ++ [s])

/-- Whether a client may make some requests in turn, each after the one before has been carried out. -/
def MayRequest (c : Catalogue) (permits : Command ρ → Prop) (interpret : Interpreter ρ) (fuel : Nat) :
    List ρ → Session ρ → Prop
  | [], _ => True
  | request :: rest, s =>
    s.idle = true ∧ (∀ cmd ∈ interpret.reads s.names request, cmd.Genuine c s.store) ∧
      (Session.request interpret 0 s request).Abides c permits interpret fuel ∧
      MayRequest c permits interpret fuel rest (Session.request interpret fuel s request)

instance decidableMayRequest (c : Catalogue) (permits : Command ρ → Prop) [DecidablePred permits]
    (interpret : Interpreter ρ) (fuel : Nat) :
    ∀ requests s, Decidable (MayRequest c permits interpret fuel requests s)
  | [], _ => inferInstanceAs (Decidable True)
  | request :: rest, s =>
    have := decidableMayRequest c permits interpret fuel rest
      (Session.request interpret fuel s request)
    inferInstanceAs (Decidable (_ ∧ _ ∧ _ ∧ _))

/-- A run goes on with a history by the states that it leaves behind. -/
theorem History.passed
    {permits : Command ρ → Prop}
    {past : List (Session ρ)}
    (h : History c permits past s)
    (fuel : Nat)
    (habides : s.Abides c permits interpret fuel) :
    History c permits (s.passed interpret fuel ++ past) (s.run interpret fuel) := by
  induction fuel generalizing past s with
  | zero => exact h
  | succ fuel ih =>
      rw [Session.run, Session.passed]
      split
      · exact h
      · have hrest := ih (h.step interpret habides.1) habides.2
        rwa [List.append_assoc]

/-- What a client requests in turn goes on with a history by the states that are left behind. -/
theorem History.requested
    {permits : Command ρ → Prop}
    {past : List (Session ρ)}
    (h : History c permits past s)
    (interpret : Interpreter ρ)
    (fuel : Nat)
    (requests : List ρ)
    (hrequest : MayRequest c permits interpret fuel requests s) :
    History c permits (trail interpret fuel requests s ++ past)
      (requests.foldl (Session.request interpret fuel) s) := by
  induction requests generalizing past s with
  | nil => exact h
  | cons request rest ih =>
      obtain ⟨hidle, hgenuine, habides, hrest⟩ := hrequest
      have hdone : History c permits
          ((Session.request interpret 0 s request).passed interpret fuel ++ s :: past)
          (Session.request interpret fuel s request) :=
        (h.request interpret request hidle hgenuine).passed fuel habides
      have hall := ih hdone hrest
      rw [trail, List.append_assoc, List.append_assoc]
      exact hall

end Clients

/-- Whether a session is orderly and poised, and its scripts go on without mutating. -/
structure Calm (c : Catalogue) (interpret : Interpreter ρ) (s : Session ρ) : Prop where
  orderly : Orderly c s
  poised : s.Poised
  abides : ∀ fuel, s.Abides c (fun cmd => ¬cmd.Mutates) interpret fuel

namespace Calm

theorem step (h : Calm c interpret s) : Calm c interpret (s.step interpret) := by
  have hupcoming := (h.abides 1).1
  exact ⟨h.orderly.step h.poised.not_overtaken fun cmd hcmd => (hupcoming cmd hcmd).1,
    h.poised.step h.orderly hupcoming, fun fuel => (h.abides (fuel + 1)).2⟩

/-- A note leaves lighter notes, while the store ages and keeps the graphs that are worked on. -/
theorem step_note
    {note : Task ρ}
    {rest : List (Task ρ)}
    (h : Calm c interpret s)
    (htasks : s.tasks = note :: rest)
    (hnote : note.Note) :
    (∃ pushed, (s.step interpret).tasks = pushed ++ rest ∧ ∀ other ∈ pushed, other.Lighter note) ∧
      s.store.Ages (s.step interpret).store ∧
      ∀ other ∈ rest, ∀ g ∈ other.graphs, g ∈ s.store.graphs →
        g ∈ (s.step interpret).store.graphs := by
  let taken : Session ρ := { s with tasks := rest }
  obtain ⟨hgrows, pushed, hpushed, hlighter⟩ :
      taken.store.Grows (taken.perform interpret note).store ∧
      ∃ pushed, (taken.perform interpret note).tasks = pushed ++ taken.tasks ∧
        ∀ other ∈ pushed, other.Lighter note := by
    refine perform_calm h.orderly.sound.toPristine hnote ?_
    rintro label request requests rfl cmd hcmd
    exact ((h.abides 1).1 cmd (by rwa [upcoming_of_script htasks])).2
  have hstep : s.step interpret = (taken.perform interpret note).release := by
    rw [Session.step, htasks]
  rw [hstep]
  refine ⟨⟨pushed, ?_, hlighter⟩, hgrows.toAges.trans (ages_release _ hgrows.pristine),
    fun other hother g hg hmem => ?_⟩
  · rw [tasks_release, hpushed]
  · have hkept : other ∈ (taken.perform interpret note).tasks := by
      rw [hpushed]
      exact List.mem_append_right _ hother
    exact mem_graphs_release_of_task hkept hg (hgrows.keepsGraph g hmem)

/-- The first of some notes leaves notes, while the store ages. -/
theorem step_notes
    {note : Task ρ}
    {notes rest : List (Task ρ)}
    (h : Calm c interpret s)
    (htasks : s.tasks = (note :: notes) ++ rest)
    (hnotes : ∀ other ∈ note :: notes, other.Note) :
    (∃ notes', (s.step interpret).tasks = notes' ++ rest ∧ ∀ other ∈ notes', other.Note) ∧
      s.store.Ages (s.step interpret).store := by
  have hnote := hnotes note List.mem_cons_self
  obtain ⟨⟨pushed, hpushed, hlighter⟩, hages, -⟩ := h.step_note htasks hnote
  refine ⟨⟨pushed ++ notes, by rw [List.append_assoc]; exact hpushed, fun other hother => ?_⟩, hages⟩
  rcases List.mem_append.mp hother with hother | hother
  · exact .of_lighter (hlighter other hother) hnote
  · exact hnotes other (List.mem_cons_of_mem note hother)

/-- Whether something lasts while things are created, and let go that a task does not work on. -/
def Lasts (c : Catalogue) (task : Task ρ) (K : Store → Prop) : Prop :=
  ∀ store store', store.Sound c → K store → store.Ages store' →
    (∀ g ∈ task.graphs, g ∈ store.graphs → g ∈ store'.graphs) → K store'

variable {task : Task ρ} {K : Store → Prop}

/-- Notes are told one after the other if each is told. -/
theorem drain_each
    {notes rest : List (Task ρ)}
    (hone : ∀ note ∈ notes, ∀ (s : Session ρ) (rest : List (Task ρ)), Calm c interpret s →
      s.tasks = note :: rest → task ∈ rest → K s.store →
      Eventually interpret (fun t => Calm c interpret t ∧ t.tasks = rest ∧ K t.store) s)
    (h : Calm c interpret s)
    (htasks : s.tasks = notes ++ rest)
    (htask : task ∈ rest)
    (hK : K s.store) :
    Eventually interpret (fun t => Calm c interpret t ∧ t.tasks = rest ∧ K t.store) s := by
  induction notes generalizing s with
  | nil => exact .now ⟨h, htasks, hK⟩
  | cons note notes ih =>
      refine (hone note List.mem_cons_self s (notes ++ rest) h htasks
        (List.mem_append_right _ htask) hK).trans ?_
      rintro t ⟨ht, httasks, hKt⟩
      exact ih (fun other hother => hone other (List.mem_cons_of_mem note hother)) ht httasks hKt

/-- A note is told to the end. -/
theorem drain_note
    {note : Task ρ}
    {rest : List (Task ρ)}
    (hlasts : Lasts c task K)
    (hnote : note.Note)
    (h : Calm c interpret s)
    (htasks : s.tasks = note :: rest)
    (htask : task ∈ rest)
    (hK : K s.store) :
    Eventually interpret (fun t => Calm c interpret t ∧ t.tasks = rest ∧ K t.store) s := by
  induction note using Task.lighter_wellFounded.induction generalizing s rest with
  | _ note ih =>
      obtain ⟨⟨pushed, hpushed, hlighter⟩, hages, hgraphs⟩ := h.step_note htasks hnote
      refine .later (drain_each (fun other hother t rest' ht httasks htask' hKt => ?_) h.step hpushed
        htask (hlasts _ _ h.orderly.sound hK hages (hgraphs task htask)))
      have hlight := hlighter other hother
      exact ih other hlight (Task.Note.of_lighter hlight hnote) ht httasks htask' hKt

/-- All notes are told to the end, and the task below goes on. -/
theorem drain
    {notes : List (Task ρ)}
    (hlasts : Lasts c task K)
    (hnotes : ∀ note ∈ notes, note.Note)
    (h : Calm c interpret s)
    (htasks : s.tasks = notes ++ [task])
    (hK : K s.store) :
    Eventually interpret (fun t => Calm c interpret t ∧ t.tasks = [task] ∧ K t.store) s :=
  drain_each (fun note hnote _ _ ht httasks htask hKt =>
    drain_note hlasts (hnotes note hnote) ht httasks htask hKt) h htasks
    (List.mem_singleton_self task) hK

end Calm

/-- A client may begin a command in a calm session. -/
theorem History.calm
    {past : List (Session ρ)}
    (h : History c (fun cmd => ¬cmd.Mutates) past s)
    (habides : ∀ fuel, s.Abides c (fun cmd => ¬cmd.Mutates) interpret fuel) :
    Calm c interpret s :=
  ⟨h.poised.1, h.poised.2, habides⟩

end Session

end PatternGraph
