import PatternGraph.Proofs.Query.LoweringSteps

/-!
# How a lowering extends its ledger

Lowering a pattern extends the ledger by the clauses of the pattern.  A clause that some edge leads
from one node to another becomes a slot for that edge, and clauses about it.  A relation to a name
whose kind is not known yet is put off, and is counted as said, because it will be.  Which of its
two readings will be meant depends on whether the name turns out to be the name of an edge; so what
is said is compared for every list of edge names that agrees with the kinds recorded in the end.
-/

namespace PatternGraph

namespace Clause

/-- What is said about the edge that a relation between two nodes implies. -/
def implied (path : Path) (a b : Var) (role : Role) : List (Clause Place) :=
  Lowering.typedClauses (.implied path) (.root .edge) ++
    [.plays (.var a) (.implied path) role, .plays (.var b) (.implied path) role.opposite]

/-- What a lowering says for a clause. -/
def expand : Clause Var → List (Clause Place)
  | member x kind => [.member (.var x) kind]
  | same x item => [.same (.var x) item]
  | isA x type => [.isA (.var x) type]
  | isNot x type => [.isNot (.var x) type]
  | plays node edge role => [.plays (.var node) (.var edge) role]
  | joined path a b role => implied path a b role

end Clause

namespace PutOff

/-- The slot that resolving a relation may open. -/
def place (relation : PutOff) : Place :=
  .implied relation.path

/-- What resolving a relation says, given the names of edges. -/
def clauses (names : List String) (relation : PutOff) : List (Clause Place) :=
  (Pattern.related relation.path relation.node (.name relation.name) relation.role
    (names.contains relation.name)).flatMap Clause.expand

end PutOff

/-- Whether a place is a name or an exact item, which may occur anywhere in a query. -/
def Place.IsShared : Place → Prop
  | .var (.name _) | .var (.item _) => True
  | .var (.occurrence _) | .implied _ => False

namespace Ledger

variable {ledger ledger' ledger'' : Ledger} {room room' : List Place} {place : Place}
  {said said' : List String → List (Clause Place)}

/-- The places that have a slot, or will have one when the relations put off are resolved. -/
def places (ledger : Ledger) : List Place :=
  ledger.tags ++ ledger.putOff.map PutOff.place

/-- What has been said and will be said, given the names of edges. -/
def all (names : List String) (ledger : Ledger) : List (Clause Place) :=
  ledger.clauses ++ ledger.putOff.flatMap (PutOff.clauses names)

/-- Whether a list of edge names agrees with the kinds that are known. -/
def Agrees (ledger : Ledger) (names : List String) : Prop :=
  ∀ x, (.member (.var (.name x)) .edge ∈ ledger.clauses → x ∈ names) ∧
    (.member (.var (.name x)) .node ∈ ledger.clauses → x ∉ names)

/-- Whether slots can still be opened for the given places. -/
structure Free (ledger : Ledger) (room : List Place) : Prop where
  nodup : room.Nodup
  unused : ∀ place ∈ room, place ∉ ledger.places
  own : ∀ place ∈ room, ¬place.IsShared

/--
Whether a ledger has come from another one by opening slots for some of the given places and for
shared ones, and by saying or putting off the given clauses.
-/
structure Extends (ledger ledger' : Ledger) (room : List Place)
    (said : List String → List (Clause Place)) : Prop where
  tags : ledger.tags <+: ledger'.tags
  clauses : ∀ clause ∈ ledger.clauses, clause ∈ ledger'.clauses
  takenUp : ledger'.takenUp = ledger.takenUp
  distinct : ledger'.places.Nodup
  used : ∀ place ∈ ledger'.places, place ∈ ledger.places ∨ place ∈ room ∨ place.IsShared
  account : ∀ names, ledger'.Agrees names →
    Clause.Same (ledger'.all names) (ledger.all names ++ said names)

theorem Free.nil : ledger.Free [] :=
  ⟨List.nodup_nil, by simp, by simp⟩

theorem Free.mono (h : ledger.Free room') (hroom : room.Sublist room') : ledger.Free room :=
  ⟨h.nodup.sublist hroom, fun p hp => h.unused p (hroom.subset hp),
    fun p hp => h.own p (hroom.subset hp)⟩

theorem Free.not_mem_tags (h : ledger.Free room) (hplace : place ∈ room) : place ∉ ledger.tags :=
  fun htag => h.unused place hplace (List.mem_append_left _ htag)

/-- After one step there is still room for the next one. -/
theorem Free.right (h : ledger.Free (room ++ room'))
    (hextends : ledger.Extends ledger' room said) : ledger'.Free room' := by
  obtain ⟨-, hnodup, hapart⟩ := List.nodup_append.mp h.nodup
  refine ⟨hnodup, fun p hp hused => ?_, fun p hp => h.own p (List.mem_append_right _ hp)⟩
  rcases hextends.used p hused with hold | hnew | hshared
  · exact h.unused p (List.mem_append_right _ hp) hold
  · exact hapart p hnew p hp rfl
  · exact h.own p (List.mem_append_right _ hp) hshared

theorem Agrees.mono {names : List String} (h : ledger'.Agrees names)
    (hclauses : ∀ clause ∈ ledger.clauses, clause ∈ ledger'.clauses) : ledger.Agrees names :=
  fun x => ⟨fun hx => (h x).1 (hclauses _ hx), fun hx => (h x).2 (hclauses _ hx)⟩

namespace Extends

theorem refl (h : ledger.places.Nodup) : ledger.Extends ledger [] fun _ => [] where
  tags := List.prefix_rfl
  clauses := fun _ h => h
  takenUp := rfl
  distinct := h
  used := fun _ h => Or.inl h
  account := fun names _ => by simpa using Clause.Same.refl _

theorem trans
    (h : ledger.Extends ledger' room said)
    (h' : ledger'.Extends ledger'' room' said') :
    ledger.Extends ledger'' (room ++ room') fun names => said names ++ said' names where
  tags := h.tags.trans h'.tags
  clauses := fun clause hclause => h'.clauses clause (h.clauses clause hclause)
  takenUp := h'.takenUp.trans h.takenUp
  distinct := h'.distinct
  used := by
    intro p hp
    rw [List.mem_append]
    rcases h'.used p hp with hp | hp | hp
    · rcases h.used p hp with hp | hp | hp
      · exact Or.inl hp
      · exact Or.inr (Or.inl (Or.inl hp))
      · exact Or.inr (Or.inr hp)
    · exact Or.inr (Or.inl (Or.inr hp))
    · exact Or.inr (Or.inr hp)
  account := by
    intro names hnames
    have hfirst := h.account names (hnames.mono h'.clauses)
    have hboth := (h'.account names hnames).trans (hfirst.append (Clause.Same.refl (said' names)))
    rwa [List.append_assoc] at hboth

/-- The same extension, described in another way. -/
theorem congr
    (h : ledger.Extends ledger' room said)
    (hroom : ∀ place ∈ room, place ∈ room')
    (hsaid : ∀ names, ledger'.Agrees names → Clause.Same (said names) (said' names)) :
    ledger.Extends ledger' room' said' where
  tags := h.tags
  clauses := h.clauses
  takenUp := h.takenUp
  distinct := h.distinct
  used := fun p hp => (h.used p hp).imp id (Or.imp_left (hroom p))
  account := fun names hnames =>
    (h.account names hnames).trans ((Clause.Same.refl _).append (hsaid names hnames))

theorem tag (h : ledger.Extends ledger' room said) {i : Nat}
    (hi : ledger.tags[i]? = some place) : ledger'.tags[i]? = some place := by
  obtain ⟨more, hmore⟩ := h.tags
  rw [← hmore, List.getElem?_append_left (List.getElem?_eq_some_iff.mp hi).1]
  exact hi

theorem add (h : ledger.places.Nodup) (new : List (Clause Place)) :
    ledger.Extends (ledger.add new) [] fun _ => new where
  tags := List.prefix_rfl
  clauses := fun _ hclause => List.mem_append_left _ hclause
  takenUp := rfl
  distinct := h
  used := fun _ hp => Or.inl hp
  account := by
    intro names _
    rw [all, all, Ledger.add, List.append_assoc, List.append_assoc]
    exact (Clause.Same.refl _).append (Clause.Same.comm _ _)

theorem reach (h : ledger.places.Nodup)
    (hplace : place.IsShared ∨ ledger.Free room ∧ place ∈ room) :
    ledger.Extends (ledger.reach place) room fun _ => [] := by
  unfold Ledger.reach
  split
  · exact (refl h).congr (by simp) fun _ _ => Clause.Same.refl _
  · rename_i hfresh
    have hunused : place ∉ ledger.places := by
      rcases hplace with hshared | ⟨hfree, hmem⟩
      · rw [Ledger.places, List.mem_append, not_or]
        refine ⟨hfresh, fun hputOff => ?_⟩
        obtain ⟨relation, -, rfl⟩ := List.mem_map.mp hputOff
        exact hshared
      · exact hfree.unused place hmem
    have hperm : (ledger.openSlot place).places.Perm (place :: ledger.places) := by
      rw [Ledger.openSlot, Ledger.places, Ledger.places, List.append_assoc, List.singleton_append]
      exact List.perm_middle
    exact
      { tags := List.prefix_append _ _
        clauses := fun _ hclause => hclause
        takenUp := rfl
        distinct := by
          rw [hperm.nodup_iff, List.nodup_cons]
          exact ⟨hunused, h⟩
        used := by
          intro p hp
          rcases List.mem_cons.mp (hperm.mem_iff.mp hp) with rfl | hp
          · rcases hplace with hshared | ⟨-, hmem⟩
            · exact Or.inr (Or.inr hshared)
            · exact Or.inr (Or.inl hmem)
          · exact Or.inl hp
        account := fun names _ => by simpa [all, Ledger.openSlot] using Clause.Same.refl _ }

/-- Opening a slot, unless there is one, and saying something. -/
theorem reach_add (h : ledger.places.Nodup)
    (hplace : place.IsShared ∨ ledger.Free room ∧ place ∈ room) (new : List (Clause Place)) :
    ledger.Extends ((ledger.reach place).add new) room fun _ => new :=
  have hreach := reach h hplace
  (hreach.trans (add hreach.distinct new)).congr (by simp) fun _ _ => Clause.Same.refl _

theorem defer {relation : PutOff} (h : ledger.places.Nodup)
    (hfree : ledger.Free [relation.place]) :
    ledger.Extends (ledger.defer relation) [relation.place] fun names => relation.clauses names where
  tags := List.prefix_rfl
  clauses := fun _ hclause => hclause
  takenUp := rfl
  distinct := by
    have hplaces : (ledger.defer relation).places = ledger.places ++ [relation.place] := by
      simp [Ledger.defer, Ledger.places]
    rw [hplaces, List.nodup_append]
    refine ⟨h, List.nodup_singleton _, ?_⟩
    rintro a ha b hb rfl
    exact hfree.unused a hb ha
  used := by
    intro p hp
    have hplaces : (ledger.defer relation).places = ledger.places ++ [relation.place] := by
      simp [Ledger.defer, Ledger.places]
    rw [hplaces, List.mem_append] at hp
    exact hp.imp id Or.inl
  account := fun names _ => by simpa [all, Ledger.defer] using Clause.Same.refl _

end Extends

end Ledger

/-- The name that a clause says to be the name of an edge. -/
def Clause.edgeName? : Clause Place → Option String
  | .member (.var (.name x)) .edge => some x
  | _ => none

/-- The names that are known to be names of edges agree with what is known. -/
theorem Draft.Records.exists_agrees {types : List ItemType} {d : Draft} {ledger : Ledger}
    (h : d.Records types ledger) : ∃ names, ledger.Agrees names ∧
      ∀ x, x ∈ names ↔ .member (.var (.name x)) .edge ∈ ledger.clauses := by
  have hmem : ∀ x, x ∈ ledger.clauses.filterMap Clause.edgeName? ↔
      .member (.var (.name x)) .edge ∈ ledger.clauses := by
    intro x
    rw [List.mem_filterMap]
    constructor
    · rintro ⟨clause, hclause, hx⟩
      unfold Clause.edgeName? at hx
      split at hx
      · cases hx
        exact hclause
      · cases hx
    · exact fun hclause => ⟨_, hclause, rfl⟩
  refine ⟨_, fun x => ⟨(hmem x).mpr, fun hnode hx => ?_⟩, hmem⟩
  cases h.kind_unique hnode ((hmem x).mp hx)

end PatternGraph
