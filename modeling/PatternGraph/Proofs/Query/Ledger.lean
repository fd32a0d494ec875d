import Mathlib.Data.List.Forall2
import Mathlib.Data.List.Nodup
import PatternGraph.Proofs.Query.Coverage
import PatternGraph.Proofs.Query.Meaning
import PatternGraph.Proofs.Types
import PatternGraph.Query.Lowering

/-!
# The ledger of a lowering

A lowering in progress has a slot for each variable that it has come across, and for each edge that
the query implies without mentioning it.  The `Ledger` says which slot is for which of them, and
lists what the lowering has said about them so far.  A draft records a ledger when every slot is
constrained exactly as the clauses about it say.  Each step of a lowering that succeeds adds clauses
to the ledger, opens a slot, or puts off a relation.
-/

namespace PatternGraph

/-- What a slot is for: a variable, or the edge that the relation at some path implies. -/
inductive Place where
  | var (v : Var)
  | implied (path : Path)
deriving DecidableEq, Repr

namespace Clause

variable {ν : Type}

/-- The variable whose slot keeps a clause. -/
def subject : Clause ν → ν
  | member x _ | same x _ | isA x _ | isNot x _ | plays _ x _ | joined _ x _ _ => x

theorem mem_players [DecidableEq ν] {edge n : ν} {role : Role} {clauses : List (Clause ν)} :
    n ∈ players edge role clauses ↔ plays n edge role ∈ clauses := by
  rw [players, List.mem_filterMap]
  constructor
  · rintro ⟨clause, hclause, hn⟩
    cases clause with
    | plays node edge' role' =>
        simp only [Option.ite_none_right_eq_some, Option.some.injEq] at hn
        obtain ⟨⟨rfl, rfl⟩, rfl⟩ := hn
        exact hclause
    | member x kind => cases hn
    | same x item => cases hn
    | isA x type => cases hn
    | isNot x type => cases hn
    | joined path a b role => cases hn
  · intro hplays
    exact ⟨_, hplays, by simp⟩

theorem players_append [DecidableEq ν] (edge : ν) (role : Role) (before after : List (Clause ν)) :
    players edge role (before ++ after) = players edge role before ++ players edge role after := by
  simp [players]

/-- Clauses that other slots keep say nothing about the players of an edge. -/
theorem players_eq_nil [DecidableEq ν] {edge : ν} {role : Role} {clauses : List (Clause ν)}
    (hother : ∀ clause ∈ clauses, clause.subject ≠ edge) : players edge role clauses = [] := by
  rw [List.eq_nil_iff_forall_not_mem]
  intro n hn
  exact hother _ (mem_players.mp hn) rfl

/-- Whether two lists of clauses say the same, up to order and, except for players, repetition. -/
structure Same [DecidableEq ν] (clauses clauses' : List (Clause ν)) : Prop where
  mem : ∀ clause, clause ∈ clauses ↔ clause ∈ clauses'
  players : ∀ edge role, (players edge role clauses).Perm (Clause.players edge role clauses')

namespace Same

variable [DecidableEq ν] {a a' b b' c : List (Clause ν)}

theorem refl (a : List (Clause ν)) : Same a a :=
  ⟨fun _ => Iff.rfl, fun _ _ => List.Perm.refl _⟩

theorem symm (h : Same a b) : Same b a :=
  ⟨fun clause => (h.mem clause).symm, fun edge role => (h.players edge role).symm⟩

theorem trans (h : Same a b) (h' : Same b c) : Same a c :=
  ⟨fun clause => (h.mem clause).trans (h'.mem clause),
    fun edge role => (h.players edge role).trans (h'.players edge role)⟩

theorem append (h : Same a a') (h' : Same b b') : Same (a ++ b) (a' ++ b') := by
  constructor
  · intro clause
    rw [List.mem_append, List.mem_append, h.mem, h'.mem]
  · intro edge role
    rw [players_append, players_append]
    exact (h.players edge role).append (h'.players edge role)

theorem comm (a b : List (Clause ν)) : Same (a ++ b) (b ++ a) := by
  constructor
  · intro clause
    rw [List.mem_append, List.mem_append, or_comm]
  · intro edge role
    rw [players_append, players_append]
    exact List.perm_append_comm

theorem of_perm (h : a.Perm b) : Same a b :=
  ⟨fun _ => h.mem_iff, fun _ _ => h.filterMap _⟩

theorem players_eq_nil_of_not_plays (h : ∀ n e role, .plays n e role ∉ a) (edge : ν) (role : Role) :
    Clause.players edge role a = [] := by
  rw [List.eq_nil_iff_forall_not_mem]
  exact fun n hn => h n edge role (mem_players.mp hn)

/-- What is not about players may be said in any order and repeatedly. -/
theorem of_mem
    (hmem : ∀ clause, clause ∈ a ↔ clause ∈ b)
    (ha : ∀ n e role, .plays n e role ∉ a) :
    Same a b := by
  have hb : ∀ n e role, .plays n e role ∉ b := fun n e role h => ha n e role ((hmem _).mpr h)
  refine ⟨hmem, fun edge role => ?_⟩
  rw [players_eq_nil_of_not_plays ha, players_eq_nil_of_not_plays hb]

/-- What has been said already and is not about players may be left out. -/
theorem of_subset
    (hsub : ∀ clause ∈ b, clause ∈ a)
    (hb : ∀ n e role, .plays n e role ∉ b) :
    Same (a ++ b) a := by
  constructor
  · intro clause
    rw [List.mem_append, or_iff_left_of_imp (hsub clause)]
  · intro edge role
    rw [players_append, players_eq_nil_of_not_plays hb, List.append_nil]

end Same

end Clause

/-- A relation that a lowering has put off: a node, the name it is related to, and its role. -/
structure PutOff where
  node : Var
  name : String
  role : Role
  path : Path

/-- What each slot is for, what has been said about the slots, and what has been put off. -/
structure Ledger where
  tags : List Place
  clauses : List (Clause Place)
  putOff : List PutOff
  /-- The entries of a draft for relations that are no longer put off. -/
  takenUp : List (Nat × Nat × Role)

namespace Ledger

/-- The ledger that nothing has been written to. -/
def empty : Ledger :=
  ⟨[], [], [], []⟩

/-- Says more. -/
def add (ledger : Ledger) (clauses : List (Clause Place)) : Ledger :=
  { ledger with clauses := ledger.clauses ++ clauses }

/-- Opens a slot. -/
def openSlot (ledger : Ledger) (place : Place) : Ledger :=
  { ledger with tags := ledger.tags ++ [place] }

/-- Opens a slot unless there is one. -/
def reach (ledger : Ledger) (place : Place) : Ledger :=
  if place ∈ ledger.tags then ledger else ledger.openSlot place

/-- Puts a relation off. -/
def defer (ledger : Ledger) (relation : PutOff) : Ledger :=
  { ledger with putOff := ledger.putOff ++ [relation] }

/-- Takes up the relations put off, of which the draft has the given entries. -/
def takeUp (ledger : Ledger) (entries : List (Nat × Nat × Role)) : Ledger :=
  { ledger with putOff := [], takenUp := ledger.takenUp ++ entries }

end Ledger

namespace Slot

/--
Whether a slot is constrained as the clauses about its place say.  A slot keeps one type only, and
is compared with the clauses on items of the given types, which it mediates.
-/
structure Fits (types : List ItemType) (tags : List Place) (clauses : List (Clause Place))
    (place : Place) (slot : Slot) : Prop where
  kind : ∀ kind, slot.kind.itemKind = some kind ↔ .member place kind ∈ clauses
  pinned : ∀ id : ItemId, (∀ p, slot.pinned = some p → p.id = id) ↔
    ∀ item, .same place item ∈ clauses → item.id = id
  type : ∀ t ∈ types, ((∀ u, slot.type = some u → t.isA u = true) ↔
    ∀ u, .isA place u ∈ clauses → t.isA u = true)
  mediates : ∀ u, slot.type = some u → u.Mediates types
  given : ∀ u, slot.type = some u → .isA place u ∈ clauses
  excluded : ∀ t, t ∈ slot.excluded ↔ .isNot place t ∈ clauses
  partners : slot.kind ≠ .node → ∀ role, ((slot.partners role).map fun i => tags[i]?).Perm
    ((Clause.players place role clauses).map some)
  ends : slot.kind ≠ .node → slot.ends.length ≤ maxEdgeEnds

/-- Whether a slot is named as a slot for a place is. -/
def Bears (slot : Slot) : Place → Prop
  | .var (.name x) =>
    slot.name = x ∧ x.toList.head? ≠ some '#' ∧ x.toList.head? ≠ some '@'
  | .var (.item id) => slot.name = "@" ++ id.text ∧ ∃ p, slot.pinned = some p ∧ p.id = id
  | .var (.occurrence _) | .implied _ => slot.name.toList.head? = some '#'

variable {types : List ItemType} {tags : List Place} {clauses new : List (Clause Place)}
  {place : Place} {slot : Slot}

/-- How a slot is named depends on its name and, for an exact item, on what it is bound to. -/
theorem Bears.congr
    {slot' : Slot}
    (h : slot.Bears place)
    (hname : slot'.name = slot.name)
    (hpinned : slot'.pinned = slot.pinned) :
    slot'.Bears place := by
  cases place with
  | implied path => rwa [Bears, hname]
  | var v =>
      cases v with
      | name x => rwa [Bears, hname]
      | occurrence path => rwa [Bears, hname]
      | item id => rwa [Bears, hname, hpinned]

/-- A slot with an ordinary name is for that name. -/
theorem Bears.eq_name
    (h : slot.Bears place)
    (hhash : slot.name.toList.head? ≠ some '#')
    (hat : slot.name.toList.head? ≠ some '@') :
    place = .var (.name slot.name) := by
  cases place with
  | implied path => exact absurd h hhash
  | var v =>
      cases v with
      | name x => rw [h.1]
      | occurrence path => exact absurd h hhash
      | item id =>
          obtain ⟨hname, -⟩ := h
          simp [hname] at hat

/-- A slot whose name marks an exact item is for the item that it is bound to. -/
theorem Bears.eq_item
    (h : slot.Bears place)
    (hat : slot.name.toList.head? = some '@') :
    ∃ p, slot.pinned = some p ∧ place = .var (.item p.id) := by
  cases place with
  | implied path =>
      rw [Bears, hat] at h
      simp at h
  | var v =>
      cases v with
      | name x =>
          obtain ⟨hname, -, hx⟩ := h
          exact absurd (hname ▸ hat) hx
      | occurrence path =>
          rw [Bears, hat] at h
          simp at h
      | item id =>
          obtain ⟨-, p, hp, rfl⟩ := h
          exact ⟨p, hp, rfl⟩

/-- A slot is not concerned by clauses about other places. -/
theorem Fits.frame
    (h : slot.Fits types tags clauses place)
    (hother : ∀ clause ∈ new, clause.subject ≠ place) :
    slot.Fits types tags (clauses ++ new) place := by
  have hnew : ∀ clause : Clause Place, clause.subject = place →
      (clause ∈ clauses ++ new ↔ clause ∈ clauses) := by
    intro clause hsubject
    rw [List.mem_append, or_iff_left]
    exact fun hclause => hother clause hclause hsubject
  constructor
  · intro kind
    rw [hnew _ rfl]
    exact h.kind kind
  · intro id
    rw [h.pinned]
    refine forall_congr' fun item => ?_
    rw [hnew _ rfl]
  · intro t ht
    rw [h.type t ht]
    refine forall_congr' fun u => ?_
    rw [hnew _ rfl]
  · exact h.mediates
  · exact fun u hu => List.mem_append_left _ (h.given u hu)
  · intro t
    rw [hnew _ rfl]
    exact h.excluded t
  · intro hkind role
    rw [Clause.players_append, Clause.players_eq_nil hother, List.append_nil]
    exact h.partners hkind role
  · exact h.ends

/-- A slot is not concerned by further slots. -/
theorem Fits.extend (h : slot.Fits types tags clauses place) (more : List Place) :
    slot.Fits types (tags ++ more) clauses place := by
  refine { h with partners := fun hkind role => ?_ }
  have hsame : (slot.partners role).map (fun i => (tags ++ more)[i]?) =
      (slot.partners role).map fun i => tags[i]? := by
    apply List.map_congr_left
    intro i hi
    have hsome := (h.partners hkind role).subset (List.mem_map_of_mem hi)
    obtain ⟨p, -, hp⟩ := List.mem_map.mp hsome
    exact List.getElem?_append_left (List.getElem?_eq_some_iff.mp hp.symm).1
  rw [hsame]
  exact h.partners hkind role

/-- Only what is said about its own place matters to a slot, and not in which order. -/
theorem Fits.congr
    {clauses' : List (Clause Place)}
    (h : slot.Fits types tags clauses place)
    (hsame : Clause.Same clauses clauses') :
    slot.Fits types tags clauses' place := by
  constructor
  · intro kind
    rw [h.kind, hsame.mem]
  · intro id
    simp only [h.pinned, hsame.mem]
  · intro t ht
    simp only [h.type t ht, hsame.mem]
  · exact h.mediates
  · exact fun u hu => (hsame.mem _).mp (h.given u hu)
  · intro t
    rw [h.excluded, hsame.mem]
  · exact fun hkind role => (h.partners hkind role).trans ((hsame.players place role).map some)
  · exact h.ends

end Slot

/-- Whether an entry of the relations that a draft has put off is a given relation. -/
structure PutOff.IsAt (tags : List Place) (clauses : List (Clause Place)) (entry : Nat × Nat × Role)
    (relation : PutOff) : Prop where
  node : tags[entry.1]? = some (.var relation.node)
  other : tags[entry.2.1]? = some (.var (.name relation.name))
  role : entry.2.2 = relation.role
  isNode : .member (.var relation.node) .node ∈ clauses

/-- Whether a draft is constrained as a ledger says. -/
structure Draft.Records (types : List ItemType) (d : Draft) (ledger : Ledger) : Prop where
  length : ledger.tags.length = d.slots.size
  nodup : ledger.tags.Nodup
  fits : ∀ (i : Nat) (slot : Slot) (place : Place), d.slots[i]? = some slot →
    ledger.tags[i]? = some place → slot.Fits types ledger.tags ledger.clauses place ∧ slot.Bears place
  subjects : ∀ clause ∈ ledger.clauses, clause.subject ∈ ledger.tags
  played : ∀ n e role, .plays n e role ∈ ledger.clauses →
    .member n .node ∈ ledger.clauses ∧ .member e .edge ∈ ledger.clauses
  deferred : ∃ entries, d.deferred = ledger.takenUp ++ entries ∧
    List.Forall₂ (PutOff.IsAt ledger.tags ledger.clauses) entries ledger.putOff

namespace Draft.Records

variable {types : List ItemType} {d d' : Draft} {ledger : Ledger} {i : Nat} {place : Place}
  {new : List (Clause Place)}

theorem empty : Draft.empty.Records types .empty :=
  ⟨rfl, List.nodup_nil, by simp [Draft.empty], nofun, nofun, [], rfl, List.Forall₂.nil⟩

/-- The slot for a place. -/
theorem slot (h : d.Records types ledger) (hi : ledger.tags[i]? = some place) :
    ∃ slot, d.slots[i]? = some slot ∧ slot.Fits types ledger.tags ledger.clauses place ∧
      slot.Bears place := by
  have hlt : i < d.slots.size := by
    rw [← h.length]
    exact (List.getElem?_eq_some_iff.mp hi).1
  have hslot : d.slots[i]? = some d.slots[i] := Array.getElem?_eq_getElem hlt
  exact ⟨_, hslot, h.fits i _ place hslot hi⟩

/-- The place of a slot. -/
theorem tag (h : d.Records types ledger) {slot : Slot} (hi : d.slots[i]? = some slot) :
    ∃ place, ledger.tags[i]? = some place ∧ slot.Fits types ledger.tags ledger.clauses place ∧
      slot.Bears place := by
  have hlt : i < ledger.tags.length := by
    rw [h.length]
    exact (Array.getElem?_eq_some_iff.mp hi).1
  have htag : ledger.tags[i]? = some ledger.tags[i] := List.getElem?_eq_getElem hlt
  exact ⟨_, htag, h.fits i slot _ hi htag⟩

/-- Saying more about one place while changing its slot accordingly. -/
theorem change
    {slot : Slot}
    (h : d.Records types ledger)
    (hi : ledger.tags[i]? = some place)
    (hsize : d'.slots.size = d.slots.size)
    (hslots : ∀ j, d'.slots[j]? = if j = i then some slot else d.slots[j]?)
    (hdeferred : d'.deferred = d.deferred)
    (hsubject : ∀ clause ∈ new, clause.subject = place)
    (hplayed : ∀ n e role, .plays n e role ∈ new →
      .member n .node ∈ ledger.clauses ++ new ∧ .member e .edge ∈ ledger.clauses ++ new)
    (hfits : slot.Fits types ledger.tags (ledger.clauses ++ new) place)
    (hbears : slot.Bears place) :
    d'.Records types (ledger.add new) := by
  constructor
  · rw [hsize]
    exact h.length
  · exact h.nodup
  · intro j slot' place' hslot' hplace'
    have hplace' : ledger.tags[j]? = some place' := hplace'
    rw [hslots] at hslot'
    by_cases hji : j = i
    · subst hji
      obtain rfl : place = place' := by simpa [hi] using hplace'
      rw [if_pos rfl, Option.some.injEq] at hslot'
      subst hslot'
      exact ⟨hfits, hbears⟩
    · rw [if_neg hji] at hslot'
      obtain ⟨hfits', hbears'⟩ := h.fits j slot' place' hslot' hplace'
      refine ⟨hfits'.frame fun clause hclause => ?_, hbears'⟩
      rw [hsubject clause hclause]
      rintro rfl
      exact hji (List.getElem?_inj (List.getElem?_eq_some_iff.mp hplace').1 h.nodup |>.mp
        (hplace'.trans hi.symm))
  · intro clause hclause
    rcases List.mem_append.mp hclause with hclause | hclause
    · exact h.subjects clause hclause
    · rw [hsubject clause hclause]
      exact List.mem_of_getElem? hi
  · intro n e role hplays
    rcases List.mem_append.mp hplays with hplays | hplays
    · obtain ⟨hn, he⟩ := h.played n e role hplays
      exact ⟨List.mem_append_left new hn, List.mem_append_left new he⟩
    · exact hplayed n e role hplays
  · obtain ⟨entries, hentries, hputOff⟩ := h.deferred
    exact ⟨entries, hdeferred.trans hentries, hputOff.imp fun _ _ hentry =>
      ⟨hentry.node, hentry.other, hentry.role, List.mem_append_left new hentry.isNode⟩⟩

/-- Opening a slot for a place that has none. -/
theorem push
    {slot : Slot}
    (h : d.Records types ledger)
    (hfresh : place ∉ ledger.tags)
    (hslots : d'.slots = d.slots.push slot)
    (hdeferred : d'.deferred = d.deferred)
    (hsubject : ∀ clause ∈ new, clause.subject = place)
    (hplayed : ∀ n e role, .plays n e role ∉ new)
    (hfits : slot.Fits types (ledger.tags ++ [place]) (ledger.clauses ++ new) place)
    (hbears : slot.Bears place) :
    d'.Records types ((ledger.openSlot place).add new) := by
  constructor
  · simp [hslots, Ledger.add, Ledger.openSlot, h.length]
  · rw [Ledger.add, Ledger.openSlot, List.nodup_append]
    refine ⟨h.nodup, List.nodup_singleton place, ?_⟩
    rintro a ha b hb rfl
    rw [List.mem_singleton] at hb
    exact hfresh (hb ▸ ha)
  · intro j slot' place' hslot' hplace'
    have hplace' : (ledger.tags ++ [place])[j]? = some place' := hplace'
    rw [hslots, Array.getElem?_push] at hslot'
    by_cases hj : j = d.slots.size
    · rw [if_pos hj, Option.some.injEq] at hslot'
      rw [hj, ← h.length, List.getElem?_concat_length, Option.some.injEq] at hplace'
      subst hslot' hplace'
      exact ⟨hfits, hbears⟩
    · rw [if_neg hj] at hslot'
      have hlt : j < ledger.tags.length := by
        rw [h.length]
        exact (Array.getElem?_eq_some_iff.mp hslot').1
      rw [List.getElem?_append_left hlt] at hplace'
      obtain ⟨hold, hbearsOld⟩ := h.fits j slot' place' hslot' hplace'
      refine ⟨(hold.extend [place]).frame fun clause hclause => ?_, hbearsOld⟩
      rw [hsubject clause hclause]
      rintro rfl
      exact hfresh (List.mem_of_getElem? hplace')
  · intro clause hclause
    rcases List.mem_append.mp hclause with hclause | hclause
    · exact List.mem_append_left _ (h.subjects clause hclause)
    · rw [hsubject clause hclause]
      exact List.mem_append_right _ List.mem_cons_self
  · intro n e role hplays
    rcases List.mem_append.mp hplays with hplays | hplays
    · obtain ⟨hn, he⟩ := h.played n e role hplays
      exact ⟨List.mem_append_left new hn, List.mem_append_left new he⟩
    · exact absurd hplays (hplayed n e role)
  · have hlonger : ∀ (j : Nat) (p : Place), ledger.tags[j]? = some p →
        (ledger.tags ++ [place])[j]? = some p := by
      intro j p hp
      rwa [List.getElem?_append_left (List.getElem?_eq_some_iff.mp hp).1]
    obtain ⟨entries, hentries, hputOff⟩ := h.deferred
    exact ⟨entries, hdeferred.trans hentries, hputOff.imp fun _ _ hentry =>
      ⟨hlonger _ _ hentry.node, hlonger _ _ hentry.other, hentry.role,
        List.mem_append_left new hentry.isNode⟩⟩

/-- What has been said may be said in another way. -/
theorem congr
    {clauses : List (Clause Place)}
    (h : d.Records types ledger)
    (hsame : Clause.Same ledger.clauses clauses) :
    d.Records types { ledger with clauses := clauses } := by
  constructor
  · exact h.length
  · exact h.nodup
  · intro j slot' place' hslot' hplace'
    obtain ⟨hfits, hbears⟩ := h.fits j slot' place' hslot' hplace'
    exact ⟨hfits.congr hsame, hbears⟩
  · intro clause hclause
    exact h.subjects clause ((hsame.mem clause).mpr hclause)
  · intro n e role hplays
    obtain ⟨hn, he⟩ := h.played n e role ((hsame.mem _).mpr hplays)
    exact ⟨(hsame.mem _).mp hn, (hsame.mem _).mp he⟩
  · obtain ⟨entries, hentries, hputOff⟩ := h.deferred
    exact ⟨entries, hentries, hputOff.imp fun _ _ hentry =>
      ⟨hentry.node, hentry.other, hentry.role, (hsame.mem _).mp hentry.isNode⟩⟩

/-- A place has one kind at most. -/
theorem kind_unique
    {k k' : Kind}
    (h : d.Records types ledger)
    (hk : .member place k ∈ ledger.clauses)
    (hk' : .member place k' ∈ ledger.clauses) :
    k = k' := by
  have hplace : place ∈ ledger.tags := h.subjects _ hk
  obtain ⟨i, hi⟩ := List.mem_iff_getElem?.mp hplace
  obtain ⟨slot, -, hfits, -⟩ := h.slot hi
  rw [← hfits.kind] at hk hk'
  rw [hk, Option.some.injEq] at hk'
  exact hk'

end Draft.Records

end PatternGraph
