import PatternGraph.Proofs.Session.Conservation
import PatternGraph.Proofs.Session.Listening

/-!
# What a pair of listeners makes of what it is told

A client may have one listener told of the rows that come to the results of an observer and another one
of those that go, and keep a set of rows up to date from that.  A refresh in the midst of a delivery has
its rows told before those that are owed already, so the pair may be told of rows out of order.  As often
as a row has come and gone, the pair is told that; but what it is told last is the first
of the changes that have been made while it was owed some.
-/

namespace PatternGraph

variable {ρ : Type}

/-- Rows that have come or gone, as a listener is told of them. -/
abbrev Batch := Change × List Row

/-- What batches say about the rows with some key, one after the other. -/
def changesOfKey (key : RowKey) (batches : List Batch) : List Change :=
  batches.flatMap fun batch => List.replicate ((batch.2.map Row.key).count key) batch.1

/-- The set that is left when keys of rows that come are put in, and those of rows that go taken out. -/
def rebuild (keys : Finset RowKey) (batches : List Batch) : Finset RowKey :=
  batches.foldl (fun keys batch =>
    match batch.1 with
    | .added => keys ∪ (batch.2.map Row.key).toFinset
    | .removed => keys \ (batch.2.map Row.key).toFinset) keys

/-- Whether something is there after changes. -/
def ThereAfter (before : Prop) (changes : List Change) : Prop :=
  changes.foldl (fun _ change => change = .added) before

theorem thereAfter_append (p : Prop) (changes more : List Change) :
    ThereAfter p (changes ++ more) = ThereAfter (ThereAfter p changes) more :=
  List.foldl_append

theorem thereAfter_of_ne_nil {changes : List Change} (h : changes ≠ []) (p q : Prop) :
    ThereAfter p changes = ThereAfter q changes := by
  cases changes with
  | nil => exact absurd rfl h
  | cons change changes => rfl

@[simp]
theorem changesOfKey_append (key : RowKey) (batches more : List Batch) :
    changesOfKey key (batches ++ more) = changesOfKey key batches ++ changesOfKey key more :=
  List.flatMap_append

theorem changesOfKey_cons (key : RowKey) (batch : Batch) (batches : List Batch) :
    changesOfKey key (batch :: batches) =
      List.replicate ((batch.2.map Row.key).count key) batch.1 ++ changesOfKey key batches :=
  List.flatMap_cons

theorem thereAfter_replicate (p : Prop) (change : Change) (n : Nat) :
    ThereAfter p (List.replicate (n + 1) change) ↔ change = .added := by
  induction n generalizing p with
  | zero => exact Iff.rfl
  | succ n ih => exact ih (change = .added)

/-- What is told last of a key decides whether it is in the set that is left. -/
theorem mem_rebuild (key : RowKey) (keys : Finset RowKey) (batches : List Batch) :
    key ∈ rebuild keys batches ↔ ThereAfter (key ∈ keys) (changesOfKey key batches) := by
  induction batches generalizing keys with
  | nil => exact Iff.rfl
  | cons batch batches ih =>
      obtain ⟨change, rows⟩ := batch
      rw [rebuild, List.foldl_cons, ← rebuild, ih, changesOfKey_cons, thereAfter_append]
      refine iff_of_eq (congrArg (ThereAfter · (changesOfKey key batches)) (propext ?_))
      by_cases hmem : key ∈ rows.map Row.key
      · obtain ⟨n, hn⟩ := Nat.exists_eq_succ_of_ne_zero (List.count_pos_iff.mpr hmem).ne'
        rw [hn, thereAfter_replicate]
        cases change with
        | added => simpa using Or.inr (List.mem_map.mp hmem)
        | removed => simpa using fun _ => List.mem_map.mp hmem
      · rw [List.count_eq_zero_of_not_mem hmem]
        change _ ↔ key ∈ keys
        cases change with
        | added => simpa using fun row hrow hkey => absurd (List.mem_map.mpr ⟨row, hrow, hkey⟩) hmem
        | removed =>
            simpa using fun _ row hrow hkey => hmem (List.mem_map.mpr ⟨row, hrow, hkey⟩)

namespace Observer

/-- The batches that a refresh has told, those rows first that have gone. -/
def news (before after : List Row) : List Batch :=
  [(.removed, adds before after .removed), (.added, adds before after .added)]

theorem changesOfKey_news_self (key : RowKey) (rows : List Row) :
    changesOfKey key (news rows rows) = [] := by
  rw [news, adds_self, adds_self]
  rfl

/-- A refresh tells of a key nothing, or once that it has come or gone. -/
theorem changesOfKey_news
    {before after : List Row}
    (h : Session.Alike before after)
    (key : RowKey) :
    (changesOfKey key (news before after) = [] ∧
        (key ∈ before.map Row.key ↔ key ∈ after.map Row.key)) ∨
      ∃ change, changesOfKey key (news before after) = [change] ∧
        (key ∈ before.map Row.key ↔ change = .removed) ∧
          (key ∈ after.map Row.key ↔ change = .added) := by
  rcases h with rfl | ⟨c, hbefore, hafter⟩
  · exact Or.inl ⟨changesOfKey_news_self key after, Iff.rfl⟩
  · rw [news, changesOfKey_cons, changesOfKey_cons, adds, adds,
      Row.count_beyond hbefore.nodup_keys, Row.count_beyond hafter.nodup_keys]
    by_cases hbefore : key ∈ before.map Row.key
    · by_cases hafter : key ∈ after.map Row.key
      · simp [hbefore, hafter, changesOfKey]
      · simp [hbefore, hafter, changesOfKey]
    · by_cases hafter : key ∈ after.map Row.key
      · simp [hbefore, hafter, changesOfKey]
      · simp [hbefore, hafter, changesOfKey]

end Observer

/-- The batches that a task is still to tell a pair of listeners of an observer. -/
def Task.owes (id : ObserverId) (pair : Change → ScriptId) : Task ρ → List Batch
  | .notify change rows listeners => (listeners.filter (· = pair change)).map fun _ => (change, rows)
  | .announce a =>
    if a.observer = id then a.rest.map fun change => (change, a.difference.rows change) else []
  | _ => []

namespace Session

variable {r s s' : Session ρ} {begun : List (Command ρ)} {past later : List (Stage ρ)}
  {id : ObserverId} {observer observer' kept : Observer} {pair : Change → ScriptId} {key : RowKey}

/-- The keys of the rows that an observer shows. -/
def shown (id : ObserverId) (s : Session ρ) : List RowKey :=
  match s.observers[id]? with
  | some observer => observer.retained.map Row.key
  | none => []

/-- The batches that a pair of listeners is still to be told of. -/
def owed (id : ObserverId) (pair : Change → ScriptId) (s : Session ρ) : List Batch :=
  s.loud.flatMap (Task.owes id pair)

/-- The batch that one of a pair of listeners is called with by the next step, if it is called. -/
def calls (pair : Change → ScriptId) (s : Session ρ) : List Batch :=
  match s.tasks with
  | .notify change rows (listener :: _) :: _ => if listener = pair change then [(change, rows)] else []
  | _ => []

/-- The batches that a pair of listeners has been called with in some stages, in this order. -/
def called (pair : Change → ScriptId) (past : List (Stage ρ)) : List Batch :=
  past.reverse.flatMap fun stage => stage.state.calls pair

/-- Whether a key comes or goes only when a pair of listeners is owed nothing about it. -/
def Undisturbed (id : ObserverId) (pair : Change → ScriptId) (key : RowKey)
    (before after : Session ρ) : Prop :=
  (key ∈ before.shown id ↔ key ∈ after.shown id) ∨ changesOfKey key (before.owed id pair) = []

/-- Whether a key comes or goes when a pair of listeners is owed nothing about it. -/
def Settles (id : ObserverId) (pair : Change → ScriptId) (key : RowKey)
    (before after : Session ρ) : Prop :=
  ¬(key ∈ before.shown id ↔ key ∈ after.shown id) ∧ changesOfKey key (before.owed id pair) = []

instance (id : ObserverId) (pair : Change → ScriptId) (key : RowKey) (before after : Session ρ) :
    Decidable (Undisturbed id pair key before after) :=
  inferInstanceAs (Decidable (_ ∨ _))

instance (id : ObserverId) (pair : Change → ScriptId) (key : RowKey) (before after : Session ρ) :
    Decidable (Settles id pair key before after) :=
  inferInstanceAs (Decidable (_ ∧ _))

/--
The state right after the latest turn in which a key has come or gone while a pair of listeners was owed
nothing about it; or else the first state.
-/
def settled (id : ObserverId) (pair : Change → ScriptId) (key : RowKey) :
    List (Stage ρ) → Session ρ → Session ρ
  | [], s => s
  | stage :: past, s =>
    if Settles id pair key stage.state s then s else settled id pair key past stage.state

theorem shown_eq (h : s.observers[id]? = some observer) :
    s.shown id = observer.retained.map Row.key := by
  rw [shown, h]

theorem owed_of_idle (h : s.idle = true) : s.owed id pair = [] := by
  rw [owed, loud, List.isEmpty_iff.mp h]
  rfl

theorem called_cons (pair : Change → ScriptId) (stage : Stage ρ) (past : List (Stage ρ)) :
    called pair (stage :: past) = called pair past ++ stage.state.calls pair := by
  rw [called, List.reverse_cons, List.flatMap_append, List.flatMap_singleton]
  rfl

theorem calls_eq_nil
    (hsilent : ∀ change rows listeners rest, s.tasks ≠ .notify change rows listeners :: rest)
    (pair : Change → ScriptId) : s.calls pair = [] := by
  rw [calls]
  split
  · rename_i change rows listener listeners rest htasks
    exact absurd htasks (hsilent change rows _ rest)
  · rfl

theorem changesOfKey_announced (fed : ObserverId) (pinned : List Item) (before after : List Row) :
    changesOfKey key (((Difference.between before after).announced fed pinned after :
        List (Task ρ)).flatMap (Task.owes id pair)) =
      if fed = id then changesOfKey key [(.removed, rowsMissing before after),
        (.added, rowsMissing after before)] else [] := by
  rw [Difference.announced]
  split
  · rename_i hempty
    rw [Difference.isEmpty, Bool.and_eq_true, List.isEmpty_iff, List.isEmpty_iff] at hempty
    obtain ⟨hadded, hremoved⟩ := hempty
    replace hadded : rowsMissing after before = [] := hadded
    replace hremoved : rowsMissing before after = [] := hremoved
    rw [hadded, hremoved]
    split
    · rfl
    · rfl
  · rw [List.flatMap_singleton, Task.owes]
    split
    · rfl
    · rfl

/-- An announcement that goes on owes what it has owed. -/
theorem changesOfKey_goesOn
    (hlisted : ∀ other change, (s.listeners other change).filter (· = pair change) =
      if other = id then [pair change] else [])
    (a : Announcement)
    (key : RowKey) :
    changesOfKey key ((s.goesOn a).flatMap (Task.owes id pair)) =
      changesOfKey key (Task.owes id pair (.announce a : Task ρ)) := by
  obtain ⟨other, pinned, rows, difference, parts⟩ := a
  cases parts with
  | nil => simp [goesOn, Task.owes]
  | cons change rest =>
      have hpart : changesOfKey key ((if (difference.rows change).isEmpty then [] else
            [(.notify change (difference.rows change) (s.listeners other change) : Task ρ)]).flatMap
              (Task.owes id pair)) =
          if other = id then changesOfKey key [(change, difference.rows change)] else [] := by
        split
        · rename_i hempty
          rw [List.isEmpty_iff.mp hempty]
          split
          · rfl
          · rfl
        · rw [List.flatMap_singleton, Task.owes, hlisted]
          split
          · rfl
          · rfl
      rw [goesOn]
      dsimp only
      rw [List.flatMap_append, List.flatMap_singleton, changesOfKey_append, hpart]
      by_cases hid : other = id
      · simp [Task.owes, hid, changesOfKey]
      · simp [Task.owes, hid, changesOfKey]

theorem calls_append_othersOf
    {change : Change}
    {rows : List Row}
    {listeners : List ScriptId}
    {rest : List (Task ρ)}
    (htasks : s.tasks = .notify change rows listeners :: rest) :
    s.calls pair ++ (othersOf change rows listeners : List (Task ρ)).flatMap (Task.owes id pair) =
      Task.owes id pair (.notify change rows listeners : Task ρ) := by
  rw [calls, htasks]
  cases listeners with
  | nil => rfl
  | cons listener others =>
      by_cases hl : listener = pair change
      · simp [othersOf, Task.owes, hl]
      · simp [othersOf, Task.owes, hl]

/--
What a pair of listeners is called with by a turn and owed afterwards is what it was owed before, and in
front of it what the turn has made of the rows of the observer.
-/
theorem Shift.owed
    (h : s.Shift begun s')
    (hnumber : id.number ≤ s.issued)
    (hobserver : s.observers[id]? = some observer)
    (hobserver' : s'.observers[id]? = some observer')
    (hdestroyed : observer'.destroyed = false)
    (hlisted : ∀ other change, (s.listeners other change).filter (· = pair change) =
      if other = id then [pair change] else [])
    (key : RowKey) :
    changesOfKey key (s.calls pair ++ s'.owed id pair) =
      changesOfKey key (Observer.news observer.retained observer'.retained) ++
        changesOfKey key (s.owed id pair) := by
  have hsame : observer'.retained = observer.retained →
      changesOfKey key (Observer.news observer.retained observer'.retained) = [] := fun hretained => by
    rw [hretained, Observer.changesOfKey_news_self]
  have hkept : s.observers[id]? = some observer' → observer'.retained = observer.retained :=
    fun hmem => by rw [Option.some.inj (hobserver.symm.trans hmem)]
  cases h with
  | still hsilent hloud hobservers =>
      rw [hsame (hkept (hobservers id observer' hobserver')), calls_eq_nil hsilent, Session.owed, hloud]
      rfl
  | begins c hsilent hloud hobservers hissued =>
      rcases hobservers id observer' hobserver' with ⟨hnew, -⟩ | ⟨former, hformer, rfl⟩
      · exact absurd hnumber (Nat.not_le_of_lt hnew)
      · obtain rfl := Option.some.inj (hobserver.symm.trans hformer)
        rw [hsame (returned_append_alter hobserver hdestroyed).2.1, calls_eq_nil hsilent, Session.owed,
          hloud]
        rfl
  | absorbs fed shown query rows pinned hsilent hshown hfed hformer hrows hloud hobservers =>
      rw [calls_eq_nil hsilent, List.nil_append, Session.owed, hloud, List.flatMap_append,
        changesOfKey_append, changesOfKey_announced]
      refine congrArg (· ++ changesOfKey key (s.owed id pair)) ?_
      obtain ⟨former, hmem, rfl⟩ := hobservers id observer' hobserver'
      obtain rfl := Option.some.inj (hobserver.symm.trans hmem)
      by_cases hid : id = fed
      · subst hid
        obtain rfl := Option.some.inj (hobserver.symm.trans hshown)
        rw [if_pos rfl, if_pos rfl, hformer.rowsMissing_eq hrows, hrows.rowsMissing_eq hformer]
        rfl
      · rw [if_neg (Ne.symm hid)]
        exact (hsame (by rw [if_neg hid])).symm
  | announces a rest htasks hloud hobservers =>
      have hnone : s.calls pair = [] := by rw [calls, htasks]
      rw [hsame (hkept (hobservers id observer' hobserver')), hnone, List.nil_append, List.nil_append,
        Session.owed, hloud, List.flatMap_append, changesOfKey_append, changesOfKey_goesOn hlisted,
        Session.owed, loud, htasks, List.filter_cons_of_pos rfl, List.flatMap_cons, changesOfKey_append]
  | notifies change rows listeners rest htasks hloud hobservers =>
      rw [hsame (hkept (hobservers id observer' hobserver')), List.nil_append, Session.owed, hloud,
        List.flatMap_append, ← List.append_assoc, calls_append_othersOf htasks, Session.owed, loud, htasks,
        List.filter_cons_of_pos rfl, List.flatMap_cons]

theorem Course.filter_listeners
    (h : Course .empty past s)
    (hpair : ∀ change, pair change ∈ s.listeners id change)
    (other : ObserverId)
    (change : Change) :
    (s.listeners other change).filter (· = pair change) =
      if other = id then [pair change] else [] := by
  rw [List.filter_eq, (h.listeners_nodup other change).count]
  by_cases hother : other = id
  · subst hother
    rw [if_pos rfl, if_pos (hpair change)]
    rfl
  · rw [if_neg hother, if_neg]
    · rfl
    · exact fun hl =>
        hother (h.listeners_apart List.mem_cons_self List.mem_cons_self hl (hpair change)).1

/-- What a pair of listeners has been told and is still owed, and what it makes of that. -/
structure Recounts (id : ObserverId) (pair : Change → ScriptId) (key : RowKey) (kept : List Row)
    (later : List (Stage ρ)) (s : Session ρ) (observer : Observer) : Prop where
  listed : ∀ change, pair change ∈ observer.listeners change
  balance : (changesOfKey key (called pair later ++ s.owed id pair)).count .added +
      (if key ∈ kept.map Row.key then 1 else 0) =
    (changesOfKey key (called pair later ++ s.owed id pair)).count .removed +
      if key ∈ observer.retained.map Row.key then 1 else 0
  thereAfter : ThereAfter (key ∈ kept.map Row.key)
      (changesOfKey key (called pair later ++ s.owed id pair)) ↔
    key ∈ (settled id pair key later s).shown id

theorem Recounts.turn
    (h : Course .empty past s)
    (hturn : s.Turn begun s')
    (hobserver : s.observers[id]? = some observer)
    (hobserver' : s'.observers[id]? = some observer')
    (hdestroyed : observer'.destroyed = false)
    {rows : List Row}
    (hrecounts : Recounts id pair key rows later s observer) :
    Recounts id pair key rows (⟨s, begun⟩ :: later) s' observer' := by
  have hshift := h.shift hturn
  have hnumber := (h.mirrored.observer id observer hobserver).1
  have hpair : ∀ change, pair change ∈ s.listeners id change := fun change =>
    listeners_eq hobserver change ▸ hrecounts.listed change
  have hnews := hshift.owed hnumber hobserver hobserver' hdestroyed (h.filter_listeners hpair) key
  obtain ⟨-, halike, -⟩ := hshift.queues hnumber hobserver hobserver' hdestroyed
  have hall : changesOfKey key (called pair (⟨s, begun⟩ :: later) ++ s'.owed id pair) =
      changesOfKey key (called pair later) ++
        (changesOfKey key (Observer.news observer.retained observer'.retained) ++
          changesOfKey key (s.owed id pair)) := by
    rw [called_cons, List.append_assoc, changesOfKey_append, hnews]
  have hbalance := hrecounts.balance
  have hthere := hrecounts.thereAfter
  rw [changesOfKey_append] at hbalance hthere
  refine ⟨fun change => hshift.listeners_subset hnumber hobserver hobserver' hdestroyed change
    (hrecounts.listed change), ?_, ?_⟩
  · rw [hall]
    rcases Observer.changesOfKey_news halike key with ⟨hnone, hsame⟩ | ⟨change, hone, hbefore, hafter⟩
    · rw [hnone]
      simpa only [hsame, List.nil_append] using hbalance
    · rw [hone]
      simp only [hbefore, hafter, List.count_append] at hbalance ⊢
      cases change with
      | added =>
          simp at hbalance ⊢
          omega
      | removed =>
          simp at hbalance ⊢
          omega
  · rw [hall, settled]
    rcases Observer.changesOfKey_news halike key with ⟨hnone, hsame⟩ | ⟨change, hone, hbefore, hafter⟩
    · rw [if_neg, hnone]
      · exact hthere
      · rw [Settles, shown_eq hobserver, shown_eq hobserver']
        exact fun hsettles => hsettles.1 hsame
    · rw [hone]
      by_cases howed : changesOfKey key (s.owed id pair) = []
      · rw [if_pos, howed, thereAfter_append, shown_eq hobserver', hafter]
        · exact Iff.rfl
        · rw [Settles, shown_eq hobserver, shown_eq hobserver', hbefore, hafter]
          refine ⟨?_, howed⟩
          cases change with
          | added => simp
          | removed => simp
      · -- what is owed from before is told last
        rw [if_neg fun hsettles => howed hsettles.2, thereAfter_append, thereAfter_append,
          thereAfter_of_ne_nil howed _ (ThereAfter (key ∈ rows.map Row.key)
            (changesOfKey key (called pair later))), ← thereAfter_append]
        exact hthere

/-- An observer that is not destroyed in the end is there, and is not destroyed, all the time. -/
theorem Course.former_observer
    (h : Course .empty past s)
    (hturn : s.Turn begun s')
    (hnumber : id.number ≤ s.issued)
    (hobserver' : s'.observers[id]? = some observer')
    (hdestroyed : observer'.destroyed = false) :
    ∃ observer, s.observers[id]? = some observer ∧ observer.destroyed = false := by
  have hshift := h.shift hturn
  cases hobserver : s.observers[id]? with
  | none => exact absurd hnumber (Nat.not_le_of_lt (hshift.opens hobserver hobserver').1)
  | some observer =>
      exact ⟨observer, rfl, (hshift.queues hnumber hobserver hobserver' hdestroyed).2.2⟩

/-- Whatever is done, a pair of listeners recounts what becomes of the rows of its observer. -/
theorem Course.recounts
    (h : Course .empty past r)
    (hlater : Course r later s)
    (hidle : r.idle = true)
    (hkept : r.observers[id]? = some kept)
    (hpair : ∀ change, pair change ∈ kept.listeners change)
    (hobserver : s.observers[id]? = some observer)
    (hdestroyed : observer.destroyed = false)
    (key : RowKey) :
    Recounts id pair key kept.retained later s observer := by
  induction hlater generalizing observer with
  | refl =>
      obtain rfl := Option.some.inj (hkept.symm.trans hobserver)
      have hnone : called pair ([] : List (Stage ρ)) ++ r.owed id pair = [] := owed_of_idle hidle
      refine ⟨hpair, ?_, ?_⟩
      · rw [hnone]
        rfl
      · rw [hnone, settled, shown_eq hkept]
        exact Iff.rfl
  | turn hlater hturn ih =>
      have hnumber := (h.mirrored.observer id kept hkept).1.trans hlater.issued
      obtain ⟨former, hformer, hlive⟩ :=
        (h.trans hlater).former_observer hturn hnumber hobserver hdestroyed
      exact (ih hformer hlive).turn (h.trans hlater) hturn hformer hobserver hdestroyed

/-- If a key comes and goes only when the pair is owed nothing about it, nothing is unsettled. -/
theorem mem_shown_settled
    (h : (s :: later.map Stage.state).IsChain fun after before =>
      Undisturbed id pair key before after) :
    key ∈ (settled id pair key later s).shown id ↔ key ∈ s.shown id := by
  induction later generalizing s with
  | nil => exact Iff.rfl
  | cons stage later ih =>
      obtain ⟨hfirst, hrest⟩ := List.isChain_cons_cons.mp h
      rw [settled]
      split
      · exact Iff.rfl
      · rename_i hskipped
        have hsame : key ∈ stage.state.shown id ↔ key ∈ s.shown id :=
          hfirst.elim (fun hsame => hsame) fun hnone => not_not.mp fun hnot => hskipped ⟨hnot, hnone⟩
        exact (ih hrest).trans hsame

/--
Let a pair of listeners be registered on an observer, one for rows that come and the other one for rows
that go, when nothing is in progress, and let the observer not be destroyed when nothing is in progress
again.  Of every row key the pair has been told to come and to go as often as it has done so.  The set
that the pair rebuilds from the results at first has the key exactly if the results had it after the
latest turn in which it has come or gone while the pair was owed nothing about it.  So it has the key
exactly if the results have it, as long as the key comes and goes at such times only.
-/
theorem Course.pair_rebuilds
    (h : Course .empty past r)
    (hlater : Course r later s)
    (hidle : r.idle = true)
    (hidle' : s.idle = true)
    (hkept : r.observers[id]? = some kept)
    (hpair : ∀ change, pair change ∈ kept.listeners change)
    (hobserver : s.observers[id]? = some observer)
    (hdestroyed : observer.destroyed = false)
    (key : RowKey) :
    let batches := called pair later
    let rebuilt := rebuild (kept.retained.map Row.key).toFinset batches
    ((changesOfKey key batches).count .added + (if key ∈ kept.retained.map Row.key then 1 else 0) =
        (changesOfKey key batches).count .removed +
          if key ∈ observer.retained.map Row.key then 1 else 0) ∧
      (key ∈ rebuilt ↔ key ∈ (settled id pair key later s).shown id) ∧
      (((s :: later.map Stage.state).IsChain fun after before =>
          Undisturbed id pair key before after) →
        (key ∈ rebuilt ↔ key ∈ (observer.retained.map Row.key).toFinset)) := by
  intro batches rebuilt
  have hrecounts := h.recounts hlater hidle hkept hpair hobserver hdestroyed key
  have hall : called pair later ++ s.owed id pair = batches := by
    rw [owed_of_idle hidle', List.append_nil]
  have hbalance := hrecounts.balance
  have hthere := hrecounts.thereAfter
  rw [hall] at hbalance hthere
  have hsettled : key ∈ rebuilt ↔ key ∈ (settled id pair key later s).shown id := by
    rw [mem_rebuild, List.mem_toFinset]
    exact hthere
  refine ⟨hbalance, hsettled, fun hchain => ?_⟩
  rw [hsettled, mem_shown_settled hchain, shown_eq hobserver, List.mem_toFinset]

/--
Upon the first arrival of a node a first listener adds another node.  A pair of listeners is told of the
second node before the first one, and has the right rows in the end.
-/
theorem arrivals_rebuilt_in_turn :
    ∃ (past later : List (Stage Nat)) (r s : Session Nat) (pair : Change → ScriptId)
      (kept observer : Observer), Course .empty past r ∧ Course r later s ∧ r.idle = true ∧
        s.idle = true ∧ r.observers[(⟨1⟩ : ObserverId)]? = some kept ∧
        (∀ change, pair change ∈ kept.listeners change) ∧
        s.observers[(⟨1⟩ : ObserverId)]? = some observer ∧ observer.destroyed = false ∧
        (called pair later).map (fun batch => (batch.1, batch.2.map Row.key)) =
          [(.added, [.single (.node ⟨2⟩)]), (.added, [.single (.node ⟨1⟩)]),
            (.removed, [.single (.node ⟨1⟩)])] ∧
        (.single (.node ⟨1⟩) ∈ rebuild (kept.retained.map Row.key).toFinset (called pair later) ↔
          .single (.node ⟨1⟩) ∈ (observer.retained.map Row.key).toFinset) := by
  let first : Node := ⟨⟨1⟩, .root .node⟩
  let second : Node := ⟨⟨2⟩, .root .node⟩
  let pair : Change → ScriptId := fun
    | .added => ⟨5⟩
    | .removed => ⟨6⟩
  let interpret := numbered [.createGraph "g", .observe "o" ⟨1⟩ (.single (.nodeType (.root .node))),
    .listen "l" ⟨1⟩ .added 1 [8], .listen "m" ⟨1⟩ .added 0 [], .listen "n" ⟨1⟩ .removed 0 [],
    .createNode "a" (.root .node) .null, .createNode "b" (.root .node) .null, .addNode ⟨1⟩ first,
    .addNode ⟨1⟩ second, .removeNode ⟨1⟩ first]
  let r := [0, 1, 2, 3, 4, 5, 6].foldl (Session.request interpret 40) .empty
  let s := [7, 9].foldl (Session.request interpret 40) r
  have h := (Course.refl : Course (.empty : Session Nat) [] .empty).requested interpret 40
    [0, 1, 2, 3, 4, 5, 6] (by decide +kernel)
  have hlater := (Course.refl : Course r [] r).requested interpret 40 [7, 9] (by decide +kernel)
  obtain ⟨kept, hkept, hlisted⟩ := Option.map_eq_some_iff.mp (by decide +kernel :
    r.observers[(⟨1⟩ : ObserverId)]?.map (fun o => (o.onAdded, o.onRemoved)) =
      some ([⟨4⟩, ⟨5⟩], [⟨6⟩]))
  obtain ⟨hadded, hremoved⟩ := Prod.mk.inj hlisted
  have hpair : ∀ change, pair change ∈ kept.listeners change := by
    intro change
    cases change with
    | added => exact (congrArg (⟨5⟩ ∈ ·) hadded).mpr (by decide)
    | removed => exact (congrArg (⟨6⟩ ∈ ·) hremoved).mpr (by decide)
  obtain ⟨observer, hobserver, hdestroyed⟩ := Option.map_eq_some_iff.mp (by decide +kernel :
    s.observers[(⟨1⟩ : ObserverId)]?.map Observer.destroyed = some false)
  obtain ⟨-, -, hrebuilt⟩ := h.pair_rebuilds hlater (by decide +kernel) (by decide +kernel) hkept hpair
    hobserver hdestroyed (.single (.node ⟨1⟩))
  exact ⟨_, _, r, s, pair, kept, observer, h, hlater, by decide +kernel, by decide +kernel, hkept, hpair,
    hobserver, hdestroyed, by decide +kernel, hrebuilt (by decide +kernel)⟩

/--
Upon the arrival of a node a first listener removes it again, so a pair of listeners is told of its
departure before its arrival, and has a row in the end that is not among the results.
-/
theorem departure_rebuilt_first :
    ∃ (past later : List (Stage Nat)) (r s : Session Nat) (pair : Change → ScriptId)
      (kept observer : Observer), Course .empty past r ∧ Course r later s ∧ r.idle = true ∧
        s.idle = true ∧ r.observers[(⟨1⟩ : ObserverId)]? = some kept ∧
        (∀ change, pair change ∈ kept.listeners change) ∧
        s.observers[(⟨1⟩ : ObserverId)]? = some observer ∧ observer.destroyed = false ∧
        rebuild (kept.retained.map Row.key).toFinset (called pair later) ≠
          (observer.retained.map Row.key).toFinset := by
  let node : Node := ⟨⟨1⟩, .root .node⟩
  let pair : Change → ScriptId := fun
    | .added => ⟨5⟩
    | .removed => ⟨6⟩
  let interpret := numbered [.createGraph "g", .observe "o" ⟨1⟩ (.single (.nodeType (.root .node))),
    .listen "l" ⟨1⟩ .added 1 [7], .listen "m" ⟨1⟩ .added 0 [], .listen "n" ⟨1⟩ .removed 0 [],
    .createNode "a" (.root .node) .null, .addNode ⟨1⟩ node, .removeNode ⟨1⟩ node]
  let r := [0, 1, 2, 3, 4, 5].foldl (Session.request interpret 40) .empty
  let s := [6].foldl (Session.request interpret 40) r
  have h := (Course.refl : Course (.empty : Session Nat) [] .empty).requested interpret 40
    [0, 1, 2, 3, 4, 5] (by decide +kernel)
  have hlater := (Course.refl : Course r [] r).requested interpret 40 [6] (by decide +kernel)
  obtain ⟨kept, hkept, hlisted⟩ := Option.map_eq_some_iff.mp (by decide +kernel :
    r.observers[(⟨1⟩ : ObserverId)]?.map (fun o => (o.retained, o.onAdded, o.onRemoved)) =
      some ([], [⟨4⟩, ⟨5⟩], [⟨6⟩]))
  obtain ⟨hretained, hadded, hremoved⟩ : kept.retained = [] ∧ kept.onAdded = [⟨4⟩, ⟨5⟩] ∧
      kept.onRemoved = [⟨6⟩] := by
    simpa only [Prod.mk.injEq] using hlisted
  have hpair : ∀ change, pair change ∈ kept.listeners change := by
    intro change
    cases change with
    | added => exact (congrArg (⟨5⟩ ∈ ·) hadded).mpr (by decide)
    | removed => exact (congrArg (⟨6⟩ ∈ ·) hremoved).mpr (by decide)
  obtain ⟨observer, hobserver, hshown⟩ := Option.map_eq_some_iff.mp (by decide +kernel :
    s.observers[(⟨1⟩ : ObserverId)]?.map (fun o => (o.retained, o.destroyed)) = some ([], false))
  obtain ⟨hresults, hdestroyed⟩ := Prod.mk.inj hshown
  refine ⟨_, _, r, s, pair, kept, observer, h, hlater, by decide +kernel, by decide +kernel, hkept, hpair,
    hobserver, hdestroyed, ?_⟩
  rw [hretained, hresults]
  decide +kernel

end Session

end PatternGraph
