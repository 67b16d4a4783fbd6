import Labrea.TimerTables

/-! The timer functions on the tables of the bundled Lua do what the timer queue says: whatever
order a traversal takes, and however the table is rehashed under it, its steps are steps of the
queue.
-/

namespace Labrea.TimerQueue

open LuaTable (Table TableKey Failure maxasize)
open Traversal (Continues)

variable {Num F : Type}

-----------------------------------------------------------------------------------------
-- The queue as lists
-----------------------------------------------------------------------------------------

section

variable [LinearOrder Num] {state : State Num F}

theorem State.mem_keys_iff {key : Num} : key ∈ state.keys ↔ state.funs key ≠ [] := by
  rw [State.mem_keys]
  constructor
  · intro holds
    obtain ⟨entry, member⟩ := holds
    exact List.ne_nil_of_mem (State.mem_funs.mpr member)
  · intro some
    obtain ⟨entry, member⟩ := List.exists_mem_of_ne_nil _ some
    exact ⟨entry, State.mem_funs.mp member⟩

/-- The functions of the queue have different numbers, all of them given out. -/
structure State.Numbered (state : State Num F) : Prop where
  distinct : (state.queue.map fun pair => pair.2.id).Nodup
  issued : ∀ pair ∈ state.queue, pair.2.id < state.issued

theorem State.Numbered.nodup_funs (numbered : state.Numbered) (key : Num)
    : (state.funs key).Nodup := by
  have distinct : ((state.queue.map Prod.snd).map Entry.id).Nodup := by
    rw [List.map_map]
    exact numbered.distinct
  exact distinct.of_map.sublist (List.filter_sublist.map _)

omit [LinearOrder Num] in
theorem State.Numbered.length_queue (numbered : state.Numbered)
    : state.queue.length ≤ state.issued := by
  have subset : (state.queue.map fun pair => pair.2.id) ⊆ List.range state.issued := by
    intro id member
    obtain ⟨pair, waits, rfl⟩ := List.mem_map.mp member
    exact List.mem_range.mpr (numbered.issued pair waits)
  simpa using (numbered.distinct.subperm subset).length_le

theorem State.Numbered.length_funs (numbered : state.Numbered) (key : Num)
    : (state.funs key).length ≤ state.issued := by
  refine Nat.le_trans ?_ numbered.length_queue
  rw [State.funs, List.length_map]
  exact List.length_filter_le _ _

theorem State.nodup_keys (state : State Num F) : state.keys.Nodup :=
  List.nodup_dedup _

theorem State.length_keys (state : State Num F) : state.keys.length ≤ state.queue.length := by
  rw [State.keys, ← List.length_map Prod.fst]
  exact (List.dedup_sublist _).length_le

variable [Add Num]

theorem State.funs_schedule (state : State Num F) (t : Num) (callback : Callback Num F)
    (origin : ℕ) (key : Num)
    : (state.schedule t callback origin).funs key
      = state.funs key
        ++ if t + state.now = key then [⟨state.issued, origin, callback⟩] else [] := by
  rw [State.funs, State.funs, State.schedule]
  split_ifs with same <;> simp [same]

theorem State.mem_keys_schedule (state : State Num F) (t : Num) (callback : Callback Num F)
    (origin : ℕ) (key : Num)
    : key ∈ (state.schedule t callback origin).keys ↔ key ∈ state.keys ∨ t + state.now = key := by
  rw [State.mem_keys_iff, State.mem_keys_iff, State.funs_schedule]
  split_ifs with same <;> simp [same]

omit [LinearOrder Num] in
theorem State.Numbered.schedule (numbered : state.Numbered) (t : Num)
    (callback : Callback Num F) (origin : ℕ)
    : (state.schedule t callback origin).Numbered := by
  constructor
  · rw [State.schedule]
    simp only [List.map_append, List.map_cons, List.map_nil]
    refine numbered.distinct.append (List.nodup_singleton _) fun id member here => ?_
    obtain ⟨pair, waits, rfl⟩ := List.mem_map.mp member
    have := numbered.issued pair waits
    have := List.mem_singleton.mp here
    omega
  · intro pair member
    rw [State.schedule] at member ⊢
    rcases List.mem_append.mp member with member | here
    · exact (numbered.issued pair member).trans (Nat.lt_succ_self _)
    · rw [List.mem_singleton.mp here]
      exact Nat.lt_succ_self _

theorem State.funs_call (state : State Num F) (entry : Entry Num F)
    (made : List (Request Num F)) (returns : Bool) (key : Num)
    : (state.call entry made returns).funs key
      = state.funs key ++ state.newFuns (state.call entry made returns) key := by
  rw [State.newFuns_call, State.call_eq]
  simp only [State.funs, List.filter_append, List.map_append]

/-- What a traversal of the functions under a key has left goes on to the new ones. -/
theorem State.continues_funs {state : State Num F} {entry : Entry Num F}
    {made : List (Request Num F)} {returns : Bool}
    (numbered : (state.call entry made returns).Numbered) {key : Num} {i : ℕ}
    (le : i ≤ (state.funs key).length)
    : Continues ((state.funs key).drop i) (state.newFuns (state.call entry made returns) key)
        (((state.call entry made returns).funs key).drop i) := by
  have distinct := (numbered.nodup_funs key).sublist (List.drop_sublist i _)
  rw [State.funs_call, List.drop_append_of_le_length le] at distinct ⊢
  rw [Continues]
  split_ifs with none
  · rw [none, List.append_nil]
  · exact ⟨distinct, fun item member => List.mem_append.mp member⟩

omit [LinearOrder Num] in
theorem State.issued_call (state : State Num F) (entry : Entry Num F)
    (made : List (Request Num F)) (returns : Bool)
    : (state.call entry made returns).issued ≤ state.issued + (made.length + 1) := by
  have renewed : (entry.renewal state.now (state.issued + made.length) returns).length ≤ 1 := by
    rcases entry.renewal_cases state.now (state.issued + made.length) returns with
      none | ⟨_, _, _, _, one⟩
    · rw [none]
      exact Nat.zero_le 1
    · rw [one]
      exact le_rfl
  rw [State.call_eq]
  dsimp only
  rw [State.additions, List.length_append, requestEntries, List.length_map,
    List.length_zipIdx]
  omega

end

-----------------------------------------------------------------------------------------
-- The tables of a state
-----------------------------------------------------------------------------------------

section

variable [TableKey Num] [LinearOrder Num]

/-- The tables under the keys are the lists of functions of a state, each under its own key. -/
structure Lists (tables : Tables Num F) (state : State Num F) : Prop where
  valid : tables.queue.Valid
  under
    : ∀ key funs, tables.queue.lookup key = some funs
      → funs < tables.made ∧ (tables.heap funs).Sequence (state.funs key)
  apart
    : ∀ key other funs, tables.queue.lookup key = some funs
      → tables.queue.lookup other = some funs → key = other
  absent : ∀ key, tables.queue.lookup key = none → state.funs key = []
  now : tables.now = state.now
  issued : tables.issued = state.issued
  log : tables.log = state.log
  numbered : state.Numbered

/-- The tables of a state: its keys are those of the queue. -/
structure Holds (tables : Tables Num F) (state : State Num F) : Prop
    extends Lists tables state where
  present : ∀ key, (tables.queue.lookup key).isSome ↔ key ∈ state.keys

variable {tables : Tables Num F} {state : State Num F}

theorem Holds.length_keys (holds : Holds tables state)
    : tables.queue.keys.length ≤ state.issued := by
  have subset : tables.queue.keys ⊆ state.keys := by
    intro key member
    rw [← holds.present, Option.isSome_iff_exists, ← holds.valid.mem_keys]
    exact member
  exact (holds.valid.nodup_keys.subperm subset).length_le.trans
    (state.length_keys.trans holds.numbered.length_queue)

variable [Add Num]

omit [Add Num] in
/-- A key without a table gets an empty one. -/
theorem Holds.provide (holds : Holds tables state) (room : state.issued < maxasize) (key : Num)
    : ∃ provided funs,
        tables.provide key = .ok provided
        ∧ Lists provided state
        ∧ provided.place = tables.place
        ∧ provided.queue.lookup key = some funs
        ∧ (∀ other, other ≠ key → provided.queue.lookup other = tables.queue.lookup other)
        ∧ (key ∈ state.keys → provided = tables) := by
  rw [Tables.provide]
  split_ifs with has
  · obtain ⟨funs, found⟩ := Option.isSome_iff_exists.mp has
    exact ⟨tables, funs, rfl, holds.toLists, rfl, found, fun _ _ => rfl, fun _ => rfl⟩
  · have missing : tables.queue.lookup key = none := by simpa using has
    obtain ⟨empty, new, nothing⟩
        : ∃ empty : Table Num (Entry Num F), Table.luaHNew 0 0 = .ok empty ∧ empty.Sequence [] :=
      Table.luaHNew_sequence
    rcases holds.valid.assign_spec key (some tables.made) with
      ⟨queue, assigned, valid, lookup⟩ | ⟨large, _⟩
    · refine ⟨{ tables with
          queue := queue
          heap := Function.update tables.heap tables.made empty
          made := tables.made + 1 }, tables.made, ?_, ?_, rfl, ?_, ?_, ?_⟩
      · rw [new, assigned]
        rfl
      · refine { holds.toLists with
          valid := valid
          under := fun other funs found => ?_
          apart := fun other another funs first second => ?_
          absent := fun other none => ?_ }
        · simp only [lookup, Function.update_apply] at found
          split_ifs at found with same
          · cases found
            simp only [same, holds.absent key missing, Function.update_self]
            exact ⟨Nat.lt_succ_self _, nothing⟩
          · obtain ⟨below, sequence⟩ := holds.under other funs found
            simp only [Function.update_of_ne below.ne]
            exact ⟨below.trans (Nat.lt_succ_self _), sequence⟩
        · simp only [lookup, Function.update_apply] at first second
          split_ifs at first second with here there there
          · exact here.trans there.symm
          · cases first
            exact absurd (holds.under another _ second).1 (lt_irrefl _)
          · cases second
            exact absurd (holds.under other _ first).1 (lt_irrefl _)
          · exact holds.apart other another funs first second
        · simp only [lookup, Function.update_apply] at none
          split_ifs at none
          exact holds.absent other none
      · simp only [lookup, Function.update_self]
      · intro other apart
        simp only [lookup, Function.update_of_ne apart]
      · intro known
        rw [← holds.present, missing] at known
        cases known
    · exact absurd (large.trans holds.length_keys) (not_le.mpr room)

/-- A function is inserted in the table of its key. -/
theorem Lists.insert (lists : Lists tables state) (room : state.issued < maxasize) {t : Num}
    {funs : ℕ} (found : tables.queue.lookup (t + state.now) = some funs)
    (callback : Callback Num F) (origin : ℕ)
    : ∃ inserted,
        tables.insert (t + state.now) ⟨state.issued, origin, callback⟩ = .ok inserted
        ∧ Lists { inserted with issued := state.issued + 1 } (state.schedule t callback origin)
        ∧ inserted.queue = tables.queue
        ∧ inserted.place = tables.place := by
  obtain ⟨below, sequence⟩ := lists.under _ _ found
  obtain ⟨inserted, done, sequence'⟩ := sequence.tinsert
    ((lists.numbered.length_funs _).trans_lt room) ⟨state.issued, origin, callback⟩
  refine ⟨{ tables with heap := Function.update tables.heap funs inserted }, ?_, {
    valid := lists.valid
    under := fun key other found' => ?_
    apart := lists.apart
    absent := fun key none => ?_
    now := lists.now
    issued := rfl
    log := lists.log
    numbered := lists.numbered.schedule t callback origin }, rfl, rfl⟩
  · rw [Tables.insert, found]
    dsimp only
    rw [done]
    rfl
  · rw [State.funs_schedule]
    by_cases same : t + state.now = key
    · subst same
      cases found.symm.trans found'
      simp only [if_true, Function.update_self]
      exact ⟨below, sequence'⟩
    · have apart : other ≠ funs := by
        intro same
        subst same
        exact same (lists.apart _ _ _ found found')
      rw [if_neg same, List.append_nil]
      simp only [Function.update_of_ne apart]
      exact lists.under key other found'
  · have apart : t + state.now ≠ key := by
      intro same
      subst same
      cases found.symm.trans none
    rw [State.funs_schedule, if_neg apart, List.append_nil]
    exact lists.absent key none

/-- Later tables of a later state, to which only functions have been added. -/
structure Extends (tables : Tables Num F) (state : State Num F) (later : Tables Num F)
    (next : State Num F) : Prop where
  holds : Holds later next
  place : later.place = tables.place
  stays : next.now = state.now
  grows : ∀ key ∈ state.keys, key ∈ next.keys
  same : (∀ key ∈ next.keys, key ∈ state.keys) → later.queue = tables.queue
  refers
    : ∀ key funs, tables.queue.lookup key = some funs → later.queue.lookup key = some funs

omit [Add Num] in
theorem Holds.extends_refl (holds : Holds tables state) : Extends tables state tables state :=
  ⟨holds, rfl, rfl, fun _ => id, fun _ => rfl, fun _ _ => id⟩

omit [Add Num] in
theorem Extends.trans {between last : Tables Num F} {next final : State Num F}
    (first : Extends tables state between next) (second : Extends between next last final)
    : Extends tables state last final where
  holds := second.holds
  place := second.place.trans first.place
  stays := second.stays.trans first.stays
  grows key member := second.grows key (first.grows key member)
  same all := by
    rw [second.same fun key member => first.grows key (all key member)]
    exact first.same fun key member => all key (second.grows key member)
  refers key funs found := second.refers key funs (first.refers key funs found)

/-- `labrea.schedule` makes a table for its key if there is none, and inserts in it. -/
theorem Holds.schedule (holds : Holds tables state) (room : state.issued < maxasize) (t : Num)
    (callback : Callback Num F) (origin : ℕ)
    : ∃ later,
        tables.schedule t callback origin = .ok later
        ∧ Extends tables state later (state.schedule t callback origin) := by
  obtain ⟨provided, funs, made, lists, place, found, others, known⟩ :=
    holds.provide room (t + state.now)
  obtain ⟨inserted, done, lists', queue, place'⟩ := lists.insert room found callback origin
  refine ⟨{ inserted with issued := state.issued + 1 }, ?_, ⟨lists', fun key => ?_⟩,
    place'.trans place, rfl, fun key member => ?_, fun all => ?_, fun key funs found' => ?_⟩
  · rw [Tables.schedule, holds.now, holds.issued, made]
    change (provided.insert (t + state.now) _ >>= fun inserted => _) = _
    rw [done]
    rfl
  · rw [State.mem_keys_schedule, ← holds.present, queue]
    by_cases same : t + state.now = key
    · simp [← same, found]
    · rw [others key (Ne.symm same)]
      simp [same]
  · exact (State.mem_keys_schedule ..).mpr (Or.inl member)
  · rw [← known (all _ ((State.mem_keys_schedule ..).mpr (Or.inr rfl)))]
    exact queue
  · rw [queue]
    by_cases same : t + state.now = key
    · subst same
      rwa [known ((holds.present _).mp (by rw [found']; rfl))]
    · rwa [others key (Ne.symm same)]

omit [Add Num] in
/-- What is only a record of the state is not in the tables. -/
theorem Extends.registered {later : Tables Num F} {next : State Num F}
    (extended : Extends tables state later next) (registered : List (ℕ × Num × Request Num F))
    : Extends tables state later { next with registered := registered } :=
  ⟨⟨{ extended.holds.toLists with
      numbered := ⟨extended.holds.numbered.distinct, extended.holds.numbered.issued⟩ },
    extended.holds.present⟩, extended.place, extended.stays, extended.grows, extended.same,
    extended.refers⟩

theorem Holds.request (holds : Holds tables state) (room : state.issued < maxasize)
    (request : Request Num F)
    : ∃ later, tables.request request = .ok later
        ∧ Extends tables state later (state.request request) := by
  cases request with
  | schedule t f =>
      obtain ⟨later, done, extended⟩ := holds.schedule room t (.plain f) state.issued
      exact ⟨later, by rw [Tables.request, holds.issued, done], extended.registered _⟩
  | periodic period f =>
      obtain ⟨later, done, extended⟩ := holds.schedule room period (.periodic period f) state.issued
      exact ⟨later, by rw [Tables.request, holds.issued, done], extended.registered _⟩

/-- Requests one after the other, by induction on them. -/
theorem Holds.requests (made : List (Request Num F))
    : ∀ {tables : Tables Num F} {state : State Num F}, Holds tables state
      → state.issued + made.length ≤ maxasize
      → ∃ later, made.foldlM Tables.request tables = .ok later
          ∧ Extends tables state later (made.foldl State.request state) := by
  induction made with
  | nil => exact fun holds _ => ⟨_, rfl, holds.extends_refl⟩
  | cons request rest ih =>
      intro tables state holds room
      rw [List.length_cons] at room
      obtain ⟨between, done, first⟩ := holds.request (by omega) request
      have issued : (state.request request).issued = state.issued + 1 := by
        rw [State.request_eq]
      obtain ⟨later, done', second⟩ := ih first.holds (by omega)
      refine ⟨later, ?_, first.trans second⟩
      rw [List.foldlM_cons, done]
      exact done'

/-- A call, with the requests made in it and the renewal of a periodic function. -/
theorem Holds.call (holds : Holds tables state) (entry : Entry Num F)
    (made : List (Request Num F)) (returns : Bool)
    (room : state.issued + (made.length + 1) ≤ maxasize)
    : ∃ later, tables.call entry made returns = .ok later
        ∧ Extends tables state later (state.call entry made returns) := by
  have called : Extends tables state { tables with log := tables.log ++ [(tables.now, entry)] }
      { state with log := state.log ++ [(state.now, entry)] } :=
    ⟨⟨{ holds.toLists with
        log := by rw [holds.log, holds.now]
        numbered := ⟨holds.numbered.distinct, holds.numbered.issued⟩ },
      holds.present⟩, rfl, rfl, fun _ => id, fun _ => rfl, fun _ _ => id⟩
  obtain ⟨requested, done, extended⟩ := called.holds.requests made
    (by change state.issued + made.length ≤ maxasize; omega)
  have issued : (made.foldl State.request
      { state with log := state.log ++ [(state.now, entry)] }).issued
      = state.issued + made.length := by
    rw [State.requests_eq]
  obtain ⟨id, origin, callback⟩ := entry
  cases returns with
  | false => exact ⟨requested, by rw [Tables.call, done]; rfl, called.trans extended⟩
  | true =>
      cases callback with
      | plain f => exact ⟨requested, by rw [Tables.call, done]; rfl, called.trans extended⟩
      | periodic period f =>
          obtain ⟨later, done', renewed⟩ := extended.holds.schedule (by omega) period
            (.periodic period f) origin
          exact ⟨later, by rw [Tables.call, done]; exact done',
            (called.trans extended).trans renewed⟩

end

-----------------------------------------------------------------------------------------
-- What the outer loop is going to visit
-----------------------------------------------------------------------------------------

section

variable [TableKey Num] [LinearOrder Num] [Add Num]

/-- The key that the outer loop has taken in a turn that led to a place. -/
def Turn.taken : Turn Num F → Place Num → List Num
  | .next, .outer (some key) => [key]
  | .next, .inner key _ _ => [key]
  | _, _ => []

/-- The keys that the outer loop takes in some turns, up to the end of its tick. -/
def visits : Tables Num F → List (Turn Num F) → List Num
  | _, [] => []
  | tables, turn :: rest =>
      match Tables.step (.ok tables) turn with
      | some (.ok next) =>
          if next.place.isIdle then [] else turn.taken next.place ++ visits next rest
      | _ => []

/-- What the outer loop has left, before a key has been added to the queue in its tick, and
after that. Of what it is going to visit it leaves out nothing that is due, apart from the key
that it is at.
-/
inductive Remains (tables : Tables Num F) (control current : Option Num)
    (future todo : List Num) : Prop
  | before (left : ∀ key, key ∈ todo ↔ tables.queue.Left control key)
    (due
      : ∀ key, (tables.queue.lookup key).isSome → key ≤ tables.now → current ≠ some key
        → key ∈ todo)
  | after (ahead : ∀ key ∈ todo, key ∈ future)
    (due
      : ∀ key, (tables.queue.lookup key).isSome → key ≤ tables.now → current ≠ some key
        → key ∈ future → key ∈ todo)

/-- The phase of a state is the place in the tables. -/
inductive Follows (tables : Tables Num F) (state : State Num F) (future : List Num)
    : Place Num → Phase Num F → Prop
  | idle : Follows tables state future .idle .idle
  | outer {control : Option Num} {first : ℕ} {todo : List Num} (nodup : todo.Nodup)
    (cursor : tables.queue.Cursor control first)
    (remains : Remains tables control none future todo)
    : Follows tables state future (.outer control) (.outer todo)
  | inner {key : Num} {funs i : ℕ} {control : Option Num} {todo : List Num}
    (nodup : todo.Nodup) (found : tables.queue.lookup key = some funs)
    (cursor : (tables.heap funs).Cursor control i)
    (remains : Remains tables (some key) (some key) future todo)
    : Follows tables state future (.inner key funs control)
        (.inner todo key ((state.funs key).drop i))

omit [Add Num] in
theorem Follows.of_idle {tables : Tables Num F} {state : State Num F} {future : List Num}
    {phase : Phase Num F} (follows : Follows tables state future .idle phase)
    : phase = .idle := by
  cases follows
  rfl

omit [Add Num] in
theorem Follows.of_outer {tables : Tables Num F} {state : State Num F} {future : List Num}
    {control : Option Num} {phase : Phase Num F}
    (follows : Follows tables state future (.outer control) phase)
    : ∃ first todo,
        phase = .outer todo
        ∧ todo.Nodup
        ∧ tables.queue.Cursor control first
        ∧ Remains tables control none future todo := by
  cases follows with
  | outer nodup cursor remains => exact ⟨_, _, rfl, nodup, cursor, remains⟩

omit [Add Num] in
theorem Follows.of_inner {tables : Tables Num F} {state : State Num F} {future : List Num}
    {key : Num} {funs : ℕ} {control : Option Num} {phase : Phase Num F}
    (follows : Follows tables state future (.inner key funs control) phase)
    : ∃ i todo,
        phase = .inner todo key ((state.funs key).drop i)
        ∧ todo.Nodup
        ∧ tables.queue.lookup key = some funs
        ∧ (tables.heap funs).Cursor control i
        ∧ Remains tables (some key) (some key) future todo := by
  cases follows with
  | inner nodup found cursor remains => exact ⟨_, _, rfl, nodup, found, cursor, remains⟩

/-- Tables of a state of the queue, with some turns to come. -/
structure Represents (tables : Tables Num F) (state : State Num F) (rest : List (Turn Num F))
    : Prop where
  holds : Holds tables state
  follows : Follows tables state (visits tables rest) tables.place state.phase
  room : state.issued + (rest.map Turn.requests).sum ≤ maxasize

variable {tables later : Tables Num F} {state : State Num F} {rest : List (Turn Num F)}

omit [Add Num] in
theorem Holds.moved (holds : Holds tables state) (place : Place Num) (phase : Phase Num F)
    (due : List (Entry Num F))
    : Holds { tables with place := place } { state with phase := phase, due := due } :=
  ⟨{ holds.toLists with
      numbered := ⟨holds.numbered.distinct, holds.numbered.issued⟩ }, holds.present⟩

theorem visits_cons {turn : Turn Num F}
    (stepped : Tables.step (.ok tables) turn = some (.ok later))
    : visits tables (turn :: rest)
      = if later.place.isIdle then [] else turn.taken later.place ++ visits later rest := by
  rw [visits, stepped]

omit [Add Num] in
/-- A key is taken from what is left. -/
theorem Remains.take {control : Option Num} {key : Num} {val : ℕ} {future todo : List Num}
    (remains : Remains tables control none (key :: future) todo) (nodup : todo.Nodup)
    (takes : tables.queue.Takes control key val) {current : Option Num} {place : Place Num}
    (late : tables.now < key ∨ current = some key)
    : Remains { tables with place := place } (some key) current future (todo.erase key) := by
  have apart {other : Num} (due : other ≤ tables.now) (notCurrent : current ≠ some other)
      : other ≠ key := by
    intro same
    subst same
    exact late.elim (fun late => absurd due (not_le.mpr late)) notCurrent
  cases remains with
  | before left all =>
      refine .before (fun other => ?_) fun other some due notCurrent => ?_
      · exact takes.mem_erase nodup left other
      · exact nodup.mem_erase_iff.mpr ⟨apart due notCurrent, all other some due (by simp)⟩
  | after ahead all =>
      refine .after (fun other member => ?_) fun other some due notCurrent coming => ?_
      · obtain ⟨apart, member⟩ := nodup.mem_erase_iff.mp member
        exact (List.mem_cons.mp (ahead other member)).resolve_left apart
      · exact nodup.mem_erase_iff.mpr ⟨apart due notCurrent,
          all other some due (by simp) (List.mem_cons_of_mem _ coming)⟩

omit [Add Num] in
/-- A key that is due is among those left. -/
theorem Remains.mem {control : Option Num} {key : Num} {val : ℕ} {future todo : List Num}
    (remains : Remains tables control none (key :: future) todo)
    (takes : tables.queue.Takes control key val) (due : key ≤ tables.now)
    : key ∈ todo := by
  cases remains with
  | before left _ => exact (left key).mpr takes.left
  | after _ all => exact all key takes.left.present due (by simp) List.mem_cons_self

/-- A call of the first function that a traversal of the functions under a key has left. -/
def Action.InOrder : Action Num F → Prop
  | .call place _ _ _ _ => place = 0
  | _ => True

variable [DecidableEq F]

/-- A turn has succeeded, and the queue has gone on to a state of the tables it led to. -/
def Continued (result : Except Failure (Tables Num F)) (state : State Num F)
    (rest : List (Turn Num F)) : Prop :=
  ∃ later actions final,
    result = .ok later
    ∧ (∀ action ∈ actions, action.InOrder)
    ∧ Machine.exec State.step state actions = some final
    ∧ Represents later final rest

/-- The outer loop takes its next key, if the queue is still to visit it, or ends. -/
theorem Represents.next (represents : Represents tables state (.next :: rest))
    {result : Except Failure (Tables Num F)}
    (stepped : Tables.step (.ok tables) .next = some result)
    : Continued result state rest := by
  obtain ⟨holds, follows, room⟩ := represents
  have room : state.issued + (rest.map Turn.requests).sum ≤ maxasize := by
    simpa [Turn.requests] using room
  obtain ⟨control, place, rfl⟩ := Tables.step_next stepped
  rw [place] at follows
  obtain ⟨first, todo, phase, nodup, cursor, remains⟩ := follows.of_outer
  rcases holds.valid.luaHNext_cases cursor with ⟨key, funs, taken, takes⟩ | ⟨done, none⟩
  · have known : key ∈ state.keys := (holds.present key).mp takes.left.present
    by_cases due : key ≤ tables.now
    · have into : tables.next control
          = .ok { tables with place := .inner key funs none } := by
        rw [Tables.next, taken]
        exact if_pos due
      rw [into] at stepped
      rw [visits_cons stepped] at remains
      have member := remains.mem takes due
      refine ⟨_, [.visit key], _, into, by simp [Action.InOrder], ?_, holds.moved _
        (.inner (todo.erase key) key (state.funs key)) state.due, ?_, room⟩
      · simp only [Machine.exec, State.step, phase, if_pos member,
          if_pos (And.intro known (holds.now ▸ due)), Option.bind_some]
      · have begins : (tables.heap funs).Cursor none 0 := rfl
        have left : Remains { tables with place := .inner key funs none } (some key) (some key)
            (visits { tables with place := .inner key funs none } rest) (todo.erase key) :=
          remains.take nodup takes (Or.inr rfl)
        exact Follows.inner (nodup.erase key) (by exact takes.value) (by exact begins) left
    · have on : tables.next control = .ok { tables with place := .outer (some key) } := by
        rw [Tables.next, taken]
        exact if_neg due
      rw [on] at stepped
      rw [visits_cons stepped] at remains
      obtain ⟨first', cursor'⟩ := takes.cursor
      have later : Remains { tables with place := .outer (some key) } (some key) none
          (visits { tables with place := .outer (some key) } rest) (todo.erase key) :=
        remains.take nodup takes (Or.inl (not_le.mp due))
      by_cases member : key ∈ todo
      · refine ⟨_, [.visit key], _, on, by simp [Action.InOrder], ?_,
          holds.moved _ (.outer (todo.erase key)) state.due, .outer (nodup.erase key) cursor' later,
          room⟩
        have notDue : ¬ (key ∈ state.keys ∧ state.now ≥ key) := by
          rw [← holds.now]
          exact fun both => due both.2
        simp only [Machine.exec, State.step, phase, if_pos member, if_neg notDue,
          Option.bind_some]
      · refine ⟨_, [], state, on, by simp, rfl, holds.moved _ _ _, ?_, room⟩
        rw [List.erase_of_not_mem member] at later
        rw [phase]
        exact .outer nodup cursor' later
  · have ends : tables.next control = .ok { tables with place := .idle } := by
      rw [Tables.next, done]
      rfl
    rw [ends] at stepped
    rw [visits_cons stepped] at remains
    have empty : todo = [] := by
      refine List.eq_nil_iff_forall_not_mem.mpr fun key member => ?_
      cases remains with
      | before left _ => exact none key ((left key).mp member)
      | after ahead _ => exact absurd (ahead key member) (by simp [Place.isIdle])
    subst empty
    refine ⟨_, [.finish], _, ends, by simp [Action.InOrder], ?_, holds.moved _ .idle state.due,
      .idle, room⟩
    simp only [Machine.exec, State.step, phase, Option.bind_some]

omit [Add Num] [DecidableEq F] in
/-- What is left depends on the queue and the time alone. -/
theorem Remains.congr {control current : Option Num} {future todo : List Num}
    (remains : Remains tables control current future todo) (queue : later.queue = tables.queue)
    (now : later.now = tables.now)
    : Remains later control current future todo := by
  cases remains with
  | before left all => exact .before (by rwa [queue]) (by rwa [queue, now])
  | after ahead all => exact .after ahead (by rwa [queue, now])

omit [DecidableEq F] in
/-- The outer loop can be said to have left, of what it had left and the keys added, those that
it is going to visit.
-/
theorem Remains.call {key : Num} {todo : List Num} {entry : Entry Num F}
    {made : List (Request Num F)} {returns : Bool} (holds : Holds tables state)
    (nodup : todo.Nodup)
    (remains : Remains tables (some key) (some key) (visits later rest) todo)
    {called : Tables Num F}
    (extended : Extends tables state called (state.call entry made returns))
    (queue : later.queue = called.queue) (now : later.now = called.now)
    : ∃ left : List Num,
        Continues todo (state.newKeys (state.call entry made returns)) left
        ∧ left.Nodup
        ∧ Remains later (some key) (some key) (visits later rest) left := by
  have time : later.now = tables.now := by
    rw [now, extended.holds.now, extended.stays, holds.now]
  by_cases none : state.newKeys (state.call entry made returns) = []
  · have same : called.queue = tables.queue := by
      refine extended.same fun other member => ?_
      by_contra new
      have added : other ∈ state.newKeys (state.call entry made returns) :=
        List.mem_filter.mpr ⟨member, decide_eq_true new⟩
      rw [none] at added
      cases added
    exact ⟨todo, by rw [none]; exact Traversal.continues_nil.mpr rfl, nodup,
      remains.congr (queue.trans same) time⟩
  · refine ⟨((todo ++ state.newKeys (state.call entry made returns)).filter
      fun other => other ∈ visits later rest).dedup, ?_, List.nodup_dedup _, ?_⟩
    · rw [Continues, if_neg none]
      refine ⟨List.nodup_dedup _, fun other member => ?_⟩
      exact List.mem_append.mp (List.mem_filter.mp (List.mem_dedup.mp member)).1
    · refine .after (fun other member => ?_) fun other some due apart coming => ?_
      · exact decide_eq_true_eq.mp (List.mem_filter.mp (List.mem_dedup.mp member)).2
      · refine List.mem_dedup.mpr (List.mem_filter.mpr ⟨List.mem_append.mpr ?_,
          decide_eq_true coming⟩)
        rw [queue] at some
        rw [time] at due
        by_cases old : other ∈ state.keys
        · have before := (holds.present other).mpr old
          cases remains with
          | before _ all => exact Or.inl (all other before due apart)
          | after _ all => exact Or.inl (all other before due apart coming)
        · exact Or.inr (List.mem_filter.mpr ⟨(extended.holds.present other).mp some,
            decide_eq_true old⟩)

omit [DecidableEq F] in
/-- The inner loop, at an index, calls the function there and has its next cursor. -/
theorem Holds.step_call {made : List (Request Num F)} {returns : Bool} (holds : Holds tables state)
    (room : state.issued + (made.length + 1) ≤ maxasize) {key : Num} {funs i : ℕ}
    {control : Option Num} (place : tables.place = .inner key funs control)
    (found : tables.queue.lookup key = some funs) (cursor : (tables.heap funs).Cursor control i)
    {result : Except Failure (Tables Num F)}
    (stepped : Tables.step (.ok tables) (.call made returns) = some result)
    : ∃ entry called,
        (state.funs key)[i]? = some entry
        ∧ Extends tables state called (state.call entry made returns)
        ∧ called.queue.lookup key = some funs
        ∧ (called.heap funs).Cursor (some (TableKey.number (i + 1))) (i + 1)
        ∧ result
          = .ok { called with
              place := if returns then .inner key funs (some (TableKey.number (i + 1)))
                else .idle } := by
  obtain ⟨_, _, _, place', cases⟩ := Tables.step_call stepped
  cases place.symm.trans place'
  have next := (holds.under key funs found).2.luaHNext cursor
  rcases cases with ⟨index, entry, left, outcome⟩ | ⟨failure, failed⟩
  · obtain ⟨item, here, same⟩ :=
      Option.map_eq_some_iff.mp (Except.ok.inj (next.symm.trans left))
    cases same
    obtain ⟨called, done, extended⟩ := holds.call entry made returns room
    have refers := extended.refers key funs found
    have within : i < ((state.call entry made returns).funs key).length := by
      have below := (List.getElem?_eq_some_iff.mp here).1
      rw [State.funs_call, List.length_append]
      omega
    rw [done] at outcome
    exact ⟨entry, called, here, extended, refers,
      (extended.holds.under key funs refers).2.cursor within, outcome⟩
  · cases failed.symm.trans next

/-- A function of the inner loop is called, the first one that the queue has left. -/
theorem Represents.call {made : List (Request Num F)} {returns : Bool}
    (represents : Represents tables state (.call made returns :: rest))
    {result : Except Failure (Tables Num F)}
    (stepped : Tables.step (.ok tables) (.call made returns) = some result)
    : Continued result state rest := by
  obtain ⟨holds, follows, room⟩ := represents
  rw [List.map_cons, List.sum_cons, Turn.requests] at room
  obtain ⟨key, funs, control, place, _⟩ := Tables.step_call stepped
  rw [place] at follows
  obtain ⟨i, todo, phase, nodup, found, cursor, remains⟩ := follows.of_inner
  obtain ⟨entry, called, here, extended, refers, cursor', outcome⟩ :=
    holds.step_call (by omega) place found cursor stepped
  obtain ⟨below, value⟩ := List.getElem?_eq_some_iff.mp here
  have first : (state.funs key).drop i = entry :: (state.funs key).drop (i + 1) := by
    rw [List.drop_eq_getElem_cons below, value]
  have room' : (state.call entry made returns).issued + (rest.map Turn.requests).sum
      ≤ maxasize := by
    have := state.issued_call entry made returns
    omega
  cases returns with
  | false =>
      refine ⟨_, [.call 0 made false [] []], _, outcome,
        by simp [Action.InOrder], ?_, extended.holds.moved .idle .idle
        (state.due ++ state.newDue (state.call entry made false)), .idle, room'⟩
      simp only [Machine.exec, State.step, phase, first, List.getElem?_cons_zero,
        Bool.false_eq_true, if_false, Option.bind_some]
  | true =>
      rw [outcome] at stepped
      rw [visits_cons stepped] at remains
      let inside : Tables Num F :=
        { called with place := .inner key funs (some (TableKey.number (i + 1))) }
      obtain ⟨todo', goes, nodup', remains'⟩
          : ∃ left : List Num,
              Continues todo (state.newKeys (state.call entry made true)) left
              ∧ left.Nodup
              ∧ Remains inside (some key) (some key) (visits inside rest) left :=
        remains.call holds nodup extended rfl rfl
      have goesOn := State.continues_funs extended.holds.numbered
        (show i + 1 ≤ (state.funs key).length from below)
      refine ⟨_, [.call 0 made true todo' (((state.call entry made true).funs key).drop (i + 1))],
        _, outcome, by simp [Action.InOrder], ?_, extended.holds.moved _
          (.inner todo' key (((state.call entry made true).funs key).drop (i + 1)))
          (state.due ++ state.newDue (state.call entry made true)), ?_, room'⟩
      · simp only [Machine.exec, State.step, phase, first, List.getElem?_cons_zero, if_true]
        rw [if_pos (And.intro goes (by exact goesOn))]
        rfl
      · exact Follows.inner nodup' (by exact refers) (by exact cursor') remains'

omit [Add Num] [DecidableEq F] in
/-- The queue without the functions under a key. -/
theorem Holds.clear (holds : Holds tables state) {key : Num} {slot : LuaTable.Slot}
    (here : tables.queue.luaHGet key = some slot) (phase : Phase Num F)
    : Holds { tables with queue := tables.queue.write slot none, place := .outer (some key) }
        { state with queue := state.queue.filter fun (k, _) => k ≠ key, phase := phase } := by
  have lookup := holds.valid.lookup_write here none
  have funs (other : Num)
      : State.funs { state with queue := state.queue.filter fun (k, _) => k ≠ key, phase := phase }
          other
        = if other = key then [] else state.funs other := by
    rw [State.funs, State.funs, List.filter_filter]
    split_ifs with same
    · rw [List.map_eq_nil_iff, List.filter_eq_nil_iff]
      simp [same]
    · congr 1
      refine List.filter_congr fun pair _ => ?_
      by_cases here : pair.1 = other
      · simp [here, same]
      · simp [here]
  refine ⟨{ holds.toLists with
    valid := holds.valid.write ⟨key, here⟩ none
    under := fun other funs' found => ?_
    apart := fun other another funs' first second => ?_
    absent := fun other missing => ?_
    numbered := ⟨holds.numbered.distinct.sublist (List.filter_sublist.map _),
      fun pair member => holds.numbered.issued pair (List.mem_filter.mp member).1⟩ },
    fun other => ?_⟩
  · rw [lookup] at found
    split_ifs at found with same
    rw [funs, if_neg same]
    exact holds.under other funs' found
  · rw [lookup] at first second
    split_ifs at first second
    exact holds.apart other another funs' first second
  · rw [lookup] at missing
    rw [funs]
    split_ifs at missing ⊢ with same
    · rfl
    · exact holds.absent other missing
  · rw [State.mem_keys_iff, lookup, funs]
    split_ifs with same
    · simp
    · rw [holds.present, State.mem_keys_iff]

omit [Add Num] [DecidableEq F] in
/-- What the outer loop has left when it has cleared its key. -/
theorem Remains.clear {key : Num} {slot : LuaTable.Slot} {future todo : List Num}
    (remains : Remains tables (some key) (some key) future todo) (valid : tables.queue.Valid)
    (here : tables.queue.luaHGet key = some slot)
    : Remains { tables with queue := tables.queue.write slot none, place := .outer (some key) }
        (some key) none future todo := by
  have old {other : Num} (some : ((tables.queue.write slot none).lookup other).isSome)
      : other ≠ key ∧ (tables.queue.lookup other).isSome := by
    rw [valid.lookup_write here] at some
    split_ifs at some with same
    · cases some
    · exact ⟨same, some⟩
  cases remains with
  | before left all =>
      refine .before (fun other => ?_) fun other some due _ => ?_
      · exact (left other).trans (valid.write_left_at here none other).symm
      · obtain ⟨apart, before⟩ := old some
        exact all other before due fun same => apart (Option.some.inj same).symm
  | after ahead all =>
      refine .after ahead fun other some due _ coming => ?_
      obtain ⟨apart, before⟩ := old some
      exact all other before due (fun same => apart (Option.some.inj same).symm) coming

omit [DecidableEq F] in
/-- The inner loop ends with no function left, and the field of its key is cleared. -/
theorem Holds.step_clear (holds : Holds tables state) {key : Num} {funs i : ℕ}
    {control : Option Num} (place : tables.place = .inner key funs control)
    (found : tables.queue.lookup key = some funs) (cursor : (tables.heap funs).Cursor control i)
    {result : Except Failure (Tables Num F)}
    (stepped : Tables.step (.ok tables) .clear = some result)
    : ∃ slot,
        (state.funs key).length ≤ i
        ∧ tables.queue.luaHGet key = some slot
        ∧ (tables.queue.write slot none).Cursor (some key)
          (slot.place tables.queue.sizearray + 1)
        ∧ result
          = .ok { tables with
              queue := tables.queue.write slot none
              place := .outer (some key) } := by
  obtain ⟨_, _, _, place', cases⟩ := Tables.step_clear stepped
  cases place.symm.trans place'
  have next := (holds.under key funs found).2.luaHNext cursor
  rcases cases with ⟨done, outcome⟩ | ⟨failure, failed⟩
  · have none := Option.map_eq_none_iff.mp (Except.ok.inj (next.symm.trans done))
    have present : (tables.queue.lookup key).isSome := by rw [found]; rfl
    obtain ⟨slot, here, _⟩ := LuaTable.Table.isSome_lookup.mp present
    rw [LuaTable.Table.assign_found here .none] at outcome
    exact ⟨slot, List.getElem?_eq_none_iff.mp none, here,
      LuaTable.Table.write_cursor.mpr ⟨slot, here, rfl⟩, outcome⟩
  · cases failed.symm.trans next

/-- The inner loop ends where the queue has no function left, and its key is cleared. -/
theorem Represents.clear (represents : Represents tables state (.clear :: rest))
    {result : Except Failure (Tables Num F)}
    (stepped : Tables.step (.ok tables) .clear = some result)
    : Continued result state rest := by
  obtain ⟨holds, follows, room⟩ := represents
  have room : state.issued + (rest.map Turn.requests).sum ≤ maxasize := by
    simpa [Turn.requests] using room
  obtain ⟨key, funs, control, place, _⟩ := Tables.step_clear stepped
  rw [place] at follows
  obtain ⟨i, todo, phase, nodup, found, cursor, remains⟩ := follows.of_inner
  obtain ⟨slot, ended, here, cursor', cleared⟩ := holds.step_clear place found cursor stepped
  rw [List.drop_eq_nil_of_le ended] at phase
  rw [cleared] at stepped
  rw [visits_cons stepped] at remains
  refine ⟨_, [.clear], _, cleared, by simp [Action.InOrder], ?_, holds.clear here (.outer todo),
    .outer nodup (by exact cursor') (remains.clear holds.valid here), room⟩
  simp only [Machine.exec, State.step, phase, Option.bind_some]

/-- Outside a tick user code makes a request. -/
theorem Represents.request {request : Request Num F}
    (represents : Represents tables state (.request request :: rest))
    {result : Except Failure (Tables Num F)}
    (stepped : Tables.step (.ok tables) (.request request) = some result)
    : Continued result state rest := by
  obtain ⟨holds, follows, room⟩ := represents
  rw [List.map_cons, List.sum_cons, Turn.requests] at room
  obtain ⟨place, rfl⟩ := Tables.step_request stepped
  rw [place] at follows
  have idle := follows.of_idle
  obtain ⟨later, done, extended⟩ := holds.request (by omega) request
  have issued : (state.request request).issued = state.issued + 1 := by rw [State.request_eq]
  have phase : (state.request request).phase = .idle := by rw [State.request_eq]; exact idle
  refine ⟨later, [.request request], _, done, by simp [Action.InOrder], ?_, extended.holds, ?_,
    by omega⟩
  · simp only [Machine.exec, State.step, idle, Option.bind_some]
  · rw [extended.place, place, phase]
    exact .idle

/-- A tick begins. -/
theorem Represents.tick {t : Num} (represents : Represents tables state (.tick t :: rest))
    {result : Except Failure (Tables Num F)}
    (stepped : Tables.step (.ok tables) (.tick t) = some result)
    : Continued result state rest := by
  obtain ⟨holds, follows, room⟩ := represents
  have room : state.issued + (rest.map Turn.requests).sum ≤ maxasize := by
    simpa [Turn.requests] using room
  obtain ⟨place, rfl⟩ := Tables.step_tick stepped
  rw [place] at follows
  have idle := follows.of_idle
  have holds' : Holds { tables with now := t, place := .outer none } { state with
      now := t
      phase := .outer state.keys
      ticks := state.ticks + 1
      due := (state.queue.filter fun (k, _) => t ≥ k).map Prod.snd } :=
    ⟨{ holds.toLists with
        now := rfl
        numbered := ⟨holds.numbered.distinct, holds.numbered.issued⟩ }, holds.present⟩
  have begins : tables.queue.Cursor none 0 := rfl
  refine ⟨_, [.tick t], _, rfl, by simp [Action.InOrder], ?_, holds',
    .outer state.nodup_keys (by exact begins)
      (.before (fun key => ?_) fun key some _ _ => ?_), room⟩
  · simp only [Machine.exec, State.step, idle, Option.bind_some]
  · rw [LuaTable.Table.left_none]
    exact (holds.present key).symm
  · exact (holds.present key).mp some

/-- Whatever turn comes next, the tables go on as the queue does. -/
theorem Represents.step {turn : Turn Num F}
    (represents : Represents tables state (turn :: rest))
    {result : Except Failure (Tables Num F)}
    (stepped : Tables.step (.ok tables) turn = some result)
    : Continued result state rest := by
  cases turn with
  | request => exact represents.request stepped
  | tick => exact represents.tick stepped
  | next => exact represents.next stepped
  | call => exact represents.call stepped
  | clear => exact represents.clear stepped

omit [DecidableEq F] in
/-- After `init.lua` has run, the queue is empty. -/
theorem represents_initial (now : Num) {turns : List (Turn Num F)}
    (few : (turns.map Turn.requests).sum ≤ maxasize)
    : ∃ tables, Tables.initial now = .ok tables
        ∧ Represents tables (State.holding [] now) turns := by
  obtain ⟨queue, new, nothing⟩
      : ∃ queue : Table Num ℕ, Table.luaHNew 0 0 = .ok queue ∧ queue.Sequence [] :=
    Table.luaHNew_sequence
  obtain ⟨empty, new', _⟩
      : ∃ empty : Table Num (Entry Num F), Table.luaHNew 0 0 = .ok empty ∧ empty.Sequence [] :=
    Table.luaHNew_sequence
  have lookup (key : Num) : queue.lookup key = none := by
    refine Option.eq_none_iff_forall_ne_some.mpr fun funs found => ?_
    obtain ⟨i, none, _⟩ := nothing.lookup_eq_some.mp found
    cases none
  refine ⟨⟨queue, fun _ => empty, 0, now, .idle, 0, []⟩, ?_, ⟨⟨{
    valid := nothing.valid
    under := fun key funs found => ?_
    apart := fun key other funs found _ => ?_
    absent := fun key _ => rfl
    now := rfl
    issued := rfl
    log := rfl
    numbered := ⟨List.nodup_nil, fun pair member => ?_⟩ }, fun key => ?_⟩, .idle, ?_⟩⟩
  · rw [Tables.initial, new, new']
    rfl
  · cases (lookup key).symm.trans found
  · cases (lookup key).symm.trans found
  · cases member
  · rw [lookup]
    simp [State.keys, State.holding]
  · exact (Nat.zero_add _).trans_le few

omit [Add Num] [DecidableEq F] in
theorem Holds.functions (holds : Holds tables state) (key : Num)
    : tables.functions key = state.funs key := by
  rw [Tables.functions]
  rcases found : tables.queue.lookup key with _ | funs
  · exact (holds.absent key found).symm
  · exact (holds.under key funs found).2.values

omit [Add Num] [DecidableEq F] in
theorem Follows.idle_iff {future : List Num} {place : Place Num} {phase : Phase Num F}
    (follows : Follows tables state future place phase)
    : phase = .idle ↔ place = .idle := by
  cases follows <;> simp

/-- Lua has not failed, and its tables are those of a state of the queue. -/
def Stands (result : Except Failure (Tables Num F)) (state : State Num F)
    (rest : List (Turn Num F)) : Prop :=
  ∃ tables, result = .ok tables ∧ Represents tables state rest

theorem Stands.step {turn : Turn Num F} {result next : Except Failure (Tables Num F)}
    (stands : Stands result state (turn :: rest))
    (stepped : Tables.step result turn = some next)
    : ∃ actions final,
        (∀ action ∈ actions, action.InOrder)
        ∧ Machine.exec State.step state actions = some final
        ∧ Stands next final rest := by
  obtain ⟨tables, rfl, represents⟩ := stands
  obtain ⟨later, actions, final, rfl, inOrder, run, represents'⟩ := represents.step stepped
  exact ⟨actions, final, inOrder, run, later, rfl, represents'⟩

/-- The timer functions of `init.lua`, run on the tables of Lua, are the timer queue: whatever
order the traversals of `periodic_queue` take and however it is rehashed meanwhile, no turn fails,
and the functions called, those left under each key and the place in a tick are those of a run of
the queue that calls the functions of a key in the order they were scheduled in. The condition is
that `labrea.schedule` is called at most 2 ^ 26 times, the size of the largest array.
-/
theorem tables_refine_queue (now : Num) {turns : List (Turn Num F)}
    (few : (turns.map Turn.requests).sum ≤ maxasize)
    {result : Except Failure (Tables Num F)}
    (run : Machine.exec Tables.step (Tables.initial now) turns = some result)
    : ∃ last actions state,
        result = .ok last
        ∧ Machine.exec State.step (State.holding [] now) actions = some state
        ∧ (∀ action ∈ actions, action.InOrder)
        ∧ state.log = last.log
        ∧ state.now = last.now
        ∧ (state.phase = .idle ↔ last.place = .idle)
        ∧ ∀ key, state.funs key = last.functions key := by
  obtain ⟨tables, initial, represents⟩ := represents_initial now few
  have start : Stands (Tables.initial now) (State.holding [] now) turns :=
    ⟨tables, initial, represents⟩
  obtain ⟨actions, state, inOrder, queueRun, last, ended, final⟩ :=
    Machine.exec_simulated (fun _ _ _ _ _ stands stepped => stands.step stepped) start run
  exact ⟨last, actions, state, ended, queueRun, inOrder, final.holds.log.symm,
    final.holds.now.symm, final.follows.idle_iff, fun key => (final.holds.functions key).symm⟩

end

theorem tables_refine_queue_tick
    : ∃ result : Except Failure (Tables ℤ ℕ),
        Machine.exec Tables.step (Tables.initial 0)
            [.request (.schedule 5 1), .tick 5, .next, .call [.schedule 0 2] true]
          = some result
        ∧ ∃ last actions state,
            result = .ok last
            ∧ Machine.exec State.step (State.holding [] 0) actions = some state
            ∧ (∀ action ∈ actions, action.InOrder)
            ∧ state.log = last.log
            ∧ state.now = last.now
            ∧ (state.phase = .idle ↔ last.place = .idle)
            ∧ ∀ key, state.funs key = last.functions key := by
  have possible : (Machine.exec Tables.step (Tables.initial 0 : Except Failure (Tables ℤ ℕ))
      [.request (.schedule 5 1), .tick 5, .next, .call [.schedule 0 2] true]).isSome := by
    decide +kernel
  obtain ⟨result, run⟩ := Option.isSome_iff_exists.mp possible
  exact ⟨result, run, tables_refine_queue 0 (by decide) run⟩

end Labrea.TimerQueue
