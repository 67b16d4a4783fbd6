import Labrea.Library.Descent
import Labrea.TimerFaults

/-! When `labrea_periodic` returns: exactly if no due function leads to an endless chain of
functions that are due in the same tick.
-/

namespace Labrea.TimerQueue

open Descent (Shrinks acc_of_bag not_self_of_acc)
open Traversal (Continues continues_all)

variable {Num F : Type}

/-- The user's function that is called. -/
def Callback.f : Callback Num F → F
  | .plain f => f
  | .periodic _ f => f

variable [LinearOrder Num] [Add Num] (behave : F → List (Request Num F) → Prop)

/-- A call of one function makes a request for another, or its closure for itself, that is due
in the same tick.
-/
def Spawns (t : Num) (new called : Callback Num F) : Prop :=
  (∃ made, behave called.f made
    ∧ ∃ request ∈ made, request.delay + t ≤ t ∧ new = request.callback)
  ∨ ∃ period f, called = .periodic period f ∧ period + t ≤ t ∧ new = called

variable [DecidableEq F]

/-- A step of `labrea_periodic` in a tick where every function returns, after requests that it
may make.
-/
inductive State.Moves (state next : State Num F) : Prop
  | visit (key : Num) (stepped : state.step (.visit key) = some next)
  | call {left : List Num} {key : Num} {remaining : List (Entry Num F)} {entry : Entry Num F}
      {place : Nat} {made : List (Request Num F)} {todo : List Num} {funs : List (Entry Num F)}
      (inner : state.phase = .inner left key remaining) (found : remaining[place]? = some entry)
      (does : behave entry.callback.f made)
      (stepped : state.step (.call place made true todo funs) = some next)
  | clear (stepped : state.step .clear = some next)
  | finish (stepped : state.step .finish = some next)

/-- `labrea_periodic` returns, whatever its traversals and the functions do. -/
inductive State.Returns : State Num F → Prop
  | idle {state : State Num F} (idle : state.phase = .idle) : Returns state
  | moves {state : State Num F} (goesOn : ∃ next, state.Moves behave next)
      (all : ∀ next, state.Moves behave next → Returns next) : Returns state

variable {behave} {state next : State Num F}

/-- A call that returns goes on in the ways that the traversals allow. -/
theorem State.step_call_iff {left todo : List Num} {key : Num}
    {remaining funs : List (Entry Num F)} {entry : Entry Num F} {place : Nat}
    {made : List (Request Num F)} (inner : state.phase = .inner left key remaining)
    (found : remaining[place]? = some entry)
    : state.step (.call place made true todo funs) = some next
      ↔ Continues left (state.newKeys (state.call entry made true)) todo
        ∧ Continues (remaining.eraseIdx place)
          (state.newFuns (state.call entry made true) key) funs
        ∧ next = { state.call entry made true with
          phase := .inner todo key funs
          due := state.due ++ state.newDue (state.call entry made true) } := by
  rw [@eq_comm _ next]
  simp only [State.step, inner, found, if_true, Option.ite_none_right_eq_some, Option.some.injEq,
    and_assoc]

/-- A key whose functions have been called is cleared. -/
theorem State.step_clear_of {todo : List Num} {key : Num}
    (inner : state.phase = .inner todo key [])
    : state.step .clear
      = some { state with
        queue := state.queue.filter fun (k, _) => k ≠ key
        phase := .outer todo } := by
  rw [State.step, inner]

/-- In a tick there is a next step, by cases on where it is. -/
theorem State.moves_of_tick (total : ∀ f, ∃ made, behave f made) (tick : state.phase ≠ .idle)
    : ∃ next, state.Moves behave next := by
  cases phase : state.phase with
  | idle => exact absurd phase tick
  | outer todo =>
      cases todo with
      | nil => exact ⟨_, .finish (by rw [State.step, phase])⟩
      | cons key rest =>
          have visited : (state.step (.visit key)).isSome := by
            simp only [State.step, phase, List.mem_cons_self, if_true]
            split <;> rfl
          obtain ⟨next, stepped⟩ := Option.isSome_iff_exists.mp visited
          exact ⟨next, .visit key stepped⟩
  | inner todo key funs =>
      cases funs with
      | nil => exact ⟨_, .clear (State.step_clear_of phase)⟩
      | cons entry rest =>
          obtain ⟨made, does⟩ := total entry.callback.f
          obtain ⟨todo', keys, -⟩ :=
            continues_all todo (state.newKeys (state.call entry made true))
          obtain ⟨funs', functions, -⟩ :=
            continues_all rest (state.newFuns (state.call entry made true) key)
          have found : (entry :: rest)[0]? = some entry := rfl
          exact ⟨_, .call phase found does
            ((State.step_call_iff phase found).mpr ⟨keys, functions, rfl⟩)⟩

/-- The due functions still to be called. -/
def State.bag (state : State Num F) : Multiset (Callback Num F) :=
  (state.live.filter fun pair => pair.1 ≤ state.now).map fun pair => pair.2.callback

/-- The steps left to visit the remaining keys. -/
def State.rank (state : State Num F) : Nat :=
  match state.phase with
  | .idle => 0
  | .outer todo => 2 * todo.length + 1
  | .inner todo _ _ => 2 * todo.length + 2

/-- It is tick `t`, and the key of the inner loop is due. -/
def State.Within (t : Num) (state : State Num F) : Prop :=
  state.now = t ∧ ∀ todo key funs, state.phase = .inner todo key funs → key ≤ t

/-- After a call there is at most what was there before without it, and what it added. -/
theorem State.live_call {left todo : List Num} {key : Num}
    {remaining funs : List (Entry Num F)} {entry : Entry Num F} {place : Nat}
    {made : List (Request Num F)} (inner : state.phase = .inner left key remaining)
    (found : remaining[place]? = some entry)
    (stepped : state.step (.call place made true todo funs) = some next)
    : {(key, entry)} + next.live
      ≤ state.live + (state.additions entry made true : Multiset (Num × Entry Num F)) := by
  obtain ⟨-, functions, rfl⟩ := (State.step_call_iff inner found).mp stepped
  have within : ((funs.map (Prod.mk key) : List _) : Multiset (Num × Entry Num F))
      ≤ ((remaining.eraseIdx place).map (Prod.mk key) : List _)
        + ((state.newFuns (state.call entry made true) key).map (Prod.mk key) : List _) := by
    rw [Multiset.coe_add, ← List.map_append]
    exact Multiset.map_le_map (Multiset.coe_le.mpr functions.subperm)
  rw [State.newFuns_call] at within
  rw [State.call_eq]
  simp only [State.live, inner, List.filter_append]
  rw [map_key_eraseIdx key found, ← Multiset.coe_add,
    ← split_key (state.additions entry made true) key]
  refine (add_le_add_right (add_le_add_right within _) _).trans (le_of_eq ?_)
  abel

omit [DecidableEq F] in
/-- What a call adds that is due is spawned by it. -/
theorem State.additions_spawned {entry : Entry Num F} {made : List (Request Num F)}
    (does : behave entry.callback.f made)
    : ∀ added ∈ state.additions entry made true,
        added.1 ≤ state.now → Spawns behave state.now added.2.callback entry.callback := by
  intro added member due
  rcases List.mem_append.mp member with requested | renewed
  · obtain ⟨⟨request, id⟩, numbered, rfl⟩ := List.mem_map.mp requested
    exact Or.inl ⟨made, does, request, List.fst_mem_of_mem_zipIdx numbered, due, rfl⟩
  · obtain none | ⟨period, f, periodic, -, one⟩ :=
      entry.renewal_cases state.now (state.issued + made.length) true
    · exact absurd (none ▸ renewed) List.not_mem_nil
    · rw [one] at renewed
      obtain rfl := List.mem_singleton.mp renewed
      exact Or.inr ⟨period, f, periodic, due, periodic.symm⟩

omit [Add Num] [DecidableEq F] in
/-- A step that calls and adds nothing leaves the same functions to do. -/
theorem State.Still.bag (still : state.Still next) (now : next.now = state.now)
    : next.bag ≤ state.bag := by
  rw [State.bag, State.bag, still.live, now]

/-- A step of the tick does one due function, which may spawn others, or brings the traversal
of the keys forward.
-/
theorem State.Moves.descends {t : Num} (within : state.Within t)
    (moves : state.Moves behave next)
    : next.Within t
      ∧ (Shrinks (Spawns behave t) next.bag state.bag
        ∨ next.bag ≤ state.bag ∧ next.rank < state.rank) := by
  obtain ⟨rfl, due⟩ := within
  cases moves with
  | visit key stepped =>
      have still := State.still_of_step rfl stepped
      obtain ⟨todo, outer, left, visited⟩ := State.step_visit stepped
      have shorter : (todo.erase key).length < todo.length := by
        rw [List.length_erase_of_mem left]
        exact Nat.sub_lt (List.length_pos_of_mem left) Nat.one_pos
      rcases visited with ⟨present, reached, rfl⟩ | ⟨-, rfl⟩
      · refine ⟨⟨rfl, fun _ _ _ inner => ?_⟩, Or.inr ⟨still.bag rfl, ?_⟩⟩
        · cases inner
          exact reached
        · simp only [State.rank, outer]
          omega
      · refine ⟨⟨rfl, fun _ _ _ inner => by cases inner⟩, Or.inr ⟨still.bag rfl, ?_⟩⟩
        simp only [State.rank, outer]
        omega
  | @call left key remaining entry place made todo funs inner found does stepped =>
      have live := State.live_call inner found stepped
      have reached := due left key remaining inner
      obtain ⟨-, -, rfl⟩ := (State.step_call_iff inner found).mp stepped
      rw [State.call_eq] at live ⊢
      refine ⟨⟨rfl, fun _ _ _ again => ?_⟩, Or.inl ⟨entry.callback, ?_,
        (((state.additions entry made true).filter fun pair => pair.1 ≤ state.now).map fun pair =>
          pair.2.callback : List _), ?_, ?_⟩⟩
      · cases again
        exact reached
      · have waits := State.live_remaining inner (List.mem_of_getElem? found)
        exact Multiset.mem_map.mpr ⟨_, Multiset.mem_filter.mpr ⟨waits, reached⟩, rfl⟩
      · intro new member
        obtain ⟨added, inTick, rfl⟩ := List.mem_map.mp (Multiset.mem_coe.mp member)
        obtain ⟨added, early⟩ := List.mem_filter.mp inTick
        exact State.additions_spawned does _ added (of_decide_eq_true early)
      · have inTick := Multiset.map_le_map (f := fun pair => pair.2.callback)
          (Multiset.filter_le_filter (fun pair => pair.1 ≤ state.now) live)
        simp only [Multiset.filter_add, Multiset.map_add, Multiset.filter_singleton, reached,
          if_true, Multiset.map_singleton] at inTick
        rw [add_comm]
        exact inTick
  | clear stepped =>
      have still := State.still_of_step rfl stepped
      obtain ⟨todo, key, inner, rfl⟩ := State.step_clear stepped
      refine ⟨⟨rfl, fun _ _ _ inner => by cases inner⟩, Or.inr ⟨still.bag rfl, ?_⟩⟩
      simp only [State.rank, inner]
      omega
  | finish stepped =>
      have still := State.still_of_step rfl stepped
      obtain ⟨outer, rfl⟩ := State.step_finish stepped
      refine ⟨⟨rfl, fun _ _ _ inner => by cases inner⟩, Or.inr ⟨still.bag rfl, ?_⟩⟩
      simp [State.rank, outer]

/-- A tick that cannot go on for ever returns, by induction on its steps. -/
theorem State.returns_of_acc (total : ∀ f, ∃ made, behave f made)
    (acc : Acc (fun next state : State Num F => state.Moves behave next) state)
    : state.Returns behave := by
  induction acc with
  | intro state _ ih =>
      by_cases ended : state.phase = .idle
      · exact .idle ended
      · exact .moves (State.moves_of_tick total ended) ih

-----------------------------------------------------------------------------------------
-- Endless chains
-----------------------------------------------------------------------------------------

/-- All due keys are still to be visited, but for that of the inner loop. -/
def State.Full (state : State Num F) : Prop :=
  match state.phase with
  | .idle => True
  | .outer todo => todo.Nodup ∧ ∀ key ∈ state.keys, key ≤ state.now → key ∈ todo
  | .inner todo key _ =>
      todo.Nodup
      ∧ key ∉ todo
      ∧ key ∈ state.keys
      ∧ ∀ other ∈ state.keys, other ≤ state.now → other = key ∨ other ∈ todo

/-- The tick is still to call the function. -/
def State.Reaches (state : State Num F) (entry : Entry Num F) : Prop :=
  match state.phase with
  | .idle => False
  | .outer todo => state.Waits todo entry
  | .inner todo _ funs => entry ∈ funs ∨ state.Waits todo entry

/-- A call may go on to all functions that are left or that it adds in its tick. -/
theorem State.Full.call {left : List Num} {key : Num} {remaining : List (Entry Num F)}
    {entry : Entry Num F} {place : Nat} {made : List (Request Num F)} (full : state.Full)
    (inner : state.phase = .inner left key remaining) (found : remaining[place]? = some entry)
    (does : behave entry.callback.f made)
    : ∃ next,
        state.Moves behave next
        ∧ next.now = state.now
        ∧ next.Full
        ∧ (∀ other, state.Waits left other → next.Reaches other)
        ∧ ∀ added ∈ state.additions entry made true,
            added.1 ≤ state.now → next.Reaches added.2 := by
  obtain ⟨todo, keys, allKeys⟩ :=
    continues_all left (state.newKeys (state.call entry made true))
  obtain ⟨funs, functions, allFuns⟩ := continues_all (remaining.eraseIdx place)
    (state.newFuns (state.call entry made true) key)
  have stepped := (State.step_call_iff inner found).mpr ⟨keys, functions, rfl⟩
  rw [State.Full, inner] at full
  obtain ⟨nodup, visited, present, dueKeys⟩ := full
  have later (other : Num) (added : ∃ new, (other, new) ∈ state.additions entry made true)
      (reached : other ≤ state.now) : other = key ∨ other ∈ todo := by
    by_cases old : other ∈ state.keys
    · exact (dueKeys other old reached).imp_right fun waits => (allKeys other).mpr (Or.inl waits)
    · exact Or.inr ((allKeys other).mpr (Or.inr (State.mem_newKeys_call.mpr ⟨old, added⟩)))
  rw [State.call_eq] at stepped
  refine ⟨_, .call inner found does stepped, rfl, ⟨keys.nodup nodup, fun again => ?_, ?_, ?_⟩,
    ?_, ?_⟩
  · rcases (allKeys key).mp again with before | new
    · exact visited before
    · exact (State.mem_newKeys_call.mp new).1 present
  · obtain ⟨old, queued⟩ := State.mem_keys.mp present
    exact State.mem_keys.mpr ⟨old, List.mem_append_left _ queued⟩
  · intro other member reached
    obtain ⟨function, queued⟩ := State.mem_keys.mp member
    rcases List.mem_append.mp queued with old | new
    · exact (dueKeys other (State.mem_keys.mpr ⟨function, old⟩) reached).imp_right
        fun waits => (allKeys other).mpr (Or.inl waits)
    · exact later other ⟨function, new⟩ reached
  · intro other ⟨k, waits, early, queued⟩
    exact Or.inr ⟨k, (allKeys k).mpr (Or.inl waits), early, List.mem_append_left _ queued⟩
  · intro ⟨k, function⟩ added early
    rcases later k ⟨function, added⟩ early with rfl | waits
    · refine Or.inl ((allFuns function).mpr (Or.inr ?_))
      rw [State.newFuns_call]
      exact List.mem_map.mpr ⟨_, List.mem_filter.mpr ⟨added, decide_eq_true rfl⟩, rfl⟩
    · exact Or.inr ⟨k, waits, early, List.mem_append_right _ added⟩

omit [DecidableEq F] in
/-- What a function spawns is added to the queue by a call of it that makes the request. -/
theorem Spawns.added {entry : Entry Num F} {new : Callback Num F}
    (total : ∀ f, ∃ made, behave f made)
    (spawns : Spawns behave state.now new entry.callback)
    : ∃ made,
        behave entry.callback.f made
        ∧ ∃ added ∈ state.additions entry made true,
            added.1 ≤ state.now ∧ added.2.callback = new := by
  rcases spawns with ⟨made, does, request, member, due, rfl⟩ | ⟨period, f, periodic, due, rfl⟩
  · rw [← List.zipIdx_map_fst state.issued made] at member
    obtain ⟨⟨request, id⟩, numbered, rfl⟩ := List.mem_map.mp member
    exact ⟨made, does, _,
      List.mem_append_left _ (List.mem_map.mpr ⟨(request, id), numbered, rfl⟩), due, rfl⟩
  · obtain ⟨made, does⟩ := total entry.callback.f
    refine ⟨made, does,
      (period + state.now, ⟨state.issued + made.length, entry.origin, .periodic period f⟩),
      List.mem_append_right _ ?_, due, periodic.symm⟩
    simp [Entry.renewal, periodic]

/-- A function that a tick is still to call leads to no endless chain if the tick returns, by
induction on its steps: the traversals may include everything.
-/
theorem State.Returns.acc (total : ∀ f, ∃ made, behave f made) (returns : state.Returns behave)
    (full : state.Full) {entry : Entry Num F} (reaches : state.Reaches entry)
    : Acc (Spawns behave state.now) entry.callback := by
  induction returns generalizing entry with
  | idle ended =>
      rw [State.Reaches, ended] at reaches
      exact reaches.elim
  | @moves state goesOn all ih =>
      cases phase : state.phase with
      | idle =>
          rw [State.Reaches, phase] at reaches
          exact reaches.elim
      | outer todo =>
          rw [State.Reaches, phase] at reaches
          rw [State.Full, phase] at full
          obtain ⟨k, waits, early, queued⟩ := reaches
          have present : k ∈ state.keys := State.mem_keys.mpr ⟨entry, queued⟩
          have stepped : state.step (.visit k)
              = some { state with phase := .inner (todo.erase k) k (state.funs k) } := by
            simp [State.step, phase, waits, present, early]
          refine ih _ (.visit k stepped)
            ⟨full.1.erase k, full.1.not_mem_erase, present, fun other member reached => ?_⟩
            (Or.inl (State.mem_funs.mpr queued))
          by_cases same : other = k
          · exact Or.inl same
          · exact Or.inr ((List.mem_erase_of_ne same).mpr (full.2 other member reached))
      | inner todo key funs =>
          rw [State.Reaches, phase] at reaches
          rcases reaches with called | waits
          · obtain ⟨place, found⟩ := List.mem_iff_getElem?.mp called
            refine .intro _ fun new spawns => ?_
            obtain ⟨made, does, added, isAdded, early, rfl⟩ := spawns.added total
            obtain ⟨next, moves, now, full, -, reaches⟩ := full.call phase found does
            exact now ▸ ih next moves full (reaches added isAdded early)
          · cases funs with
            | nil =>
                obtain ⟨k, waits, early, queued⟩ := waits
                rw [State.Full, phase] at full
                obtain ⟨nodup, visited, present, dueKeys⟩ := full
                refine ih _ (.clear (State.step_clear_of phase)) ⟨nodup, fun other member reached => ?_⟩
                  ⟨k, waits, early, List.mem_filter.mpr ⟨queued, ?_⟩⟩
                · obtain ⟨function, kept⟩ := State.mem_keys.mp member
                  obtain ⟨queued, apart⟩ := List.mem_filter.mp kept
                  exact (dueKeys other (State.mem_keys.mpr ⟨function, queued⟩) reached).resolve_left
                    (of_decide_eq_true apart)
                · exact decide_eq_true (ne_of_mem_of_not_mem waits visited)
            | cons first rest =>
                obtain ⟨made, does⟩ := total first.callback.f
                have found : (first :: rest)[0]? = some first := rfl
                obtain ⟨next, moves, now, full, others, -⟩ := full.call phase found does
                exact now ▸ ih next moves full (others entry waits)

/-- A tick that returns has no endless chain to follow, since it begins with all due keys. -/
theorem State.Returns.settled (total : ∀ f, ∃ made, behave f made) {began : State Num F} {t : Num}
    (start : state.step (.tick t) = some began) (returns : began.Returns behave)
    : ∀ pair ∈ state.queue, pair.1 ≤ t → Acc (Spawns behave t) pair.2.callback := by
  obtain ⟨-, rfl⟩ := State.step_tick start
  intro pair queued due
  have present : pair.1 ∈ state.keys := State.mem_keys.mpr ⟨pair.2, queued⟩
  exact returns.acc total ⟨List.nodup_dedup _, fun key member _ => member⟩
    ⟨pair.1, present, due, queued⟩

/-- Function 0 asks for function 1 at once, which asks for nothing. -/
def asksOnce (f : Nat) (made : List (Request Int Nat)) : Prop :=
  made = if f = 0 then [.schedule 0 1] else []

end Labrea.TimerQueue
