import Mathlib.Tactic.Ring
import Labrea.TimerRefinement

/-! A tick ends. Only functions that `labrea_periodic` calls add to what its loops go through, so
it takes a number of turns that is bounded by the calls of `labrea.schedule`.
-/

namespace Labrea.TimerQueue

open LuaTable (Table TableKey Failure maxasize)

variable {Num F : Type}

/-- What happens in a tick. -/
def Turn.InTick : Turn Num F → Prop
  | .request _ => False
  | .tick _ => False
  | _ => True

section

variable [LinearOrder Num] (state : State Num F) (key : Num)

theorem State.length_clear
    : (state.queue.filter fun pair => pair.1 ≠ key).length + (state.funs key).length
      = state.queue.length := by
  rw [State.funs, List.length_map, Nat.add_comm, ← List.countP_eq_length_filter,
    ← List.countP_eq_length_filter]
  have := state.queue.length_eq_countP_add_countP fun pair => decide (pair.1 = key)
  simpa using this.symm

theorem State.length_funs_le : (state.funs key).length ≤ state.queue.length := by
  rw [← state.length_clear key]
  exact Nat.le_add_left _ _

end

section

variable [TableKey Num] [LinearOrder Num]

/-- A place in a tick that has called some functions, and a bound on the turns before the next
call. The functions of the queue that have been called are the first ones under the key of the
inner loop, up to its index; the others of those called are no longer there.
-/
inductive Paces (tables : Tables Num F) (state : State Num F) (calls : ℕ) : Place Num → ℕ → Prop
  | idle (called : calls ≤ state.issued) : Paces tables state calls .idle 0
  | outer {control : Option Num} {first count : ℕ} (cursor : tables.queue.Cursor control first)
    (left : tables.queue.LeftCount control count)
    (called : calls + state.queue.length ≤ state.issued)
    : Paces tables state calls (.outer control) (2 * count + 1)
  | inner {key : Num} {funs i count : ℕ} {control : Option Num}
    (found : tables.queue.lookup key = some funs) (cursor : (tables.heap funs).Cursor control i)
    (reached : i ≤ (state.funs key).length) (left : tables.queue.LeftCount (some key) count)
    (called : calls + state.queue.length ≤ state.issued + i)
    : Paces tables state calls (.inner key funs control) (2 * count + 2)

variable {tables : Tables Num F} {state : State Num F} {calls bound : ℕ}

theorem Paces.of_outer {control : Option Num}
    (paces : Paces tables state calls (.outer control) bound)
    : ∃ first count,
        bound = 2 * count + 1
        ∧ tables.queue.Cursor control first
        ∧ tables.queue.LeftCount control count
        ∧ calls + state.queue.length ≤ state.issued := by
  cases paces with
  | outer cursor left called => exact ⟨_, _, rfl, cursor, left, called⟩

theorem Paces.of_inner {key : Num} {funs : ℕ} {control : Option Num}
    (paces : Paces tables state calls (.inner key funs control) bound)
    : ∃ i count,
        bound = 2 * count + 2
        ∧ tables.queue.lookup key = some funs
        ∧ (tables.heap funs).Cursor control i
        ∧ i ≤ (state.funs key).length
        ∧ tables.queue.LeftCount (some key) count
        ∧ calls + state.queue.length ≤ state.issued + i := by
  cases paces with
  | inner found cursor reached left called =>
      exact ⟨_, _, rfl, found, cursor, reached, left, called⟩

theorem Paces.calls_le {place : Place Num} (paces : Paces tables state calls place bound)
    : calls ≤ state.issued := by
  cases paces with
  | idle called => exact called
  | outer _ _ called => omega
  | @inner key _ _ _ _ _ _ reached _ called =>
      have := state.length_funs_le key
      omega

/-- In a tick there is a next turn. -/
theorem Paces.goesOn [Add Num] (holds : Holds tables state)
    (paces : Paces tables state calls tables.place bound)
    : tables.place = .idle
      ∨ ∃ turn : Turn Num F, turn.InTick ∧ (Tables.step (.ok tables) turn).isSome := by
  rcases place : tables.place with _ | control | ⟨key, funs, control⟩
  · exact Or.inl rfl
  · exact Or.inr ⟨.next, trivial, by rw [Tables.step, place]; rfl⟩
  · rw [place] at paces
    obtain ⟨i, _, _, found, cursor, _⟩ := paces.of_inner
    have next := (holds.under key funs found).2.luaHNext cursor
    rcases here : (state.funs key)[i]? with _ | entry
    · rw [here] at next
      exact Or.inr ⟨.clear, trivial, by simp only [Tables.step, place, next]; rfl⟩
    · rw [here] at next
      exact Or.inr ⟨.call [] true, trivial, by simp only [Tables.step, place, next]; rfl⟩

variable [Add Num]

/-- Tables in a tick that has taken a number of turns, with some turns to come: there were only
so many between any two calls.
-/
def Paced (tables : Tables Num F) (rest : List (Turn Num F)) (count : ℕ) : Prop :=
  ∃ (state : State Num F) (calls bound : ℕ),
    Holds tables state
    ∧ state.issued + (rest.map Turn.requests).sum ≤ maxasize
    ∧ Paces tables state calls tables.place bound
    ∧ count + bound ≤ (calls + 1) * (2 * state.issued + 2)

variable {rest : List (Turn Num F)} {count : ℕ} {result : Except Failure (Tables Num F)}

/-- The outer loop has one key less left, or has ended. -/
theorem Paced.next (paced : Paced tables (.next :: rest) count)
    (stepped : Tables.step (.ok tables) .next = some result)
    : ∃ later, result = .ok later ∧ Paced later rest (count + 1) := by
  obtain ⟨state, calls, bound, holds, room, paces, within⟩ := paced
  have room : state.issued + (rest.map Turn.requests).sum ≤ maxasize := by
    simpa [Turn.requests] using room
  obtain ⟨control, place, rfl⟩ := Tables.step_next stepped
  rw [place] at paces
  obtain ⟨first, keys, rfl, cursor, left, called⟩ := paces.of_outer
  rw [Tables.next]
  rcases holds.valid.luaHNext_cases cursor with ⟨key, funs, taken, takes⟩ | ⟨done, _⟩
  · obtain ⟨fewer, rfl, left'⟩ := takes.leftCount left
    rw [taken]
    by_cases due : tables.now ≥ key
    · have begins : (tables.heap funs).Cursor none 0 := rfl
      refine ⟨_, if_pos due, { state with phase := .idle }, calls, _, holds.moved _ _ state.due,
        room, .inner takes.value begins (Nat.zero_le _) left' called, ?_⟩
      dsimp only
      omega
    · obtain ⟨first', cursor'⟩ := takes.cursor
      refine ⟨_, if_neg due, { state with phase := .idle }, calls, _, holds.moved _ _ state.due,
        room, .outer cursor' left' called, ?_⟩
      dsimp only
      omega
  · rw [done]
    refine ⟨_, rfl, { state with phase := .idle }, calls, _, holds.moved _ _ state.due, room,
      .idle (by dsimp only; omega), ?_⟩
    dsimp only
    omega

/-- The key of the inner loop is cleared, with the functions that have been called. -/
theorem Paced.clear (paced : Paced tables (.clear :: rest) count)
    (stepped : Tables.step (.ok tables) .clear = some result)
    : ∃ later, result = .ok later ∧ Paced later rest (count + 1) := by
  obtain ⟨state, calls, bound, holds, room, paces, within⟩ := paced
  have room : state.issued + (rest.map Turn.requests).sum ≤ maxasize := by
    simpa [Turn.requests] using room
  obtain ⟨key, funs, control, place, _⟩ := Tables.step_clear stepped
  rw [place] at paces
  obtain ⟨i, keys, rfl, found, cursor, reached, left, called⟩ := paces.of_inner
  obtain ⟨slot, ended, here, cursor', rfl⟩ := holds.step_clear place found cursor stepped
  have fewer := state.length_clear key
  refine ⟨_, rfl, _, calls, _, holds.clear here .idle, room,
    .outer cursor' (holds.valid.write_leftCount here none left) ?_, ?_⟩
  · dsimp only
    omega
  · dsimp only
    omega

/-- A call pays for the turns to come: there are as many keys as have been issued at most. -/
theorem Paced.call {made : List (Request Num F)} {returns : Bool}
    (paced : Paced tables (.call made returns :: rest) count)
    (stepped : Tables.step (.ok tables) (.call made returns) = some result)
    : ∃ later, result = .ok later ∧ Paced later rest (count + 1) := by
  obtain ⟨state, calls, bound, holds, room, paces, within⟩ := paced
  rw [List.map_cons, List.sum_cons, Turn.requests] at room
  obtain ⟨key, funs, control, place, _⟩ := Tables.step_call stepped
  rw [place] at paces
  obtain ⟨i, keys, rfl, found, cursor, reached, left, calledBefore⟩ := paces.of_inner
  obtain ⟨entry, called, here, extended, refers, cursor', rfl⟩ :=
    holds.step_call (by omega) place found cursor stepped
  have below := (List.getElem?_eq_some_iff.mp here).1
  have fewer := state.length_funs_le key
  have issued := state.issued_call entry made returns
  have room : (state.call entry made returns).issued + (rest.map Turn.requests).sum
      ≤ maxasize := by
    omega
  have added : (state.call entry made returns).queue.length + state.issued
      = state.queue.length + (state.call entry made returns).issued := by
    rw [State.call_eq]
    simp only [List.length_append]
    omega
  have more : state.issued ≤ (state.call entry made returns).issued := by
    rw [State.call_eq]
    exact Nat.le_add_right _ _
  have bounded : count + 1 + (2 * (state.call entry made returns).issued + 2)
      ≤ (calls + 1 + 1) * (2 * (state.call entry made returns).issued + 2) := by
    have := Nat.mul_le_mul_left (calls + 1)
      (show 2 * state.issued + 2 ≤ 2 * (state.call entry made returns).issued + 2 by omega)
    rw [Nat.succ_mul (calls + 1)]
    omega
  cases returns with
  | false =>
      refine ⟨_, rfl, _, calls + 1, _, extended.holds.moved .idle .idle state.due, room,
        .idle ?_, ?_⟩
      · dsimp only
        omega
      · dsimp only
        omega
  | true =>
      obtain ⟨keys', few, left'⟩ := extended.holds.valid.leftCount (some key)
      have keysIssued := few.trans extended.holds.length_keys
      have within' : i + 1 ≤ ((state.call entry made true).funs key).length := by
        rw [State.funs_call, List.length_append]
        omega
      refine ⟨_, rfl, _, calls + 1, _, extended.holds.moved _ .idle state.due, room,
        .inner refers cursor' within' left' ?_, ?_⟩
      · dsimp only
        omega
      · dsimp only
        omega

omit [Add Num] in
/-- A tick begins, with all the keys of the queue left. -/
theorem Holds.paced (holds : Holds tables state) (t : Num)
    (room : state.issued + (rest.map Turn.requests).sum ≤ maxasize)
    : Paced { tables with now := t, place := .outer none } rest 0 := by
  obtain ⟨keys, few, left⟩ := holds.valid.leftCount none
  have issued := few.trans holds.length_keys
  have begins : tables.queue.Cursor none 0 := rfl
  have holds' : Holds { tables with now := t, place := .outer none } { state with now := t } :=
    ⟨{ holds.toLists with
        now := rfl
        numbered := ⟨holds.numbered.distinct, holds.numbered.issued⟩ }, holds.present⟩
  refine ⟨_, 0, _, holds', room, .outer begins left ?_, ?_⟩
  · exact (Nat.zero_add _).trans_le holds.numbered.length_queue
  · dsimp only
    omega

/-- Lua has not failed in a tick, with some turns of the tick to come. -/
def Ticking (result : Except Failure (Tables Num F)) (rest : List (Turn Num F)) (count : ℕ)
    : Prop :=
  (∀ turn ∈ rest, turn.InTick) ∧ ∃ tables, result = .ok tables ∧ Paced tables rest count

/-- Whatever happens in the tick, it has taken one turn more. -/
theorem Ticking.step {turn : Turn Num F} {next : Except Failure (Tables Num F)}
    (ticking : Ticking result (turn :: rest) count)
    (stepped : Tables.step result turn = some next)
    : Ticking next rest (count + 1) := by
  obtain ⟨inTick, tables, rfl, paced⟩ := ticking
  obtain ⟨here, later⟩ := List.forall_mem_cons.mp inTick
  refine ⟨later, ?_⟩
  cases turn with
  | request => exact here.elim
  | tick => exact here.elim
  | next => exact paced.next stepped
  | call => exact paced.call stepped
  | clear => exact paced.clear stepped

variable [DecidableEq F]

/-- The tables stand after the first part of a run, whatever comes in the second. -/
theorem Stands.between {state : State Num F} {first second : List (Turn Num F)}
    {last : Except Failure (Tables Num F)} (stands : Stands result state (first ++ second))
    (run : Machine.exec Tables.step result first = some last)
    : ∃ final, Stands last final second := by
  obtain ⟨_, final, _, _, stands'⟩ :=
    @Machine.exec_simulated _ _ _ _ _ _ _
      (fun result state rest => Stands result state (rest ++ second))
      (fun _ _ _ _ _ stands stepped => stands.step stepped) _ _ _ _ stands run
  exact ⟨final, stands'⟩

/-- `labrea_periodic` returns: in a tick after any run of ticks and requests there is always a
next turn until it has, and the turns it has taken are at most quadratic in the number of calls
of `labrea.schedule`. So only functions that keep scheduling others can keep it going, however a
rehash reorders `periodic_queue` under its traversal.
-/
theorem tick_progress (now t : Num) {before turns : List (Turn Num F)}
    (few : ((before ++ .tick t :: turns).map Turn.requests).sum ≤ maxasize)
    (inTick : ∀ turn ∈ turns, turn.InTick) {result : Except Failure (Tables Num F)}
    (run : Machine.exec Tables.step (Tables.initial now) (before ++ .tick t :: turns)
      = some result)
    : ∃ last,
        result = .ok last
        ∧ turns.length ≤ 2 * (last.issued + 1) ^ 2
        ∧ (last.place = .idle
          ∨ ∃ turn : Turn Num F, turn.InTick ∧ (Tables.step (.ok last) turn).isSome) := by
  obtain ⟨between, first, run⟩ := Machine.exec_append.mp run
  obtain ⟨began, stepped, run⟩ := Machine.exec_cons.mp run
  obtain ⟨tables, initial, represents⟩ := represents_initial now few
  have start : Stands (Tables.initial now) (State.holding [] now) (before ++ .tick t :: turns) :=
    ⟨tables, initial, represents⟩
  obtain ⟨state, tables, rfl, holds, _, room⟩ := start.between first
  have room : state.issued + (turns.map Turn.requests).sum ≤ maxasize := by
    simpa [Turn.requests] using room
  obtain ⟨_, rfl⟩ := Tables.step_tick stepped
  have ticking : Ticking (.ok { tables with now := t, place := .outer none }) turns 0 :=
    ⟨inTick, _, rfl, holds.paced t room⟩
  obtain ⟨_, last, rfl, state, calls, bound, holds, _, paces, within⟩ :=
    Machine.exec_counts (fun _ _ _ _ _ ticking stepped => ticking.step stepped) ticking run
  refine ⟨last, rfl, ?_, paces.goesOn holds⟩
  rw [holds.issued]
  calc
    turns.length ≤ (calls + 1) * (2 * state.issued + 2) := by omega
    _ ≤ (state.issued + 1) * (2 * state.issued + 2) :=
      Nat.mul_le_mul_right _ (Nat.succ_le_succ paces.calls_le)
    _ = 2 * (state.issued + 1) ^ 2 := by ring

end

/-- A function that is due asks for another that is, and the inner loop goes on to it. -/
theorem tick_progress_again
    : ∃ result : Except Failure (Tables ℤ ℕ),
        Machine.exec Tables.step (Tables.initial 0)
            ([.request (.schedule 5 1)] ++ .tick 5 :: [.next, .call [.schedule 0 2] true])
          = some result
        ∧ ∃ last,
            result = .ok last
            ∧ 2 ≤ 2 * (last.issued + 1) ^ 2
            ∧ (last.place = .idle
              ∨ ∃ turn : Turn ℤ ℕ, turn.InTick ∧ (Tables.step (.ok last) turn).isSome) := by
  have possible : (Machine.exec Tables.step (Tables.initial 0 : Except Failure (Tables ℤ ℕ))
      ([.request (.schedule 5 1)] ++ .tick 5 :: [.next, .call [.schedule 0 2] true])).isSome := by
    decide +kernel
  obtain ⟨result, run⟩ := Option.isSome_iff_exists.mp possible
  exact ⟨result, run, tick_progress 0 5 (by decide) (by simp [Turn.InTick]) run⟩

end Labrea.TimerQueue
