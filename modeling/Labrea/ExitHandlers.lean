import Labrea.Library.Machine
import Labrea.TableSequence

/-! The exit handlers of `init.lua` on a table of the bundled Lua. A handler may register further
ones, and so may other threads while it runs.
-/

namespace Labrea.ExitHandlers

open LuaTable (Table TableKey Failure maxasize)
open LuaTable.TableKey (number)
open Machine (exec exec_cons)

/-- Where `labrea_exiting` is: not called, in its loop after a key, in a handler, at its end, or
left by the error of a handler.
-/
inductive Place (Key : Type) where
  | idle
  | loop (control : Option Key)
  | handler (key : Key)
  | done
  | raised

/-- `exit_handlers`, and the handlers that `labrea_exiting` has called. -/
structure State (Key F : Type) where
  handlers : Table Key F
  place : Place Key
  called : List F

/-- `labrea.atexit` is called, `labrea_exiting` is called, its loop goes on, and a handler ends. -/
inductive Action (F : Type) where
  | atexit (f : F)
  | exiting
  | next
  | ended (returns : Bool)

section

variable {Key F : Type} [TableKey Key] [DecidableEq Key]

/-- `labrea.atexit` -/
def State.atexit (state : State Key F) (f : F) : Except Failure (State Key F) := do
  let handlers ← state.handlers.tinsert f
  pure { state with handlers := handlers }

/-- The loop of `labrea_exiting` calls its next handler or ends. -/
def State.next (state : State Key F) (control : Option Key) : Except Failure (State Key F) := do
  match ← state.handlers.luaHNext control with
  | none => pure { state with place := .done }
  | some (key, f) =>
      pure { state with place := .handler key, called := state.called ++ [f] }

/-- Nothing else runs in the loop but handlers. An error of Lua itself is a state of its own. -/
def State.step : Except Failure (State Key F) → Action F → Option (Except Failure (State Key F))
  | .error _, _ => none
  | .ok state, .atexit f =>
      match state.place with
      | .loop _ => none
      | _ => some (state.atexit f)
  | .ok state, .exiting =>
      match state.place with
      | .idle => some (.ok { state with place := .loop none })
      | _ => none
  | .ok state, .next =>
      match state.place with
      | .loop control => some (state.next control)
      | _ => none
  | .ok state, .ended returns =>
      match state.place with
      | .handler key =>
          some (.ok { state with place := if returns then .loop (some key) else .raised })
      | _ => none

/-- After `init.lua` has run. -/
def State.initial : Except Failure (State Key F) := do
  let handlers ← Table.luaHNew 0 0
  pure ⟨handlers, .idle, []⟩

end

/-- The handlers that a run registers. -/
def registered {F : Type} (actions : List (Action F)) : List F :=
  actions.filterMap fun
    | .atexit f => some f
    | _ => none

variable {Key F : Type} [TableKey Key] [DecidableEq Key] {state : State Key F} {items : List F}

/-- The loop has called the first handlers of the list, and goes on behind them. -/
def Place.Behind (place : Place Key) (called : ℕ) : Prop :=
  match place with
  | .idle => called = 0
  | .loop none => called = 0
  | .loop (some key) | .handler key => ∃ i : ℕ, called = i + 1 ∧ key = number (i + 1)
  | .done | .raised => True

/-- The table is the list of the handlers registered so far, of which the first were called. -/
structure State.Runs (state : State Key F) (items : List F) : Prop where
  sequence : state.handlers.Sequence items
  called : state.called <+: items
  behind : state.place.Behind state.called.length

theorem State.Runs.cursor (runs : state.Runs items) {control : Option Key}
    (place : state.place = .loop control)
    : state.handlers.Cursor control state.called.length := by
  have behind := runs.behind
  rw [place] at behind
  cases control with
  | none => exact behind
  | some key =>
      obtain ⟨i, length, rfl⟩ := behind
      have le := runs.called.length_le
      rw [length]
      exact runs.sequence.cursor (by omega)

/-- The loop calls the first handler that it has not called yet, and ends after the last one. -/
theorem State.Runs.next (runs : state.Runs items) {control : Option Key}
    (place : state.place = .loop control)
    : ∃ later,
        state.next control = .ok later
        ∧ later.Runs items
        ∧ later.called = items.take (state.called.length + 1)
        ∧ (later.place = .done ↔ state.called = items) := by
  have called := List.prefix_iff_eq_take.mp runs.called
  have next := runs.sequence.luaHNext (runs.cursor place)
  rw [List.take_add_one, ← called]
  rcases item : items[state.called.length]? with _ | f <;> rw [item] at next
  · refine ⟨{ state with place := .done }, ?_, ⟨runs.sequence, runs.called, trivial⟩, by simp, ?_⟩
    · rw [State.next, next]
      rfl
    · have all : state.called = items :=
        runs.called.eq_of_length_le (List.getElem?_eq_none_iff.mp item)
      simpa using all
  · refine ⟨⟨state.handlers, .handler (number (state.called.length + 1)), state.called ++ [f]⟩,
      ?_, ⟨runs.sequence, ?_, ?_⟩, rfl, ?_⟩
    · rw [State.next, next]
      rfl
    · rw [called, ← Option.toList_some, ← item, List.length_take_of_le runs.called.length_le,
        ← List.take_add_one]
      exact List.take_prefix _ _
    · exact ⟨state.called.length, by simp, rfl⟩
    · have more := (List.getElem?_eq_some_iff.mp item).1
      constructor
      · exact fun done => by cases done
      · exact fun all => absurd (congrArg List.length all) more.ne

theorem State.Runs.atexit (runs : state.Runs items) (room : items.length < maxasize) (f : F)
    : ∃ later,
        state.atexit f = .ok later
        ∧ later.Runs (items ++ [f]) := by
  obtain ⟨handlers, inserted, sequence⟩ := runs.sequence.tinsert room f
  refine ⟨{ state with handlers := handlers }, ?_,
    ⟨sequence, runs.called.trans (List.prefix_append _ _), runs.behind⟩⟩
  rw [State.atexit, inserted]
  rfl

/-- Each step goes on with the list, which the handlers it registers come behind. -/
theorem State.Runs.step (runs : state.Runs items) {action : Action F}
    {result : Except Failure (State Key F)}
    (room : (items ++ registered [action]).length ≤ maxasize)
    (stepped : State.step (.ok state) action = some result)
    : ∃ later, result = .ok later ∧ later.Runs (items ++ registered [action]) := by
  have behind := runs.behind
  rw [State.step.eq_def] at stepped
  cases action with
  | atexit f =>
      rw [registered] at room ⊢
      have last : items.length < maxasize := by simpa using room
      obtain ⟨later, done, runs⟩ := runs.atexit last f
      refine ⟨later, ?_, runs⟩
      rcases place : state.place with _ | control | key | _ | _ <;>
        simp only [place, Option.some.injEq, reduceCtorEq] at stepped <;>
        exact stepped.symm.trans done
  | exiting =>
      rcases place : state.place with _ | control | key | _ | _ <;>
        simp only [place, Option.some.injEq, reduceCtorEq] at stepped
      rw [place] at behind
      refine ⟨{ state with place := .loop none }, stepped.symm, ?_⟩
      rw [registered]
      simpa using ⟨runs.sequence, runs.called, behind⟩
  | next =>
      rcases place : state.place with _ | control | key | _ | _ <;>
        simp only [place, Option.some.injEq, reduceCtorEq] at stepped
      obtain ⟨later, done, runs, _⟩ := runs.next place
      refine ⟨later, stepped.symm.trans done, ?_⟩
      simpa [registered] using runs
  | ended returns =>
      rcases place : state.place with _ | control | key | _ | _ <;>
        simp only [place, Option.some.injEq, reduceCtorEq] at stepped
      rw [place] at behind
      refine ⟨{ state with place := if returns then .loop (some key) else .raised },
        stepped.symm, ?_⟩
      have runs' : State.Runs
          { state with place := if returns then .loop (some key) else .raised } items := by
        refine ⟨runs.sequence, runs.called, ?_⟩
        cases returns
        · exact trivial
        · exact behind
      simpa [registered] using runs'

/-- A run goes on with the list, by induction on its actions. -/
theorem State.Runs.exec (runs : state.Runs items) {actions : List (Action F)}
    {result : Except Failure (State Key F)}
    (room : (items ++ registered actions).length ≤ maxasize)
    (run : exec State.step (.ok state) actions = some result)
    : ∃ last, result = .ok last ∧ last.Runs (items ++ registered actions) := by
  induction actions generalizing state items with
  | nil =>
      cases run
      exact ⟨state, rfl, by simpa [registered] using runs⟩
  | cons action rest ih =>
      obtain ⟨next, stepped, run⟩ := exec_cons.mp run
      have split : items ++ registered (action :: rest)
          = items ++ registered [action] ++ registered rest := by
        rw [List.append_assoc, registered, registered, registered, ← List.filterMap_append]
        rfl
      rw [split] at room ⊢
      have room' : (items ++ registered [action]).length ≤ maxasize := by
        rw [List.length_append] at room
        omega
      obtain ⟨later, rfl, runs⟩ := runs.step room' stepped
      exact ih runs room run

/-- Exit handlers are called in the order they were registered in, none twice: those called are
the first ones registered, the loop always goes on with the next one, and it only ends when every
handler registered by then was called. Lua itself never fails.
-/
theorem exiting_in_order {actions : List (Action F)}
    {result : Except Failure (State Key F)}
    (few : (registered actions).length ≤ maxasize)
    (run : exec State.step State.initial actions = some result)
    : ∃ state,
        result = .ok state
        ∧ state.called <+: registered actions
        ∧ ∀ control, state.place = .loop control
          → ∃ later,
              State.step (.ok state) .next = some (.ok later)
              ∧ later.called = (registered actions).take (state.called.length + 1)
              ∧ (later.place = .done ↔ state.called = registered actions) := by
  obtain ⟨handlers, new, sequence⟩
      : ∃ t : Table Key F, Table.luaHNew 0 0 = .ok t ∧ t.Sequence [] :=
    Table.luaHNew_sequence
  have start : (State.initial : Except Failure (State Key F)) = .ok ⟨handlers, .idle, []⟩ := by
    rw [State.initial, new]
    rfl
  rw [start] at run
  have begins : State.Runs ⟨handlers, .idle, []⟩ ([] : List F) := ⟨sequence, List.prefix_rfl, rfl⟩
  obtain ⟨state, rfl, runs⟩ := begins.exec (by simpa using few) run
  rw [List.nil_append] at runs
  refine ⟨state, rfl, runs.called, fun control place => ?_⟩
  obtain ⟨later, next, _, called, done⟩ := runs.next place
  refine ⟨later, ?_, called, done⟩
  rw [State.step.eq_def]
  simp only [place, next]

theorem exiting_in_order_two
    : let actions : List (Action ℕ) :=
        [.atexit 10, .exiting, .next, .atexit 20, .ended true]
      ∃ result,
        exec State.step (State.initial : Except Failure (State ℤ ℕ)) actions = some result
        ∧ ∃ state,
          result = .ok state
          ∧ state.called <+: registered actions
          ∧ ∀ control, state.place = .loop control
            → ∃ later,
                State.step (.ok state) .next = some (.ok later)
                ∧ later.called = (registered actions).take (state.called.length + 1)
                ∧ (later.place = .done ↔ state.called = registered actions) := by
  intro actions
  have runs : (exec State.step (State.initial : Except Failure (State ℤ ℕ)) actions).isSome := by
    decide +kernel
  obtain ⟨result, run⟩ := Option.isSome_iff_exists.mp runs
  exact ⟨result, run, exiting_in_order (by decide) run⟩

end Labrea.ExitHandlers
