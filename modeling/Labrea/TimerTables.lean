import Labrea.TableSequence
import Labrea.TimerQueue

/-! The timer functions of `init.lua` on the tables of the bundled Lua. `periodic_queue` has, under
each time, a table of functions; both loops of `labrea_periodic` go on with `next` from their last
key.
-/

namespace Labrea.TimerQueue

open LuaTable (Table TableKey Failure)

/-- Where `labrea_periodic` is: outside, in its outer loop after a key, or in its inner loop, at a
key of the queue and after an index of the table there.
-/
inductive Place (Num : Type) where
  | idle
  | outer (control : Option Num)
  | inner (key : Num) (funs : ℕ) (control : Option Num)

def Place.isIdle {Num : Type} : Place Num → Bool
  | .idle => true
  | _ => false

/-- The tables of `init.lua`: `periodic_queue`, with references to the tables that
`labrea.schedule` has made. A function in one of those carries its numbers with it.
-/
structure Tables (Num F : Type) where
  queue : Table Num ℕ
  heap : ℕ → Table Num (Entry Num F)
  made : ℕ
  now : Num
  place : Place Num
  issued : ℕ
  log : List (Num × Entry Num F)

/-- What happens outside a tick (user code makes a request, a tick begins) and in one: the outer
loop takes its next key or ends, a function of the inner loop is called, the inner loop ends and
its key is cleared. A call carries the requests made before it ends and whether it returns.
-/
inductive Turn (Num F : Type) where
  | request (request : Request Num F)
  | tick (t : Num)
  | next
  | call (made : List (Request Num F)) (returns : Bool)
  | clear

section

variable {Num F : Type} [TableKey Num] [LinearOrder Num] [Add Num]

/-- `if not tab[t] then tab[t] = {} end`, in `labrea.schedule` -/
def Tables.provide (tables : Tables Num F) (key : Num) : Except Failure (Tables Num F) :=
  if (tables.queue.lookup key).isSome then pure tables
  else do
    let empty ← Table.luaHNew 0 0
    let queue ← tables.queue.assign key (some tables.made)
    pure { tables with
      queue := queue
      heap := Function.update tables.heap tables.made empty
      made := tables.made + 1 }

/-- `table.insert(tab[t], f)`, in `labrea.schedule` -/
def Tables.insert (tables : Tables Num F) (key : Num) (entry : Entry Num F)
    : Except Failure (Tables Num F) :=
  match tables.queue.lookup key with
  | none => .error .undefined
  | some funs => do
      let inserted ← (tables.heap funs).tinsert entry
      pure { tables with heap := Function.update tables.heap funs inserted }

/-- `labrea.schedule` -/
def Tables.schedule (tables : Tables Num F) (t : Num) (callback : Callback Num F) (origin : ℕ)
    : Except Failure (Tables Num F) := do
  let provided ← tables.provide (t + tables.now)
  let inserted ← provided.insert (t + tables.now) ⟨tables.issued, origin, callback⟩
  pure { inserted with issued := tables.issued + 1 }

/-- User code makes a request. -/
def Tables.request (tables : Tables Num F) : Request Num F → Except Failure (Tables Num F)
  | .schedule t f => tables.schedule t (.plain f) tables.issued
  | .periodic period f => tables.schedule period (.periodic period f) tables.issued

/-- A function of the queue is called. -/
def Tables.call (tables : Tables Num F) (entry : Entry Num F) (made : List (Request Num F))
    (returns : Bool) : Except Failure (Tables Num F) := do
  let called := { tables with log := tables.log ++ [(tables.now, entry)] }
  let requested ← made.foldlM Tables.request called
  match returns, entry.callback with
  | true, .periodic period f => requested.schedule period (.periodic period f) entry.origin
  | _, _ => pure requested

/-- The outer loop takes its next key, and enters the inner one if it is due. -/
def Tables.next (tables : Tables Num F) (control : Option Num)
    : Except Failure (Tables Num F) := do
  match ← tables.queue.luaHNext control with
  | none => pure { tables with place := .idle }
  | some (key, funs) =>
      if tables.now ≥ key then pure { tables with place := .inner key funs none }
      else pure { tables with place := .outer (some key) }

/-- `labrea_periodic`, step by step, and what user code does outside it. An error of Lua itself,
for which nothing of this goes on, is a state of its own.
-/
def Tables.step : Except Failure (Tables Num F) → Turn Num F
    → Option (Except Failure (Tables Num F))
  | .error _, _ => none
  | .ok tables, .request request =>
      match tables.place with
      | .idle => some (tables.request request)
      | _ => none
  | .ok tables, .tick t =>
      match tables.place with
      | .idle => some (.ok { tables with now := t, place := .outer none })
      | _ => none
  | .ok tables, .next =>
      match tables.place with
      | .outer control => some (tables.next control)
      | _ => none
  | .ok tables, .call made returns =>
      match tables.place with
      | .inner key funs control =>
          match (tables.heap funs).luaHNext control with
          | .error failure => some (.error failure)
          | .ok none => none
          | .ok (some (index, entry)) => some do
              let called ← tables.call entry made returns
              pure { called with place := if returns then .inner key funs (some index) else .idle }
      | _ => none
  | .ok tables, .clear =>
      match tables.place with
      | .inner key funs control =>
          match (tables.heap funs).luaHNext control with
          | .error failure => some (.error failure)
          | .ok (some _) => none
          | .ok none => some do
              let queue ← tables.queue.assign key none
              pure { tables with queue := queue, place := .outer (some key) }
      | _ => none

/-- After `init.lua` has run. -/
def Tables.initial (now : Num) : Except Failure (Tables Num F) := do
  let queue ← Table.luaHNew 0 0
  let empty ← Table.luaHNew 0 0
  pure {
    queue := queue
    heap := fun _ => empty
    made := 0
    now := now
    place := .idle
    issued := 0
    log := [] }

/-- The functions under a key, in the order of their table. -/
def Tables.functions (tables : Tables Num F) (key : Num) : List (Entry Num F) :=
  match tables.queue.lookup key with
  | none => []
  | some funs => ((tables.heap funs).vanishing 0).map Prod.snd

-----------------------------------------------------------------------------------------
-- Everything a turn can be
-----------------------------------------------------------------------------------------

variable {tables : Tables Num F} {result : Except Failure (Tables Num F)}

theorem Tables.step_request {request : Request Num F}
    (stepped : Tables.step (.ok tables) (.request request) = some result)
    : tables.place = .idle ∧ result = tables.request request := by
  rw [Tables.step] at stepped
  rcases place : tables.place with _ | control | ⟨key, funs, control⟩ <;>
    simp only [place, Option.some.injEq, reduceCtorEq] at stepped
  exact ⟨rfl, stepped.symm⟩

theorem Tables.step_tick {t : Num}
    (stepped : Tables.step (.ok tables) (.tick t) = some result)
    : tables.place = .idle ∧ result = .ok { tables with now := t, place := .outer none } := by
  rw [Tables.step] at stepped
  rcases place : tables.place with _ | control | ⟨key, funs, control⟩ <;>
    simp only [place, Option.some.injEq, reduceCtorEq] at stepped
  exact ⟨rfl, stepped.symm⟩

theorem Tables.step_next
    (stepped : Tables.step (.ok tables) .next = some result)
    : ∃ control, tables.place = .outer control ∧ result = tables.next control := by
  rw [Tables.step] at stepped
  rcases place : tables.place with _ | control | ⟨key, funs, control⟩ <;>
    simp only [place, Option.some.injEq, reduceCtorEq] at stepped
  exact ⟨control, rfl, stepped.symm⟩

/-- The inner loop has a function left for a call, or `next` fails. -/
theorem Tables.step_call {made : List (Request Num F)} {returns : Bool}
    (stepped : Tables.step (.ok tables) (.call made returns) = some result)
    : ∃ key funs control,
        tables.place = .inner key funs control
        ∧ ((∃ index entry,
              (tables.heap funs).luaHNext control = .ok (some (index, entry))
              ∧ result = do
                  let called ← tables.call entry made returns
                  pure { called with
                    place := if returns then .inner key funs (some index) else .idle })
          ∨ ∃ failure, (tables.heap funs).luaHNext control = .error failure) := by
  rw [Tables.step] at stepped
  rcases place : tables.place with _ | control | ⟨key, funs, control⟩ <;>
    simp only [place, reduceCtorEq] at stepped
  refine ⟨key, funs, control, rfl, ?_⟩
  rcases left : (tables.heap funs).luaHNext control with failure | _ | ⟨index, entry⟩ <;>
    simp only [left, Option.some.injEq, reduceCtorEq] at stepped
  · exact Or.inr ⟨failure, rfl⟩
  · exact Or.inl ⟨index, entry, rfl, stepped.symm⟩

/-- The inner loop has nothing left when its key is cleared, or `next` fails. -/
theorem Tables.step_clear
    (stepped : Tables.step (.ok tables) .clear = some result)
    : ∃ key funs control,
        tables.place = .inner key funs control
        ∧ (((tables.heap funs).luaHNext control = .ok none
            ∧ result = do
                let queue ← tables.queue.assign key none
                pure { tables with queue := queue, place := .outer (some key) })
          ∨ ∃ failure, (tables.heap funs).luaHNext control = .error failure) := by
  rw [Tables.step] at stepped
  rcases place : tables.place with _ | control | ⟨key, funs, control⟩ <;>
    simp only [place, reduceCtorEq] at stepped
  refine ⟨key, funs, control, rfl, ?_⟩
  rcases left : (tables.heap funs).luaHNext control with failure | _ | element <;>
    simp only [left, Option.some.injEq, reduceCtorEq] at stepped
  · exact Or.inr ⟨failure, rfl⟩
  · exact Or.inl ⟨rfl, stepped.symm⟩

end

/-- How often a turn can call `labrea.schedule`. -/
def Turn.requests {Num F : Type} : Turn Num F → ℕ
  | .request _ => 1
  | .call made _ => made.length + 1
  | _ => 0

end Labrea.TimerQueue
