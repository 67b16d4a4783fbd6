import Labrea.Library.Traced
import Labrea.LuaNumber

/-! What one thread does inside labrea: the events it performs, the thread-local state it
reads, and the RAII classes of `locks.hh` and `script_state.hh`. Originals and Lua code
belong to the environment; here they are only entered and left.
-/

namespace Labrea

/-- The `lua_State`s a thread uses: `luaStateProto`, and the one under `lua_thread_key`. -/
inductive LState where
  | proto
  | own
  deriving DecidableEq, Repr

/-- The places that lock `luamutex`. -/
inductive Site where
  | getLuaState
  | luaStateHolder
  | timerLoop
  | destroyScriptingState
  | doReinit
  | antiLockHolder
  deriving DecidableEq, Repr

inductive HookKind where
  | before
  | around
  | after
  deriving DecidableEq, Repr

/-- Who calls an original: `wrapper` itself in place of an around hook, `wrapper` inside a
running hook window, or `labrea.invoke`.
-/
inductive Caller where
  | direct
  | reentrant
  | script
  deriving DecidableEq, Repr

/-- What a thread does, one event for each effect another thread or the application can
observe.
-/
inductive Event where
  /-- `wrapper` is entered; `func` is its resolved entry. -/
  | enter (func : FType)
  /-- `LuaInvocation` sets the flag of its thread, and resets it. -/
  | arm
  | disarm
  | lock (site : Site)
  | unlock
  /-- `lua_newthread(luaStateProto)`, whose result is stored under `lua_thread_key`. -/
  | newthread
  /-- Lua API calls on the top frame of a state. -/
  | settop (state : LState)
  | push (state : LState)
  /-- `lua_pcall` begins with `args` arguments, and ends without results or in an error. -/
  | pcall (state : LState) (args : Nat)
  | pcallReturn (state : LState)
  | pcallError (state : LState)
  /-- The called Lua function is a hook. -/
  | hook (kind : HookKind) (fname : CString) (args : List LuaValue)
  /-- Lua code runs. -/
  | lua (state : LState)
  /-- Lua code calls one of `labrea_funcs`, which returns. -/
  | ccall (state : LState)
  | creturn (state : LState)
  | usleep (howlong : BitVec 32)
  | sleep
  /-- An original is called and returns. -/
  | original (caller : Caller) (addr : Addr) (args : List Word)
  | originalReturn (caller : Caller)
  /-- A message to `std::cerr`. -/
  | report
  deriving DecidableEq

/-- Why a thread stops for good: `abort` (a failed assertion included), undefined behaviour,
or waiting for a mutex it owns.
-/
inductive Halt where
  | abort
  | undefined
  | deadlock
  deriving DecidableEq, Repr

/-- The thread-local state: the cell under `invocation_state_key` (`none` for a null
pointer), whether `lua_thread_key` is set, whether the thread owns `luamutex`, and `errno`.
-/
structure Thread where
  invocation : Option Bool
  luaThread : Bool
  ownsMutex : Bool
  errno : Int
  deriving DecidableEq, Repr

abbrev Run := Traced.Program Thread Event Halt

open Traced.Program (emit get modify halt each)

/-- A statement under an `if` without `else`. -/
def onlyIf (c : Prop) [Decidable c] (body : Run Unit) : Run Unit :=
  if c then body else pure ()

/-- `pthread_mutex_lock(&luamutex)`. The mutex is a default one: its owner waits forever. -/
def lockMutex (site : Site) : Run Unit := do
  emit (.lock site)
  let thread ← get
  if thread.ownsMutex then
    halt .deadlock
  else
    modify ({ · with ownsMutex := true })

theorem lockMutex_run {site : Site} {thread : Thread} (unowned : thread.ownsMutex = false)
    : lockMutex site thread
      = ⟨[.lock site], .ok ((), { thread with ownsMutex := true })⟩ := by
  rw [lockMutex, Traced.Program.emit_bind_run,
    Traced.Program.bind_of_ok (Traced.Program.get_run thread), if_neg (by simp [unowned])]
  rfl

/-- A thread that locks a mutex it owns waits for itself. -/
theorem lockMutex_owned {site : Site} {thread : Thread} (owned : thread.ownsMutex)
    : lockMutex site thread = ⟨[.lock site], .error .deadlock⟩ := by
  rw [lockMutex, Traced.Program.emit_bind_run,
    Traced.Program.bind_of_ok (Traced.Program.get_run thread), if_pos owned]
  rfl

/-- `pthread_mutex_unlock(&luamutex)` -/
def unlockMutex : Run Unit := do
  emit .unlock
  modify ({ · with ownsMutex := false })

/-- The scope of a `LockHolder`. -/
def lockHolder {α : Type} (site : Site) (body : Run α) : Run α := do
  lockMutex site
  let value ← body
  unlockMutex
  pure value

/-- The scope of an `AntiLockHolder`. -/
def antiLockHolder {α : Type} (body : Run α) : Run α := do
  unlockMutex
  let value ← body
  lockMutex .antiLockHolder
  pure value

/-- `LuaInvocation::LuaInvocation`, with its `ready`. A missing cell is allocated cleared. -/
def luaInvocation : Run Bool := do
  let thread ← get
  onlyIf (thread.invocation = none) do
    modify ({ · with invocation := some false })
  let thread ← get
  if thread.invocation = some false then
    emit .arm
    modify ({ · with invocation := some true })
    pure true
  else
    pure false

/-- A `LuaInvocation` is ready if the flag was unset or the cell missing, and sets it. -/
theorem luaInvocation_ready {thread : Thread} (unset : thread.invocation ≠ some true)
    : luaInvocation thread = ⟨[.arm], .ok (true, { thread with invocation := some true })⟩ := by
  obtain ⟨invocation, luaThread, ownsMutex, errno⟩ := thread
  match invocation with
  | none | some false => rfl
  | some true => exact absurd rfl unset

/-- A `LuaInvocation` under another one is not ready. -/
theorem luaInvocation_nested {thread : Thread} (set : thread.invocation = some true)
    : luaInvocation thread = ⟨[], .ok (false, thread)⟩ := by
  obtain ⟨invocation, luaThread, ownsMutex, errno⟩ := thread
  cases set
  rfl

/-- `LuaInvocation::~LuaInvocation` -/
def endInvocation (ready : Bool) : Run Unit :=
  onlyIf ready do
    emit .disarm
    modify ({ · with invocation := some false })

def getLuaState : Run Unit := do
  let thread ← get
  onlyIf (!thread.luaThread) do
    lockHolder .getLuaState do
      emit .newthread
      modify ({ · with luaThread := true })

/-- The scope of a `LuaStateHolder(getLuaState())`: the argument is evaluated first. -/
def luaStateHolder {α : Type} (body : Run α) : Run α := do
  getLuaState
  lockHolder .luaStateHolder body

/-- What a Lua function does with its arguments: it returns its first result (`nil` where
there is none) or raises an error object.
-/
abbrev LuaFunction := List LuaValue → Run (Except LuaValue LuaValue)

/-- Calling a global that is nil raises an error message, which is not numeric. -/
def callNil : Run (Except LuaValue LuaValue) :=
  pure (.error (.string none))

/-- `lua_pcall` of a function body, after its arguments have been pushed. -/
def pcall (state : LState) (args : Nat) (body : Run (Except LuaValue LuaValue))
    : Run (Except LuaValue LuaValue) := do
  emit (.pcall state args)
  let result ← body
  match result with
  | .ok value =>
      emit (.pcallReturn state)
      pure (.ok value)
  | .error raised =>
      emit (.pcallError state)
      pure (.error raised)

/-- `snprintf(s, size, "%s%s", first, second)` keeps `size - 1` characters. -/
def snprintf (size : Nat) (first second : CString) : CString :=
  (first ++ second).take (size - 1)

end Labrea
