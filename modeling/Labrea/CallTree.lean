import Labrea.Scripting
import Labrea.Wrapper

/-! Everything that happens during a hooked call, as a finite tree: what the hooks and the
original do, the hooked calls they make in turn, and how each ends. Running a tree is
running the code of labrea in the environment the tree describes.
-/

namespace Labrea

open Traced.Program (emit get modify halt each)

mutual
/-- A hooked call of the function `name`, resolved to the entry `func`: the globals its
hook calls find, its original, and the text readings of its error objects.
-/
inductive Call where
  | mk (func : FType) (name : CString) (rv : CType) (args : List CValue)
    (before around after : Global) (original : Original) (reread : LuaNumber → LuaNumber)

/-- The global of a hook name: nil, with the hooked calls an error message about calling
it makes, or a function or other value with what calling it does.
-/
inductive Global where
  | nil (report : List Call)
  | value (body : Body)

/-- A run of Lua code: it returns a value, or raises an error whose message to `std::cerr`
makes hooked calls.
-/
inductive Body where
  | returns (steps : List LuaStep) (value : LuaValue)
  | raises (steps : List LuaStep) (error : LuaValue) (report : List Call)

/-- One step of Lua code: library code, which may set `errno` and may make a hooked call,
or one of the two script functions that release the mutex.
-/
inductive LuaStep where
  | library (errno : Option Int)
  | hooked (call : Call)
  | usleep (stack : List LuaValue)
  | invoke (stack : List LuaValue) (original : Original)

/-- A run of an original: the hooked calls it makes, the `errno` it sets, its result. -/
inductive Original where
  | mk (calls : List Call) (errno : Option Int) (ret : Word)
end

/-- Sets `errno`, if there is something to set. -/
def setErrno : Option Int → Run Unit
  | none => pure ()
  | some e => modify ({ · with errno := e })

/-- A message to `std::cerr`, given the hooked calls it makes. -/
def reportWith (calls : Run Unit) : Run Unit := do
  emit .report
  calls

/-- A run of an original, given the hooked calls it makes. -/
def originalWith (calls : Run Unit) (errno : Option Int) (ret : Word) : Run Word := do
  calls
  setErrno errno
  pure ret

/-- A run of Lua code, given its steps. -/
def luaWith (state : LState) (steps : Run Unit) (result : Except LuaValue LuaValue)
    : Run (Except LuaValue LuaValue) := do
  emit (.lua state)
  steps
  pure result

/-- The environment of a call, given its globals, their reports and its original. -/
def callEnv (before around after : Option LuaFunction) (reports : HookKind → Run Unit)
    (original : Run Word) (reread : LuaNumber → LuaNumber) : Env where
  global
    | .before, _ => before
    | .around, _ => around
    | .after, _ => after
  code := fun _ _ => original
  dlsym := fun _ => none
  report := reports
  reread := reread

variable (functions : List FType)

mutual
def Call.run : Call → Run CValue
  | .mk func name rv args before around after original reread =>
      wrapper
        (callEnv before.function around.function after.function
          (fun
            | .before => before.report
            | .around => around.report
            | .after => after.report)
          original.run reread)
        func name rv args

/-- The function `lua_pcall` finds in a hook's global. -/
def Global.function : Global → Option LuaFunction
  | .nil _ => none
  | .value body => some (fun _ => body.run .own)

/-- The message about the error that calling a hook's global raised. -/
def Global.report : Global → Run Unit
  | .nil report => reportWith (runCalls report)
  | .value body => body.report

def Body.run (state : LState) : Body → Run (Except LuaValue LuaValue)
  | .returns steps value => luaWith state (runSteps state steps) (.ok value)
  | .raises steps error _ => luaWith state (runSteps state steps) (.error error)

def Body.report : Body → Run Unit
  | .returns _ _ => pure ()
  | .raises _ _ report => reportWith (runCalls report)

def LuaStep.run (state : LState) : LuaStep → Run Unit
  | .library errno => do
      emit (.lua state)
      setErrno errno
  | .hooked call => do
      let _ ← call.run
      pure ()
  | .usleep stack => doUsleep state stack
  | .invoke stack original => do
      let _ ← doInvoke functions (fun _ _ => original.run) state stack
      pure ()

def Original.run : Original → Run Word
  | .mk calls errno ret => originalWith (runCalls calls) errno ret

def runSteps (state : LState) : List LuaStep → Run Unit
  | [] => pure ()
  | step :: rest => do
      step.run state
      runSteps state rest

def runCalls : List Call → Run Unit
  | [] => pure ()
  | call :: rest => do
      let _ ← call.run
      runCalls rest
end

namespace Call

/-- The entry a call is resolved to. -/
def entry : Call → FType
  | .mk func _ _ _ _ _ _ _ _ => func

def name : Call → CString
  | .mk _ name _ _ _ _ _ _ _ => name

def rv : Call → CType
  | .mk _ _ rv _ _ _ _ _ _ => rv

def args : Call → List CValue
  | .mk _ _ _ args _ _ _ _ _ => args

def before : Call → Global
  | .mk _ _ _ _ before _ _ _ _ => before

def after : Call → Global
  | .mk _ _ _ _ _ _ after _ _ => after

/-- What a call meets outside labrea. -/
def env : Call → Env
  | .mk _ _ _ _ before around after original reread =>
      callEnv (before.function functions) (around.function functions)
        (after.function functions)
        (fun
          | .before => before.report functions
          | .around => around.report functions
          | .after => after.report functions)
        (original.run functions) reread

theorem run_eq (call : Call)
    : call.run functions
      = wrapper (call.env functions) call.entry call.name call.rv call.args := by
  cases call
  rw [Call.run]
  rfl

end Call

/-- The entry of `write` after start-up, with the given hooks. -/
def writeEntry (flags : HookFlags) : FType where
  pos := 8
  offset := 7
  name := "write".toList
  orig := some 4096
  numArgs := 3
  rvSize := 8
  argWidths := [4, 8, 8]
  hasBefore := flags.before
  hasAround := flags.around
  hasAfter := flags.after

/-- A call of `write` that writes 5 bytes. -/
def writeCall (flags : HookFlags) (before : Global) : Call :=
  .mk (writeEntry flags) "write".toList ssizeT
    [.int 2, .pointer "const void" 8192, .unsignedLong 5] before (.nil []) (.nil [])
    (.mk [] none (.w64 5)) id

end Labrea
