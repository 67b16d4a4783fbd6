import Labrea.Reinit
import Labrea.Scripting

/-! Start-up of the Lua universe: `initScriptingState` runs `init.lua`, records the functions
and loads the user script.
-/

namespace Labrea

open Traced.Program (emit halt each)

/-- `lua_getglobal`, the given number of pushes and a `lua_pcall` on `luaStateProto`, whose
error is reported before the process ends.
-/
def callOrEnd (args : Nat) (body : Run (Except LuaValue LuaValue)) (report : Run Unit)
    : Run Unit := do
  emit (.push .proto)
  each (fun _ => emit (.push .proto)) (List.range args)
  match ← pcall .proto args body with
  | .ok _ => pure ()
  | .error _ => do
      report
      halt .abort

/-- Lua code of `init.lua` that calls nothing of labrea. -/
def plainLua : Run (Except LuaValue LuaValue) := do
  emit (.lua .proto)
  pure (.ok .nil)

/-- `recordFunctions`; without `init.lua` the function it calls is nil. -/
def recordFunctions (hasInit : Bool) (report : Run Unit) (functions : List FType)
    : Run Unit := do
  emit (.settop .proto)
  each (fun _ => callOrEnd 1 (if hasInit then plainLua else callNil) report) functions

/-- `labrea_load_user_script`: the script's top level, then `labrea.reinit()`. -/
def loadUserScript (globals : CString → Bool) (functions : List FType)
    (script : Run (Except LuaValue LuaValue))
    : Run (Except LuaValue LuaValue) := do
  match ← script with
  | .ok _ => do
      let _ ← doReinit globals .proto functions
      pure (.ok .nil)
  | .error raised => pure (.error raised)

/-- `initScriptingState`. `luaL_register` leaves the library on the stack, and `luaL_dofile`
pushes the chunk it calls.
-/
def initScriptingState (hasInit : Bool) (report : Run Unit) (globals : CString → Bool)
    (functions : List FType) (script : Run (Except LuaValue LuaValue))
    : Run Unit := do
  emit (.push .proto)
  onlyIf hasInit do
    emit (.push .proto)
    match ← pcall .proto 0 plainLua with
    | .ok _ => pure ()
    | .error _ => do
        report
        halt .abort
  recordFunctions hasInit report functions
  callOrEnd 0 (if hasInit then loadUserScript globals functions script else callNil) report

/-- `LabreaInit::LabreaInit`, after the keys and the table. -/
def labreaStart (hasInit : Bool) (report : Run Unit) (globals : CString → Bool)
    (functions : List FType) (script : Run (Except LuaValue LuaValue))
    : Run Unit := do
  let ready ← luaInvocation
  initScriptingState hasInit report globals functions script
  endInvocation ready

end Labrea
