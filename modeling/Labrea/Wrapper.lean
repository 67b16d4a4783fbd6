import Labrea.Runtime

/-! The code `mkwrapfuns.py` and `mkcallfuns.py` generate for every arity: `invoke`, the
three hook calls and `wrapper`, over the environment a call meets.
-/

namespace Labrea

open Traced.Program (emit get modify halt each)

/-- What a hooked call meets outside labrea: the globals of the Lua universe, by hook kind
and looked-up name (`none` for nil); the code at an address; the symbols of later
libraries; what writing a message to `std::cerr` does; and the number `luaO_str2d` reads
from a number's text.
-/
structure Env where
  global : HookKind → CString → Option LuaFunction
  code : Addr → List Word → Run Word
  dlsym : CString → Option Addr
  report : HookKind → Run Unit
  reread : LuaNumber → LuaNumber

/-- `lua_tostring` on a stack slot turns a number into its text in place. -/
def LuaValue.tostring (reread : LuaNumber → LuaNumber) : LuaValue → LuaValue
  | .number value => .string (some (reread value))
  | value => value

/-- One `add_arg` per argument. -/
def pushCall (args : List LuaValue) : Run Unit :=
  each (fun _ => emit (.push .own)) args

theorem pushCall_run (args : List LuaValue) (thread : Thread)
    : pushCall args thread = ⟨args.map fun _ => .push .own, .ok ((), thread)⟩ :=
  Traced.Program.each_emit_run _ args thread

/-- The body of a hook call: the hook is entered with its arguments and runs. -/
def runHook (kind : HookKind) (fname : CString) (f : LuaFunction) (args : List LuaValue)
    : Run (Except LuaValue LuaValue) := do
  emit (.hook kind fname args)
  f args

/-- `before_call` and `after_call` under their `LuaStateHolder`: the hook's results are
dropped, and its error is reported.
-/
def observerBody (env : Env) (kind : HookKind) (fname : CString) (args : List LuaValue)
    : Run Unit := do
  emit (.settop .own)
  emit (.push .own)
  match env.global kind fname with
  | none => pure ()
  | some f =>
      pushCall args
      match ← pcall .own args.length (runHook kind fname f args) with
      | .ok _ => pure ()
      | .error _ => env.report kind

/-- The shared shape of `before_call` and `after_call`. -/
def observerCall (env : Env) (kind : HookKind) (fname : CString) (args : List LuaValue)
    : Run Unit :=
  luaStateHolder (observerBody env kind fname args)

def beforeCall (env : Env) (call : CString) (args : List CValue) : Run Unit :=
  observerCall env .before (snprintf 31 "before_".toList call)
    (args.map fun a => .number (addArg a))

def afterCall (env : Env) (call : CString) (rv : CValue) (args : List CValue) : Run Unit :=
  observerCall env .after (snprintf 31 "after_".toList call)
    ((rv :: args).map fun a => .number (addArg a))

/-- The slot `around_call` reads its result from: the hook's result, or the error object as
the report left it.
-/
def aroundSlot (env : Env) : Except LuaValue LuaValue → Run LuaValue
  | .ok value => pure value
  | .error raised => do
      env.report .around
      pure (raised.tostring env.reread)

/-- `around_call` under its `LuaStateHolder`. There is no test for nil; a result that is not
a number fails an assertion.
-/
def aroundBody (env : Env) (f : FType) (rv : CType) (args : List CValue) : Run CValue := do
  let fname := snprintf 31 "around_".toList f.name
  emit (.settop .own)
  emit (.push .own)
  let values := (.int (BitVec.ofNat 32 f.pos) :: args).map fun a => .number (addArg a)
  pushCall values
  let result ← pcall .own values.length
    (match env.global .around fname with
    | none => callNil
    | some hook => runHook .around fname hook values)
  let slot ← aroundSlot env result
  if slot.isNumber then
    pure (rv.ofBits slot.toInteger)
  else
    halt .abort

def aroundCall (env : Env) (f : FType) (rv : CType) (args : List CValue) : Run CValue :=
  luaStateHolder (aroundBody env f rv args)

-----------------------------------------------------------------------------------------
-- mkwrapfuns.py
-----------------------------------------------------------------------------------------

/-- `invoke`. Before start-up has filled `orig`, the original is looked up. -/
def invoke (env : Env) (caller : Caller) (ft : FType) (rv : CType) (args : List CValue)
    : Run CValue :=
  if ft.numArgs = args.length then
    match ft.orig.or (env.dlsym ft.name) with
    | none => halt .abort
    | some forig => do
        emit (.original caller forig (args.map CValue.word))
        let result ← env.code forig (args.map CValue.word)
        emit (.originalReturn caller)
        pure (rv.ofWord result)
  else
    halt .abort

/-- A resolved entry of the call's arity has its original called. -/
theorem invoke_eq {env : Env} {caller : Caller} {ft : FType} {rv : CType}
    {args : List CValue} {addr : Addr} (arity : ft.numArgs = args.length)
    (resolved : ft.orig = some addr)
    : invoke env caller ft rv args
      = (do
          emit (.original caller addr (args.map CValue.word))
          let result ← env.code addr (args.map CValue.word)
          emit (.originalReturn caller)
          pure (rv.ofWord result)) := by
  rw [invoke, if_pos arity, resolved, Option.some_or]

/-- What gives `wrapper` its result: the around hook or the original. -/
def resultOf (env : Env) (func : FType) (rv : CType) (args : List CValue) : Run CValue :=
  if func.hasAround then aroundCall env func rv args else invoke env .direct func rv args

/-- The hooked branch of `wrapper`: before hook, around hook or original, after hook. -/
def hookedCall (env : Env) (func : FType) (name : CString) (rv : CType)
    (args : List CValue) : Run CValue := do
  onlyIf func.hasBefore (beforeCall env name args)
  let result ← resultOf env func rv args
  onlyIf func.hasAfter (afterCall env name result args)
  pure result

/-- `wrapper` once its static `func` is resolved. -/
def wrapper (env : Env) (func : FType) (name : CString) (rv : CType) (args : List CValue)
    : Run CValue := do
  emit (.enter func)
  let ready ← luaInvocation
  if ready then
    let result ← hookedCall env func name rv args
    endInvocation ready
    pure result
  else
    invoke env .reentrant func rv args

/-- What `wrapper` does while its own `LuaInvocation` is the ready one. -/
def window (env : Env) (func : FType) (name : CString) (rv : CType) (args : List CValue)
    : Run CValue := do
  let result ← hookedCall env func name rv args
  endInvocation true
  pure result

/-- On a thread whose flag is unset `wrapper` opens its window. -/
theorem wrapper_ready {env : Env} {func : FType} {name : CString} {rv : CType}
    {args : List CValue} {thread : Thread} (unset : thread.invocation ≠ some true)
    : wrapper env func name rv args thread
      = ⟨.enter func :: .arm
            :: (window env func name rv args { thread with invocation := some true }).trace,
          (window env func name rv args { thread with invocation := some true }).result⟩ := by
  rw [wrapper, Traced.Program.emit_bind_run,
    Traced.Program.bind_of_ok (luaInvocation_ready unset), if_pos rfl]
  rfl

/-- On a thread whose flag is set `wrapper` calls the original. -/
theorem wrapper_nested {env : Env} {func : FType} {name : CString} {rv : CType}
    {args : List CValue} {thread : Thread} (set : thread.invocation = some true)
    : wrapper env func name rv args thread
      = ⟨.enter func :: (invoke env .reentrant func rv args thread).trace,
          (invoke env .reentrant func rv args thread).result⟩ := by
  rw [wrapper, Traced.Program.emit_bind_run,
    Traced.Program.bind_of_ok (luaInvocation_nested set), if_neg (by simp)]
  rfl

end Labrea
