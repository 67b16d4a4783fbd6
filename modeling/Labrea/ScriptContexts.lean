import Labrea.CallFrame
import Labrea.LockNeutral

/-! The contexts that run a script's Lua code, and the sequences of calls of labrea's functions
made there.
-/

namespace Labrea

open Traced.Program (Enters Begins begins_emit enters_body emit emit_run each bind_of_ok
  bind_of_error)

/-- What runs the Lua code of a script: the load of the script, a hook, the timer for the
functions that are due, or the exit of the process.
-/
inductive Context where
  | load (report : Run Unit) (globals : CString → Bool)
  | hook (kind : HookKind) (env : Env) (func : FType) (rv : CType) (result : CValue)
    (args : List CValue)
  | callback (report : Run Unit)
  | exitHandler (report : Run Unit)

/-- The code of the context, around the Lua code it runs. -/
def Context.run (functions : List FType) : Context → Run (Except LuaValue LuaValue) → Run Unit
  | .load report globals, body => labreaStart true report globals functions body
  | .hook kind env func rv result args, body =>
      let env := { env with global := fun _ _ => some fun _ => body }
      match kind with
      | .before => beforeCall env func.name args
      | .around => do
          let _ ← aroundCall env func rv args
          pure ()
      | .after => afterCall env func.name result args
  | .callback report, body => timerRound body report
  | .exitHandler report, body => labreaExit body report

/-- The state whose stack the context uses. -/
def Context.state : Context → LState
  | .hook .. => .own
  | _ => .proto

/-- Whether the context holds the mutex around the Lua code. -/
def Context.holdsMutex : Context → Bool
  | .load .. => false
  | _ => true

/-- The thread as the context's Lua code finds it. -/
def Context.entry (context : Context) (thread : Thread) : Thread :=
  match context with
  | .load .. => { thread with invocation := some true }
  | .hook .. => { thread with luaThread := true, ownsMutex := true }
  | .callback _ => { thread with ownsMutex := true }
  | .exitHandler _ => { thread with invocation := some true, ownsMutex := true }

/-- Lua code makes the calls of the sequence in turn, each after the last has returned, and
does not touch the mutex itself in between: `call` is made with this
table, on this thread.
-/
inductive Made (state : LState)
    : List FType → Thread → List ScriptCall → List FType → Thread → ScriptCall → Prop where
  | first {table : List FType} {start : Thread} {call : ScriptCall} {rest : List ScriptCall}
    : Made state table start (call :: rest) table start call
  | later {table table' last : List FType} {start next resumed found : Thread}
    {call made : ScriptCall} {rest : List ScriptCall} {trace : List Event}
    (returned : call.run table state start = ⟨trace, .ok (table', next)⟩)
    (untouched : resumed.ownsMutex = next.ownsMutex)
    (makes : Made state table' resumed rest last found made)
    : Made state table start (call :: rest) last found made

/-- A call of Lua code enters it with `lua_pcall`. -/
theorem enters_pcall {state : LState} {args : Nat} {thread : Thread}
    : Enters (fun body => pcall state args body) thread thread :=
  Enters.after (emit_run _ _) (Enters.bind enters_body)

/-- The scope of a `LockHolder` is entered with the mutex. -/
theorem enters_lockHolder {α : Type} {site : Site}
    {program : Run (Except LuaValue LuaValue) → Run α} {thread inner : Thread}
    (unowned : thread.ownsMutex = false)
    (enters : Enters program { thread with ownsMutex := true } inner)
    : Enters (fun body => lockHolder site (program body)) thread inner :=
  Enters.after (lockMutex_run unowned) (Enters.bind enters)

theorem enters_luaStateHolder {α : Type} {program : Run (Except LuaValue LuaValue) → Run α}
    {thread inner : Thread} (unowned : thread.ownsMutex = false)
    (enters : Enters program { thread with luaThread := true, ownsMutex := true } inner)
    : Enters (fun body => luaStateHolder (program body)) thread inner :=
  Enters.after (getLuaState_run unowned) (enters_lockHolder rfl enters)

theorem enters_observerBody {env : Env} {kind : HookKind} {fname : CString}
    {args : List LuaValue} {thread : Thread}
    : Enters
        (fun body => observerBody { env with global := fun _ _ => some fun _ => body } kind
          fname args)
        thread thread := by
  refine Enters.after (emit_run _ _) (Enters.after (emit_run _ _) ?_)
  refine Enters.after (pushCall_run args thread) (Enters.bind ?_)
  exact Enters.after (emit_run _ _) (Enters.bind (Enters.after (emit_run _ _) enters_body))

theorem enters_aroundBody {env : Env} {func : FType} {rv : CType} {args : List CValue}
    {thread : Thread}
    : Enters
        (fun body => aroundBody { env with global := fun _ _ => some fun _ => body } func rv
          args)
        thread thread := by
  refine Enters.after (emit_run _ _) (Enters.after (emit_run _ _) ?_)
  refine Enters.after (pushCall_run _ thread) (Enters.bind ?_)
  exact Enters.after (emit_run _ _) (Enters.bind (Enters.after (emit_run _ _) enters_body))

theorem enters_callProto {args : Nat} {report : Run Unit} {thread : Thread}
    : Enters (fun body => callProto args body report) thread thread := by
  refine Enters.after (emit_run _ _) ?_
  exact Enters.after (Traced.Program.each_emit_run _ _ thread) (Enters.bind enters_pcall)

/-- `plainLua` is called and returns. -/
theorem callOrEnd_plainLua_run (args : Nat) (report : Run Unit) (thread : Thread)
    : ∃ trace, callOrEnd args plainLua report thread = ⟨trace, .ok ((), thread)⟩ := by
  have pushes :
      (each (fun _ => emit (.push .proto)) (List.range args) : Run Unit) thread = _ :=
    Traced.Program.each_emit_run _ _ thread
  exact ⟨_, by
    rw [callOrEnd, Traced.Program.emit_bind_run, bind_of_ok pushes]
    rfl⟩

/-- The functions are recorded, by induction on the table. -/
theorem recordFunctions_run (report : Run Unit) (functions : List FType) (thread : Thread)
    : ∃ trace, recordFunctions true report functions thread = ⟨trace, .ok ((), thread)⟩ := by
  have loop : ∃ trace,
      each (fun _ => callOrEnd 1 plainLua report) functions thread
        = ⟨trace, .ok ((), thread)⟩ := by
    induction functions with
    | nil => exact ⟨[], rfl⟩
    | cons func rest ih =>
        obtain ⟨early, called⟩ := callOrEnd_plainLua_run 1 report thread
        obtain ⟨later, run⟩ := ih
        exact ⟨early ++ later, by
          rw [Traced.Program.each_cons, bind_of_ok called, run]⟩
  obtain ⟨trace, run⟩ := loop
  have record
      : recordFunctions true report functions
        = (emit (.settop .proto) >>= fun _ =>
            each (fun _ => callOrEnd 1 plainLua report) functions) :=
    rfl
  exact ⟨.settop .proto :: trace, by rw [record, Traced.Program.emit_bind_run, run]⟩

/-- The load of the script enters its top level without the mutex. -/
theorem enters_initScriptingState {report : Run Unit} {globals : CString → Bool}
    {functions : List FType} {thread : Thread}
    : Enters (fun body => initScriptingState true report globals functions body) thread
        thread := by
  obtain ⟨trace, recorded⟩ := recordFunctions_run report functions thread
  obtain ⟨first, dofile⟩ := callOrEnd_plainLua_run 0 report thread
  refine Enters.after (emit_run _ _) (Enters.after dofile ?_)
  refine Enters.after recorded (Enters.after (emit_run _ _) ?_)
  refine Enters.after (Traced.Program.each_emit_run _ _ thread) (Enters.bind ?_)
  exact Enters.after (emit_run _ _) (Enters.bind (Enters.bind enters_body))

/-- A `LuaInvocation` leaves the flag set, whether it is the one to set it or not. -/
theorem luaInvocation_run (thread : Thread)
    : ∃ trace ready,
        luaInvocation thread
          = ⟨trace, .ok (ready, { thread with invocation := some true })⟩ := by
  by_cases set : thread.invocation = some true
  · refine ⟨[], false, (luaInvocation_nested set).trans ?_⟩
    rw [← set]
  · exact ⟨[.arm], true, luaInvocation_ready set⟩

/-- Every context enters its Lua code as `Context.entry` says. -/
theorem Context.enters (context : Context) (functions : List FType) {thread : Thread}
    (unowned : thread.ownsMutex = false)
    : Enters (context.run functions) thread (context.entry thread) := by
  obtain ⟨trace, ready, invoked⟩ := luaInvocation_run thread
  cases context with
  | load report globals =>
      exact Enters.after invoked (Enters.bind enters_initScriptingState)
  | hook kind env func rv result args =>
      cases kind with
      | before => exact enters_luaStateHolder unowned enters_observerBody
      | around => exact Enters.bind (enters_luaStateHolder unowned enters_aroundBody)
      | after => exact enters_luaStateHolder unowned enters_observerBody
  | callback report =>
      exact Enters.after (emit_run _ _) (enters_lockHolder unowned enters_callProto)
  | exitHandler report =>
      have free : { thread with invocation := some true }.ownsMutex = false := unowned
      exact Enters.after invoked (Enters.bind (enters_lockHolder free enters_callProto))

/-- A neutral call that returns leaves the mutex as it found it. -/
theorem ScriptCall.Neutral.returned {call : ScriptCall} {table table' : List FType}
    {state : LState} {thread next : Thread} {trace : List Event}
    (neutral : call.Neutral table state thread)
    (returned : call.run table state thread = ⟨trace, .ok (table', next)⟩)
    : next.ownsMutex = thread.ownsMutex := by
  obtain ⟨_, ended⟩ := neutral
  rw [returned] at ended
  exact ended.1

/-- While all calls are neutral each of them is made as the first one is, by induction on the
sequence.
-/
theorem Made.ownsMutex {state : LState} {table last : List FType} {start found : Thread}
    {calls : List ScriptCall} {made : ScriptCall}
    (makes : Made state table start calls last found made)
    (neutral : ∀ last found made,
      Made state table start calls last found made → made.Neutral last state found)
    : found.ownsMutex = start.ownsMutex := by
  induction makes with
  | first => rfl
  | later returned untouched _ ih =>
      have kept := (neutral _ _ _ .first).returned returned
      have later := ih fun _ _ _ makes => neutral _ _ _ (.later returned untouched makes)
      exact later.trans (untouched.trans kept)

/-- So are they while all calls suit the mutex as the first one finds it. -/
theorem Made.ownsMutex_of_suits {state : LState} {table last : List FType}
    {start found : Thread} {calls : List ScriptCall} {made : ScriptCall}
    (makes : Made state table start calls last found made)
    (suits : ∀ last found made,
      Made state table start calls last found made → made.Suits last start.ownsMutex)
    : found.ownsMutex = start.ownsMutex := by
  induction makes with
  | first => rfl
  | later returned untouched _ ih =>
      have kept := (neutral_iff_suits.mpr (suits _ _ _ .first)).returned returned
      have same := untouched.trans kept
      have later := ih fun _ _ _ makes => by
        rw [same]
        exact suits _ _ _ (.later returned untouched makes)
      exact later.trans same

end Labrea
