import Labrea.GenInvoker
import Labrea.Runtime

/-! The entry points of `scripting.cc`: `labrea.usleep` and `labrea.invoke` as Lua code
calls them, the timer thread, and the exit handlers.
-/

namespace Labrea

open Traced.Program (emit get modify halt each)

/-- `do_usleep` on the arguments of its call; the request is cut to an `int`. -/
def doUsleep (state : LState) (stack : List LuaValue) : Run Unit := do
  emit (.ccall state)
  let howlong := ((stack.getLast?.map LuaValue.toInteger).getD 0).setWidth 32
  onlyIf (1 ≤ howlong.toInt) do
    antiLockHolder (emit (.usleep howlong))
  emit (.creturn state)

/-- The terminating entry of `functions[]`. -/
def nullEntry : FType where
  pos := 0
  offset := 0
  name := []
  orig := none
  numArgs := 0
  rvSize := 0
  argWidths := []
  hasBefore := false
  hasAround := false
  hasAfter := false

/-- Reads a member of a little-endian `union farg` last written through `i64`. -/
def FargMember.read : FargMember → BitVec 64 → Word
  | .i32, bits => .w32 (bits.setWidth 32)
  | .i64, bits => .w64 bits

/-- A result as the invoker's prototype declares it, cast to `lua_Integer`. -/
def UIntType.toInteger : UIntType → Word → BitVec 64
  | .uint32, .w32 bits => bits.setWidth 64
  | .uint32, .w64 bits => (bits.setWidth 32).setWidth 64
  | .uint64, .w32 bits => bits.setWidth 64
  | .uint64, .w64 bits => bits

/-- The arguments an invoker reads; an element that was not written has no value. -/
def callArgs (callargs : List (Nat × FargMember)) (args : List (BitVec 64))
    : Option (List Word) :=
  callargs.mapM fun (i, member) => args[i]?.map member.read

/-- The invoker at the code of an entry: a table entry of its arity names it. -/
def invokerOf (fun' : FType) : Option Invoker := do
  let fname ← ((invokerTable fun'.numArgs)[fun'.offset.toNat]?).join
  (invokers 5).find? (fun invoker => invoker.fname = fname)

/-- `abstractInvoke`: a switch on the arity, then a call through the table of invokers. -/
def abstractInvoke (code : Addr → List Word → Run Word) (fun' : FType)
    (args : List (BitVec 64)) : Run (BitVec 64) :=
  if 1 ≤ fun'.numArgs ∧ fun'.numArgs ≤ 5 then
    match invokerOf fun', fun'.orig with
    | some invoker, some orig =>
        match callArgs invoker.callargs args with
        | some words => do
            emit (.original .script orig words)
            let result ← code orig words
            emit (.originalReturn .script)
            pure (invoker.ret.toInteger result)
        | none => halt .undefined
    | _, _ => halt .undefined
  else
    halt .abort

/-- `do_invoke` on the arguments of its call: the position of an entry and what to pass. -/
def doInvoke (functions : List FType) (code : Addr → List Word → Run Word)
    (state : LState) (stack : List LuaValue) : Run LuaValue := do
  emit (.ccall state)
  let offset := ((stackInteger stack 0).setWidth 32).toInt
  if offset < 0 then
    halt .undefined
  else
    match (functions ++ [nullEntry])[offset.toNat]? with
    | none => halt .undefined
    | some fun' =>
        if fun'.pos ≠ offset then
          halt .abort
        else
          let args := (stack.drop 1).map LuaValue.toInteger
          if maxArgs < args.length then
            halt .undefined
          else do
            let rv ← antiLockHolder (abstractInvoke code fun' args)
            emit (.settop state)
            emit (.push state)
            emit (.creturn state)
            pure (.number (pushInteger rv))

section

variable {functions : List FType} {code : Addr → List Word → Run Word} {state : LState}
  {stack : List LuaValue}

/-- `do_invoke` on the position of an entry. -/
theorem doInvoke_found {n : Nat} {func : FType}
    (position : ((stackInteger stack 0).setWidth 32).toInt = n)
    (entry : (functions ++ [nullEntry])[n]? = some func) (placed : func.pos = n)
    : doInvoke functions code state stack
      = (do
          emit (.ccall state)
          let args := (stack.drop 1).map LuaValue.toInteger
          if maxArgs < args.length then
            halt .undefined
          else do
            let rv ← antiLockHolder (abstractInvoke code func args)
            emit (.settop state)
            emit (.push state)
            emit (.creturn state)
            pure (.number (pushInteger rv))) := by
  have nonneg : ¬ (n : Int) < 0 := by omega
  simp only [doInvoke, position, nonneg, Int.toNat_natCast, entry, placed, if_false, ne_eq,
    not_true_eq_false]

/-- `do_invoke` on anything else ends the process. -/
theorem doInvoke_unfound
    (missing
      : ∀ (n : Nat) (func : FType), ((stackInteger stack 0).setWidth 32).toInt = n
        → (functions ++ [nullEntry])[n]? = some func → func.pos ≠ n)
    : ∃ reason, reason ≠ .deadlock
        ∧ doInvoke functions code state stack
          = (do
              emit (.ccall state)
              halt reason) := by
  by_cases negative : ((stackInteger stack 0).setWidth 32).toInt < 0
  · exact ⟨.undefined, by simp, by simp only [doInvoke, if_pos negative]⟩
  · obtain ⟨n, position⟩ := Int.eq_ofNat_of_zero_le (not_lt.mp negative)
    have nonneg : ¬ (n : Int) < 0 := by omega
    cases entry : (functions ++ [nullEntry])[n]? with
    | none =>
        refine ⟨.undefined, by simp, ?_⟩
        simp only [doInvoke, position, nonneg, Int.toNat_natCast, entry, if_false]
    | some func =>
        have misplaced : (func.pos : Int) ≠ n := by
          exact_mod_cast missing n func position entry
        refine ⟨.abort, by simp, ?_⟩
        simp only [doInvoke, position, nonneg, Int.toNat_natCast, entry, if_false, ne_eq,
          if_pos misplaced]

end

-----------------------------------------------------------------------------------------
-- The timer thread and the exit handlers
-----------------------------------------------------------------------------------------

/-- `lua_getglobal`, the given number of pushes and a `lua_pcall` on `luaStateProto`, whose
error is reported.
-/
def callProto (args : Nat) (body : Run (Except LuaValue LuaValue)) (report : Run Unit)
    : Run Unit := do
  emit (.push .proto)
  each (fun _ => emit (.push .proto)) (List.range args)
  match ← pcall .proto args body with
  | .ok _ => pure ()
  | .error _ => report

/-- One round of `timerLoop`; `labrea_periodic` is called with the tick. No `LuaInvocation`
is set up on this thread.
-/
def timerRound (periodic : Run (Except LuaValue LuaValue)) (report : Run Unit)
    : Run Unit := do
  emit .sleep
  lockHolder .timerLoop (callProto 1 periodic report)

/-- `destroyScriptingState` -/
def destroyScriptingState (exiting : Run (Except LuaValue LuaValue)) (report : Run Unit)
    : Run Unit :=
  lockHolder .destroyScriptingState (callProto 0 exiting report)

/-- `LabreaInit::~LabreaInit` -/
def labreaExit (exiting : Run (Except LuaValue LuaValue)) (report : Run Unit)
    : Run Unit := do
  let ready ← luaInvocation
  destroyScriptingState exiting report
  endInvocation ready

end Labrea
