import Labrea.HookFaults

/-! Around hooks seen from the application: a call that its around hook answers returns what the
hook gives, and the `errno` that its hooks set last.
-/

namespace Labrea

open Traced.Program (Encloses bind_of_ok)

/-- The slot that `around_call` reads its result from. -/
def Body.slot (reread : LuaNumber → LuaNumber) (body : Body) : LuaValue :=
  match body.outcome with
  | .ok value => value
  | .error raised => raised.tostring reread

variable (functions : List FType)

/-- The error of an around hook is reported before its slot is read. -/
theorem completes_aroundSlot {env : Env} {body : Body}
    (reported : env.report .around = body.report functions) (ends : body.Ends functions)
    : Completes (some true) body.reportErrno (aroundSlot env body.outcome)
        (body.slot env.reread) := by
  have report := Body.completes_report functions ends
  rw [← reported] at report
  cases body with
  | returns steps value => exact completes_pure
  | raises steps error calls => exact completes_before report completes_pure

/-- An around hook that ends and gives a number, under the lock. -/
theorem completes_aroundBody {env : Env} (func : FType) (rv : CType) (args : List CValue)
    {body : Body}
    (found : ∀ fname, env.global .around fname = some fun _ => body.run functions .own)
    (reported : env.report .around = body.report functions) (ends : body.Ends functions)
    (number : body.givesNumber env.reread)
    : Completes (some true) (Global.value body).lastErrno (aroundBody env func rv args)
        (rv.ofBits (body.slot env.reread).toInteger) := by
  have isNumber : (body.slot env.reread).isNumber := by
    cases body <;> exact number
  simp only [aroundBody, found]
  refine completes_after (completes_emit rfl) (completes_after (completes_emit rfl) ?_)
  refine completes_after (completes_pushCall _) ?_
  refine completes_bind
    (completes_pcall (completes_after (completes_emit rfl) (Body.completes functions ends))) ?_
  refine completes_before (completes_aroundSlot functions reported ends) ?_
  rw [if_pos isNumber]
  exact completes_pure

theorem aroundCall_run {env : Env} (func : FType) (rv : CType) (args : List CValue)
    {body : Body}
    (found : ∀ fname, env.global .around fname = some fun _ => body.run functions .own)
    (reported : env.report .around = body.report functions) (ends : body.Ends functions)
    (number : body.givesNumber env.reread) {thread : Thread}
    (set : thread.invocation = some true) (unowned : thread.ownsMutex = false)
    : ∃ events,
        aroundCall env func rv args thread
          = ⟨events, .ok (rv.ofBits (body.slot env.reread).toInteger, { thread with
              luaThread := true
              errno := (Global.value body).lastErrno.getD thread.errno })⟩
        ∧ events.filter Event.isDirect = [] := by
  obtain ⟨invocation, luaThread, ownsMutex, old⟩ := thread
  cases unowned
  obtain ⟨trace, quiet, run⟩ :=
    completes_aroundBody functions func rv args found reported ends number
  have body := run ⟨invocation, true, true, old⟩ set fun _ given => Option.mem_some.mp given
  have whole := (@encloses_luaStateHolder _ _ _ ⟨invocation, luaThread, false, old⟩ _ _ _ _ _
    rfl Encloses.self).returned trace _ _ body
  refine ⟨_, whole, ?_⟩
  have state : (stateEvents luaThread).filter Event.isDirect = [] := by
    cases luaThread <;> rfl
  simp only [List.filter_append, quiet, state]
  rfl

omit functions in
/-- The three phases of a hooked call that all return. -/
theorem hookedCall_run {env : Env} {func : FType} {name : CString} {rv : CType}
    {args : List CValue} {result : CValue} {early middle late : List Event}
    {thread entry left last : Thread}
    (before
      : onlyIf func.hasBefore (beforeCall env name args) thread = ⟨early, .ok ((), entry)⟩)
    (main : resultOf env func rv args entry = ⟨middle, .ok (result, left)⟩)
    (after
      : onlyIf func.hasAfter (afterCall env name result args) left = ⟨late, .ok ((), last)⟩)
    : hookedCall env func name rv args thread
      = ⟨early ++ (middle ++ late), .ok (result, last)⟩ := by
  rw [hookedCall, bind_of_ok before, bind_of_ok main, bind_of_ok after]
  simp [Traced.Program.pure_run]

/-- An around hook that ends and gives a number answers for the call: the application gets the
number as a value of the return type, no original is run in the hook's place, and `errno` is what
the hooks set last, or what it was. Witness: the three hooks run one after the other, each on the
`errno` that the one before it left.
-/
theorem Call.around_answers {call : Call} {body : Body} {thread : Thread}
    (around : call.entry.hasAround) (found : call.global .around = .value body)
    (number : body.givesNumber call.reread) (ends : ∀ kind, (call.global kind).Ends functions)
    (unset : thread.invocation ≠ some true) (unowned : thread.ownsMutex = false)
    : ∃ trace,
        call.run functions thread
          = ⟨trace, .ok (call.rv.ofBits (body.slot call.reread).toInteger, { thread with
              invocation := some false
              luaThread := true
              errno := call.afterErrno.getD
                ((call.global .around).lastErrno.getD (call.beforeErrno.getD thread.errno)) })⟩
        ∧ trace.filter Event.isDirect = [] := by
  obtain ⟨func, name, rv, args, before, global, after, original, reread⟩ := call
  obtain rfl : global = .value body := found
  let call : Call := .mk func name rv args before (.value body) after original reread
  obtain ⟨early, beforeRun, earlyQuiet⟩ :=
    @onlyIf_observerCall_run functions (call.env functions) .before
      (snprintf 31 "before_".toList name) before func.hasBefore
      (args.map fun a => .number (addArg a)) rfl rfl (ends .before)
      { thread with invocation := some true } rfl unowned
  obtain ⟨middle, aroundRun, middleQuiet⟩ :=
    @aroundCall_run functions (call.env functions) func rv args body (fun _ => rfl) rfl
      (ends .around) number
      { thread with
        invocation := some true
        luaThread := func.hasBefore || thread.luaThread
        errno := call.beforeErrno.getD thread.errno } rfl unowned
  have flagged : func.hasAround := around
  have result : resultOf (call.env functions) func rv args
      = aroundCall (call.env functions) func rv args := by
    rw [resultOf, if_pos flagged]
  rw [← result] at aroundRun
  obtain ⟨late, afterRun, lateQuiet⟩ :=
    @onlyIf_observerCall_run functions (call.env functions) .after
      (snprintf 31 "after_".toList name) after func.hasAfter
      ((rv.ofBits (body.slot reread).toInteger :: args).map fun a => .number (addArg a)) rfl rfl
      (ends .after)
      { thread with
        invocation := some true
        luaThread := true
        errno := (Global.value body).lastErrno.getD (call.beforeErrno.getD thread.errno) }
      rfl unowned
  have hooked := hookedCall_run beforeRun aroundRun afterRun
  have ran := @wrapper_ready (call.env functions) func name rv args thread unset
  rw [window, bind_of_ok hooked] at ran
  refine ⟨.enter func :: .arm :: (early ++ (middle ++ late)) ++ [.disarm], ?_, ?_⟩
  · rw [Call.run_eq]
    refine ran.trans ?_
    simp only [Bool.or_true]
    rfl
  · simp only [List.filter_cons, List.filter_append, earlyQuiet, middleQuiet, lateQuiet]
    rfl

/-- A `write` that its around hook lets fail with `EIO`. -/
def refusedWrite : Call :=
  .mk (writeEntry ⟨false, true, false⟩) "write".toList ssizeT
    [.int 2, .pointer "const void" 8192, .unsignedLong 5] (.nil [])
    (.value (.returns [.library (some 5)] (.number (.finite (-1))))) (.nil [])
    (.mk [] none (.w64 5)) id

theorem refusedWrite_answers
    : ∃ trace,
        refusedWrite.run [] ⟨none, false, false, 0⟩
          = ⟨trace, .ok (.long (-1), ⟨some false, true, false, 5⟩)⟩
        ∧ trace.filter Event.isDirect = [] := by
  have unset : (⟨none, false, false, 0⟩ : Thread).invocation ≠ some true := by simp
  have ends : ∀ kind, (refusedWrite.global kind).Ends [] := by
    intro kind
    cases kind
    case around => exact fun _ _ _ => ⟨⟨_, _, rfl⟩, _, rfl⟩
    all_goals trivial
  exact Call.around_answers [] rfl rfl rfl ends unset rfl

end Labrea
