import Labrea.CallFrame
import Labrea.Originals

/-! Before and after hooks seen from the application: what a call with such hooks has in
common with a direct call of its original, and when that includes `errno`.
-/

namespace Labrea

open Traced.Program (Encloses emit bind_of_ok bind_of_error emit_run)

/-- As `Sets`, for a program that returns a value. -/
def Completes {α : Type} (mutex : Option Bool) (errno : Option Int) (program : Run α)
    (value : α) : Prop :=
  ∃ trace : List Event,
    trace.filter Event.isDirect = []
    ∧ ∀ thread : Thread, thread.invocation = some true
      → (∀ owns ∈ mutex, thread.ownsMutex = owns)
      → program thread
        = ⟨trace, .ok (value, { thread with errno := errno.getD thread.errno })⟩

variable {α β : Type} {mutex : Option Bool} {errno first second : Option Int}

theorem completes_pure {value : α} : Completes mutex none (pure value : Run α) value :=
  ⟨[], rfl, fun _ _ _ => rfl⟩

theorem completes_emit {event : Event} (indirect : event.isDirect = false)
    : Completes mutex none (emit event) () :=
  ⟨[event], by rw [List.filter_cons, indirect]; rfl, fun _ _ _ => rfl⟩

theorem completes_bind {head : Run α} {rest : α → Run β} {value : α} {last : β}
    (one : Completes mutex first head value)
    (two : Completes mutex second (rest value) last)
    : Completes mutex (second.or first) (head >>= rest) last := by
  obtain ⟨trace, quiet, run⟩ := one
  obtain ⟨later, quietLater, runRest⟩ := two
  refine ⟨trace ++ later, by rw [List.filter_append, quiet, quietLater]; rfl, ?_⟩
  intro thread flag owns
  rw [bind_of_ok (run thread flag owns) rest,
    runRest { thread with errno := first.getD thread.errno } flag owns]
  cases second <;> rfl

theorem completes_after {head : Run α} {rest : α → Run β} {value : α} {last : β}
    (one : Completes mutex none head value)
    (two : Completes mutex errno (rest value) last)
    : Completes mutex errno (head >>= rest) last := by
  have sequence := completes_bind one two
  rwa [Option.or_none] at sequence

theorem completes_before {head : Run α} {rest : α → Run β} {value : α} {last : β}
    (one : Completes mutex errno head value)
    (two : Completes mutex none (rest value) last)
    : Completes mutex errno (head >>= rest) last :=
  completes_bind one two

theorem completes_pushCall (args : List LuaValue)
    : Completes mutex none (pushCall args) () := by
  refine ⟨args.map fun _ => .push .own, ?_, fun thread _ _ => pushCall_run args thread⟩
  simp [Event.isDirect]

/-- The result of a call into Lua is that of its body. -/
theorem completes_pcall {state : LState} {args : Nat}
    {body : Run (Except LuaValue LuaValue)} {result : Except LuaValue LuaValue}
    (completes : Completes mutex errno body result)
    : Completes mutex errno (pcall state args body) result := by
  refine completes_after (completes_emit rfl) (completes_before completes ?_)
  cases result with
  | ok value => exact completes_after (completes_emit rfl) completes_pure
  | error raised => exact completes_after (completes_emit rfl) completes_pure

/-- A program that returns somewhere does so everywhere. -/
theorem Sets.completes {program : Run α} (sets : Sets mutex errno program)
    {thread next : Thread} {value : α} (flag : thread.invocation = some true)
    (owns : ∀ owns ∈ mutex, thread.ownsMutex = owns)
    (returned : (program thread).result = .ok (value, next))
    : Completes mutex errno program value := by
  obtain ⟨trace, ended, quiet, run⟩ := sets
  rw [run thread flag owns] at returned
  match ended with
  | .error reason => exact nomatch returned
  | .ok _ =>
      cases returned
      exact ⟨trace, quiet, run⟩

variable (functions : List FType)

/-- What Lua code gives to the `lua_pcall` that called it. -/
def Body.outcome : Body → Except LuaValue LuaValue
  | .returns _ value => .ok value
  | .raises _ error _ => .error error

theorem luaWith_result {state : LState} {steps : Run Unit}
    {result found : Except LuaValue LuaValue} {thread next : Thread}
    (returned : (luaWith state steps result thread).result = .ok (found, next))
    : found = result := by
  rw [luaWith, Traced.Program.emit_bind_run] at returned
  match ran : steps thread with
  | ⟨_, .error _⟩ =>
      rw [bind_of_error ran] at returned
      exact nomatch returned
  | ⟨_, .ok _⟩ =>
      rw [bind_of_ok ran] at returned
      cases returned
      rfl

/-- The hook's code ends, in a return or an error, and so does the report of its error. -/
def Body.Ends (body : Body) : Prop :=
  ∀ thread : Thread, thread.invocation = some true → thread.ownsMutex = true
    → (∃ result next, (body.run functions .own thread).result = .ok (result, next))
      ∧ ∃ next, (body.report functions thread).result = .ok ((), next)

/-- The global is nil, or calling it ends. -/
def Global.Ends : Global → Prop
  | .nil _ => True
  | .value body => body.Ends functions

/-- Code of a hook that ends. -/
theorem Body.completes {body : Body} (ends : body.Ends functions)
    : Completes (some true) body.runErrno (body.run functions .own) body.outcome := by
  let thread : Thread := ⟨some true, true, true, 0⟩
  obtain ⟨⟨result, next, returned⟩, _⟩ := ends thread rfl rfl
  have owns : ∀ owns ∈ some true, thread.ownsMutex = owns := fun _ given =>
    Option.mem_some.mp given
  have same : result = body.outcome := by
    cases body with
    | returns steps value =>
        rw [Body.run] at returned
        exact luaWith_result returned
    | raises steps error report =>
        rw [Body.run] at returned
        exact luaWith_result returned
  exact same ▸ (body.sets functions .own).completes rfl owns returned

theorem Body.completes_report {body : Body} (ends : body.Ends functions)
    : Completes (some true) body.reportErrno (body.report functions) () := by
  let thread : Thread := ⟨some true, true, true, 0⟩
  obtain ⟨_, next, returned⟩ := ends thread rfl rfl
  have owns : ∀ owns ∈ some true, thread.ownsMutex = owns := fun _ given =>
    Option.mem_some.mp given
  exact (body.sets_report functions).of_none.completes rfl owns returned

/-- A before or after hook that ends, under the lock: it is called, and its error reported. -/
theorem completes_observerBody {env : Env} {kind : HookKind} {fname : CString}
    {global : Global} (values : List LuaValue)
    (found : env.global kind fname = global.function functions)
    (reported : env.report kind = global.report functions) (ends : global.Ends functions)
    : Completes (some true) global.lastErrno (observerBody env kind fname values) () := by
  rw [observerBody, found, reported]
  refine completes_after (completes_emit rfl) (completes_after (completes_emit rfl) ?_)
  cases global with
  | nil report => exact completes_pure
  | value body =>
      rw [Global.function]
      refine completes_after (completes_pushCall values) ?_
      have hooked : Completes (some true) body.runErrno
          (runHook kind fname (fun _ => body.run functions .own) values) body.outcome :=
        completes_after (completes_emit rfl) (Body.completes functions ends)
      refine completes_bind (completes_pcall hooked) ?_
      cases body with
      | returns steps value => exact completes_pure
      | raises steps error report => exact Body.completes_report functions ends

/-- A before or after hook that ends, if it is flagged: it performs no direct original, and
the thread is left with a `lua_State` and the `errno` that the hook set last.
-/
theorem onlyIf_observerCall_run {env : Env} {kind : HookKind} {fname : CString}
    {global : Global} (flag : Bool) (values : List LuaValue)
    (found : env.global kind fname = global.function functions)
    (reported : env.report kind = global.report functions) (ends : global.Ends functions)
    {thread : Thread} (set : thread.invocation = some true) (unowned : thread.ownsMutex = false)
    : ∃ events,
        onlyIf flag (observerCall env kind fname values) thread
          = ⟨events, .ok ((), { thread with
              luaThread := flag || thread.luaThread
              errno := (if flag then global.lastErrno else none).getD thread.errno })⟩
        ∧ events.filter Event.isDirect = [] := by
  obtain ⟨invocation, luaThread, ownsMutex, old⟩ := thread
  cases unowned
  cases flag with
  | false => exact ⟨[], rfl, rfl⟩
  | true =>
      obtain ⟨trace, quiet, run⟩ :=
        completes_observerBody functions values found reported ends
      have body := run ⟨invocation, true, true, old⟩ set (fun _ given => Option.mem_some.mp given)
      have whole := (@encloses_luaStateHolder _ _ _ ⟨invocation, luaThread, false, old⟩ _ _ _ _ _
        rfl Encloses.self).returned trace () _ body
      refine ⟨_, whole, ?_⟩
      have state : (stateEvents luaThread).filter Event.isDirect = [] := by
        cases luaThread <;> rfl
      simp only [List.filter_append, quiet, state]
      rfl

-----------------------------------------------------------------------------------------
-- Transparent calls
-----------------------------------------------------------------------------------------

namespace Call

/-- The errno that the before hook sets last, its report included. -/
def beforeErrno (call : Call) : Option Int :=
  if call.entry.hasBefore then call.before.lastErrno else none

def afterErrno (call : Call) : Option Int :=
  if call.entry.hasAfter then call.after.lastErrno else none

def original : Call → Original
  | .mk _ _ _ _ _ _ _ original _ => original

/-- A direct call of the original, on the thread of the application. -/
def direct (call : Call) : Run CValue :=
  invoke (call.env functions) .direct call.entry call.rv call.args

/-- The value an outcome gives the application, and the `errno` it then sees. -/
def seen (outcome : Traced.Outcome Thread Event Halt CValue) : Except Halt (CValue × Int) :=
  outcome.result.map fun (value, next) => (value, next.errno)

/-- The call runs its original once, with its arguments, and the application sees the value
and the `errno` of a direct call.
-/
structure Transparent (call : Call) (addr : Addr) (thread : Thread) : Prop where
  once : (call.run functions thread).trace.filter Event.isDirect
    = [.original .direct addr (call.args.map CValue.word)]
  same : seen (call.run functions thread)
    = seen (call.direct functions { thread with invocation := some true })

/-- The last setting of `errno` is the original's, or gives the value of a direct call: the
after hook sets that value or none, and if neither it nor the original sets any, the before
hook leaves the one the application had.
-/
def KeepsErrno (call : Call) (errno : Int) : Prop :=
  match call.afterErrno, call.original.lastErrno with
  | some last, original => last = original.getD errno
  | none, some _ => True
  | none, none => call.beforeErrno.getD errno = errno

end Call

/-- The hooks' settings around the original's come to the `errno` of a direct call. -/
theorem Call.keepsErrno_iff {call : Call} {errno : Int}
    : call.KeepsErrno errno
      ↔ call.afterErrno.getD (call.original.lastErrno.getD (call.beforeErrno.getD errno))
        = call.original.lastErrno.getD errno := by
  rw [Call.KeepsErrno]
  cases call.afterErrno <;> cases call.original.lastErrno <;> simp

theorem Call.env_global_before (call : Call) (fname : CString)
    : (call.env functions).global .before fname = call.before.function functions := by
  cases call
  rfl

theorem Call.env_global_after (call : Call) (fname : CString)
    : (call.env functions).global .after fname = call.after.function functions := by
  cases call
  rfl

theorem Call.env_code (call : Call) (addr : Addr) (words : List Word)
    : (call.env functions).code addr words = call.original.run functions := by
  cases call
  rfl

/-- The after phase, where the original returns. -/
theorem Call.afterCall_run {call : Call} (afterEnds : call.after.Ends functions)
    {thread : Thread} (flag : thread.invocation = some true)
    (unowned : thread.ownsMutex = false)
    : ∃ late : List Event,
        late.filter Event.isDirect = []
        ∧ ∀ trace word next,
            call.original.run functions thread = ⟨trace, .ok (word, next)⟩
            → onlyIf call.entry.hasAfter
                (afterCall (call.env functions) call.name (call.rv.ofWord word) call.args) next
              = ⟨late, .ok ((), { next with
                  luaThread := call.entry.hasAfter || next.luaThread
                  errno := call.afterErrno.getD next.errno })⟩ := by
  match ran : call.original.run functions thread with
  | ⟨_, .error _⟩ => exact ⟨[], rfl, fun _ _ _ same => nomatch same⟩
  | ⟨_, .ok (word, next)⟩ =>
      have left := (call.original.sets functions).next flag ran
      have reported : (call.env functions).report .after = call.after.report functions := by
        cases call
        rfl
      obtain ⟨late, run, quiet⟩ := onlyIf_observerCall_run functions call.entry.hasAfter
        ((call.rv.ofWord word :: call.args).map fun a => .number (addArg a))
        (call.env_global_after functions (snprintf 31 "after_".toList call.name)) reported
        afterEnds (left ▸ flag : next.invocation = some true)
        (left ▸ unowned : next.ownsMutex = false)
      refine ⟨late, quiet, ?_⟩
      intro _ _ _ holds
      rcases holds with ⟨⟩
      exact run

/-- A call with before and after hooks that end and no around hook frames its original. -/
theorem Call.encloses_observed {call : Call} {addr : Addr} {thread : Thread}
    (resolved : call.entry.orig = some addr)
    (arity : call.entry.numArgs = call.args.length) (noAround : call.entry.hasAround = false)
    (beforeEnds : call.before.Ends functions) (afterEnds : call.after.Ends functions)
    (unset : thread.invocation ≠ some true) (unowned : thread.ownsMutex = false)
    : ∃ (front back : List Event) (entry : Thread),
        Encloses (call.run functions) thread
          (front ++ [.original .direct addr (call.args.map CValue.word)])
          (call.original.run functions) entry back
          (fun word next =>
            (call.rv.ofWord word, { next with
              invocation := some false
              luaThread := call.entry.hasAfter || next.luaThread
              errno := call.afterErrno.getD next.errno }))
        ∧ (front ++ back).filter Event.isDirect = []
        ∧ entry.invocation = some true
        ∧ entry.errno = call.beforeErrno.getD thread.errno := by
  let entry := { thread with
    invocation := some true
    luaThread := call.entry.hasBefore || thread.luaThread
    errno := call.beforeErrno.getD thread.errno }
  have reported : (call.env functions).report .before = call.before.report functions := by
    cases call
    rfl
  obtain ⟨early, beforeRun, earlyQuiet⟩ :=
    @onlyIf_observerCall_run functions _ .before (snprintf 31 "before_".toList call.name) _
      call.entry.hasBefore (call.args.map fun a => .number (addArg a))
      (call.env_global_before functions _) reported beforeEnds
      { thread with invocation := some true } rfl unowned
  obtain ⟨late, lateQuiet, afterRun⟩ :=
    @Call.afterCall_run functions call afterEnds entry rfl unowned
  have direct : Encloses
      (resultOf (call.env functions) call.entry call.rv call.args) entry
      [.original .direct addr (call.args.map CValue.word)] (call.original.run functions) entry
      [.originalReturn .direct] (fun word next => (call.rv.ofWord word, next)) := by
    rw [resultOf, if_neg (by simp [noAround]), invoke_eq arity resolved, call.env_code]
    exact Encloses.after (emit_run _ _) (Encloses.self.before fun _ _ _ _ => rfl)
  have framed := encloses_wrapper unset (encloses_hookedCall beforeRun direct afterRun)
  rw [← call.run_eq] at framed
  refine ⟨.enter call.entry :: .arm :: early, _, entry, framed, ?_, rfl, rfl⟩
  have front : (Event.enter call.entry :: .arm :: early).filter Event.isDirect = [] :=
    earlyQuiet
  simp only [List.filter_append, front, lateQuiet]
  rfl

/-- The one direct original of such a call, whether it returns or halts. -/
theorem Call.direct_once {call : Call} {addr : Addr} {thread entry : Thread}
    {front back : List Event} {finish : Word → Thread → CValue × Thread}
    (framed
      : Encloses (call.run functions) thread
          (front ++ [.original .direct addr (call.args.map CValue.word)])
          (call.original.run functions) entry back finish)
    (quiet : (front ++ back).filter Event.isDirect = [])
    (flag : entry.invocation = some true)
    : (call.run functions thread).trace.filter Event.isDirect
      = [.original .direct addr (call.args.map CValue.word)] := by
  obtain ⟨inner, ended, innerQuiet, run⟩ := call.original.sets functions
  rw [List.filter_append, List.append_eq_nil_iff] at quiet
  have ran := run entry flag (fun _ given => nomatch given)
  rcases framed.trace with whole | whole
  · rw [whole, ran]
    simp only [List.filter_append, quiet.1, quiet.2, innerQuiet]
    rfl
  · rw [whole, ran]
    simp only [List.filter_append, quiet.1, innerQuiet]
    rfl

/-- For every call on a resolved entry without an around hook, whose before and after hooks
end: the hooks are transparent exactly where, if the original returns, the last setting of
`errno` is the original's or gives the value of a direct call. Witness: the original does the
same from both states but for the `errno` it may leave as it was.
-/
theorem Call.transparent_iff (call : Call) {addr : Addr} {thread : Thread}
    (resolved : call.entry.orig = some addr)
    (arity : call.entry.numArgs = call.args.length) (noAround : call.entry.hasAround = false)
    (beforeEnds : call.before.Ends functions) (afterEnds : call.after.Ends functions)
    (unset : thread.invocation ≠ some true) (unowned : thread.ownsMutex = false)
    : call.Transparent functions addr thread
      ↔ ((∃ word next, (call.original.run functions
              { thread with invocation := some true }).result = .ok (word, next))
          → call.KeepsErrno thread.errno) := by
  obtain ⟨front, back, entry, framed, quiet, flag, entered⟩ :=
    call.encloses_observed functions resolved arity noAround beforeEnds afterEnds unset unowned
  have once := call.direct_once functions framed quiet flag
  let start := { thread with invocation := some true }
  have direct : Encloses (call.direct functions) start
      [.original .direct addr (call.args.map CValue.word)] (call.original.run functions) start
      [.originalReturn .direct] (fun word next => (call.rv.ofWord word, next)) := by
    rw [Call.direct, invoke_eq arity resolved, call.env_code]
    exact Encloses.after (emit_run _ _) (Encloses.self.before fun _ _ _ _ => rfl)
  obtain ⟨inner, ended, _, run⟩ := call.original.sets functions
  have ranHooked := run entry flag (fun _ given => nomatch given)
  have ranDirect := run start rfl (fun _ given => nomatch given)
  match ended with
  | .error reason =>
      refine iff_of_true ⟨once, ?_⟩ ?_
      · rw [framed.halted _ _ ranHooked, direct.halted _ _ ranDirect]
        rfl
      · intro holds
        rcases holds with ⟨word, next, returned⟩
        rw [ranDirect] at returned
        exact nomatch returned
  | .ok word =>
      have seenHooked := congrArg Call.seen (framed.returned _ _ _ ranHooked)
      have seenDirect := congrArg Call.seen (direct.returned _ _ _ ranDirect)
      rw [entered] at seenHooked
      constructor
      · rintro ⟨_, same⟩ _
        rw [seenHooked, seenDirect] at same
        exact Call.keepsErrno_iff.mpr (Prod.mk.inj (Except.ok.inj same)).2
      · intro keeps
        have errno := Call.keepsErrno_iff.mp (keeps ⟨word, _, by rw [ranDirect]; rfl⟩)
        refine ⟨once, ?_⟩
        rw [seenHooked, seenDirect]
        exact congrArg (fun e => Except.ok (call.rv.ofWord word, e)) errno

/-- A `write` that fails with `EBADF`, with an after hook. -/
def failingWrite (after : Global) : Call :=
  .mk (writeEntry ⟨false, false, true⟩) "write".toList ssizeT
    [.int (-1), .pointer "const void" 8192, .unsignedLong 5] (.nil []) (.nil []) after
    (.mk [] (some 9) (.w64 (-1))) id

/-- An after hook that computes leaves the application the `errno` of the failure. -/
theorem failingWrite_transparent
    : (failingWrite (.value (.returns [] .nil))).Transparent [] 4096 ⟨none, false, false, 0⟩ := by
  have unset : (⟨none, false, false, 0⟩ : Thread).invocation ≠ some true := by simp
  have ends : (failingWrite (.value (.returns [] .nil))).after.Ends [] := fun _ _ _ =>
    ⟨⟨_, _, rfl⟩, _, rfl⟩
  exact (Call.transparent_iff [] (failingWrite (.value (.returns [] .nil))) rfl rfl rfl trivial
    ends unset rfl).mpr fun _ => trivial

/-- An after hook that writes to a closed pipe leaves it `EPIPE`. -/
theorem failingWrite_clobbers
    : ¬ ∀ (call : Call) (addr : Addr) (thread : Thread), call.entry.orig = some addr
        → call.entry.numArgs = call.args.length → call.entry.hasAround = false
        → call.before.Ends [] → call.after.Ends [] → thread.invocation ≠ some true
        → thread.ownsMutex = false → call.Transparent [] addr thread := by
  intro always
  have unset : (⟨none, false, false, 0⟩ : Thread).invocation ≠ some true := by simp
  have ends : (failingWrite (.value (.returns [.library (some 32)] .nil))).after.Ends [] :=
    fun _ _ _ => ⟨⟨_, _, rfl⟩, _, rfl⟩
  obtain ⟨_, same⟩ := always (failingWrite (.value (.returns [.library (some 32)] .nil))) 4096
    _ rfl rfl rfl trivial ends unset rfl
  exact absurd (Prod.mk.inj (Except.ok.inj same)).2 (by decide)

end Labrea
