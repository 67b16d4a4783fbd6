import Labrea.CallTree

/-! Code that runs under a set invocation flag. The hooked calls it makes run originals only,
so that what it does is the same whatever labrea did before it, and its effect on the thread
is the `errno` it sets last.
-/

namespace Labrea

open Traced.Program (emit get modify halt each bind_of_error bind_of_ok)

mutual
/-- The `errno` that a hooked call under a set flag sets last: that of its original. -/
def Call.lastErrno : Call → Option Int
  | .mk _ _ _ _ _ _ _ original _ => original.lastErrno

def Original.lastErrno : Original → Option Int
  | .mk calls errno _ => errno.or (callsErrno calls)

def callsErrno : List Call → Option Int
  | [] => none
  | call :: rest => (callsErrno rest).or call.lastErrno
end

def LuaStep.lastErrno : LuaStep → Option Int
  | .library errno => errno
  | .hooked call => call.lastErrno
  | .usleep _ => none
  | .invoke _ original => original.lastErrno

def stepsErrno : List LuaStep → Option Int
  | [] => none
  | step :: rest => (stepsErrno rest).or step.lastErrno

/-- The `errno` that Lua code sets last, before any report of its error. -/
def Body.runErrno : Body → Option Int
  | .returns steps _ | .raises steps _ _ => stepsErrno steps

/-- The `errno` that the report of its error sets last. -/
def Body.reportErrno : Body → Option Int
  | .returns _ _ => none
  | .raises _ _ report => callsErrno report

/-- The `errno` that calling a before or after hook and reporting its error sets last. -/
def Global.lastErrno : Global → Option Int
  | .nil _ => none
  | .value body => body.reportErrno.or body.runErrno

/-- `wrapper` runs an original in place of an around hook. -/
def Event.isDirect : Event → Bool
  | .original .direct _ _ => true
  | _ => false

/-- With the flag set, and the mutex as given if it is given, the program performs one trace
without a direct original and ends in one way from every thread state, of which it changes
`errno` to the given value at most.
-/
def Sets {α : Type} (mutex : Option Bool) (errno : Option Int) (program : Run α) : Prop :=
  ∃ (trace : List Event) (ended : Except Halt α),
    trace.filter Event.isDirect = []
    ∧ ∀ thread : Thread, thread.invocation = some true
      → (∀ owns ∈ mutex, thread.ownsMutex = owns)
      → program thread
        = ⟨trace, ended.map fun value =>
            (value, { thread with errno := errno.getD thread.errno })⟩

variable {α β : Type} {mutex : Option Bool} {errno first second : Option Int}

theorem sets_pure {value : α} : Sets mutex none (pure value : Run α) :=
  ⟨[], .ok value, rfl, fun _ _ _ => rfl⟩

theorem sets_halt {reason : Halt} : Sets mutex errno (halt reason : Run α) :=
  ⟨[], .error reason, rfl, fun _ _ _ => rfl⟩

theorem sets_emit {event : Event} (indirect : event.isDirect = false)
    : Sets mutex none (emit event) :=
  ⟨[event], .ok (), by rw [List.filter_cons, indirect]; rfl, fun _ _ _ => rfl⟩

theorem sets_setErrno (errno : Option Int) : Sets mutex errno (setErrno errno) := by
  refine ⟨[], .ok (), rfl, fun thread _ _ => ?_⟩
  cases errno <;> rfl

/-- The later of two settings of `errno` holds. -/
theorem sets_bind {head : Run α} {rest : α → Run β} (one : Sets mutex first head)
    (two : ∀ value, Sets mutex second (rest value))
    : Sets mutex (second.or first) (head >>= rest) := by
  obtain ⟨trace, ended, quiet, run⟩ := one
  match ended with
  | .error reason =>
      exact ⟨trace, .error reason, quiet, fun thread flag owns =>
        bind_of_error (run thread flag owns) rest⟩
  | .ok value =>
      obtain ⟨later, last, quietLater, runRest⟩ := two value
      refine ⟨trace ++ later, last, by rw [List.filter_append, quiet, quietLater]; rfl, ?_⟩
      intro thread flag owns
      rw [bind_of_ok (run thread flag owns) rest,
        runRest { thread with errno := first.getD thread.errno } flag owns]
      cases second <;> rfl

/-- What sets nothing leaves the setting to what follows. -/
theorem sets_after {head : Run α} {rest : α → Run β} (quiet : Sets mutex none head)
    (sets : ∀ value, Sets mutex errno (rest value))
    : Sets mutex errno (head >>= rest) := by
  have sequence := sets_bind quiet sets
  rwa [Option.or_none] at sequence

/-- What follows leaves the setting to what came first. -/
theorem sets_before {head : Run α} {rest : α → Run β} (sets : Sets mutex errno head)
    (quiet : ∀ value, Sets mutex none (rest value))
    : Sets mutex errno (head >>= rest) :=
  sets_bind sets quiet

theorem sets_ite {c : Prop} [Decidable c] {yes no : Run α}
    (whenYes : Sets mutex errno yes) (whenNo : Sets mutex errno no)
    : Sets mutex errno (if c then yes else no) := by
  split
  · exact whenYes
  · exact whenNo

/-- What holds whatever the mutex is holds where it is as given. -/
theorem Sets.of_none {program : Run α} (sets : Sets none errno program)
    : Sets mutex errno program := by
  obtain ⟨trace, ended, quiet, run⟩ := sets
  exact ⟨trace, ended, quiet, fun thread flag _ => run thread flag (fun _ given => nomatch given)⟩

/-- Where the program returns it has changed `errno` at most. -/
theorem Sets.next {program : Run α} (sets : Sets none errno program)
    {thread next : Thread} {trace : List Event} {value : α}
    (flag : thread.invocation = some true)
    (ran : program thread = ⟨trace, .ok (value, next)⟩)
    : next = { thread with errno := errno.getD thread.errno } := by
  obtain ⟨_, ended, _, run⟩ := sets
  rw [run thread flag (fun _ given => nomatch given)] at ran
  obtain ⟨_, result⟩ := Traced.Outcome.mk.inj ran
  match ended with
  | .error reason => exact nomatch result
  | .ok _ =>
      cases result
      rfl

/-- The value does not depend on the thread state. -/
theorem Sets.value {program : Run α} (sets : Sets none errno program)
    {thread other : Thread} (flag : thread.invocation = some true)
    (otherFlag : other.invocation = some true)
    : (program thread).result.map Prod.fst = (program other).result.map Prod.fst := by
  obtain ⟨_, ended, _, run⟩ := sets
  rw [run thread flag (fun _ given => nomatch given),
    run other otherFlag (fun _ given => nomatch given)]
  match ended with
  | .error reason => rfl
  | .ok _ => rfl

-----------------------------------------------------------------------------------------
-- Originals and the calls they make
-----------------------------------------------------------------------------------------

theorem sets_invoke {env : Env} {caller : Caller} (ft : FType) (rv : CType)
    (args : List CValue) (indirect : caller ≠ .direct)
    (code : ∀ addr words, Sets none errno (env.code addr words))
    : Sets none errno (invoke env caller ft rv args) := by
  rw [invoke]
  refine sets_ite ?_ sets_halt
  split
  · exact sets_halt
  · have quiet (addr : Addr) (words : List Word)
        : (Event.original caller addr words).isDirect = false := by
      cases caller
      case direct => exact absurd rfl indirect
      all_goals rfl
    exact sets_after (sets_emit (quiet _ _)) fun _ =>
      sets_before (code _ _) fun _ => sets_after (sets_emit rfl) fun _ => sets_pure

theorem sets_wrapper {env : Env} (func : FType) (name : CString) (rv : CType)
    (args : List CValue) (code : ∀ addr words, Sets none errno (env.code addr words))
    : Sets none errno (wrapper env func name rv args) := by
  have reentrant : Caller.reentrant ≠ .direct := fun same => nomatch same
  obtain ⟨trace, ended, quiet, run⟩ := sets_invoke func rv args reentrant code
  refine ⟨.enter func :: trace, ended, quiet, fun thread flag owns => ?_⟩
  rw [wrapper_nested flag, run thread flag owns]

variable (functions : List FType)

mutual
/-- A hooked call under a set flag is its original, by induction on the originals below. -/
theorem Call.sets : ∀ call : Call, Sets none call.lastErrno (call.run functions)
  | .mk func name rv args _ _ _ original _ => by
      rw [Call.run, Call.lastErrno]
      exact sets_wrapper func name rv args fun _ _ => original.sets

theorem Original.sets
    : ∀ original : Original, Sets none original.lastErrno (original.run functions)
  | .mk calls errno ret => by
      rw [Original.run, Original.lastErrno]
      exact sets_bind (sets_runCalls calls) fun _ =>
        sets_before (sets_setErrno errno) fun _ => sets_pure

theorem sets_runCalls
    : ∀ calls : List Call, Sets none (callsErrno calls) (runCalls functions calls)
  | [] => by
      rw [runCalls, callsErrno]
      exact sets_pure
  | call :: rest => by
      rw [runCalls, callsErrno]
      exact sets_bind call.sets fun _ => sets_runCalls rest
end

theorem sets_antiLockHolder {body : Run α} (sets : Sets none errno body)
    : Sets (some true) errno (antiLockHolder body) := by
  obtain ⟨trace, ended, quiet, run⟩ := sets
  have unlocked (thread : Thread) : unlockMutex thread
      = ⟨[.unlock], .ok ((), { thread with ownsMutex := false })⟩ := rfl
  match ended with
  | .error reason =>
      refine ⟨.unlock :: trace, .error reason, quiet, fun thread flag _ => ?_⟩
      have ran := run { thread with ownsMutex := false } flag (fun _ given => nomatch given)
      rw [antiLockHolder, bind_of_ok (unlocked thread), bind_of_error ran]
      rfl
  | .ok value =>
      refine ⟨.unlock :: (trace ++ [.lock .antiLockHolder]), .ok value, ?_, ?_⟩
      · rw [List.filter_cons_of_neg (by simp [Event.isDirect]), List.filter_append, quiet]
        rfl
      · intro thread flag owns
        have owned : thread.ownsMutex = true := owns true rfl
        have ran := run { thread with ownsMutex := false } flag (fun _ given => nomatch given)
        rw [antiLockHolder, bind_of_ok (unlocked thread), bind_of_ok ran,
          bind_of_ok (lockMutex_run rfl)]
        obtain ⟨invocation, luaThread, ownsMutex, old⟩ := thread
        cases owned
        rfl

theorem sets_doUsleep {state : LState} (stack : List LuaValue)
    : Sets (some true) none (doUsleep state stack) := by
  refine sets_after (sets_emit rfl) fun _ => sets_after ?_ fun _ => sets_emit rfl
  exact sets_ite (sets_antiLockHolder (sets_emit rfl)) sets_pure

theorem sets_abstractInvoke {code : Addr → List Word → Run Word} {fun' : FType}
    {args : List (BitVec 64)} (sets : ∀ addr words, Sets none errno (code addr words))
    : Sets none errno (abstractInvoke code fun' args) := by
  refine sets_ite ?_ sets_halt
  split
  case _ invoker orig _ _ =>
    split
    case _ words _ =>
      exact sets_after (sets_emit rfl) fun _ =>
        sets_before (sets orig words) fun _ =>
          sets_after (sets_emit rfl) fun _ => sets_pure
    · exact sets_halt
  · exact sets_halt

theorem sets_doInvoke {functions : List FType} {code : Addr → List Word → Run Word}
    {state : LState} (stack : List LuaValue)
    (sets : ∀ addr words, Sets none errno (code addr words))
    : Sets (some true) errno (doInvoke functions code state stack) := by
  refine sets_after (sets_emit rfl) fun _ => ?_
  refine sets_ite sets_halt ?_
  split
  · exact sets_halt
  refine sets_ite sets_halt (sets_ite sets_halt ?_)
  refine sets_before (sets_antiLockHolder (sets_abstractInvoke sets)) fun _ => ?_
  exact sets_after (sets_emit rfl) fun _ =>
    sets_after (sets_emit rfl) fun _ => sets_after (sets_emit rfl) fun _ => sets_pure

theorem LuaStep.sets (state : LState)
    : ∀ step : LuaStep, Sets (some true) step.lastErrno (step.run functions state)
  | .library errno => by
      rw [LuaStep.run]
      exact sets_after (sets_emit rfl) fun _ => sets_setErrno errno
  | .hooked call => by
      rw [LuaStep.run]
      exact sets_before (call.sets functions).of_none fun _ => sets_pure
  | .usleep stack => by
      rw [LuaStep.run]
      exact sets_doUsleep stack
  | .invoke stack original => by
      rw [LuaStep.run]
      exact sets_before (sets_doInvoke stack fun _ _ => original.sets functions)
        fun _ => sets_pure

/-- Lua code under the mutex, by induction on its steps. -/
theorem sets_runSteps (state : LState) (steps : List LuaStep)
    : Sets (some true) (stepsErrno steps) (runSteps functions state steps) := by
  induction steps with
  | nil =>
      rw [runSteps]
      exact sets_pure
  | cons step rest ih =>
      rw [runSteps]
      exact sets_bind (step.sets functions state) fun _ => ih

theorem Body.sets (state : LState) (body : Body)
    : Sets (some true) body.runErrno (body.run functions state) := by
  cases body with
  | returns steps value =>
      rw [Body.run]
      exact sets_after (sets_emit rfl) fun _ =>
        sets_before (sets_runSteps functions state steps) fun _ => sets_pure
  | raises steps error report =>
      rw [Body.run]
      exact sets_after (sets_emit rfl) fun _ =>
        sets_before (sets_runSteps functions state steps) fun _ => sets_pure

theorem Body.sets_report (body : Body)
    : Sets none body.reportErrno (body.report functions) := by
  cases body with
  | returns steps value =>
      rw [Body.report]
      exact sets_pure
  | raises steps error report =>
      rw [Body.report]
      exact sets_after (sets_emit rfl) fun _ => sets_runCalls functions report

end Labrea
