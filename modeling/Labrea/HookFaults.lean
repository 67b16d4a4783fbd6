import Labrea.Library.Partial
import Labrea.Observation

/-! Faulty hooks: what a hooked call does when its hooks raise errors, are missing or give
values of any type, and when it still returns to the application.
-/

namespace Labrea

open Traced.Program (Yields yields_pure yields_halt yields_bind yields_after emit emit_run
  emit_bind_run bind_of_ok)

/-- `lua_tostring` gives a text, not a null pointer. -/
def LuaValue.hasText : LuaValue → Bool
  | .number _ | .string _ => true
  | _ => false

/-- The error that calling a global raises. -/
def Global.raised : Global → Option LuaValue
  | .value (.raises _ error _) => some error
  | _ => none

/-- The slot `around_call` reads after a hook is a number, or a string that reads as one. -/
def numericSlot (reread : LuaNumber → LuaNumber) : Except LuaValue LuaValue → Bool
  | .ok value => value.isNumber
  | .error raised => (raised.tostring reread).isNumber

def Body.givesNumber (reread : LuaNumber → LuaNumber) (body : Body) : Bool :=
  numericSlot reread body.outcome

/-- A hook of this kind was called, ended in an error, and a message was written. -/
def Reports (kind : HookKind) (trace : List Event) : Prop :=
  ∃ fname values front middle back,
    trace = front ++ .hook kind fname values :: middle ++ .pcallError .own :: .report :: back

theorem Reports.within {kind : HookKind} {trace : List Event} (reports : Reports kind trace)
    (early late : List Event)
    : Reports kind (early ++ trace ++ late) := by
  obtain ⟨fname, values, front, middle, back, rfl⟩ := reports
  exact ⟨fname, values, early ++ front, middle, back ++ late, by simp⟩

/-- With the flag set and the mutex as given, the program returns and leaves both so; what it
performed and returned is as described.
-/
def Finishes {α : Type} (owns : Bool) (program : Run α)
    (described : List Event → α → Prop) : Prop :=
  ∀ thread : Thread, thread.invocation = some true → thread.ownsMutex = owns
    → ∃ trace value next,
        program thread = ⟨trace, .ok (value, next)⟩
        ∧ next.invocation = some true
        ∧ next.ownsMutex = owns
        ∧ described trace value

/-- A description that holds of every trace with a described one inside. -/
def Grows {α : Type} (described : List Event → α → Prop) : Prop :=
  ∀ early trace late value, described trace value → described (early ++ trace ++ late) value

section

variable {α β : Type} {owns : Bool}

theorem Finishes.mono {program : Run α} {described weaker : List Event → α → Prop}
    (finishes : Finishes owns program described)
    (weaken : ∀ trace value, described trace value → weaker trace value)
    : Finishes owns program weaker := by
  intro thread flag owner
  obtain ⟨trace, value, next, run, flag', owner', holds⟩ := finishes thread flag owner
  exact ⟨trace, value, next, run, flag', owner', weaken trace value holds⟩

theorem finishes_pure {value : α} {described : List Event → α → Prop}
    (holds : described [] value)
    : Finishes owns (pure value : Run α) described :=
  fun thread flag owner => ⟨[], value, thread, rfl, flag, owner, holds⟩

theorem finishes_emit {event : Event}
    : Finishes owns (emit event) fun trace _ => trace = [event] :=
  fun thread flag owner => ⟨[event], (), thread, rfl, flag, owner, rfl⟩

theorem finishes_bind {head : Run α} {rest : α → Run β} {early : List Event → α → Prop}
    {late : α → List Event → β → Prop}
    (first : Finishes owns head early)
    (later : ∀ front value, early front value → Finishes owns (rest value) (late value))
    : Finishes owns (head >>= rest) fun trace last =>
        ∃ front value back, trace = front ++ back ∧ early front value ∧ late value back last := by
  intro thread flag owner
  obtain ⟨front, value, middle, run, flag', owner', holds⟩ := first thread flag owner
  obtain ⟨back, last, next, runRest, flag'', owner'', holds'⟩ :=
    later front value holds middle flag' owner'
  refine ⟨front ++ back, last, next, ?_, flag'', owner'', front, value, back, rfl, holds, holds'⟩
  rw [bind_of_ok run, runRest]

/-- What comes first does not matter to a description that grows. -/
theorem finishes_after {head : Run α} {rest : α → Run β} {early : List Event → α → Prop}
    {described : List Event → β → Prop} (grows : Grows described)
    (first : Finishes owns head early) (later : ∀ value, Finishes owns (rest value) described)
    : Finishes owns (head >>= rest) described := by
  refine (finishes_bind first fun _ value _ => later value).mono ?_
  intro _ last holds
  rcases holds with ⟨front, value, back, rfl, _, holds⟩
  simpa using grows front back [] last holds

/-- What comes last does not matter to a description that grows. -/
theorem finishes_before {head : Run α} {rest : α → Run β} {described : List Event → Prop}
    {late : List Event → β → Prop} (grows : Grows fun trace (_ : β) => described trace)
    (first : Finishes owns head fun trace _ => described trace)
    (later : ∀ value, Finishes owns (rest value) late)
    : Finishes owns (head >>= rest) fun trace _ => described trace := by
  refine (finishes_bind first fun _ value _ => later value).mono ?_
  intro _ last holds
  rcases holds with ⟨front, value, back, rfl, holds, _⟩
  simpa using grows [] front back last holds

theorem finishes_pushCall (values : List LuaValue)
    : Finishes owns (pushCall values) fun _ _ => True :=
  fun thread flag owner => ⟨_, (), thread, pushCall_run values thread, flag, owner, trivial⟩

/-- The scope of a lock, on a thread that does not own the mutex. -/
theorem finishes_luaStateHolder {body : Run α} {described : List Event → α → Prop}
    (grows : Grows described) (finishes : Finishes true body described)
    : Finishes false (luaStateHolder body) described := by
  intro thread flag unowned
  obtain ⟨trace, value, next, run, flag', _, holds⟩ :=
    finishes { thread with luaThread := true, ownsMutex := true } flag rfl
  have whole := (encloses_luaStateHolder unowned
    (@Traced.Program.Encloses.self _ _ _ _ body _)).returned trace value next run
  exact ⟨_, value, _, whole, flag', rfl, grows _ trace [.unlock] value holds⟩

end

variable (functions : List FType)

/-- How a call of Lua code ends. -/
def pcallEnd (state : LState) : Except LuaValue LuaValue → Event
  | .ok _ => .pcallReturn state
  | .error _ => .pcallError state

/-- A hook that ends, called under the lock. -/
theorem finishes_hook {kind : HookKind} {fname : CString} {values : List LuaValue}
    {body : Body} (ends : body.Ends functions)
    : Finishes true
        (pcall .own values.length
          (runHook kind fname (fun _ => body.run functions .own) values))
        (fun trace result => result = body.outcome
          ∧ ∃ middle,
              trace = .pcall .own values.length
                :: .hook kind fname values :: middle ++ [pcallEnd .own body.outcome]) := by
  intro thread flag owned
  obtain ⟨middle, _, run⟩ := Body.completes functions ends
  obtain ⟨next, ran, flag', owned'⟩
      : ∃ next, body.run functions .own thread = ⟨middle, .ok (body.outcome, next)⟩
          ∧ next.invocation = some true ∧ next.ownsMutex = true :=
    ⟨_, run thread flag fun owns given => by cases given; exact owned, flag, owned⟩
  have called : runHook kind fname (fun _ => body.run functions .own) values thread
      = ⟨.hook kind fname values :: middle, .ok (body.outcome, next)⟩ := by
    rw [runHook, emit_bind_run, ran]
  refine ⟨_, body.outcome, next, ?_, flag', owned', rfl, middle, rfl⟩
  rw [pcall, emit_bind_run, bind_of_ok called]
  cases body <;> rfl

/-- The message about a raised error begins with its own write. -/
theorem finishes_report {body : Body} (ends : body.Ends functions)
    : Finishes true (body.report functions) fun trace _ =>
        ∀ error, body.outcome = .error error → ∃ rest, trace = .report :: rest := by
  intro thread flag owned
  obtain ⟨trace, _, run⟩ := Body.completes_report functions ends
  have ran := run thread flag fun owns given => by cases given; exact owned
  refine ⟨trace, (), _, ran, flag, owned, ?_⟩
  intro error raised
  cases body with
  | returns steps value => exact nomatch raised
  | raises steps error report =>
      rw [Body.report, reportWith, emit_bind_run] at ran
      exact ⟨_, (Traced.Outcome.mk.inj ran).1.symm⟩

/-- The error of a hook of this kind, if it raises one, is reported. -/
def ReportsOf (kind : HookKind) (body : Body) (trace : List Event) : Prop :=
  ∀ error, body.outcome = .error error → Reports kind trace

theorem ReportsOf.grows {α : Type} {kind : HookKind} {body : Body}
    : Grows fun trace (_ : α) => ReportsOf kind body trace :=
  fun early _ late _ holds error raised => (holds error raised).within early late

/-- A hook that ends and the message about its error, whatever is done with its result. -/
theorem finishes_reported {α : Type} {kind : HookKind} {fname : CString}
    {values : List LuaValue} {body : Body} {rest : Except LuaValue LuaValue → Run α}
    (ends : body.Ends functions)
    (later
      : Finishes true (rest body.outcome) fun trace _ =>
          ∀ error, body.outcome = .error error → ∃ back, trace = .report :: back)
    : Finishes true
        (pcall .own values.length
            (runHook kind fname (fun _ => body.run functions .own) values)
          >>= rest)
        (fun trace _ => ReportsOf kind body trace) := by
  have hooked := @finishes_hook functions kind fname values body ends
  have onOutcome : ∀ front result,
      (result = body.outcome
        ∧ ∃ middle,
            front = .pcall .own values.length
              :: .hook kind fname values :: middle ++ [pcallEnd .own body.outcome])
      → Finishes true (rest result) fun trace _ =>
          ∀ error, body.outcome = .error error → ∃ back, trace = .report :: back := by
    intro _ _ holds
    rcases holds with ⟨rfl, _⟩
    exact later
  refine (finishes_bind hooked onOutcome).mono ?_
  rintro _ _ ⟨front, result, back, rfl, ⟨_, middle, rfl⟩, reported⟩ error raised
  obtain ⟨rest, rfl⟩ := reported error raised
  rw [raised]
  exact ⟨fname, values, [.pcall .own values.length], middle, rest, by simp [pcallEnd]⟩

/-- A before or after hook that ends: its error is reported. -/
theorem finishes_observerCall {env : Env} {kind : HookKind} {fname : CString} {body : Body}
    (values : List LuaValue)
    (found : env.global kind fname = some fun _ => body.run functions .own)
    (reported : env.report kind = body.report functions) (ends : body.Ends functions)
    : Finishes false (observerCall env kind fname values) fun trace _ =>
        ReportsOf kind body trace := by
  refine finishes_luaStateHolder ReportsOf.grows ?_
  rw [observerBody, found, reported]
  refine finishes_after ReportsOf.grows finishes_emit fun _ =>
    finishes_after ReportsOf.grows finishes_emit fun _ =>
      finishes_after ReportsOf.grows (finishes_pushCall values) fun _ =>
        finishes_reported functions ends ?_
  cases outcome : body.outcome with
  | ok value =>
      refine finishes_pure fun error raised => ?_
      cases raised
  | error raised =>
      refine (finishes_report functions ends).mono fun trace _ holds error _ => ?_
      exact holds raised outcome

/-- The slot of an around hook: a raised error has been reported before it is read. -/
theorem finishes_aroundSlot {env : Env} {body : Body}
    (reported : env.report .around = body.report functions) (ends : body.Ends functions)
    (number : body.givesNumber env.reread)
    : Finishes true (aroundSlot env body.outcome) fun trace slot =>
        slot.isNumber
        ∧ ∀ error, body.outcome = .error error → ∃ back, trace = .report :: back := by
  rw [Body.givesNumber] at number
  match outcome : body.outcome with
  | .ok value =>
      rw [outcome] at number
      exact finishes_pure ⟨number, nofun⟩
  | .error raised =>
      rw [outcome] at number
      rw [aroundSlot, reported]
      have slot : ∀ (front : List Event) (_ : Unit),
          (∀ error, body.outcome = .error error → ∃ rest, front = .report :: rest)
          → Finishes true (pure (raised.tostring env.reread)) fun trace slot =>
              trace = [] ∧ slot = raised.tostring env.reread :=
        fun _ _ _ => finishes_pure ⟨rfl, rfl⟩
      refine (finishes_bind (finishes_report functions ends) slot).mono ?_
      intro _ _ holds
      rcases holds with ⟨front, _, back, rfl, holds, rfl, rfl⟩
      exact ⟨number, fun _ _ => by simpa using holds raised outcome⟩

/-- An around hook that ends and gives a number: its error is reported. -/
theorem finishes_aroundCall {env : Env} {func : FType} {rv : CType} {args : List CValue}
    {body : Body}
    (found : ∀ fname, env.global .around fname = some fun _ => body.run functions .own)
    (reported : env.report .around = body.report functions) (ends : body.Ends functions)
    (number : body.givesNumber env.reread)
    : Finishes false (aroundCall env func rv args) fun trace _ =>
        ReportsOf .around body trace := by
  refine finishes_luaStateHolder ReportsOf.grows ?_
  simp only [aroundBody, found]
  refine finishes_after ReportsOf.grows finishes_emit fun _ =>
    finishes_after ReportsOf.grows finishes_emit fun _ =>
      finishes_after ReportsOf.grows (finishes_pushCall _) fun _ =>
        finishes_reported functions ends ?_
  have slotRead := @finishes_aroundSlot functions env body reported ends number
  have result : ∀ (front : List Event) (slot : LuaValue),
      (slot.isNumber ∧ ∀ error, body.outcome = .error error → ∃ back, front = .report :: back)
      → Finishes true
          (if slot.isNumber then
            pure (rv.ofBits slot.toInteger)
          else
            Traced.Program.halt .abort)
          fun trace _ => trace = [] := by
    intro _ slot holds
    rcases holds with ⟨isNumber, _⟩
    rw [if_pos isNumber]
    exact finishes_pure rfl
  refine (finishes_bind slotRead result).mono ?_
  rintro _ _ ⟨front, slot, back, rfl, ⟨_, holds⟩, rfl⟩ error raised
  simpa using holds error raised

-----------------------------------------------------------------------------------------
-- Calls with faulty hooks
-----------------------------------------------------------------------------------------

namespace Call

/-- The global that the call of a hook finds. -/
def global : HookKind → Call → Global
  | .before, .mk _ _ _ _ before _ _ _ _ => before
  | .around, .mk _ _ _ _ _ around _ _ _ => around
  | .after, .mk _ _ _ _ _ _ after _ _ => after

def reread : Call → LuaNumber → LuaNumber
  | .mk _ _ _ _ _ _ _ _ reread => reread

/-- What the last `do_reinit` recorded of a hook. -/
def flag (call : Call) : HookKind → Bool
  | .before => call.entry.hasBefore
  | .around => call.entry.hasAround
  | .after => call.entry.hasAfter

/-- The hook of this kind is called: its flag is set and its global is not nil. -/
def CallsHook (call : Call) (kind : HookKind) (body : Body) : Prop :=
  call.flag kind ∧ call.global kind = .value body

/-- The call returns to the application, the errors of its hooks have been reported, and the
thread's flag and the mutex are released.
-/
def Survives (call : Call) (thread : Thread) : Prop :=
  ∃ trace result next,
    call.run functions thread = ⟨trace, .ok (result, next)⟩
    ∧ next.invocation = some false
    ∧ next.ownsMutex = false
    ∧ ∀ kind body error, call.CallsHook kind body → body.outcome = .error error
      → error.hasText ∧ Reports kind trace

/-- The hooks that are called raise strings and numbers only, and a flagged around hook is
still there and gives a number.
-/
def Tolerable (call : Call) : Prop :=
  (call.entry.hasAround
    → ∃ body, call.global .around = .value body ∧ body.givesNumber call.reread)
  ∧ ∀ kind body error, call.CallsHook kind body → body.outcome = .error error
    → error.hasText

theorem env_global (call : Call) (kind : HookKind) (fname : CString)
    : (call.env functions).global kind fname = (call.global kind).function functions := by
  cases call
  cases kind <;> rfl

theorem env_report (call : Call) (kind : HookKind)
    : (call.env functions).report kind = (call.global kind).report functions := by
  cases call
  cases kind <;> rfl

end Call

section

variable {functions}

/-- The error of the hook of this kind, if it is called and raises one, is reported. -/
def Call.ReportsKind (call : Call) (kind : HookKind) (trace : List Event) : Prop :=
  ∀ body, call.CallsHook kind body → ReportsOf kind body trace

theorem Call.ReportsKind.grows {α : Type} {call : Call} {kind : HookKind}
    : Grows fun trace (_ : α) => call.ReportsKind kind trace :=
  fun early trace late value holds body called =>
    ReportsOf.grows early trace late value (holds body called)

/-- The phase of a before or after hook that ends. -/
theorem Call.finishes_observed {call : Call} {kind : HookKind}
    (ends : (call.global kind).Ends functions) (fname : CString) (values : List LuaValue)
    : Finishes false
        (onlyIf (call.flag kind) (observerCall (call.env functions) kind fname values))
        fun trace _ => call.ReportsKind kind trace := by
  have global := call.env_global functions kind fname
  have report := call.env_report functions kind
  rw [onlyIf]
  split
  case isFalse unflagged =>
    exact finishes_pure fun _ called => absurd called.1 unflagged
  case isTrue =>
    cases found : call.global kind with
    | nil _ =>
        rw [found, Global.function] at global
        refine finishes_luaStateHolder Call.ReportsKind.grows ?_
        rw [observerBody, global]
        refine finishes_after Call.ReportsKind.grows finishes_emit fun _ =>
          finishes_after Call.ReportsKind.grows finishes_emit fun _ => finishes_pure ?_
        intro body called
        cases found.symm.trans called.2
    | value body =>
        rw [found] at ends
        rw [found, Global.function] at global
        rw [found, Global.report] at report
        refine (finishes_observerCall functions values global report ends).mono ?_
        intro trace _ holds other called
        obtain rfl := Global.value.inj (found.symm.trans called.2)
        exact holds

/-- The original, in place of an around hook. -/
theorem Call.finishes_invoke {call : Call} {addr : Addr}
    (resolved : call.entry.orig = some addr) (arity : call.entry.numArgs = call.args.length)
    (returns
      : ∃ thread word next, thread.invocation = some true
          ∧ (call.original.run functions thread).result = .ok (word, next))
    : Finishes false (invoke (call.env functions) .direct call.entry call.rv call.args)
        fun _ _ => True := by
  obtain ⟨thread, word, next, flag, returned⟩ := returns
  have completes := (call.original.sets functions).completes flag nofun returned
  have code : Finishes false (call.original.run functions) fun _ _ => True := by
    intro thread flag unowned
    obtain ⟨trace, _, run⟩ := completes
    exact ⟨trace, word, _, run thread flag nofun, flag, unowned, trivial⟩
  have grows {α : Type} : Grows fun (_ : List Event) (_ : α) => True := fun _ _ _ _ _ => trivial
  rw [invoke_eq arity resolved]
  simp only [call.env_code]
  exact finishes_after grows finishes_emit fun _ => finishes_after grows code fun _ =>
    finishes_after grows finishes_emit fun _ => finishes_pure trivial

/-- The phase of the around hook or the original. -/
theorem Call.finishes_resultOf {call : Call} {addr : Addr}
    (resolved : call.entry.orig = some addr) (arity : call.entry.numArgs = call.args.length)
    (ends : (call.global .around).Ends functions)
    (returns
      : ∃ thread word next, thread.invocation = some true
          ∧ (call.original.run functions thread).result = .ok (word, next))
    (number : call.entry.hasAround
      → ∃ body, call.global .around = .value body ∧ body.givesNumber call.reread)
    : Finishes false (resultOf (call.env functions) call.entry call.rv call.args)
        fun trace _ => call.ReportsKind .around trace := by
  rw [resultOf]
  split
  case isFalse unflagged =>
    refine (Call.finishes_invoke resolved arity returns).mono fun _ _ _ body called => ?_
    exact absurd called.1 unflagged
  case isTrue around =>
    obtain ⟨body, found, number⟩ := number around
    have global (fname : CString) := call.env_global functions .around fname
    have report := call.env_report functions .around
    have reread : (call.env functions).reread = call.reread := by
      cases call
      rfl
    rw [found] at ends
    simp only [found, Global.function] at global
    rw [found, Global.report] at report
    refine (finishes_aroundCall functions global report ends (reread ▸ number)).mono ?_
    intro trace _ holds other called
    obtain rfl := Global.value.inj (found.symm.trans called.2)
    exact holds

/-- All three phases. -/
theorem Call.finishes_hookedCall {call : Call} {addr : Addr}
    (resolved : call.entry.orig = some addr) (arity : call.entry.numArgs = call.args.length)
    (ends : ∀ kind, (call.global kind).Ends functions)
    (returns
      : ∃ thread word next, thread.invocation = some true
          ∧ (call.original.run functions thread).result = .ok (word, next))
    (number : call.entry.hasAround
      → ∃ body, call.global .around = .value body ∧ body.givesNumber call.reread)
    : Finishes false
        (hookedCall (call.env functions) call.entry call.name call.rv call.args)
        fun trace _ => ∀ kind, call.ReportsKind kind trace := by
  have first := @Call.finishes_observed functions call .before (ends .before)
    (snprintf 31 "before_".toList call.name) (call.args.map fun a => .number (addArg a))
  have middle := Call.finishes_resultOf resolved arity (ends .around) returns number
  have last (result : CValue) := @Call.finishes_observed functions call .after (ends .after)
    (snprintf 31 "after_".toList call.name)
    ((result :: call.args).map fun a => .number (addArg a))
  have rest (result : CValue)
      : Finishes false
          (do
            onlyIf call.entry.hasAfter
              (afterCall (call.env functions) call.name result call.args)
            pure result)
          fun trace _ => call.ReportsKind .after trace := by
    have given : Finishes false (pure result : Run CValue) fun _ _ => True :=
      finishes_pure trivial
    exact finishes_before Call.ReportsKind.grows (last result) fun _ => given
  refine (finishes_bind first fun _ _ _ => finishes_bind middle fun _ result _ =>
    rest result).mono ?_
  rintro _ _ ⟨early, _, _, rfl, before, main, _, late, rfl, around, after⟩ kind
  cases kind
  case before => simpa using Call.ReportsKind.grows [] early (main ++ late) () before
  case around => simpa using Call.ReportsKind.grows early main late () around
  case after => simpa using Call.ReportsKind.grows (early ++ main) late [] () after

/-- Where the hooks are tolerable the call survives them. -/
theorem Call.Tolerable.survives {call : Call} {addr : Addr} (tolerable : call.Tolerable)
    (resolved : call.entry.orig = some addr) (arity : call.entry.numArgs = call.args.length)
    (ends : ∀ kind, (call.global kind).Ends functions)
    (returns
      : ∃ thread word next, thread.invocation = some true
          ∧ (call.original.run functions thread).result = .ok (word, next))
    {thread : Thread} (unset : thread.invocation ≠ some true)
    (unowned : thread.ownsMutex = false)
    : call.Survives functions thread := by
  obtain ⟨number, texts⟩ := tolerable
  obtain ⟨trace, result, next, run, flag, released, reports⟩ :=
    Call.finishes_hookedCall resolved arity ends returns number
      { thread with invocation := some true } rfl unowned
  refine ⟨.enter call.entry :: .arm :: (trace ++ [.disarm]), result,
    { next with invocation := some false }, ?_, rfl, released, ?_⟩
  · rw [call.run_eq, wrapper_ready unset, window, bind_of_ok run]
    rfl
  · intro kind body error called raised
    refine ⟨texts kind body error called raised, ?_⟩
    simpa using (reports kind body called error raised).within
      [.enter call.entry, .arm] [.disarm]

/-- A call of Lua code gives what the code gave. -/
theorem yields_pcall {state : LState} {args : Nat} {body : Run (Except LuaValue LuaValue)}
    {good : Except LuaValue LuaValue → Prop} (yields : Yields body good)
    : Yields (pcall state args body) good := by
  refine yields_after fun _ => yields_bind yields fun result holds => ?_
  cases result with
  | ok value => exact yields_after fun _ => yields_pure holds
  | error raised => exact yields_after fun _ => yields_pure holds

theorem Body.run_result {state : LState} (body : Body) {thread next : Thread}
    {result : Except LuaValue LuaValue}
    (returned : (body.run functions state thread).result = .ok (result, next))
    : result = body.outcome := by
  cases body <;>
  · rw [Body.run] at returned
    exact luaWith_result returned

/-- Without a number in its slot `around_call` does not return. -/
theorem Call.yields_resultOf {call : Call} (around : call.entry.hasAround)
    (missing
      : ¬ ∃ body, call.global .around = .value body ∧ body.givesNumber call.reread)
    : Yields (resultOf (call.env functions) call.entry call.rv call.args) fun _ => False := by
  let env := call.env functions
  have reread : env.reread = call.reread := by
    cases call
    rfl
  have slot (result : Except LuaValue LuaValue) (notNumber : numericSlot env.reread result = false)
      : Yields (aroundSlot env result) fun slot => slot.isNumber = false := by
    cases result with
    | ok value => exact yields_pure notNumber
    | error raised => exact yields_after fun _ => yields_pure notNumber
  rw [resultOf, if_pos around]
  refine yields_after fun _ => yields_after fun _ => yields_bind ?_ fun _ => False.elim
  refine yields_after fun _ => yields_after fun _ => yields_after fun _ => ?_
  refine yields_bind (yields_pcall ?_)
    fun result (notNumber : numericSlot env.reread result = false) => ?_
  · rw [call.env_global]
    cases found : call.global .around with
    | nil _ => exact yields_pure rfl
    | value body =>
        have notNumber : numericSlot call.reread body.outcome = false := by
          by_contra number
          exact missing ⟨body, found, Bool.of_not_eq_false number⟩
        refine yields_after fun _ => ?_
        intro thread result next returned
        rw [reread, body.run_result returned]
        exact notNumber
  refine yields_bind (slot result notNumber) fun value notNumber => ?_
  rw [if_neg (by simp [notNumber])]
  exact yields_halt

end

/-- Hooks of a `write` that all raise strings, the around hook a numeric one. -/
def raisingCall : Call :=
  .mk (writeEntry ⟨true, true, true⟩) "write".toList ssizeT
    [.int 2, .pointer "const void" 8192, .unsignedLong 5]
    (.value (.raises [] (.string none) [])) (.value (.raises [] (.string (some (.finite 5))) []))
    (.value (.raises [] (.string none) [])) (.mk [] none (.w64 5)) id

end Labrea
